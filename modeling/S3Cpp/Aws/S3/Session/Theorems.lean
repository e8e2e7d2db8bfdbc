import S3Cpp.Aws.S3.Session
import S3Cpp.Library.Target

namespace S3Cpp.Aws.S3

open Library Library.Http Iam

-- A predicate says of a text whether the encoder changes it.
def Agrees (required : Str → Bool) (encoder : Str → Str) (input : Str) : Prop :=
  required input = false ↔ encoder input = input

-- Some bytes of the text are in the set and some are not.
def Mixed (set : UInt8 → Bool) (input : Str) : Prop :=
  (∃ b ∈ input, set b) ∧ ∃ b ∈ input, set b = false

theorem encodingRequired_iff (set : UInt8 → Bool) (input : Str) :
    encodingRequired set input = true ↔ ∃ b ∈ input, set b := by
  simp [encodingRequired]

theorem agrees_iff (set : UInt8 → Bool) (input : Str) :
    Agrees (encodingRequired set) (Percent.encode set) input ↔ input = [] ∨ Mixed set input := by
  rw [Agrees, Percent.encode_eq_self_iff, Bool.eq_false_iff, ne_eq, encodingRequired_iff, Mixed]
  constructor
  · intro h
    by_cases hsome : ∃ b ∈ input, set b
    · -- something in the set makes the predicate true, so something is not in it
      refine .inr ⟨hsome, ?_⟩
      by_contra hall
      push Not at hall
      exact h.mpr (fun b hb => by simpa using hall b hb) hsome
    · refine .inl (List.eq_nil_iff_forall_not_mem.mpr fun b hb => hsome ⟨b, hb, h.mp hsome b hb⟩)
  · rintro (rfl | ⟨hsome, b, hb, hout⟩)
    · simp
    · exact iff_of_false (not_not_intro hsome) fun hall => by simp [hall b hb] at hout

section Target

-- Preparing a request for sending leaves its target alone.
theorem methodImpl_target {ext : Externals} {session : Session} {now : UtcTime} {method path : Str}
    {isPathEncoded : Bool} {query : Str} {headers : Fields} {body : Str} {sent : Request}
    (h : Session.methodImpl ext session now method path isPathEncoded query headers body = .ok sent) :
    sent.target = Session.encodedTarget path isPathEncoded query := by
  simp only [Session.methodImpl, prepareRequest, canonicalizeRequest, stampRequest] at h
  split at h
  · cases h
  · cases h
  · obtain rfl := Except.ok.inj h
    rfl

variable (path query : Str)

-- Up to its query a target is the path it was made from.
theorem takeWhile_target (encoded : Str) :
    (if query.isEmpty then encoded else encoded ++ ascii "?" ++ query).takeWhile (· ≠ questionMark) =
      encoded.takeWhile (· ≠ questionMark) := by
  split
  · rfl
  · rw [List.append_assoc, show ascii "?" = [questionMark] from rfl, List.singleton_append,
      List.takeWhile_append]
    split
    · rename_i hlength
      have hall : encoded.takeWhile (· ≠ questionMark) = encoded :=
        (List.takeWhile_prefix _).eq_of_length hlength
      rw [hall]
      simp
    · rfl

theorem encodedTarget_path_iff :
    (Session.encodedTarget path false query).takeWhile (· ≠ questionMark) = urlencodePath path ↔
      path = [] ∨ ∃ b ∈ path, pathCharset b := by
  by_cases hrequired : urlencodePathRequired path
  · have hsome := (encodingRequired_iff pathCharset path).mp hrequired
    refine iff_of_true ?_ (.inr hsome)
    simp only [Session.encodedTarget, hrequired, Bool.not_false, Bool.and_true, if_true]
    rw [takeWhile_target, List.takeWhile_eq_self_iff]
    exact Target.ne_of_not_mem (Target.questionMark_not_mem_encode (by decide) path)
  · have hnone : ¬ ∃ b ∈ path, pathCharset b := fun h =>
      hrequired ((encodingRequired_iff pathCharset path).mpr h)
    simp only [Session.encodedTarget, hrequired, Bool.and_false, Bool.false_eq_true, if_false]
    rw [takeWhile_target]
    cases path with
    | nil => exact iff_of_true rfl (.inl rfl)
    | cons b rest =>
        have hb : pathCharset b = false := by
          by_contra h
          exact hnone ⟨b, by simp, by simpa using h⟩
        refine iff_of_false (fun he => ?_) (by simpa using hnone)
        -- the encoder writes a digit, which is in the set, where the path has none
        have hdigit : pathCharset (Percent.hexDigit (b.toNat / 16)) := by
          have hall : ∀ n < 16, pathCharset (Percent.hexDigit n) := by decide
          have hlt : b.toNat < 256 := UInt8.toNat_lt b
          exact hall _ (by omega)
        have hm : Percent.hexDigit (b.toNat / 16) ∈ urlencodePath (b :: rest) := by
          simp [urlencodePath, Percent.encode, Percent.encodeByte, hb]
        rw [← he] at hm
        exact hnone ⟨_, List.takeWhile_subset _ hm, hdigit⟩

end Target

-- The predicates ask for a byte in the set where they should ask for one that
-- is not. They are right about the empty text and about texts with both kinds.
theorem required_agrees_iff (input query : Str) :
    (Agrees urlencodeRequired urlencode input ↔ input = [] ∨ Mixed charset input) ∧
      (Agrees urlencodePathRequired urlencodePath input ↔ input = [] ∨ Mixed pathCharset input) ∧
      (Agrees urlencodeQueryRequired urlencodeQuery input ↔ input = [] ∨ Mixed queryCharset input) ∧
      ((Session.encodedTarget input false query).takeWhile (· ≠ questionMark) = urlencodePath input ↔
        input = [] ∨ ∃ b ∈ input, pathCharset b) :=
  ⟨agrees_iff charset input, agrees_iff pathCharset input, agrees_iff queryCharset input,
    encodedTarget_path_iff input query⟩

-- A blank is sent as it is, and a letter is said to need an encoding.
theorem blank_not_encoded :
    ¬ Agrees urlencodePathRequired urlencodePath (ascii " ") ∧
      ¬ Agrees urlencodePathRequired urlencodePath (ascii "a") ∧
      (Session.encodedTarget (ascii " ") false []).takeWhile (· ≠ questionMark) ≠ urlencodePath (ascii " ") ∧
      urlencodePath (ascii " ") = ascii "%20" := by
  unfold Agrees
  decide

end S3Cpp.Aws.S3
