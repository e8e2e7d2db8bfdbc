import S3Cpp.Library.Query

-- Request targets in origin form: a path and, after a '?', a query.
namespace S3Cpp.Library.Target

open Percent Query

abbrev slash : UInt8 := 47
abbrev questionMark : UInt8 := 63

def pathChar (b : UInt8) : Bool := pchar b || b == slash

def pathOf (target : List UInt8) : List UInt8 := target.takeWhile (· ≠ questionMark)

def queryOf (target : List UInt8) : List UInt8 := (target.dropWhile (· ≠ questionMark)).drop 1

-- RFC 3986 paths that start with a slash, with any query.
def originForm (target : List UInt8) : Bool :=
  (pathOf target).head? == some slash && valid pathChar (pathOf target) && valid queryChar (queryOf target)

-- What the receiver of a request reads out of its target.
structure Reading where
  path : List UInt8
  parameters : List (List UInt8 × List UInt8)

def read (target : List UInt8) : Reading where
  path := decode (pathOf target)
  parameters := if queryOf target = [] then [] else parse (queryOf target)

-- The value a parameter is given first.
def Reading.get (reading : Reading) (name : List UInt8) : Option (List UInt8) :=
  (reading.parameters.find? fun pair => pair.1 == name).map Prod.snd

section Split

variable {path query : List UInt8} (hpath : questionMark ∉ path)

theorem ne_of_not_mem (hpath : questionMark ∉ path) : ∀ b ∈ path, decide (b ≠ questionMark) = true := by
  intro b hb
  have hne : b ≠ questionMark := fun h => hpath (h ▸ hb)
  simpa using hne

include hpath

theorem pathOf_append : pathOf (path ++ questionMark :: query) = path := by
  rw [pathOf, List.takeWhile_append_of_pos (ne_of_not_mem hpath)]
  simp

theorem queryOf_append : queryOf (path ++ questionMark :: query) = query := by
  rw [queryOf, List.dropWhile_append_of_pos (ne_of_not_mem hpath)]
  simp

end Split

theorem questionMark_not_mem_encode {allowed : UInt8 → Bool} (h : allowed questionMark = false)
    (path : List UInt8) : questionMark ∉ encode allowed path := by
  intro hm
  rcases mem_encode hm with hm | hm | hm
  · simp [h] at hm
  · exact absurd hm (by decide)
  · exact absurd hm (by decide)

-- An encoder for paths leaves slashes alone and encodes all that could end one.
structure PathEncoder (allowed : UInt8 → Bool) : Prop where
  slash : allowed slash
  raw : ∀ b, allowed b → pathChar b ∧ b ≠ percent
  questionMark : allowed questionMark = false
  percent : allowed percent = false

section Encoded

variable {allowed : UInt8 → Bool} {path query : List UInt8}

-- An encoded path and a query that nothing is wrong with make a target that is
-- read back as they are.
theorem read_encode (hallowed : PathEncoder allowed) (hpath : path.head? = some slash)
    (hquery : valid queryChar query) :
    originForm (encode allowed path ++ questionMark :: query) ∧
      (read (encode allowed path ++ questionMark :: query)).path = path ∧
      (read (encode allowed path ++ questionMark :: query)).parameters =
        if query = [] then [] else parse query := by
  have hnone := questionMark_not_mem_encode hallowed.questionMark path
  have hp := @pathOf_append (encode allowed path) query hnone
  have hq := @queryOf_append (encode allowed path) query hnone
  refine ⟨?_, ?_, ?_⟩
  · have hhead : (encode allowed path).head? = some slash := by
      obtain ⟨rest, rfl⟩ := List.head?_eq_some_iff.mp hpath
      simp [encode, encodeByte, hallowed.slash]
    have hvalid : valid pathChar (encode allowed path) := valid_encode hallowed.raw path
    rw [originForm, hp, hq, hhead, hvalid, hquery]
    rfl
  · rw [read, hp, decode_encode allowed hallowed.percent]
  · rw [read, hq]

end Encoded

-- A faithful query gives each parameter its value.
theorem Reading.get_of_perm {reading : Reading} {pairs : List (List UInt8 × List UInt8)}
    (hperm : reading.parameters.Perm pairs) (hnodup : (pairs.map Prod.fst).Nodup) (name : List UInt8) :
    reading.get name = (pairs.find? fun pair => pair.1 == name).map Prod.snd := by
  have hget (other : List (List UInt8 × List UInt8)) (hnodup : (other.map Prod.fst).Nodup)
      (value : List UInt8) :
      (other.find? fun pair => pair.1 == name).map Prod.snd = some value ↔ (name, value) ∈ other := by
    rw [Option.map_eq_some_iff]
    constructor
    · rintro ⟨pair, hfind, rfl⟩
      have hname := List.find?_some hfind
      rw [← eq_of_beq hname]
      exact List.mem_of_find?_eq_some hfind
    · intro hm
      have hsome : (other.find? fun pair => pair.1 == name).isSome := by
        rw [List.find?_isSome]
        exact ⟨_, hm, beq_self_eq_true name⟩
      obtain ⟨pair, hfind⟩ := Option.isSome_iff_exists.mp hsome
      refine ⟨pair, hfind, ?_⟩
      -- there is one pair of a name
      have hfound := List.find?_some hfind
      have hname : pair.1 = name := eq_of_beq hfound
      have hpair : pair = (name, value) :=
        List.inj_on_of_nodup_map hnodup (List.mem_of_find?_eq_some hfind) hm hname
      rw [hpair]
  have hother : (reading.parameters.map Prod.fst).Nodup := (hperm.map Prod.fst).nodup_iff.mpr hnodup
  apply Option.ext
  intro value
  rw [Reading.get, hget _ hother, hget _ hnodup, hperm.mem_iff]

end S3Cpp.Library.Target
