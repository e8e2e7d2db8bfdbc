import S3Cpp.Aws.S3.Client.ListObjects
import S3Cpp.Aws.S3.Types.Theorems

namespace S3Cpp.Aws.S3.Client

open Library.Xml

-- A listing that no client can use: an object without its fields, no telling
-- whether it goes on, or no token to go on with.
def MalformedListing (tokenName : String) (document : Node) : Prop :=
  ∃ node, document.child (ascii "ListBucketResult") = some node ∧
    ((∃ xml ∈ node.childrenNamed (ascii "Contents"), Object.Malformed xml) ∨
      (node.childValue (ascii "IsTruncated") ≠ ascii "true" ∧
        node.childValue (ascii "IsTruncated") ≠ ascii "false") ∨
      (node.childValue (ascii "IsTruncated") = ascii "true" ∧
        node.childValue (ascii tokenName) = []))

theorem parseContents_throws_iff (node : Node) :
    Throws (parseContents node) ↔
      ∃ xml ∈ node.childrenNamed (ascii "Contents"), Object.Malformed xml := by
  have hmap : Throws (some <$> (node.childrenNamed (ascii "Contents")).mapM Object.parse) ↔
      ∃ xml ∈ node.childrenNamed (ascii "Contents"), Object.Malformed xml := by
    simp only [← Object.parse_throws_iff, ← throws_mapM_iff, throws_map_iff]
  rw [parseContents]
  split
  · exact hmap
  · rename_i hnone
    refine iff_of_false (throws_ok _) ?_
    rintro ⟨xml, hxml, -⟩
    exact hnone ((Node.child_isSome_iff _ _).mpr ⟨xml, hxml⟩)

theorem parseTruncation_throws_iff (node : Node) (tokenName : String) :
    Throws (parseTruncation node tokenName) ↔
      (node.childValue (ascii "IsTruncated") ≠ ascii "true" ∧
        node.childValue (ascii "IsTruncated") ≠ ascii "false") ∨
      (node.childValue (ascii "IsTruncated") = ascii "true" ∧
        node.childValue (ascii tokenName) = []) := by
  rw [parseTruncation]
  by_cases ht : node.childValue (ascii "IsTruncated") = ascii "true"
  · by_cases htoken : node.childValue (ascii tokenName) = []
    · simp [ht, htoken, throws_error]
    · simp [ht, htoken, throws_ok]
  · by_cases hf : node.childValue (ascii "IsTruncated") = ascii "false"
    · have hne : ascii "false" ≠ ascii "true" := by decide
      simp [hf, hne, throws_ok]
    · simp [ht, hf, throws_error]

theorem parse_throws_iff {α : Type} (tokenName : String) (document : Node)
    (result : Node → Option (List Object) → Bool × Option Str → α) :
    Throws (match document.child (ascii "ListBucketResult") with
      | none => .ok (.error statusFileNotFound)
      | some node => do
          let contents ← parseContents node
          let truncation ← parseTruncation node tokenName
          return .ok (result node contents truncation) : Except Str (Except Nat α)) ↔
      MalformedListing tokenName document := by
  rw [MalformedListing]
  cases document.child (ascii "ListBucketResult") with
  | none => simp [throws_ok]
  | some node =>
      have hpure (r : Except Nat α) : ¬ Throws (pure r : Except Str (Except Nat α)) := throws_ok r
      simp only [Option.some.injEq, exists_eq_left', throws_bind_iff, hpure, and_false, exists_false,
        or_false, ← parseContents_throws_iff, ← parseTruncation_throws_iff]
      cases parseContents node with
      | error what => simp [throws_error]
      | ok contents => simp [throws_ok]

theorem parseListObjectsV1_throws_iff (document : Node) :
    Throws (parseListObjectsV1 document) ↔ MalformedListing "NextMarker" document :=
  parse_throws_iff "NextMarker" document _

theorem parseListObjectsV2_throws_iff (document : Node) :
    Throws (parseListObjectsV2 document) ↔ MalformedListing "NextContinuationToken" document :=
  parse_throws_iff "NextContinuationToken" document _

theorem outcome_exception_iff {α : Type} (parse : Node → Except Str (Except Nat α))
    (response : Response) :
    (∃ what, outcome parse response = .exception what) ↔
      ∃ document, response = .received (.document document) ∧ Throws (parse document) := by
  cases response with
  | failed error => simp [outcome]
  | received body =>
      cases body with
      | unparsable status => simp [outcome]
      | document document =>
          cases hp : parse document with
          | error what => simp [outcome, hp, Throws]
          | ok result => cases result <;> simp [outcome, hp, Throws]

end S3Cpp.Aws.S3.Client
