import Mathlib.Data.List.Forall2
import S3Cpp.Aws.S3.Client.ListBuckets

namespace S3Cpp.Aws.S3.Client

open Library.Xml

-- What a bucket of the result says of its element.
structure Describes (bucket : Bucket) (element : Node) : Prop where
  name : bucket.Name = some (element.childValue (ascii "Name"))
  arn : bucket.BucketArn.getD [] = element.childValue (ascii "BucketArn")
  region : bucket.BucketRegion.getD [] = element.childValue (ascii "BucketRegion")

theorem nonEmpty_getD (text : Str) : (nonEmpty text).getD [] = text := by
  unfold nonEmpty
  split
  · exact Eq.symm ‹_›
  · rfl

theorem parseBucket_describes (element : Node) : Describes (parseBucket (some element)) element :=
  ⟨rfl, nonEmpty_getD _, nonEmpty_getD _⟩

section Listing

variable {document root : Node} (hroot : document.child (ascii "ListAllMyBucketsResult") = some root)
include hroot

-- However many buckets there are, the result has one for each element Buckets.
theorem listBuckets_eq :
    ∃ result, listBuckets (.received (.document document)) = .value result ∧
      result.Buckets = (root.childrenNamed (ascii "Buckets")).map fun buckets =>
        parseBucket (buckets.childrenNamed (ascii "Bucket")).head? := by
  refine ⟨_, by simp only [listBuckets, outcome, parseListBuckets, hroot]; rfl, ?_⟩
  dsimp only
  split
  · simp only [Node.child_eq_head?]
  · rename_i hnone
    rw [Node.child_isSome_iff] at hnone
    rw [List.eq_nil_iff_forall_not_mem.mpr fun child hm => hnone ⟨child, hm⟩]
    rfl

-- The buckets of a listing all come back when there is one of them and no more.
theorem listBuckets_complete_iff {buckets : Node}
    (hbuckets : root.childrenNamed (ascii "Buckets") = [buckets]) :
    (∃ result, listBuckets (.received (.document document)) = .value result ∧
        List.Forall₂ Describes result.Buckets (buckets.childrenNamed (ascii "Bucket"))) ↔
      (buckets.childrenNamed (ascii "Bucket")).length = 1 := by
  obtain ⟨result, hresult, hparsed⟩ := listBuckets_eq hroot
  rw [hbuckets] at hparsed
  constructor
  · rintro ⟨other, hother, hall⟩
    obtain rfl : result = other := by
      rw [hresult] at hother
      exact Outcome.value.inj hother
    have hlength := hall.length_eq
    rw [hparsed] at hlength
    exact hlength.symm
  · intro hone
    obtain ⟨element, helement⟩ := List.length_eq_one_iff.mp hone
    refine ⟨result, hresult, ?_⟩
    rw [hparsed, helement, List.map_singleton, helement, List.head?_cons]
    exact .cons (parseBucket_describes element) .nil

end Listing

def bucketElement (name region : String) : Node :=
  .element (ascii "Bucket") [
    .element (ascii "Name") [.pcdata (ascii name)],
    .element (ascii "BucketRegion") [.pcdata (ascii region)]]

def bucketsDocument (buckets : List Node) : Node :=
  .element [] [.element (ascii "ListAllMyBucketsResult") [.element (ascii "Buckets") buckets]]

theorem listBuckets_complete_single :
    ∃ result, listBuckets (.received (.document (bucketsDocument [bucketElement "logs" "eu"]))) =
        .value result ∧
      List.Forall₂ Describes result.Buckets [bucketElement "logs" "eu"] := by
  have hroot : (bucketsDocument [bucketElement "logs" "eu"]).child (ascii "ListAllMyBucketsResult") =
      some _ := rfl
  exact (listBuckets_complete_iff hroot rfl).mpr rfl

-- Of two buckets the second is dropped, and where there is none one without a
-- name is made up.
theorem second_bucket_dropped :
    let document := bucketsDocument [bucketElement "logs" "eu", bucketElement "data" "us"]
    (∃ result, listBuckets (.received (.document document)) = .value result ∧
        result.Buckets = [⟨none, some (ascii "eu"), some (ascii "logs")⟩]) ∧
      (∃ result, listBuckets (.received (.document (bucketsDocument []))) = .value result ∧
        result.Buckets = [⟨none, none, some []⟩]) ∧
      ¬ ∃ result, listBuckets (.received (.document document)) = .value result ∧
        List.Forall₂ Describes result.Buckets [bucketElement "logs" "eu", bucketElement "data" "us"] := by
  refine ⟨⟨_, rfl, by decide⟩, ⟨_, rfl, by decide⟩, ?_⟩
  rintro ⟨result, hresult, hall⟩
  obtain rfl := Outcome.value.inj hresult
  exact absurd hall.length_eq (by decide)

end S3Cpp.Aws.S3.Client
