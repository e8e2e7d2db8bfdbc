import S3Cpp.Aws.S3.Client.Query.Theorems
import S3Cpp.Aws.S3.Client.Requests
import S3Cpp.Aws.S3.PrepareRequest.Theorems
import S3Cpp.Library.Target

namespace S3Cpp.Aws.S3.Client

open Library Library.Http Iam

-- A receiver that has the same keys finds the signature right and reads this
-- path and these parameters, each once, out of the target.
structure Understood (ext : Externals) (session : Session) (path : Str) (pairs : List (Str × Str))
    (request : Request) : Prop where
  signed : recomputeAuthorization ext session request = .ok (Fields.get request.headers authorizationName)
  method : request.method = ascii "GET"
  path : (Target.read request.target).path = path
  parameters : (Target.read request.target).parameters.Perm pairs
  distinct : (pairs.map Prod.fst).Nodup

theorem pathCharset_encoder : Target.PathEncoder pathCharset where
  slash := by decide
  raw b hb := by
    have hall : ∀ b ∈ ascii ("ABCDEFGHIJKLMNOPQRSTUVWXYZ" ++ "abcdefghijklmnopqrstuvwxyz" ++
        "1234567890" ++ "-._~") ++ ascii "/", Target.pathChar b ∧ b ≠ Percent.percent := by
      have hcheck : (ascii ("ABCDEFGHIJKLMNOPQRSTUVWXYZ" ++ "abcdefghijklmnopqrstuvwxyz" ++
          "1234567890" ++ "-._~") ++ ascii "/").all
          (fun b => Target.pathChar b && b != Percent.percent) = true := by decide
      intro b hb
      simpa using List.all_eq_true.mp hcheck b hb
    apply hall
    rw [List.mem_append]
    simpa [pathCharset, charset] using hb
  questionMark := by decide
  percent := by decide

theorem join_ne_nil {params : List Query.Param} (h : params ≠ []) : Query.join params ≠ [] := by
  obtain ⟨first, rest, rfl⟩ := List.exists_cons_of_ne_nil h
  cases rest <;> simp [Query.join, List.intercalate, piece_ne_nil]

section Sent

variable {ext : Externals} {session : Session} {now : UtcTime}

-- What is sent verifies, and its method and target are the caller's.
theorem prepareRequest_verifies (hsha : ∀ message, ext.sha256 message ≠ []) {request : Request}
    (htarget : ext.originForm request.target) :
    ∃ sent, prepareRequest ext request session now = .ok sent ∧ sent.method = request.method ∧
      sent.target = request.target ∧
      recomputeAuthorization ext session sent = .ok (Fields.get sent.headers authorizationName) := by
  obtain ⟨target, hparse⟩ : ∃ target, parseOriginForm ext request.target = some target := by
    rw [parseOriginForm, if_pos htarget]
    exact ⟨_, rfl⟩
  obtain ⟨sign, sent, hsent, hprepare, hverifies⟩ := prepareRequest_stamped hsha hparse session now
  exact ⟨sent, hprepare, by rw [hsent]; rfl, by rw [hsent]; rfl, hverifies⟩

theorem encodedTarget_slash {path query : Str} (hpath : path.head? = some Target.slash) (hquery : query ≠ []) :
    Session.encodedTarget path false query =
      Percent.encode pathCharset path ++ Target.questionMark :: query := by
  obtain ⟨rest, rfl⟩ := List.head?_eq_some_iff.mp hpath
  have hslash : pathCharset Target.slash = true := by decide
  have hrequired : urlencodePathRequired (Target.slash :: rest) = true := by
    simp [urlencodePathRequired, encodingRequired, hslash]
  have hnone : query.isEmpty = false := by simpa using hquery
  rw [Session.encodedTarget, hrequired, hnone]
  simp [urlencodePath, ascii]

theorem get_understood (hsha : ∀ message, ext.sha256 message ≠ [])
    (hgrammar : ∀ target, Target.originForm target → ext.originForm target) (headers : Fields)
    {path query : Str} {pairs : List (Str × Str)} (isPathEncoded : Bool)
    (hencoded : isPathEncoded = true → path = ascii "/") (hpath : path.head? = some Target.slash)
    (hquery : query ≠ []) (hfaithful : Query.Faithful query pairs) :
    ∃ sent, Session.get ext session now path query headers isPathEncoded = .ok sent ∧
      Understood ext session path pairs sent := by
  have htarget : Session.encodedTarget path isPathEncoded query =
      Percent.encode pathCharset path ++ Target.questionMark :: query := by
    cases isPathEncoded with
    | false => exact encodedTarget_slash hpath hquery
    | true =>
        obtain rfl := hencoded rfl
        have hroot : Session.encodedTarget (ascii "/") true query =
            Session.encodedTarget (ascii "/") false query := rfl
        rw [hroot]
        exact encodedTarget_slash hpath hquery
  obtain ⟨hform, hread, hparameters⟩ := Target.read_encode pathCharset_encoder hpath hfaithful.1
  rw [← htarget] at hform hread hparameters
  obtain ⟨sent, hsent, hmethod, hsame, hsigned⟩ := @prepareRequest_verifies ext session now hsha
    ⟨ascii "GET", Session.encodedTarget path isPathEncoded query, headers, []⟩ (hgrammar _ hform)
  refine ⟨sent, hsent, hsigned, hmethod, hsame ▸ hread, ?_, hfaithful.2.2⟩
  rw [hsame, hparameters, if_neg hquery]
  exact hfaithful.2.1

theorem listObjectsRequest_understood (hsha : ∀ message, ext.sha256 message ≠ [])
    (hgrammar : ∀ target, Target.originForm target → ext.originForm target) (headers : Fields)
    (parameters : ListObjectsParameters)
    (hcommon : CommonVerbatim parameters.EncodingType parameters.Prefix) :
    ∃ sent, listObjectsRequest ext session now headers parameters = .ok sent ∧
      Understood ext session (ascii "/" ++ parameters.Bucket) parameters.pairs sent := by
  refine get_understood hsha hgrammar headers false (by simp) rfl ?_
    ((listObjectsV1_faithful_iff parameters).mpr hcommon)
  rw [listObjectsPrepareQueryV1_eq]
  exact join_ne_nil (by simp [ListObjectsParameters.params])

theorem listObjectsV2Request_understood (hsha : ∀ message, ext.sha256 message ≠ [])
    (hgrammar : ∀ target, Target.originForm target → ext.originForm target) (headers : Fields)
    (parameters : ListObjectsV2Parameters) (hstart : ∀ value ∈ parameters.StartAfter, Query.Verbatim value)
    (hcommon : CommonVerbatim parameters.EncodingType parameters.Prefix) :
    ∃ sent, listObjectsV2Request ext session now headers parameters = .ok sent ∧
      Understood ext session (ascii "/" ++ parameters.Bucket) parameters.pairs sent := by
  refine get_understood hsha hgrammar headers false (by simp) rfl ?_
    ((listObjectsV2_faithful_iff parameters).mpr ⟨hstart, hcommon⟩)
  rw [listObjectsPrepareQueryV2_eq]
  exact join_ne_nil (by simp [ListObjectsV2Parameters.params])

theorem listBucketsRequest_understood (hsha : ∀ message, ext.sha256 message ≠ [])
    (hgrammar : ∀ target, Target.originForm target → ext.originForm target) (headers : Fields)
    (parameters : ListBucketsParameters) :
    ∃ sent, listBucketsRequest ext session now headers parameters = .ok sent ∧
      Understood ext session (ascii "/") parameters.pairs sent := by
  refine get_understood hsha hgrammar headers true (by simp) rfl ?_ (listBuckets_faithful parameters)
  rw [listBucketsQuery_eq]
  exact join_ne_nil (by simp [ListBucketsParameters.params])

end Sent

-- What a client asks for is what the other end is asked for, whatever the bucket
-- and the values are called: every request verifies there and is read back.
theorem requests_understood (ext : Externals) (hsha : ∀ message, ext.sha256 message ≠ [])
    (hgrammar : ∀ target, Target.originForm target → ext.originForm target) (session : Session)
    (now : UtcTime) (headers : Fields) (v1 : ListObjectsParameters) (v2 : ListObjectsV2Parameters)
    (buckets : ListBucketsParameters) :
    (CommonVerbatim v1.EncodingType v1.Prefix →
      ∃ sent, listObjectsRequest ext session now headers v1 = .ok sent ∧
        Understood ext session (ascii "/" ++ v1.Bucket) v1.pairs sent) ∧
      ((∀ value ∈ v2.StartAfter, Query.Verbatim value) → CommonVerbatim v2.EncodingType v2.Prefix →
        ∃ sent, listObjectsV2Request ext session now headers v2 = .ok sent ∧
          Understood ext session (ascii "/" ++ v2.Bucket) v2.pairs sent) ∧
      ∃ sent, listBucketsRequest ext session now headers buckets = .ok sent ∧
        Understood ext session (ascii "/") buckets.pairs sent :=
  ⟨listObjectsRequest_understood hsha hgrammar headers v1,
    listObjectsV2Request_understood hsha hgrammar headers v2,
    listBucketsRequest_understood hsha hgrammar headers buckets⟩

-- The digests of the upload, with targets as RFC 3986 has them.
def targetExternals : Externals := { uploadExternals with originForm := Target.originForm }

def oddParameters : ListObjectsV2Parameters where
  Bucket := ascii "a?b"
  ContinuationToken := some (ascii "1&2")
  Delimiter := some (ascii "/")
  EncodingType := none
  Prefix := some (ascii "x y&prefix=z/")
  StartAfter := none

theorem requests_understood_odd :
    ∃ sent, listObjectsV2Request targetExternals uploadSession uploadTime [] oddParameters = .ok sent ∧
      Understood targetExternals uploadSession (ascii "/a?b") oddParameters.pairs sent :=
  (requests_understood targetExternals (fun _ => by simp [targetExternals, uploadExternals])
    (fun _ h => h) uploadSession uploadTime [] ⟨[], none, none, none, 1000, none⟩ oddParameters
    ⟨none, none, 10000, none⟩).2.1 (by simp [oddParameters]) ⟨by simp [oddParameters], by simp [oddParameters]⟩

end S3Cpp.Aws.S3.Client
