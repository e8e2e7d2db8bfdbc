import S3Cpp.Aws.S3.Client.Query
import S3Cpp.Library.Query

namespace S3Cpp.Aws.S3.Client

open Iam Library Library.Query

-- The parameters a query should carry, whatever its encoding.
def commonParameters (delimiter encodingType path : Option Str) : List (Str × Str) :=
  (delimiter.map (ascii "delimiter", ·)).toList ++
    (encodingType.map (ascii "encoding-type", ·)).toList ++ (path.map (ascii "prefix", ·)).toList

def ListObjectsParameters.pairs (parameters : ListObjectsParameters) : List (Str × Str) :=
  (ascii "max-keys", decimal parameters.MaxKeys) ::
    ((parameters.Marker.map (ascii "marker", ·)).toList ++
      commonParameters parameters.Delimiter parameters.EncodingType parameters.Prefix)

def ListObjectsV2Parameters.pairs (parameters : ListObjectsV2Parameters) : List (Str × Str) :=
  (ascii "list-type", ascii "2") :: (ascii "max-keys", decimal parameters.MaxKeys) ::
    ((parameters.ContinuationToken.map (ascii "continuation-token", ·)).toList ++
      (if parameters.FetchOwner then [(ascii "fetch-owner", ascii "true")] else []) ++
      (parameters.StartAfter.map (ascii "start-after", ·)).toList ++
      commonParameters parameters.Delimiter parameters.EncodingType parameters.Prefix)

def ListBucketsParameters.pairs (parameters : ListBucketsParameters) : List (Str × Str) :=
  (parameters.BucketRegion.map (ascii "bucket-region", ·)).toList ++
    (parameters.ContinuationToken.map (ascii "continuation-token", ·)).toList ++
    (ascii "max-buckets", decimal parameters.MaxBuckets) ::
      (parameters.Prefix.map (ascii "prefix", ·)).toList

-- What the builders rely on for the values they do not encode.
def CommonVerbatim (encodingType path : Option Str) : Prop :=
  (∀ value ∈ encodingType, Verbatim value) ∧
    (encodingType = some (ascii "url") → ∀ value ∈ path, Verbatim value)

def encoded (name : String) (value : Str) : Param := ⟨ascii name, value, urlencodeQuery value⟩

def verbatim (name : String) (value : Str) : Param := ⟨ascii name, value, value⟩

theorem queryCharset_unreserved (b : UInt8) (h : queryCharset b) : unreserved b := by
  have hall : ∀ b ∈ ascii ("ABCDEFGHIJKLMNOPQRSTUVWXYZ" ++ "abcdefghijklmnopqrstuvwxyz" ++
      "1234567890" ++ "-._~"), unreserved b := List.all_eq_true.mp (by decide)
  exact hall b (List.contains_iff_mem.mp h)

theorem encoded_readable (name : String) (value : Str) : (encoded name value).Readable :=
  readable_encode queryCharset_unreserved (ascii name) value

theorem verbatim_readable_iff (name : String) (value : Str) :
    (verbatim name value).Readable ↔ Verbatim value :=
  readable_verbatim_iff (ascii name) value

theorem decimal_verbatim (n : Nat) : Verbatim (decimal n) := by
  have hdigit : ∀ d < 10, queryChar (48 + d).toUInt8 ∧ (48 + d).toUInt8 ≠ ampersand := by decide
  unfold decimal
  split
  · decide
  · intro b hb
    obtain ⟨d, hd, rfl⟩ := List.mem_map.mp hb
    exact hdigit d (Nat.digits_lt_base (by decide) (List.mem_reverse.mp hd))

theorem piece_ne_nil (p : Param) : p.piece ≠ [] := by simp [Param.piece]

theorem addParam_join (params : List Param) (p : Param) :
    addParam (join params) p.piece = join (params ++ [p]) := by
  induction params with
  | nil => simp [addParam, join]
  | cons first rest ih =>
      have hne : join (first :: rest) ≠ [] := by
        cases rest <;> simp [join, List.intercalate, piece_ne_nil]
      rw [addParam, if_neg (by simpa using hne)]
      cases rest with
      | nil => simp [join, List.intercalate, ascii]
      | cons second rest =>
          have hrest : join (second :: rest) ≠ [] := by
            cases rest <;> simp [join, List.intercalate, piece_ne_nil]
          rw [addParam, if_neg (by simpa using hrest)] at ih
          have hi (tail : List Param) : join (first :: second :: tail) =
              first.piece ++ ampersand :: join (second :: tail) := by simp [join, List.intercalate]
          rw [List.cons_append, List.cons_append, hi, hi, ← List.cons_append, ← ih]
          simp

theorem addOption_join (params : List Param) (value : Option Str) (param : Str → Str)
    (f : Str → Param) (h : ∀ v, param v = (f v).piece) :
    addOption (join params) value param = join (params ++ (value.map f).toList) := by
  cases value with
  | none => simp [addOption]
  | some value => simp [addOption, h, addParam_join]

def commonParams (delimiter encodingType path : Option Str) : List Param :=
  (delimiter.map (encoded "delimiter")).toList ++ (encodingType.map (verbatim "encoding-type")).toList ++
    (path.map (if encodingType.getD [] = ascii "url" then verbatim "prefix" else encoded "prefix")).toList

theorem addCommon_join (params : List Param) (delimiter encodingType path : Option Str) :
    addCommon (join params) delimiter encodingType path =
      join (params ++ commonParams delimiter encodingType path) := by
  have hd := addOption_join params delimiter (fun v => ascii "delimiter=" ++ urlencodeQuery v)
    (encoded "delimiter") fun _ => rfl
  have he (params : List Param) := addOption_join params encodingType
    (fun v => ascii "encoding-type=" ++ v) (verbatim "encoding-type") fun _ => rfl
  have hp (params : List Param) := addOption_join params path
    (fun v => if encodingType.getD [] = ascii "url" then ascii "prefix=" ++ v
      else ascii "prefix=" ++ urlencodeQuery v)
    (if encodingType.getD [] = ascii "url" then verbatim "prefix" else encoded "prefix")
    fun v => by split <;> rfl
  simp only [addCommon, hd, he, hp, commonParams, List.append_assoc]

theorem pairs_map_encoded (name : String) (value : Option Str) :
    ((value.map (encoded name)).toList).map Param.pair = (value.map (ascii name, ·)).toList := by
  cases value <;> rfl

theorem pairs_map_verbatim (name : String) (value : Option Str) :
    ((value.map (verbatim name)).toList).map Param.pair = (value.map (ascii name, ·)).toList := by
  cases value <;> rfl

theorem commonParams_pairs (delimiter encodingType path : Option Str) :
    (commonParams delimiter encodingType path).map Param.pair =
      commonParameters delimiter encodingType path := by
  simp only [commonParams, commonParameters, List.map_append, pairs_map_encoded, pairs_map_verbatim]
  split <;> simp only [pairs_map_encoded, pairs_map_verbatim]

theorem forall_toList_map {α β : Type*} (value : Option α) (f : α → β) (P : β → Prop) :
    (∀ p ∈ (value.map f).toList, P p) ↔ ∀ v ∈ value, P (f v) := by
  cases value <;> simp

theorem encoded_all_readable (name : String) (value : Option Str) :
    ∀ p ∈ (value.map (encoded name)).toList, p.Readable :=
  (forall_toList_map value (encoded name) _).mpr fun v _ => encoded_readable name v

theorem verbatim_all_readable_iff (name : String) (value : Option Str) :
    (∀ p ∈ (value.map (verbatim name)).toList, p.Readable) ↔ ∀ v ∈ value, Verbatim v := by
  rw [forall_toList_map]
  exact forall₂_congr fun v _ => verbatim_readable_iff name v

theorem commonParams_readable_iff (delimiter encodingType path : Option Str) :
    (∀ p ∈ commonParams delimiter encodingType path, p.Readable) ↔
      CommonVerbatim encodingType path := by
  have hurl : encodingType.getD [] = ascii "url" ↔ encodingType = some (ascii "url") := by
    cases encodingType with
    | none => exact iff_of_false (by decide) (by simp)
    | some value => simp
  rw [commonParams, List.forall_mem_append, List.forall_mem_append,
    and_iff_right (encoded_all_readable _ _), verbatim_all_readable_iff]
  apply and_congr_right
  intro _
  split
  · rename_i h
    rw [verbatim_all_readable_iff]
    exact ⟨fun hv _ => hv, fun hv => hv (hurl.mp h)⟩
  · rename_i h
    exact iff_of_true (encoded_all_readable _ _) fun hu => absurd (hurl.mpr hu) h

def ListObjectsParameters.params (parameters : ListObjectsParameters) : List Param :=
  verbatim "max-keys" (decimal parameters.MaxKeys) ::
    ((parameters.Marker.map (encoded "marker")).toList ++
      commonParams parameters.Delimiter parameters.EncodingType parameters.Prefix)

def ListObjectsV2Parameters.params (parameters : ListObjectsV2Parameters) : List Param :=
  verbatim "list-type" (ascii "2") :: verbatim "max-keys" (decimal parameters.MaxKeys) ::
    ((parameters.ContinuationToken.map (encoded "continuation-token")).toList ++
      (if parameters.FetchOwner then [verbatim "fetch-owner" (ascii "true")] else []) ++
      (parameters.StartAfter.map (verbatim "start-after")).toList ++
      commonParams parameters.Delimiter parameters.EncodingType parameters.Prefix)

def ListBucketsParameters.params (parameters : ListBucketsParameters) : List Param :=
  (parameters.BucketRegion.map (encoded "bucket-region")).toList ++
    (parameters.ContinuationToken.map (encoded "continuation-token")).toList ++
    verbatim "max-buckets" (decimal parameters.MaxBuckets) ::
      (parameters.Prefix.map (encoded "prefix")).toList

theorem listObjectsPrepareQueryV1_eq (parameters : ListObjectsParameters) :
    listObjectsPrepareQueryV1 parameters = join parameters.params := by
  have hkeys : addParam [] (ascii "max-keys=" ++ decimal parameters.MaxKeys) =
      join [verbatim "max-keys" (decimal parameters.MaxKeys)] :=
    addParam_join [] (verbatim "max-keys" (decimal parameters.MaxKeys))
  have hmarker (params : List Param) := addOption_join params parameters.Marker
    (fun v => ascii "marker=" ++ urlencodeQuery v) (encoded "marker") fun _ => rfl
  simp only [listObjectsPrepareQueryV1, hkeys, hmarker, addCommon_join,
    ListObjectsParameters.params, List.cons_append, List.nil_append]

theorem listObjectsPrepareQueryV2_eq (parameters : ListObjectsV2Parameters) :
    listObjectsPrepareQueryV2 parameters = join parameters.params := by
  have htype : addParam [] (ascii "list-type=2") = join [verbatim "list-type" (ascii "2")] :=
    addParam_join [] (verbatim "list-type" (ascii "2"))
  have hkeys (params : List Param) :
      addParam (join params) (ascii "max-keys=" ++ decimal parameters.MaxKeys) =
        join (params ++ [verbatim "max-keys" (decimal parameters.MaxKeys)]) :=
    addParam_join params (verbatim "max-keys" (decimal parameters.MaxKeys))
  have htoken (params : List Param) := addOption_join params parameters.ContinuationToken
    (fun v => ascii "continuation-token=" ++ urlencodeQuery v) (encoded "continuation-token")
    fun _ => rfl
  have howner (params : List Param) :
      (if parameters.FetchOwner then addParam (join params) (ascii "fetch-owner=true")
        else join params) = join (params ++
          if parameters.FetchOwner then [verbatim "fetch-owner" (ascii "true")] else []) := by
    cases parameters.FetchOwner with
    | true => exact addParam_join params (verbatim "fetch-owner" (ascii "true"))
    | false => simp
  have hstart (params : List Param) := addOption_join params parameters.StartAfter
    (fun v => ascii "start-after=" ++ v) (verbatim "start-after") fun _ => rfl
  simp only [listObjectsPrepareQueryV2, htype, hkeys, htoken, howner, hstart, addCommon_join,
    ListObjectsV2Parameters.params, List.cons_append, List.nil_append, List.append_assoc]

theorem listBucketsQuery_eq (parameters : ListBucketsParameters) :
    listBucketsQuery parameters = join parameters.params := by
  have hregion : addOption [] parameters.BucketRegion
      (fun v => ascii "bucket-region=" ++ urlencodeQuery v) = _ :=
    addOption_join [] parameters.BucketRegion _ (encoded "bucket-region") fun _ => rfl
  have htoken (params : List Param) := addOption_join params parameters.ContinuationToken
    (fun v => ascii "continuation-token=" ++ urlencodeQuery v) (encoded "continuation-token")
    fun _ => rfl
  have hbuckets (params : List Param) :
      addParam (join params) (ascii "max-buckets=" ++ decimal parameters.MaxBuckets) =
        join (params ++ [verbatim "max-buckets" (decimal parameters.MaxBuckets)]) :=
    addParam_join params (verbatim "max-buckets" (decimal parameters.MaxBuckets))
  have hprefix (params : List Param) := addOption_join params parameters.Prefix
    (fun v => ascii "prefix=" ++ urlencodeQuery v) (encoded "prefix") fun _ => rfl
  simp only [listBucketsQuery, hregion, htoken, hbuckets, hprefix, ListBucketsParameters.params,
    List.cons_append, List.nil_append, List.append_assoc]

theorem names_encoded (name : String) (value : Option Str) :
    ((value.map (encoded name)).toList.map Param.name).Sublist [ascii name] := by
  cases value <;> simp [encoded]

theorem names_verbatim (name : String) (value : Option Str) :
    ((value.map (verbatim name)).toList.map Param.name).Sublist [ascii name] := by
  cases value <;> simp [verbatim]

theorem names_common (delimiter encodingType path : Option Str) :
    ((commonParams delimiter encodingType path).map Param.name).Sublist
      [ascii "delimiter", ascii "encoding-type", ascii "prefix"] := by
  simp only [commonParams, List.map_append]
  refine ((names_encoded _ _).append (names_verbatim _ _)).append ?_
  split
  · exact names_verbatim _ _
  · exact names_encoded _ _

-- A list of distinct plain names bounds the names of the parameters built.
theorem faithful_iff_of_names {params : List Param} {names : List Str}
    (hsub : (params.map Param.name).Sublist names) (hnodup : names.Nodup)
    (hplain : ∀ name ∈ names, Plain name) (hne : params ≠ []) :
    Faithful (join params) (params.map Param.pair) ↔ ∀ p ∈ params, p.Readable :=
  faithful_join_iff hne (fun _ hp => hplain _ (hsub.subset (List.mem_map_of_mem hp)))
    (hnodup.sublist hsub)

theorem listObjectsV1_faithful_iff (parameters : ListObjectsParameters) :
    Faithful (listObjectsPrepareQueryV1 parameters) parameters.pairs ↔
      CommonVerbatim parameters.EncodingType parameters.Prefix := by
  have hpairs : parameters.params.map Param.pair = parameters.pairs := by
    simp only [ListObjectsParameters.params, ListObjectsParameters.pairs, List.map_cons,
      List.map_append, pairs_map_encoded, commonParams_pairs]
    rfl
  have hsub : (parameters.params.map Param.name).Sublist
      ([ascii "max-keys"] ++ ([ascii "marker"] ++
        [ascii "delimiter", ascii "encoding-type", ascii "prefix"])) := by
    simp only [ListObjectsParameters.params, List.map_cons, List.map_append]
    exact ((names_encoded _ _).append (names_common _ _ _)).cons_cons _
  rw [listObjectsPrepareQueryV1_eq, ← hpairs,
    faithful_iff_of_names hsub (by decide) (by decide) (by simp [ListObjectsParameters.params]),
    ListObjectsParameters.params, List.forall_mem_cons, List.forall_mem_append,
    verbatim_readable_iff, and_iff_right (decimal_verbatim _),
    and_iff_right (encoded_all_readable _ _), commonParams_readable_iff]

theorem listObjectsV2_faithful_iff (parameters : ListObjectsV2Parameters) :
    Faithful (listObjectsPrepareQueryV2 parameters) parameters.pairs ↔
      (∀ value ∈ parameters.StartAfter, Verbatim value) ∧
        CommonVerbatim parameters.EncodingType parameters.Prefix := by
  have hpairs : parameters.params.map Param.pair = parameters.pairs := by
    simp only [ListObjectsV2Parameters.params, ListObjectsV2Parameters.pairs, List.map_cons,
      List.map_append, pairs_map_encoded, pairs_map_verbatim, commonParams_pairs]
    cases parameters.FetchOwner <;> rfl
  have howner : ((if parameters.FetchOwner then [verbatim "fetch-owner" (ascii "true")]
      else []).map Param.name).Sublist [ascii "fetch-owner"] := by
    cases parameters.FetchOwner <;> simp [verbatim]
  have hsub : (parameters.params.map Param.name).Sublist
      (ascii "list-type" :: ascii "max-keys" :: ([ascii "continuation-token"] ++
        [ascii "fetch-owner"] ++ [ascii "start-after"] ++
        [ascii "delimiter", ascii "encoding-type", ascii "prefix"])) := by
    simp only [ListObjectsV2Parameters.params, List.map_cons, List.map_append]
    exact (((((names_encoded _ _).append howner).append (names_verbatim _ _)).append
      (names_common _ _ _)).cons_cons _).cons_cons _
  have hfetch : ∀ p ∈ (if parameters.FetchOwner then [verbatim "fetch-owner" (ascii "true")]
      else []), p.Readable := by
    cases parameters.FetchOwner with
    | true => simpa using (verbatim_readable_iff "fetch-owner" (ascii "true")).mpr (by decide)
    | false => simp
  rw [listObjectsPrepareQueryV2_eq, ← hpairs,
    faithful_iff_of_names hsub (by decide) (by decide) (by simp [ListObjectsV2Parameters.params]),
    ListObjectsV2Parameters.params, List.forall_mem_cons, List.forall_mem_cons,
    List.forall_mem_append, List.forall_mem_append, List.forall_mem_append,
    verbatim_readable_iff, and_iff_right (by decide), verbatim_readable_iff,
    and_iff_right (decimal_verbatim _), and_iff_right (encoded_all_readable _ _),
    and_iff_right hfetch, verbatim_all_readable_iff, commonParams_readable_iff]

theorem listBuckets_faithful (parameters : ListBucketsParameters) :
    Faithful (listBucketsQuery parameters) parameters.pairs := by
  have hpairs : parameters.params.map Param.pair = parameters.pairs := by
    simp only [ListBucketsParameters.params, ListBucketsParameters.pairs, List.map_cons,
      List.map_append, pairs_map_encoded]
    rfl
  have hsub : (parameters.params.map Param.name).Sublist
      ([ascii "bucket-region"] ++ [ascii "continuation-token"] ++
        (ascii "max-buckets" :: [ascii "prefix"])) := by
    simp only [ListBucketsParameters.params, List.map_cons, List.map_append]
    exact ((names_encoded _ _).append (names_encoded _ _)).append ((names_encoded _ _).cons_cons _)
  rw [listBucketsQuery_eq, ← hpairs,
    faithful_iff_of_names hsub (by decide) (by decide) (by simp [ListBucketsParameters.params]),
    ListBucketsParameters.params, List.forall_mem_append, List.forall_mem_append,
    List.forall_mem_cons, verbatim_readable_iff]
  exact ⟨⟨encoded_all_readable _ _, encoded_all_readable _ _⟩, decimal_verbatim _,
    encoded_all_readable _ _⟩

-- The queries lose and inject nothing exactly when the values the builders put
-- in as they are (the start-after key, the encoding type and, for encoding
-- type "url", the prefix) hold no byte that has a meaning in a query.
theorem queries_faithful_iff (v1 : ListObjectsParameters) (v2 : ListObjectsV2Parameters)
    (buckets : ListBucketsParameters) :
    (Faithful (listObjectsPrepareQueryV1 v1) v1.pairs ↔
      CommonVerbatim v1.EncodingType v1.Prefix) ∧
    (Faithful (listObjectsPrepareQueryV2 v2) v2.pairs ↔
      (∀ value ∈ v2.StartAfter, Verbatim value) ∧ CommonVerbatim v2.EncodingType v2.Prefix) ∧
    Faithful (listBucketsQuery buckets) buckets.pairs :=
  ⟨listObjectsV1_faithful_iff v1, listObjectsV2_faithful_iff v2, listBuckets_faithful buckets⟩

-- Listing after the key "a&prefix=b" asks for the prefix "b" instead.
def startAfterInjection : ListObjectsV2Parameters where
  Bucket := ascii "bucket"
  ContinuationToken := none
  Delimiter := none
  EncodingType := none
  Prefix := none
  StartAfter := some (ascii "a&prefix=b")

theorem startAfter_injects :
    ¬((∀ parameters : ListObjectsParameters,
        Faithful (listObjectsPrepareQueryV1 parameters) parameters.pairs) ∧
      (∀ parameters : ListObjectsV2Parameters,
        Faithful (listObjectsPrepareQueryV2 parameters) parameters.pairs) ∧
      ∀ parameters : ListBucketsParameters,
        Faithful (listBucketsQuery parameters) parameters.pairs) := by
  rintro ⟨-, h, -⟩
  have hverbatim := ((listObjectsV2_faithful_iff startAfterInjection).mp (h _)).1 _ rfl
  exact absurd hverbatim (by decide)

end S3Cpp.Aws.S3.Client
