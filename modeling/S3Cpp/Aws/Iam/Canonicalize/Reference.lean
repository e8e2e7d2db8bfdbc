import Mathlib.Algebra.Order.BigOperators.Group.List
import Mathlib.Data.List.Dedup
import Mathlib.Data.List.Sort
import S3Cpp.Aws.Iam.Canonicalize.Theorems

namespace S3Cpp.Aws.Iam

open Library Library.Http Library.Framing

def paramLe (p q : ParamPctView) : Prop :=
  p.key < q.key ∨ p.key = q.key ∧ p.writtenValue ≤ q.writtenValue

instance : DecidableRel paramLe := fun _ _ => inferInstanceAs (Decidable (_ ∨ _))

-- The canonical request as the signing scheme describes it.
def referenceQuery (params : List ParamPctView) : Str :=
  [Query.ampersand].intercalate ((params.insertionSort paramLe).map ParamPctView.piece)

def referenceNames (headers : Fields) : List Str :=
  (signedNames headers).dedup.insertionSort (· ≤ ·)

def headerValues (headers : Fields) (name : Str) : List Str :=
  (headers.filter fun f => lower f.name = name).map fun f => trim f.value

def referenceHeaders (headers : Fields) : Str :=
  (referenceNames headers).flatMap fun name =>
    name ++ ascii ":" ++ (ascii ",").intercalate (headerValues headers name) ++ newline

def referenceRequest (method : Str) (target : Target) (headers : Fields) : Str :=
  method ++ newline ++ target.encodedPath ++ newline ++
    referenceQuery target.encodedParams ++ newline ++
    referenceHeaders headers ++ newline ++
    (ascii ";").intercalate (referenceNames headers) ++ newline ++
    Fields.get headers contentSha256

section Query

variable (params : List ParamPctView)

theorem paramMap_perm :
    ∃ dropped, params.Perm ((paramMap params).entries.map Prod.snd ++ dropped) ∧
      (dropped = [] ↔ (params.map ParamPctView.key).Nodup) := by
  obtain ⟨dropped, hperm, hnodup⟩ := OrderedMap.emplaceAll_perm (params.map fun p => (p.key, p))
  refine ⟨dropped.map Prod.snd, ?_, ?_⟩
  · simpa [Function.comp_def, paramMap] using hperm.map Prod.snd
  · rw [List.map_eq_nil_iff, hnodup, List.map_map]
    rfl

theorem paramMap_key {entry : Str × ParamPctView} (hm : entry ∈ (paramMap params).entries) :
    entry.1 = entry.2.key := by
  rw [paramMap, OrderedMap.mem_emplaceAll_empty] at hm
  obtain ⟨p, _, rfl⟩ := List.mem_map.mp (List.mem_of_find?_eq_some hm)
  rfl

-- What the map drops makes the query shorter.
theorem canonicalQueryString_length :
    (canonicalQueryString params).length ≤ (referenceQuery params).length ∧
      ((canonicalQueryString params).length = (referenceQuery params).length →
        (params.map ParamPctView.key).Nodup) := by
  obtain ⟨dropped, hperm, hnodup⟩ := paramMap_perm params
  let weight (p : ParamPctView) := p.piece.length + 1
  have hcode : (canonicalQueryString params).length =
      (((paramMap params).entries.map Prod.snd).map weight).sum - 1 := by
    rw [canonicalQueryString_eq, length_intercalate, List.map_map, List.map_map]
    rfl
  have hreference : (referenceQuery params).length = (params.map weight).sum - 1 := by
    rw [referenceQuery, length_intercalate, List.map_map]
    exact congrArg (· - 1) ((params.perm_insertionSort paramLe).map _).sum_eq
  have hsum := (hperm.map weight).sum_eq
  rw [List.map_append, List.sum_append] at hsum
  refine ⟨by omega, fun he => hnodup.mp ?_⟩
  -- a dropped parameter has at least its '=' and its separator
  cases dropped with
  | nil => rfl
  | cons first rest =>
      have hfirst : 2 ≤ weight first := by
        simp only [weight, ParamPctView.piece, List.length_append, List.length_cons]
        omega
      rw [List.map_cons, List.sum_cons] at hsum
      omega

theorem paramLe_total (p q : ParamPctView) : paramLe p q ∨ paramLe q p := by
  rcases lt_trichotomy p.key q.key with h | h | h
  · exact .inl (.inl h)
  · exact (le_total p.writtenValue q.writtenValue).imp (fun hv => .inr ⟨h, hv⟩)
      fun hv => .inr ⟨h.symm, hv⟩
  · exact .inr (.inl h)

theorem paramLe_trans {p q r : ParamPctView} (hpq : paramLe p q) (hqr : paramLe q r) : paramLe p r := by
  rcases hpq with hpq | ⟨hpq, hv⟩
  · rcases hqr with hqr | ⟨hqr, -⟩
    · exact .inl (lt_trans hpq hqr)
    · exact .inl (hqr ▸ hpq)
  · rcases hqr with hqr | ⟨hqr, hw⟩
    · exact .inl (hpq ▸ hqr)
    · exact .inr ⟨hpq.trans hqr, le_trans hv hw⟩

theorem paramLe_key {p q : ParamPctView} (h : paramLe p q) : p.key ≤ q.key := by
  rcases h with h | ⟨h, -⟩
  · exact le_of_lt h
  · exact le_of_eq h

theorem canonicalQueryString_of_nodup (hnodup : (params.map ParamPctView.key).Nodup) :
    canonicalQueryString params = referenceQuery params := by
  obtain ⟨dropped, hperm, hdropped⟩ := paramMap_perm params
  rw [hdropped.mpr hnodup, List.append_nil] at hperm
  have hmap : ((paramMap params).entries.map Prod.snd).Pairwise paramLe := by
    rw [List.pairwise_map]
    refine (paramMap params).ordered.imp_of_mem fun ha hb hlt => .inl ?_
    rwa [← paramMap_key params ha, ← paramMap_key params hb]
  have : Std.Total paramLe := ⟨paramLe_total⟩
  have : IsTrans ParamPctView paramLe := ⟨fun _ _ _ => paramLe_trans⟩
  have hsort := params.perm_insertionSort paramLe
  have heq : (paramMap params).entries.map Prod.snd = params.insertionSort paramLe := by
    refine List.Perm.eq_of_pairwise (fun p q hp hq hpq hqp => ?_) hmap
      (List.pairwise_insertionSort paramLe params) (hperm.symm.trans hsort.symm)
    have hkey := le_antisymm (paramLe_key hpq) (paramLe_key hqp)
    exact List.inj_on_of_nodup_map hnodup (hperm.mem_iff.mpr hp) (hsort.mem_iff.mp hq) hkey
  rw [canonicalQueryString_eq, referenceQuery, ← heq, List.map_map]
  rfl

end Query

section Headers

variable {host : Field} {headers : Fields} (hhost : Fields.find headers hostName = some host)

theorem length_headerValues (headers : Fields) {name : Str} (hname : signedName name) :
    (headerValues headers name).length = (signedNames headers).count name := by
  rw [signedNames, List.count_filter hname, List.count_eq_countP, List.countP_map, headerValues,
    List.length_map, List.countP_eq_length_filter]
  congr 1
  exact List.filter_congr fun f _ => by rw [Bool.eq_iff_iff]; simp

include hhost

theorem referenceNames_eq : referenceNames headers = (headerMap host headers).keys := by
  have hsort := List.perm_insertionSort (· ≤ ·) (signedNames headers).dedup
  have hperm : (signedNames headers).dedup.Perm (headerMap host headers).keys := by
    refine (List.perm_ext_iff_of_nodup (List.nodup_dedup _) (OrderedMap.keys_nodup _)).mpr ?_
    intro name
    rw [List.mem_dedup, mem_keys_headerMap_iff_signed hhost]
  exact List.Perm.eq_of_pairwise (fun _ _ _ _ => le_antisymm)
    (List.pairwise_insertionSort (· ≤ ·) _)
    ((OrderedMap.keys_ordered _).imp le_of_lt) (hsort.trans hperm)

theorem headerValues_entry {entry : Str × Field} (hm : entry ∈ (headerMap host headers).entries) :
    ∃ more, headerValues headers entry.1 = stripSpaces entry.2.value :: more := by
  have hfind := headerMap_entry hhost hm
  rw [← List.head?_filter] at hfind
  obtain ⟨rest, hrest⟩ := List.head?_eq_some_iff.mp hfind
  refine ⟨rest.map fun f => trim f.value, ?_⟩
  rw [headerValues, hrest, List.map_cons, entry.2.trimmed, stripSpaces_of_trimmed entry.2.trimmed]

-- A repeated header makes its line shorter than it has to be.
theorem headerLine_length {entry : Str × Field} (hm : entry ∈ (headerMap host headers).entries) :
    (stripSpaces entry.2.value).length ≤
        ((ascii ",").intercalate (headerValues headers entry.1)).length ∧
      ((stripSpaces entry.2.value).length =
          ((ascii ",").intercalate (headerValues headers entry.1)).length →
        (headerValues headers entry.1).length = 1) := by
  obtain ⟨more, hvalues⟩ := headerValues_entry hhost hm
  rw [show ascii "," = [44] from rfl, length_intercalate, hvalues, List.map_cons, List.sum_cons]
  refine ⟨by omega, fun he => ?_⟩
  cases more with
  | nil => rfl
  | cons second rest =>
      rw [List.map_cons, List.sum_cons] at he
      omega

theorem canonicalHeaders_length :
    (canonicalHeaders (headerMap host headers)).length ≤ (referenceHeaders headers).length ∧
      ((canonicalHeaders (headerMap host headers)).length = (referenceHeaders headers).length →
        (signedNames headers).Nodup) := by
  let code (entry : Str × Field) :=
    (entry.1 ++ ascii ":" ++ stripSpaces entry.2.value ++ newline).length
  let reference (entry : Str × Field) :=
    (entry.1 ++ ascii ":" ++ (ascii ",").intercalate (headerValues headers entry.1) ++ newline).length
  have hcode : (canonicalHeaders (headerMap host headers)).length =
      ((headerMap host headers).entries.map code).sum := List.length_flatMap
  have hreference : (referenceHeaders headers).length =
      ((headerMap host headers).entries.map reference).sum := by
    rw [referenceHeaders, referenceNames_eq hhost, List.length_flatMap, OrderedMap.keys, List.map_map]
    rfl
  have hline : ∀ entry ∈ (headerMap host headers).entries, code entry ≤ reference entry := by
    intro entry hm
    have := (headerLine_length hhost hm).1
    simp only [code, reference, List.length_append]
    omega
  rw [hcode, hreference]
  refine ⟨List.sum_le_sum hline, fun he => List.nodup_iff_count_le_one.mpr fun name => ?_⟩
  by_cases hname : name ∈ signedNames headers
  · obtain ⟨entry, hm, rfl⟩ := List.mem_map.mp ((mem_keys_headerMap_iff_signed hhost name).mpr hname)
    have heq : code entry = reference entry := by
      by_contra hne
      have := List.sum_lt_sum code reference hline ⟨entry, hm, lt_of_le_of_ne (hline entry hm) hne⟩
      omega
    have hone := (headerLine_length hhost hm).2 (by
      simp only [code, reference, List.length_append] at heq
      omega)
    rw [length_headerValues headers ((mem_signedNames headers entry.1).mp hname).2] at hone
    exact le_of_eq hone
  · exact le_of_eq_of_le (List.count_eq_zero.mpr hname) (by omega)

theorem canonicalHeaders_of_nodup (hnodup : (signedNames headers).Nodup) :
    canonicalHeaders (headerMap host headers) = referenceHeaders headers := by
  rw [canonicalHeaders, referenceHeaders, referenceNames_eq hhost, OrderedMap.keys, List.flatMap_map]
  apply List.flatMap_congr
  intro entry hm
  have hname := (mem_keys_headerMap_iff_signed hhost entry.1).mp (List.mem_map_of_mem hm)
  have hone := length_headerValues headers ((mem_signedNames headers entry.1).mp hname).2
  rw [List.count_eq_one_of_mem hnodup hname] at hone
  obtain ⟨more, hvalues⟩ := headerValues_entry hhost hm
  rw [hvalues] at hone ⊢
  obtain rfl : more = [] := List.length_eq_zero_iff.mp (by simpa using hone)
  simp

end Headers

-- The code follows the scheme unless its maps drop a parameter or a header.
theorem canonicalizeRequest_reference_iff (ext : Externals) (request : Request) (target : Target)
    (htarget : parseOriginForm ext request.target = some target)
    (hhost : (Fields.find request.headers hostName).isSome)
    (hhash : Fields.get request.headers contentSha256 ≠ []) :
    (canonicalizeRequest ext request).map Prod.fst =
        .ok (referenceRequest request.method target request.headers) ↔
      (target.encodedParams.map ParamPctView.key).Nodup ∧ (signedNames request.headers).Nodup := by
  obtain ⟨host, hhost⟩ := Option.isSome_iff_exists.mp hhost
  have hresult : (canonicalizeRequest ext request).map Prod.fst =
      .ok (canonicalText request.method target (headerMap host request.headers)
        (Fields.get request.headers contentSha256)) := by
    rw [canonicalizeRequest_of_hashed ext htarget hhost hhash]
    rfl
  have hnames := referenceNames_eq hhost
  rw [hresult]
  constructor
  · intro he
    have hlength := congrArg List.length (Except.ok.inj he)
    obtain ⟨hquery, hparams⟩ := canonicalQueryString_length target.encodedParams
    obtain ⟨hblock, hheaders⟩ := canonicalHeaders_length hhost
    simp only [canonicalText, referenceRequest, signedHeaders_eq, hnames, List.length_append] at hlength
    exact ⟨hparams (by omega), hheaders (by omega)⟩
  · rintro ⟨hparams, hheaders⟩
    rw [canonicalText, referenceRequest, signedHeaders_eq, hnames,
      canonicalQueryString_of_nodup _ hparams, canonicalHeaders_of_nodup hhost hheaders]

-- Targets are in origin form and every digest is the same.
def constantExternals : Externals where
  sha256 _ := [0]
  hmac _ _ := [0]
  originForm target := target.head? = some 47 && target.all fun b => Query.queryChar b
  dropChunked _ := []

def getRequest (target : String) : Request where
  method := ascii "GET"
  target := ascii target
  headers := [Field.store (ascii "Host") (ascii "localhost"), Field.store contentSha256 (ascii "00")]
  body := []

theorem canonicalizeRequest_reference_plain :
    (canonicalizeRequest constantExternals (getRequest "/key?b&a=1")).map Prod.fst =
      .ok (referenceRequest (ascii "GET")
        ⟨ascii "/key", [⟨ascii "b", [], false⟩, ⟨ascii "a", ascii "1", true⟩]⟩
        (getRequest "/key?b&a=1").headers) :=
  (canonicalizeRequest_reference_iff constantExternals (getRequest "/key?b&a=1") _
    (by decide) (by decide) (by decide)).mpr (by decide)

theorem repeated_parameter_dropped :
    let request := getRequest "/key?a=1&a=2"
    let target : Target := ⟨ascii "/key", [⟨ascii "a", ascii "1", true⟩, ⟨ascii "a", ascii "2", true⟩]⟩
    parseOriginForm constantExternals request.target = some target ∧
      (Fields.find request.headers hostName).isSome ∧
      Fields.get request.headers contentSha256 ≠ [] ∧
      (canonicalizeRequest constantExternals request).map Prod.fst ≠
        .ok (referenceRequest request.method target request.headers) := by
  refine ⟨by decide, by decide, by decide, ?_⟩
  intro h
  have hlength := congrArg List.length (Except.ok.inj h)
  revert hlength
  decide

end S3Cpp.Aws.Iam
