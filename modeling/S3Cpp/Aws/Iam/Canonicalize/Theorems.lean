import S3Cpp.Aws.Iam.Canonicalize
import S3Cpp.Library.Framing

namespace S3Cpp.Aws.Iam

open Library Library.Http Library.Framing

-- The header names that are signed next to host.
def extraName (name : Str) : Bool := xAmz name || name = contentMd5

def signedName (name : Str) : Bool := name = hostName || extraName name

def signedNames (headers : Fields) : List Str :=
  (headers.map fun f => lower f.name).filter signedName

section HeaderMap

theorem emplaceHeader_eq (headers : OrderedMap Str Field) (field : Field) :
    emplaceHeader headers field =
      if extraName (lower field.name) then headers.emplace (lower field.name) field else headers := by
  by_cases hmd5 : lower field.name = contentMd5
  · have hx : xAmz contentMd5 = false := by decide
    simp [emplaceHeader, extraName, hmd5, hx]
  · simp [emplaceHeader, extraName, hmd5]

def extraEntries (headers : Fields) : List (Str × Field) :=
  (headers.filter fun f => extraName (lower f.name)).map fun f => (lower f.name, f)

theorem headerMap_eq (host : Field) (headers : Fields) :
    headerMap host headers =
      OrderedMap.empty.emplaceAll ((hostName, host) :: extraEntries headers) := by
  have hfold (map : OrderedMap Str Field) :
      headers.foldl emplaceHeader map = map.emplaceAll (extraEntries headers) := by
    induction headers generalizing map with
    | nil => rfl
    | cons field headers ih =>
        rw [List.foldl_cons, emplaceHeader_eq]
        by_cases he : extraName (lower field.name) <;>
          simp [he, ih, extraEntries, OrderedMap.emplaceAll]
  exact hfold _

theorem mem_keys_headerMap (host : Field) (headers : Fields) (name : Str) :
    name ∈ (headerMap host headers).keys ↔
      name = hostName ∨ ∃ f ∈ headers, lower f.name = name ∧ extraName name := by
  rw [headerMap_eq, OrderedMap.mem_keys_emplaceAll]
  simp only [OrderedMap.keys, OrderedMap.empty, extraEntries, List.map_nil, List.not_mem_nil,
    false_or, List.map_cons, List.mem_cons, List.map_map, List.mem_map, List.mem_filter,
    Function.comp_apply]
  refine or_congr Iff.rfl ⟨?_, ?_⟩
  · rintro ⟨f, ⟨hm, he⟩, rfl⟩
    exact ⟨f, hm, rfl, he⟩
  · rintro ⟨f, hm, rfl, he⟩
    exact ⟨f, ⟨hm, he⟩, rfl⟩

-- Every name is kept with the first field that carries it.
theorem headerMap_entry {host : Field} {headers : Fields}
    (hhost : Fields.find headers hostName = some host) {entry : Str × Field}
    (hm : entry ∈ (headerMap host headers).entries) :
    headers.find? (fun f => lower f.name = entry.1) = some entry.2 := by
  rw [headerMap_eq, OrderedMap.mem_emplaceAll_empty, OrderedMap.at?, List.find?_cons] at hm
  have hlower : lower hostName = hostName := by decide
  split at hm
  · obtain rfl := Option.some.inj hm
    simpa [Fields.find, Field.Named, hlower] using hhost
  · rename_i he
    rw [extraEntries, List.find?_map, List.find?_filter] at hm
    obtain ⟨f, hf, rfl⟩ := Option.map_eq_some_iff.mp hm
    have hextra : extraName (lower f.name) := by
      have hp := List.find?_some hf
      rw [decide_eq_true_eq] at hp
      exact hp.1
    rw [← hf]
    congr 1
    funext g
    by_cases hg : lower g.name = lower f.name
    · simp [hg, hextra]
    · simp [hg]

theorem mem_signedNames (headers : Fields) (name : Str) :
    name ∈ signedNames headers ↔ (∃ f ∈ headers, lower f.name = name) ∧ signedName name := by
  simp [signedNames]

theorem mem_keys_headerMap_iff_signed {host : Field} {headers : Fields}
    (hhost : Fields.find headers hostName = some host) (name : Str) :
    name ∈ (headerMap host headers).keys ↔ name ∈ signedNames headers := by
  rw [mem_keys_headerMap, mem_signedNames]
  have hlower : lower hostName = hostName := by decide
  constructor
  · rintro (rfl | ⟨f, hm, rfl, he⟩)
    · have hname : lower host.name = lower hostName := Fields.named_of_find hhost
      exact ⟨⟨host, List.mem_of_find?_eq_some hhost, hname.trans hlower⟩, by simp [signedName]⟩
    · exact ⟨⟨f, hm, rfl⟩, by simp [signedName, he]⟩
  · rintro ⟨⟨f, hm, rfl⟩, hs⟩
    rcases Bool.or_eq_true_iff.mp hs with h | h
    · exact .inl (by simpa using h)
    · exact .inr ⟨f, hm, rfl, h⟩

end HeaderMap

theorem signedHeaders_eq (headers : OrderedMap Str Field) :
    signedHeaders headers = (ascii ";").intercalate headers.keys := by
  rw [show ascii ";" = [59] from rfl, ← dropLast_lines, lines, OrderedMap.keys, List.flatMap_map]
  rfl

theorem canonicalQueryString_eq (params : List ParamPctView) :
    canonicalQueryString params =
      [Query.ampersand].intercalate ((paramMap params).entries.map fun entry => entry.2.piece) := by
  rw [← dropLast_lines, lines, List.flatMap_map, canonicalQueryString]
  cases (paramMap params).entries with
  | nil => rfl
  | cons first rest => rfl

theorem stripSpaces_of_trimmed {value : Str} (h : trim value = value) : stripSpaces value = value := by
  obtain ⟨hhead, hlast⟩ := trim_ends value
  rw [h] at hhead hlast
  have hdrop : value.dropWhile (· = 32) = value := by
    cases value with
    | nil => rfl
    | cons b rest =>
        refine List.dropWhile_cons_of_neg fun hb => hhead b rfl ?_
        simp [blank, of_decide_eq_true hb]
  have hrdrop : value.rdropWhile (· = 32) = value := by
    apply List.rdropWhile_eq_self_iff.mpr
    intro hne hb
    exact hlast _ (List.getLast?_eq_some_getLast hne) (by simp [blank, of_decide_eq_true hb])
  simp [stripSpaces, hdrop, hrdrop]

theorem headerMap_set {name : Str} (host : Field) (headers : Fields) (value : Str)
    (hname : extraName (lower name) = false) :
    headerMap host (Fields.set headers name value) = headerMap host headers := by
  rw [headerMap_eq, headerMap_eq, extraEntries, extraEntries, Fields.filter_set]
  intro f hf
  rwa [show lower f.name = lower name from hf]

section Hash

theorem trim_of_no_blank {s : Str} (h : ∀ b ∈ s, ¬ blank b) : trim s = s :=
  trim_of_ends (fun b hb => h b (List.mem_of_mem_head? hb))
    fun b hb => h b (List.mem_of_mem_getLast? hb)

theorem no_blank_of_all {s : Str} (h : s.all fun b => !blank b) : ∀ b ∈ s, ¬ blank b := by
  simpa using h

theorem hexEncode_no_blank (digest : Str) : ∀ b ∈ hexEncode digest, ¬ blank b := by
  have hdigit : ∀ n < 16, ¬ blank (hexLower n) := by decide
  intro b hb
  obtain ⟨c, _, hb⟩ := List.mem_flatMap.mp hb
  have hc : c.toNat < 256 := UInt8.toNat_lt c
  simp only [List.mem_cons, List.not_mem_nil, or_false] at hb
  rcases hb with rfl | rfl
  · exact hdigit _ (by omega)
  · exact hdigit _ (by omega)

theorem hexEncode_ne_nil {digest : Str} (h : digest ≠ []) : hexEncode digest ≠ [] := by
  cases digest with
  | nil => exact absurd rfl h
  | cons b rest => simp [hexEncode]

theorem hashPayload_of_hashed (ext : Externals) (body : Str) {headers : Fields}
    (hhash : Fields.get headers contentSha256 ≠ []) : hashPayload ext body headers = headers := by
  rw [hashPayload, if_neg (by simpa using hhash)]

-- After it there is a payload hash.
theorem get_hashPayload (ext : Externals) (hsha : ∀ message, ext.sha256 message ≠ []) (body : Str)
    (headers : Fields) : Fields.get (hashPayload ext body headers) contentSha256 ≠ [] := by
  rw [hashPayload]
  split
  · rw [Fields.get_set_self, trim_of_no_blank (hexEncode_no_blank _)]
    exact hexEncode_ne_nil (hsha _)
  · rename_i h
    simpa using h

theorem find_hashPayload_ne (ext : Externals) (body : Str) (headers : Fields) {name : Str}
    (hname : lower contentSha256 ≠ lower name) :
    Fields.find (hashPayload ext body headers) name = Fields.find headers name := by
  rw [hashPayload]
  split
  · exact Fields.find_set_ne _ _ hname
  · rfl

end Hash

theorem canonicalizeRequest_of_hashed (ext : Externals) {request : Request} {target : Target}
    {host : Field} (htarget : parseOriginForm ext request.target = some target)
    (hhost : Fields.find request.headers hostName = some host)
    (hhash : Fields.get request.headers contentSha256 ≠ []) :
    canonicalizeRequest ext request =
      .ok (canonicalText request.method target (headerMap host request.headers)
          (Fields.get request.headers contentSha256),
        signedHeaders (headerMap host request.headers), request) := by
  simp only [canonicalizeRequest, htarget, hhost, hashPayload_of_hashed ext request.body hhash]

end S3Cpp.Aws.Iam
