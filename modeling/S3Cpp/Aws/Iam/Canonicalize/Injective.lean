import S3Cpp.Aws.Iam.Canonicalize.Coverage

namespace S3Cpp.Aws.Iam

open Library Library.Http Library.Framing

-- The parameters of a target, where no value counts as an empty one.
def Target.pairs (target : Target) : List (Str × Str) :=
  target.encodedParams.map fun p => (p.key, p.writtenValue)

def signedFields (headers : Fields) : List (Str × Str) :=
  (headers.filter fun f => signedName (lower f.name)).map fun f => (lower f.name, stripSpaces f.value)

-- A request with a host and a payload hash in which no parameter and no signed
-- header is repeated, and no signed header reaches over the end of its line.
structure Signable (ext : Externals) (request : Request) (target : Target) : Prop where
  parsed : parseOriginForm ext request.target = some target
  params : (target.encodedParams.map ParamPctView.key).Nodup
  host : (Fields.find request.headers hostName).isSome
  hash : Fields.get request.headers contentSha256 ≠ []
  names : (signedNames request.headers).Nodup
  fields : ∀ f ∈ request.headers, signedName (lower f.name) → Token f.name ∧ newlineByte ∉ f.value

theorem Signable.wellFramed {ext : Externals} {request : Request} {target : Target}
    (h : Signable ext request target) : WellFramed ext request target :=
  ⟨h.parsed, h.host, h.hash, h.fields⟩

section Maps

variable {params : List ParamPctView} {host : Field} {headers : Fields}

theorem pairs_perm (hnodup : (params.map ParamPctView.key).Nodup) :
    (params.map fun p => (p.key, p.writtenValue)).Perm
      ((paramMap params).entries.map fun entry => (entry.1, entry.2.writtenValue)) := by
  obtain ⟨dropped, hperm, hdropped⟩ := paramMap_perm params
  rw [hdropped.mpr hnodup, List.append_nil] at hperm
  have hkeys : ((paramMap params).entries.map Prod.snd).map (fun p => (p.key, p.writtenValue)) =
      (paramMap params).entries.map fun entry => (entry.1, entry.2.writtenValue) := by
    rw [List.map_map]
    exact List.map_congr_left fun entry hm => by rw [Function.comp_apply, paramMap_key params hm]
  exact hkeys ▸ hperm.map fun p => (p.key, p.writtenValue)

theorem entry_eq_of_name (hhost : Fields.find headers hostName = some host)
    (hnodup : (signedNames headers).Nodup) {f : Field} (hf : f ∈ headers)
    (hsigned : signedName (lower f.name)) :
    (lower f.name, f) ∈ (headerMap host headers).entries := by
  have hkey := (mem_keys_headerMap_iff_signed hhost (lower f.name)).mpr
    ((mem_signedNames headers _).mpr ⟨⟨f, hf, rfl⟩, hsigned⟩)
  obtain ⟨⟨name, g⟩, hentry, rfl⟩ := List.mem_map.mp hkey
  have hfind := headerMap_entry hhost hentry
  have hname : lower g.name = lower f.name := by simpa using List.find?_some hfind
  have hg : g ∈ headers.filter fun f => signedName (lower f.name) :=
    List.mem_filter.mpr ⟨List.mem_of_find?_eq_some hfind, by rwa [hname]⟩
  rw [signedNames, List.filter_map] at hnodup
  -- the name is not repeated, so the field found under it is this one
  obtain rfl := List.inj_on_of_nodup_map hnodup hg (List.mem_filter.mpr ⟨hf, hsigned⟩) hname
  exact hentry

theorem signedFields_perm (hhost : Fields.find headers hostName = some host)
    (hnodup : (signedNames headers).Nodup) :
    (signedFields headers).Perm
      ((headerMap host headers).entries.map fun entry => (entry.1, entry.2.value)) := by
  have hfirst : (signedFields headers).map Prod.fst = signedNames headers := by
    rw [signedFields, signedNames, List.map_map, List.filter_map]
    rfl
  have hkeys : ((headerMap host headers).entries.map fun entry =>
      (entry.1, entry.2.value)).map Prod.fst = (headerMap host headers).keys := by
    rw [List.map_map]
    rfl
  refine (List.perm_ext_iff_of_nodup (List.Nodup.of_map Prod.fst (hfirst ▸ hnodup))
    (List.Nodup.of_map Prod.fst (hkeys ▸ OrderedMap.keys_nodup _))).mpr fun pair => ?_
  simp only [signedFields, List.mem_map, List.mem_filter]
  constructor
  · rintro ⟨f, ⟨hf, hsigned⟩, rfl⟩
    exact ⟨_, entry_eq_of_name hhost hnodup hf hsigned, by rw [stripSpaces_of_trimmed f.trimmed]⟩
  · rintro ⟨entry, hentry, rfl⟩
    obtain ⟨hf, hname, hsigned⟩ := mem_headers_of_entry hhost hentry
    exact ⟨entry.2, ⟨hf, by rwa [hname]⟩, by rw [hname, stripSpaces_of_trimmed entry.2.trimmed]⟩

end Maps

-- With nothing repeated, what the canonical text says of each name is all there is.
theorem canonicalizeRequest_determines (ext : Externals)
    (hgrammar : ∀ text, ext.originForm text → newlineByte ∉ text)
    (request other : Request) (target target' : Target)
    (h : Signable ext request target) (h' : Signable ext other target')
    (hsame : (canonicalizeRequest ext request).map Prod.fst =
      (canonicalizeRequest ext other).map Prod.fst) :
    request.method = other.method ∧ target.encodedPath = target'.encodedPath ∧
      target.pairs.Perm target'.pairs ∧
      (signedFields request.headers).Perm (signedFields other.headers) ∧
      Fields.get request.headers contentSha256 = Fields.get other.headers contentSha256 := by
  obtain ⟨host, hhost⟩ := Option.isSome_iff_exists.mp h.host
  obtain ⟨host', hhost'⟩ := Option.isSome_iff_exists.mp h'.host
  rw [canonicalizeRequest_of_hashed ext h.parsed hhost h.hash,
    canonicalizeRequest_of_hashed ext h'.parsed hhost' h'.hash] at hsame
  have hagree := (canonicalText_eq_iff hgrammar h.wellFramed h'.wellFramed hhost hhost').mp (Except.ok.inj hsame)
  have hparams := paramMap_eq_iff.mpr hagree.params
  have hfields := (headerMap_eq_iff hhost hhost').mpr hagree.fields
  refine ⟨hagree.method, hagree.path, ?_, ?_, hagree.get (by decide) (by decide)⟩
  · exact (pairs_perm h.params).trans (hparams ▸ (pairs_perm h'.params).symm)
  · exact (signedFields_perm hhost h.names).trans
      (hfields ▸ (signedFields_perm hhost' h'.names).symm)

def plainTarget : Target :=
  ⟨ascii "/key", [⟨ascii "b", [], false⟩, ⟨ascii "a", ascii "1", true⟩]⟩

def reorderedTarget : Target :=
  ⟨ascii "/key", [⟨ascii "a", ascii "1", true⟩, ⟨ascii "b", [], true⟩]⟩

-- The same request with its parameters and its fields the other way round.
def reorderedRequest : Request where
  method := ascii "GET"
  target := ascii "/key?a=1&b="
  headers := [Field.store contentSha256 (ascii "00"), Field.store (ascii "HOST") (ascii "localhost")]
  body := ascii "any"

theorem canonicalizeRequest_determines_reordered :
    plainTarget.pairs.Perm reorderedTarget.pairs ∧
      (signedFields (getRequest "/key?b&a=1").headers).Perm (signedFields reorderedRequest.headers) := by
  have hgrammar : ∀ text, constantExternals.originForm text → newlineByte ∉ text := by
    intro text h hm
    have hall := List.all_eq_true.mp (Bool.and_eq_true_iff.mp h).2 _ hm
    exact absurd hall (by decide)
  obtain ⟨-, -, hparams, hfields, -⟩ := canonicalizeRequest_determines constantExternals hgrammar
    (getRequest "/key?b&a=1") reorderedRequest plainTarget reorderedTarget
    ⟨by decide, by decide, by decide, by decide, by decide, by decide +kernel⟩
    ⟨by decide, by decide, by decide, by decide, by decide, by decide +kernel⟩ (by decide +kernel)
  exact ⟨hparams, hfields⟩

end S3Cpp.Aws.Iam
