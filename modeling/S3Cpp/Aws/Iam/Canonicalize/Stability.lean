import S3Cpp.Aws.Iam.Canonicalize.Reference

namespace S3Cpp.Aws.Iam

open Library Library.Http

-- The names a text lists, in order and each once.
structure Names (text : Str) (names : List Str) : Prop where
  text : text = (ascii ";").intercalate names
  ordered : names.Pairwise (· < ·)

theorem names_headerMap (host : Field) (headers : Fields) :
    Names (signedHeaders (headerMap host headers)) (headerMap host headers).keys :=
  ⟨signedHeaders_eq _, OrderedMap.keys_ordered _⟩

theorem xAmz_mem_keys (host : Field) {headers : Fields} {f : Field} (hf : f ∈ headers)
    (hx : xAmz (lower f.name)) : lower f.name ∈ (headerMap host headers).keys :=
  (mem_keys_headerMap host headers _).mpr (.inr ⟨f, hf, rfl, by simp [extraName, hx]⟩)

-- The payload hash is the only field that canonicalising can add.
theorem mem_hashPayload {ext : Externals} {body : Str} {headers : Fields} {f : Field}
    (hf : f ∈ hashPayload ext body headers) : f ∈ headers ∨ lower f.name = contentSha256 := by
  rw [hashPayload] at hf
  split at hf
  · rcases List.mem_append.mp hf with hf | hf
    · exact .inl (List.mem_of_mem_filter hf)
    · obtain rfl := List.mem_singleton.mp hf
      exact .inr (show lower contentSha256 = contentSha256 by decide)
  · exact .inl hf

-- The names signed are those of the fields the request came with. With the
-- payload hash among them nothing changes, and without it nothing changes from
-- the second time on.
theorem canonicalizeRequest_stable (ext : Externals) (hsha : ∀ message, ext.sha256 message ≠ [])
    (request : Request) (htarget : ext.originForm request.target)
    (hhost : (Fields.find request.headers hostName).isSome) :
    ∃ canonical signed after names,
      canonicalizeRequest ext request = .ok (canonical, signed, after) ∧ Names signed names ∧
      (∀ f ∈ request.headers, xAmz (lower f.name) → lower f.name ∈ names) ∧
      (∀ f ∈ after.headers, xAmz (lower f.name) → lower f.name ∈ names ∨ lower f.name = contentSha256) ∧
      (Fields.get request.headers contentSha256 ≠ [] →
        after = request ∧ canonicalizeRequest ext after = .ok (canonical, signed, after)) ∧
      ∃ canonical' signed' names',
        canonicalizeRequest ext after = .ok (canonical', signed', after) ∧ Names signed' names' ∧
        ∀ f ∈ after.headers, xAmz (lower f.name) → lower f.name ∈ names' := by
  obtain ⟨host, hhost⟩ := Option.isSome_iff_exists.mp hhost
  obtain ⟨target, hparse⟩ : ∃ target, parseOriginForm ext request.target = some target := by
    rw [parseOriginForm, if_pos htarget]
    exact ⟨_, rfl⟩
  set hashed := hashPayload ext request.body request.headers with hhashed
  set map := headerMap host request.headers with hmap
  have hfirst : canonicalizeRequest ext request =
      .ok (canonicalText request.method target map (Fields.get hashed contentSha256),
        signedHeaders map, { request with headers := hashed }) := by
    simp only [canonicalizeRequest, hparse, hhost]
    rfl
  have hsecond := @canonicalizeRequest_of_hashed ext { request with headers := hashed } target host hparse
    ((find_hashPayload_ne ext request.body request.headers (by decide)).trans hhost)
    (get_hashPayload ext hsha request.body request.headers)
  refine ⟨_, _, _, map.keys, hfirst, names_headerMap _ _, fun f hf => xAmz_mem_keys host hf,
    fun f hf hx => ?_, fun hset => ?_, _, _, _, hsecond, names_headerMap _ _,
    fun f hf => xAmz_mem_keys host hf⟩
  · exact (mem_hashPayload hf).imp_left fun hf => xAmz_mem_keys host hf hx
  · have hsame : hashed = request.headers := hashPayload_of_hashed ext request.body hset
    refine ⟨by rw [hsame], ?_⟩
    rw [hsecond, hsame]

-- A request of the source's tests, which has no payload hash of its own.
def vaultRequest : Request where
  method := ascii "PUT"
  target := ascii "/-/vaults/examplevault"
  headers := [
    Field.store (ascii "Host") (ascii "glacier.us-east-1.amazonaws.com"),
    Field.store (ascii "x-amz-glacier-version") (ascii "2012-06-01"),
    Field.store (ascii "x-amz-date") (ascii "20120525T002453Z")]
  body := []

theorem canonicalizeRequest_stable_vault :
    ∃ canonical signed after names,
      canonicalizeRequest constantExternals vaultRequest = .ok (canonical, signed, after) ∧
      Names signed names ∧ ascii "x-amz-date" ∈ names := by
  obtain ⟨canonical, signed, after, names, hresult, hnames, hsigned, -⟩ :=
    canonicalizeRequest_stable constantExternals (fun _ => by simp [constantExternals]) vaultRequest
      (by decide) (by decide)
  exact ⟨canonical, signed, after, names, hresult, hnames,
    hsigned (Field.store (ascii "x-amz-date") (ascii "20120525T002453Z")) (by decide) (by decide)⟩

-- The payload hash that is added to it is not among the names, and the second
-- time it is.
theorem added_hash_unsigned :
    (∃ canonical after, canonicalizeRequest constantExternals vaultRequest =
        .ok (canonical, ascii "host;x-amz-date;x-amz-glacier-version", after) ∧
      ∃ f ∈ after.headers, lower f.name = contentSha256) ∧
    ¬ ∃ canonical signed after again,
      canonicalizeRequest constantExternals vaultRequest = .ok (canonical, signed, after) ∧
      canonicalizeRequest constantExternals after = .ok (canonical, signed, again) := by
  refine ⟨⟨_, _, rfl, by decide⟩, ?_⟩
  rintro ⟨canonical, signed, after, again, hfirst, hsecond⟩
  have hboth : ((canonicalizeRequest constantExternals vaultRequest).bind fun result =>
      canonicalizeRequest constantExternals result.2.2).map (fun result => result.2.1) =
      (canonicalizeRequest constantExternals vaultRequest).map fun result => result.2.1 := by
    rw [hfirst]
    simp only [Except.bind, Except.map, hsecond]
  exact absurd hboth (by decide)

end S3Cpp.Aws.Iam
