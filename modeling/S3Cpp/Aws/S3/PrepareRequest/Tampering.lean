import S3Cpp.Aws.Iam.Canonicalize.Coverage
import S3Cpp.Aws.S3.PrepareRequest.Theorems
import S3Cpp.Aws.S3.Types.Theorems

namespace S3Cpp.Aws.S3

open Library Library.Http Library.Framing Iam

def Accepts (ext : Externals) (session : Session) (request : Request) : Prop :=
  recomputeAuthorization ext session request = .ok (Fields.get request.headers authorizationName)

-- Two inputs that a digest does not tell apart.
def Collide {α β : Type*} (digest : α → β) (a b : α) : Prop := a ≠ b ∧ digest a = digest b

-- The key and the message whose digest is the signature.
def hmacInput (ext : Externals) (session : Session) (canonical timestamp : Str) : Str × Str :=
  (getSigningKey ext session.secretAccessKey (signingScope session timestamp),
    stringToSign ext canonical (signingScope session timestamp) timestamp)

-- What the two requests have digested on the way to their signatures collides.
def Broken (ext : Externals) (session : Session) (request other : Request) : Prop :=
  ∃ canonical signed canonical' signed',
    canonicalizeRequest ext request = .ok (canonical, signed, request) ∧
    canonicalizeRequest ext other = .ok (canonical', signed', other) ∧
    (Collide ext.sha256 canonical canonical' ∨
      Collide (Function.uncurry ext.hmac)
        (hmacInput ext session canonical (Fields.get request.headers amzDate))
        (hmacInput ext session canonical' (Fields.get other.headers amzDate)))

section Hex

theorem length_hexEncode (digest : Str) : (hexEncode digest).length = 2 * digest.length := by
  induction digest with
  | nil => rfl
  | cons b rest ih =>
      simp only [hexEncode, List.flatMap_cons, List.length_append, List.length_cons] at ih ⊢
      rw [ih, List.length_nil]
      omega

theorem hexEncode_injective : Function.Injective hexEncode := by
  have hdigit : ∀ n < 16, ∀ m < 16, hexLower n = hexLower m → n = m := by decide
  intro digest
  induction digest with
  | nil =>
      intro other h
      have hlength := congrArg List.length h
      rw [length_hexEncode, length_hexEncode, List.length_nil] at hlength
      exact (List.length_eq_zero_iff.mp (by omega)).symm
  | cons b rest ih =>
      intro other h
      cases other with
      | nil => simp [hexEncode] at h
      | cons c rest' =>
          obtain ⟨hhigh, h⟩ := List.cons.inj h
          obtain ⟨hlow, h⟩ := List.cons.inj h
          have hb := UInt8.toNat_lt b
          have hc := UInt8.toNat_lt c
          have hhigh := hdigit _ (by omega) _ (by omega) hhigh
          have hlow := hdigit _ (by omega) _ (by omega) hlow
          have hbyte : b = c := UInt8.toNat_inj.mp (by omega)
          rw [hbyte, ih h]

theorem newline_not_mem_hexEncode (digest : Str) : newlineByte ∉ hexEncode digest := by
  have hdigit : ∀ n < 16, newlineByte ≠ hexLower n := by decide
  intro hm
  obtain ⟨b, -, hb⟩ := List.mem_flatMap.mp hm
  have hlt := UInt8.toNat_lt b
  simp only [List.mem_cons, List.not_mem_nil, or_false] at hb
  rcases hb with hb | hb
  · exact hdigit _ (by omega) hb
  · exact hdigit _ (by omega) hb

end Hex

section Stamp

theorem newline_not_mem_padded (width n : Nat) : newlineByte ∉ padded width n := by
  intro hm
  rcases List.mem_append.mp hm with hm | hm
  · exact absurd (List.eq_of_mem_replicate hm) (by decide)
  · exact absurd (digit_decimal n _ hm) (by decide)

theorem newline_not_mem_formatTimestamp (time : UtcTime) : newlineByte ∉ formatTimestamp time := by
  have hletter : newlineByte ∉ ascii "T" ∧ newlineByte ∉ ascii "Z" := by decide
  simp only [formatTimestamp, List.mem_append, newline_not_mem_padded, hletter, or_self,
    not_false_eq_true]

theorem mem_set {fields : Fields} {name value : Str} {f : Field} (h : f ∈ Fields.set fields name value) :
    f ∈ fields ∨ f = Field.store name value :=
  (List.mem_append.mp h).imp List.mem_of_mem_filter List.mem_singleton.mp

variable {ext : Externals} {session : Session} {request : Request} {target : Target} {timestamp : Str}

-- The signed fields of a stamped request are the caller's and the three that
-- are set.
theorem mem_stamped {f : Field} (h : f ∈ (stampRequest ext request session timestamp).headers)
    (hsigned : signedName (lower f.name)) :
    f ∈ request.headers ∨ f = Field.store (ascii "Host") session.endpoint ∨
      f = Field.store contentSha256 (hexEncode (ext.sha256 request.body)) ∨
      f = Field.store amzDate timestamp := by
  have hother {fields : Fields} {name value : Str} (hname : signedName (lower name) = false)
      (h : f ∈ Fields.set fields name value) : f ∈ fields := by
    refine (mem_set h).resolve_right ?_
    rintro rfl
    exact absurd hsigned (by simpa [Field.store] using hname)
  have hlength {fields : Fields} {size : Nat} (h : f ∈ contentLength ext fields size) : f ∈ fields := by
    simp only [contentLength] at h
    split at h
    · exact hother (by decide) h
    · split at h
      · exact hother (by decide) (List.mem_of_mem_filter h)
      · exact hother (by decide) (hother (by decide) h)
  simp only [stampRequest] at h
  rcases mem_set (hother (by decide) h) with h | rfl
  · have h := hlength h
    rw [hashPayload] at h
    split at h
    · rcases mem_set h with h | rfl
      · exact (mem_set h).imp_right .inl
      · exact .inr (.inr (.inl rfl))
    · exact (mem_set h).imp_right .inl
  · exact .inr (.inr (.inr rfl))

theorem newline_not_mem_store {name value : Str} (h : newlineByte ∉ value) :
    newlineByte ∉ (Field.store name value).value := fun hm =>
  h (List.dropWhile_subset _ ((List.rdropWhile_prefix _ _).subset hm))

theorem wellFramed_setAuthorization {sign : Str} (h : WellFramed ext request target) :
    WellFramed ext { request with headers := Fields.set request.headers authorizationName sign } target where
  parsed := h.parsed
  host := by
    rw [Fields.find_set_ne _ _ (by decide)]
    exact h.host
  hash := by
    rw [Fields.get_set_ne _ _ (by decide)]
    exact h.hash
  fields f hf hsigned := by
    rcases mem_set hf with hf | rfl
    · exact h.fields f hf hsigned
    · exact absurd hsigned (by simp only [Field.store]; decide)

theorem wellFramed_stamped (hsha : ∀ message, ext.sha256 message ≠ [])
    (hendpoint : newlineByte ∉ session.endpoint)
    (hfields : ∀ f ∈ request.headers, signedName (lower f.name) → Token f.name ∧ newlineByte ∉ f.value)
    (hparse : parseOriginForm ext request.target = some target) (now : UtcTime) :
    WellFramed ext (stampRequest ext request session (formatTimestamp now)) target where
  parsed := hparse
  host := by
    rw [host_stamped]
    rfl
  hash := hash_stamped ext request session (formatTimestamp now) hsha
  fields f hf hsigned := by
    have hhost : Token (ascii "Host") := by decide +kernel
    have hhash : Token contentSha256 := by decide +kernel
    have hdate : Token amzDate := by decide +kernel
    rcases mem_stamped hf hsigned with hf | rfl | rfl | rfl
    · exact hfields f hf hsigned
    · exact ⟨hhost, newline_not_mem_store hendpoint⟩
    · exact ⟨hhash, newline_not_mem_store (newline_not_mem_hexEncode _)⟩
    · exact ⟨hdate, newline_not_mem_store (newline_not_mem_formatTimestamp now)⟩

end Stamp

section Texts

variable {ext : Externals} {canonical canonical' timestamp timestamp' : Str} {scope scope' : Scope}

theorem stringToSign_inj (hsha : ∀ message, (ext.sha256 message).length = 32)
    (htime : newlineByte ∉ timestamp) (htime' : newlineByte ∉ timestamp')
    (h : stringToSign ext canonical scope timestamp = stringToSign ext canonical' scope' timestamp') :
    timestamp = timestamp' ∧ ext.sha256 canonical = ext.sha256 canonical' := by
  have hlength : (hexEncode (ext.sha256 canonical)).length =
      (hexEncode (ext.sha256 canonical')).length := by
    simp only [length_hexEncode, hsha]
  obtain ⟨hfront, hdigest⟩ := List.append_inj' h hlength
  simp only [List.append_assoc] at hfront
  have hfront := List.append_cancel_left hfront
  exact ⟨(append_first_inj htime htime' hfront).1, hexEncode_injective hdigest⟩

theorem authorization_signature_inj {accessKey signed signed' sign sign' : Str}
    (hlength : sign.length = sign'.length)
    (h : authorization accessKey signed sign scope = authorization accessKey signed' sign' scope') :
    sign = sign' :=
  (List.append_inj' h hlength).2

end Texts

section Accepted

variable {ext : Externals} {session : Session} {request other : Request} {target target' : Target}

-- What the receiver puts together for a request that can be read.
theorem recomputeAuthorization_eq (h : WellFramed ext request target) {host : Field}
    (hhost : Fields.find request.headers hostName = some host) :
    recomputeAuthorization ext session request =
      .ok (signRequest ext session.accessKey session.secretAccessKey
        (canonicalText request.method target (headerMap host request.headers)
          (Fields.get request.headers contentSha256))
        (signedHeaders (headerMap host request.headers)) (Fields.get request.headers amzDate)
        (signingScope session (Fields.get request.headers amzDate))) := by
  rw [recomputeAuthorization, canonicalizeRequest_of_hashed ext h.parsed hhost h.hash, signRequest_received]
  rfl

theorem recomputeAuthorization_congr (h : WellFramed ext request target)
    (h' : WellFramed ext other target') (hgrammar : ∀ text, ext.originForm text → newlineByte ∉ text)
    (hagree : Agree request other target target') :
    recomputeAuthorization ext session request = recomputeAuthorization ext session other := by
  obtain ⟨host, hhost⟩ := Option.isSome_iff_exists.mp h.host
  obtain ⟨host', hhost'⟩ := Option.isSome_iff_exists.mp h'.host
  have hsigned := (signedHeaders_congr ((headerMap_eq_iff hhost hhost').mpr hagree.fields)).2
  rw [recomputeAuthorization_eq h hhost, recomputeAuthorization_eq h' hhost', hsigned,
    (canonicalText_eq_iff hgrammar h h' hhost hhost').mpr hagree, hagree.get (by decide) (by decide)]

-- Two accepted requests with one signature are the same in what it covers, or
-- a digest has collided.
theorem agree_or_broken (h : WellFramed ext request target) (h' : WellFramed ext other target')
    (hgrammar : ∀ text, ext.originForm text → newlineByte ∉ text)
    (hsha : ∀ message, (ext.sha256 message).length = 32)
    (hhmac : ∀ key message, (ext.hmac key message).length = 32)
    (haccepts : Accepts ext session request) (haccepts' : Accepts ext session other)
    (hsame : Fields.get other.headers authorizationName = Fields.get request.headers authorizationName) :
    Agree request other target target' ∨ Broken ext session request other := by
  obtain ⟨host, hhost⟩ := Option.isSome_iff_exists.mp h.host
  obtain ⟨host', hhost'⟩ := Option.isSome_iff_exists.mp h'.host
  rw [Accepts, recomputeAuthorization_eq h hhost] at haccepts
  rw [Accepts, recomputeAuthorization_eq h' hhost', hsame] at haccepts'
  have hequal := (Except.ok.inj haccepts).trans (Except.ok.inj haccepts').symm
  have hcanonical := canonicalizeRequest_of_hashed ext h.parsed hhost h.hash
  have hcanonical' := canonicalizeRequest_of_hashed ext h'.parsed hhost' h'.hash
  have htext := canonicalText_eq_iff hgrammar h h' hhost hhost'
  generalize canonicalText request.method target (headerMap host request.headers)
    (Fields.get request.headers contentSha256) = canonical at *
  generalize canonicalText other.method target' (headerMap host' other.headers)
    (Fields.get other.headers contentSha256) = canonical' at *
  have hlength (canonical timestamp : Str) : (signature ext session.secretAccessKey canonical timestamp
      (signingScope session timestamp)).length = 64 := by
    rw [signature, length_hexEncode, hhmac]
  have hsignature := authorization_signature_inj ((hlength _ _).trans (hlength _ _).symm) hequal
  have hdigest : Function.uncurry ext.hmac
        (hmacInput ext session canonical (Fields.get request.headers amzDate)) =
      Function.uncurry ext.hmac
        (hmacInput ext session canonical' (Fields.get other.headers amzDate)) :=
    hexEncode_injective hsignature
  by_cases hinput : hmacInput ext session canonical (Fields.get request.headers amzDate) =
      hmacInput ext session canonical' (Fields.get other.headers amzDate)
  · have hmessage := (Prod.mk.inj hinput).2
    obtain ⟨-, hhash⟩ := stringToSign_inj hsha (h.newline_not_mem_get (by decide))
      (h'.newline_not_mem_get (by decide)) hmessage
    by_cases he : canonical = canonical'
    · exact .inl (htext.mp he)
    · exact .inr ⟨_, _, _, _, hcanonical, hcanonical', .inl ⟨he, hhash⟩⟩
  · exact .inr ⟨_, _, _, _, hcanonical, hcanonical', .inr ⟨hinput, hdigest⟩⟩

-- Without a payload hash of the caller's the hash that is signed is the body's.
theorem get_hash_stamped (hempty : Fields.get request.headers contentSha256 = []) (timestamp : Str) :
    Fields.get (stampRequest ext request session timestamp).headers contentSha256 =
      hexEncode (ext.sha256 request.body) := by
  have hunset : Fields.get (Fields.set request.headers (ascii "Host") session.endpoint) contentSha256 = [] := by
    rw [Fields.get_set_ne _ _ (by decide), hempty]
  rw [Fields.get, find_stamped ext request session timestamp (by decide) (by decide) (by decide)
    (by decide), ← Fields.get, hashPayload, hunset, if_pos List.isEmpty_nil,
    Fields.get_set_self, trim_of_no_blank (hexEncode_no_blank _)]

end Accepted

-- The signature binds the request: whoever presents a request under it is
-- accepted for one that agrees with what was sent, and for another only by a
-- collision.
theorem authorization_binds (ext : Externals)
    (hgrammar : ∀ text, ext.originForm text → newlineByte ∉ text)
    (hsha : ∀ message, (ext.sha256 message).length = 32)
    (hhmac : ∀ key message, (ext.hmac key message).length = 32)
    (session : Session) (hendpoint : newlineByte ∉ session.endpoint)
    (request : Request) (htarget : ext.originForm request.target)
    (hfields : ∀ f ∈ request.headers, signedName (lower f.name) → Token f.name ∧ newlineByte ∉ f.value)
    (now : UtcTime) :
    ∃ sent target, prepareRequest ext request session now = .ok sent ∧ WellFramed ext sent target ∧
      ∀ other target', WellFramed ext other target' →
        Fields.get other.headers authorizationName = Fields.get sent.headers authorizationName →
        (Agree sent other target target' → Accepts ext session other) ∧
        (Accepts ext session other →
          Agree sent other target target' ∨ Broken ext session sent other) ∧
        (Agree sent other target target' → Fields.get request.headers contentSha256 = [] →
          Fields.get other.headers contentSha256 = hexEncode (ext.sha256 other.body) →
          request.body = other.body ∨ Collide ext.sha256 request.body other.body) := by
  have hne : ∀ message, ext.sha256 message ≠ [] := fun message he => by
    have := hsha message
    rw [he] at this
    exact absurd this (by decide)
  obtain ⟨target, hparse⟩ : ∃ target, parseOriginForm ext request.target = some target := by
    rw [parseOriginForm, if_pos htarget]
    exact ⟨_, rfl⟩
  obtain ⟨sign, sent, hsent, hprepare, haccepts⟩ := prepareRequest_stamped hne hparse session now
  have hframed : WellFramed ext sent target := by
    rw [hsent]
    exact wellFramed_setAuthorization (wellFramed_stamped hne hendpoint hfields hparse now)
  refine ⟨sent, target, hprepare, hframed, fun other target' hother hsame => ⟨fun hagree => ?_,
    fun haccepts' => ?_, fun hagree hempty hbody => ?_⟩⟩
  · rw [Accepts, ← recomputeAuthorization_congr hframed hother hgrammar hagree, haccepts, hsame]
  · exact agree_or_broken hframed hother hgrammar hsha hhmac haccepts haccepts' hsame
  · have hhash : Fields.get sent.headers contentSha256 = Fields.get other.headers contentSha256 :=
      hagree.get (by decide) (by decide)
    rw [hsent, Fields.get_set_ne _ _ (by decide), get_hash_stamped hempty, hbody] at hhash
    by_cases he : request.body = other.body
    · exact .inl he
    · exact .inr ⟨he, hexEncode_injective hhash⟩

-- A proxy on the way puts a header of its own in front.
def proxied (request : Request) : Request :=
  { request with headers := Field.store (ascii "Via") (ascii "proxy") :: request.headers }

theorem authorization_binds_proxied :
    ∃ sent, prepareRequest uploadExternals uploadRequest uploadSession uploadTime = .ok sent ∧
      Accepts uploadExternals uploadSession (proxied sent) := by
  have hgrammar : ∀ text, uploadExternals.originForm text → newlineByte ∉ text := by
    intro text h hm
    have hall := List.all_eq_true.mp (Bool.and_eq_true_iff.mp h).2 _ hm
    exact absurd hall (by decide)
  have hhmac : ∀ key message, (uploadExternals.hmac key message).length = 32 := by
    intro key message
    simp only [uploadExternals]
    split_ifs <;> rfl
  obtain ⟨sent, target, hsent, hframed, hbinds⟩ := authorization_binds uploadExternals hgrammar
    (fun _ => rfl) hhmac uploadSession (by decide) uploadRequest (by decide) (by decide +kernel)
    uploadTime
  have hunsigned : signedName (lower (ascii "Via")) = false := by decide
  have hproxied : WellFramed uploadExternals (proxied sent) target := by
    refine ⟨hframed.parsed, hframed.host, hframed.hash, fun f hf hsigned => ?_⟩
    rcases List.mem_cons.mp hf with rfl | hf
    · exact absurd hsigned (by simpa [Field.store] using hunsigned)
    · exact hframed.fields f hf hsigned
  refine ⟨sent, hsent, (hbinds (proxied sent) target hproxied rfl).1 ⟨rfl, rfl, fun _ => rfl, ?_⟩⟩
  intro name hsigned
  have hname : ¬ lower (ascii "Via") = name := by
    rintro rfl
    exact absurd hsigned (by decide)
  simp [proxied, firstField, Field.store, hname]

end S3Cpp.Aws.S3
