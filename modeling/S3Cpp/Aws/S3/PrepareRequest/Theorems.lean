import S3Cpp.Aws.Iam.Canonicalize.Theorems
import S3Cpp.Aws.S3.PrepareRequest

namespace S3Cpp.Aws.S3

open Library Library.Http Iam

-- Signature Version 4 from the side of a receiver who has the keys and the region
-- and goes by the date that the request bears.
section Receiver

variable (ext : Externals) (session : Session) (request : Request)

def receivedScope : List Str :=
  [(Fields.get request.headers amzDate).take 8, session.region, ascii "s3", ascii "aws4_request"]

def receivedStringToSign (canonical : Str) : Str :=
  (ascii "\n").intercalate [ascii "AWS4-HMAC-SHA256", Fields.get request.headers amzDate,
    (ascii "/").intercalate (receivedScope session request), hexEncode (ext.sha256 canonical)]

def receivedSignature (canonical : Str) : Str :=
  let date := (Fields.get request.headers amzDate).take 8
  let key := ext.hmac (ext.hmac (ext.hmac (ext.hmac (ascii "AWS4" ++ session.secretAccessKey) date) session.region)
    (ascii "s3")) (ascii "aws4_request")
  hexEncode (ext.hmac key (receivedStringToSign ext session request canonical))

def receivedAuthorization (canonical signed : Str) : Str :=
  ascii "AWS4-HMAC-SHA256 Credential=" ++
    (ascii "/").intercalate (session.accessKey :: receivedScope session request) ++
    ascii ",SignedHeaders=" ++ signed ++ ascii ",Signature=" ++ receivedSignature ext session request canonical

-- What a verifier computes from a request it has received.
def recomputeAuthorization : Except Failure Str := do
  let (canonical, signed, _) ← canonicalizeRequest ext request
  return receivedAuthorization ext session request canonical signed

-- The receiver comes to the text that the sender writes for the same date.
theorem signRequest_received (canonical signed : Str) :
    signRequest ext session.accessKey session.secretAccessKey canonical signed
        (Fields.get request.headers amzDate) (signingScope session (Fields.get request.headers amzDate)) =
      receivedAuthorization ext session request canonical signed := by
  have hscope : (signingScope session (Fields.get request.headers amzDate)).format =
      (ascii "/").intercalate (receivedScope session request) := by
    simp [Scope.format, signingScope, receivedScope, List.intercalate, Scope.footer]
  have hscheme : ascii "AWS4-HMAC-SHA256\n" = ascii "AWS4-HMAC-SHA256" ++ ascii "\n" := by decide
  have htext : stringToSign ext canonical (signingScope session (Fields.get request.headers amzDate))
      (Fields.get request.headers amzDate) = receivedStringToSign ext session request canonical := by
    rw [stringToSign, hscope, hscheme]
    simp [receivedStringToSign, List.intercalate]
  have hcredential : (ascii "/").intercalate (session.accessKey :: receivedScope session request) =
      session.accessKey ++ ascii "/" ++ (ascii "/").intercalate (receivedScope session request) := by
    simp [receivedScope, List.intercalate]
  rw [signRequest, authorization, signature, htext, hscope, receivedAuthorization, hcredential]
  simp only [List.append_assoc]
  rfl

end Receiver

-- The text lists the names that have to be signed, each once and in order.
def ListsSignedHeaders (headers : Fields) (text : Str) : Prop :=
  ∃ names : List Str, text = (ascii ";").intercalate names ∧
    names.Pairwise (· < ·) ∧ (∀ name ∈ names, lower name = name) ∧
    ∀ name, name ∈ names ↔ name = hostName ∨
      (∃ f ∈ headers, lower f.name = name) ∧ (name = contentMd5 ∨ xAmz name)

section Written

theorem decimal_no_blank (n : Nat) : ∀ b ∈ decimal n, ¬ blank b := by
  have hdigit : ∀ d < 10, ¬ blank (48 + d).toUInt8 := by decide
  intro b hb
  unfold decimal at hb
  split at hb
  · exact @no_blank_of_all (ascii "0") (by decide) b hb
  · obtain ⟨d, hd, rfl⟩ := List.mem_map.mp hb
    exact hdigit d (Nat.digits_lt_base (by decide) (List.mem_reverse.mp hd))

theorem padded_no_blank (width n : Nat) : ∀ b ∈ padded width n, ¬ blank b := by
  intro b hb
  rcases List.mem_append.mp hb with hb | hb
  · obtain rfl := List.eq_of_mem_replicate hb
    decide
  · exact decimal_no_blank n b hb

theorem trim_formatTimestamp (time : UtcTime) : trim (formatTimestamp time) = formatTimestamp time := by
  apply trim_of_no_blank
  have hletter : ∀ b ∈ ascii "T" ++ ascii "Z", ¬ blank b := no_blank_of_all (by decide)
  intro b hb
  simp only [formatTimestamp, List.mem_append] at hb hletter
  rcases hb with (((((((hb | hb) | hb) | hb) | hb) | hb) | hb) | hb)
  all_goals first
    | exact padded_no_blank _ _ b hb
    | exact hletter b (.inl hb)
    | exact hletter b (.inr hb)

-- The value begins with the scheme and ends in a digit of the signature.
theorem trim_signRequest (ext : Externals) (accessKey secretAccessKey canonical signedHeaders timestamp : Str)
    (scope : Scope) :
    trim (signRequest ext accessKey secretAccessKey canonical signedHeaders timestamp scope) =
      signRequest ext accessKey secretAccessKey canonical signedHeaders timestamp scope := by
  have hscheme : ascii "AWS4-HMAC-SHA256 Credential=" = 65 :: (ascii "AWS4-HMAC-SHA256 Credential=").tail := by
    decide
  have hlabel : ∀ b ∈ ascii ",Signature=", ¬ blank b := no_blank_of_all (by decide)
  rw [signRequest, authorization]
  apply trim_of_ends
  · rw [hscheme]
    intro b hb
    simp only [List.cons_append, List.head?_cons, Option.mem_some_iff] at hb
    subst hb
    decide
  · intro b hb
    rw [List.append_assoc, List.getLast?_append_of_ne_nil _ (by simp [ascii])] at hb
    rcases List.mem_append.mp (List.mem_of_mem_getLast? hb) with hb | hb
    · exact hlabel b hb
    · exact hexEncode_no_blank _ b hb

end Written

theorem listsSignedHeaders_headerMap {host : Field} {headers : Fields} :
    ListsSignedHeaders headers (signedHeaders (headerMap host headers)) := by
  have hmem := mem_keys_headerMap host headers
  refine ⟨_, signedHeaders_eq _, OrderedMap.keys_ordered _, fun name hm => ?_, fun name => ?_⟩
  · rcases (hmem name).mp hm with rfl | ⟨f, _, rfl, _⟩
    · decide
    · exact lower_idem f.name
  · rw [hmem]
    refine or_congr Iff.rfl ⟨?_, ?_⟩
    · rintro ⟨f, hf, hname, he⟩
      refine ⟨⟨f, hf, hname⟩, ?_⟩
      rcases Bool.or_eq_true_iff.mp he with he | he
      · exact .inr he
      · exact .inl (by simpa using he)
    · rintro ⟨⟨f, hf, hname⟩, he⟩
      refine ⟨f, hf, hname, ?_⟩
      rcases he with rfl | he
      · simp [extraName]
      · simp [extraName, he]

-- Apart from Content-Length and Transfer-Encoding every field stays as it is.
theorem find_contentLength_ne (ext : Externals) (headers : Fields) (size : Nat) {name : Str}
    (hlength : lower (ascii "Content-Length") ≠ lower name)
    (hcoding : lower (ascii "Transfer-Encoding") ≠ lower name) :
    Fields.find (contentLength ext headers size) name = Fields.find headers name := by
  have hset := Fields.find_set_ne headers (decimal size) hlength
  simp only [contentLength]
  split
  · exact hset
  · split
    · rw [Fields.find_erase_ne _ hcoding, hset]
    · rw [Fields.find_set_ne _ _ hcoding, hset]

section Stamped

variable (ext : Externals) (request : Request) (session : Session) (timestamp : Str)

theorem find_stamped {name : Str}
    (hlength : lower (ascii "Content-Length") ≠ lower name)
    (hcoding : lower (ascii "Transfer-Encoding") ≠ lower name)
    (hdate : lower amzDate ≠ lower name) (haccept : lower (ascii "Accept-Encoding") ≠ lower name) :
    Fields.find (stampRequest ext request session timestamp).headers name =
      Fields.find (hashPayload ext request.body
        (Fields.set request.headers (ascii "Host") session.endpoint)) name := by
  simp only [stampRequest]
  rw [Fields.find_set_ne _ _ haccept, Fields.find_set_ne _ _ hdate,
    find_contentLength_ne _ _ _ hlength hcoding]

theorem host_stamped :
    Fields.find (stampRequest ext request session timestamp).headers hostName =
      some (Field.store (ascii "Host") session.endpoint) := by
  have hself := Fields.find_set_self request.headers (ascii "Host") session.endpoint
  have hnamed : ∀ headers : Fields, Fields.find headers hostName = Fields.find headers (ascii "Host") :=
    fun _ => rfl
  rw [find_stamped ext request session timestamp (by decide) (by decide) (by decide) (by decide),
    find_hashPayload_ne _ _ _ (by decide), hnamed, hself]

theorem hash_stamped (hsha : ∀ message, ext.sha256 message ≠ []) :
    Fields.get (stampRequest ext request session timestamp).headers contentSha256 ≠ [] := by
  rw [Fields.get, find_stamped ext request session timestamp (by decide) (by decide) (by decide)
    (by decide), ← Fields.get]
  exact get_hashPayload ext hsha _ _

theorem date_stamped : Fields.get (stampRequest ext request session timestamp).headers amzDate =
    trim timestamp := by
  simp only [stampRequest]
  rw [Fields.get_set_ne _ _ (by decide), Fields.get_set_self]

end Stamped

-- The header set last is not one that is signed.
theorem canonicalizeRequest_setAuthorization (ext : Externals) {request : Request} {target : Target}
    {host : Field} (hparse : parseOriginForm ext request.target = some target)
    (hhost : Fields.find request.headers hostName = some host)
    (hhash : Fields.get request.headers contentSha256 ≠ []) (sign : Str) :
    let sent := { request with headers := Fields.set request.headers authorizationName sign }
    canonicalizeRequest ext sent =
      .ok (canonicalText request.method target (headerMap host request.headers)
          (Fields.get request.headers contentSha256),
        signedHeaders (headerMap host request.headers), sent) := by
  intro sent
  have hmap : headerMap host sent.headers = headerMap host request.headers :=
    headerMap_set host request.headers sign (by decide)
  have hget : Fields.get sent.headers contentSha256 = Fields.get request.headers contentSha256 :=
    Fields.get_set_ne _ _ (by decide)
  have hfind : Fields.find sent.headers hostName = some host := by
    rw [Fields.find_set_ne _ _ (by decide)]
    exact hhost
  rw [← hmap, ← hget]
  exact @canonicalizeRequest_of_hashed ext sent target host hparse hfind (hget ▸ hhash)

-- What prepare_request makes of a request.
structure Prepared (ext : Externals) (request : Request) (session : Session) (now : UtcTime)
    (sign canonical signed : Str) (sent : Request) : Prop where
  sent_eq : sent = { stampRequest ext request session (formatTimestamp now) with
    headers := Fields.set (stampRequest ext request session (formatTimestamp now)).headers authorizationName sign }
  prepares : prepareRequest ext request session now = .ok sent
  stamped : canonicalizeRequest ext (stampRequest ext request session (formatTimestamp now)) =
    .ok (canonical, signed, stampRequest ext request session (formatTimestamp now))
  signs : sign = signRequest ext session.accessKey session.secretAccessKey canonical signed
    (formatTimestamp now) (signingScope session (formatTimestamp now))
  again : canonicalizeRequest ext sent = .ok (canonical, signed, sent)
  names : ListsSignedHeaders sent.headers signed
  date : Fields.get sent.headers amzDate = formatTimestamp now
  written : Fields.get sent.headers authorizationName = sign

theorem exists_prepared {ext : Externals} (hsha : ∀ message, ext.sha256 message ≠ [])
    {request : Request} {target : Target} (hparse : parseOriginForm ext request.target = some target)
    (session : Session) (now : UtcTime) :
    ∃ sign canonical signed sent, Prepared ext request session now sign canonical signed sent := by
  set stamped := stampRequest ext request session (formatTimestamp now) with hstamped
  set host := Field.store (ascii "Host") session.endpoint
  have hhost : Fields.find stamped.headers hostName = some host :=
    host_stamped ext request session (formatTimestamp now)
  have hhash : Fields.get stamped.headers contentSha256 ≠ [] :=
    hash_stamped ext request session (formatTimestamp now) hsha
  set canonical := canonicalText request.method target (headerMap host stamped.headers)
    (Fields.get stamped.headers contentSha256)
  set signed := signedHeaders (headerMap host stamped.headers) with hsigned
  set sign := signRequest ext session.accessKey session.secretAccessKey canonical signed
    (formatTimestamp now) (signingScope session (formatTimestamp now))
  have hfirst : canonicalizeRequest ext stamped = .ok (canonical, signed, stamped) :=
    canonicalizeRequest_of_hashed ext hparse hhost hhash
  refine ⟨sign, canonical, signed, _, ⟨rfl, ?_, hfirst, rfl, ?_, ?_, ?_, ?_⟩⟩
  · rw [prepareRequest, ← hstamped, hfirst]
    rfl
  · exact @canonicalizeRequest_setAuthorization ext stamped target host hparse hhost hhash sign
  · have hmap : headerMap host (Fields.set stamped.headers authorizationName sign) =
        headerMap host stamped.headers := headerMap_set host stamped.headers sign (by decide)
    rw [hsigned, ← hmap]
    exact listsSignedHeaders_headerMap
  · rw [Fields.get_set_ne _ _ (by decide), date_stamped, trim_formatTimestamp]
  · rw [Fields.get_set_self]
    exact trim_signRequest _ _ _ _ _ _ _

section Prepared

variable {ext : Externals} {request sent : Request} {session : Session} {now : UtcTime}
  {sign canonical signed : Str}

theorem Prepared.received (h : Prepared ext request session now sign canonical signed sent) :
    Fields.get sent.headers authorizationName = receivedAuthorization ext session sent canonical signed := by
  rw [← signRequest_received, h.date, h.written, h.signs]

theorem Prepared.verifies (h : Prepared ext request session now sign canonical signed sent) :
    recomputeAuthorization ext session sent = .ok (Fields.get sent.headers authorizationName) := by
  rw [recomputeAuthorization, h.again, h.received]
  rfl

end Prepared

-- What is sent is the stamped request with a value under Authorization that a
-- verifier finds again.
theorem prepareRequest_stamped {ext : Externals} (hsha : ∀ message, ext.sha256 message ≠ [])
    {request : Request} {target : Target} (hparse : parseOriginForm ext request.target = some target)
    (session : Session) (now : UtcTime) :
    ∃ (sign : Str) (sent : Request), sent = { stampRequest ext request session (formatTimestamp now) with
        headers := Fields.set (stampRequest ext request session (formatTimestamp now)).headers
          authorizationName sign } ∧
      prepareRequest ext request session now = .ok sent ∧
      recomputeAuthorization ext session sent = .ok (Fields.get sent.headers authorizationName) := by
  obtain ⟨sign, canonical, signed, sent, h⟩ := exists_prepared hsha hparse session now
  exact ⟨sign, sent, h.sent_eq, h.prepares, h.verifies⟩

-- The signature covers the request as it is sent: the text under Authorization
-- names the signed headers and ends in what a receiver computes from the request.
theorem prepareRequest_signs (ext : Externals) (hsha : ∀ message, ext.sha256 message ≠ [])
    (request : Request) (htarget : ext.originForm request.target) (session : Session)
    (now : UtcTime) :
    ∃ sent canonical signed,
      prepareRequest ext request session now = .ok sent ∧
      canonicalizeRequest ext (stampRequest ext request session (formatTimestamp now)) =
        .ok (canonical, signed, stampRequest ext request session (formatTimestamp now)) ∧
      Fields.get sent.headers authorizationName =
        signRequest ext session.accessKey session.secretAccessKey canonical signed
          (formatTimestamp now) (signingScope session (formatTimestamp now)) ∧
      canonicalizeRequest ext sent = .ok (canonical, signed, sent) ∧
      ListsSignedHeaders sent.headers signed ∧
      Fields.get sent.headers amzDate = formatTimestamp now ∧
      Fields.get sent.headers authorizationName =
        ascii "AWS4-HMAC-SHA256 Credential=" ++ session.accessKey ++ ascii "/" ++
          (formatTimestamp now).take 8 ++ ascii "/" ++ session.region ++ ascii "/s3/aws4_request" ++
          ascii ",SignedHeaders=" ++ signed ++ ascii ",Signature=" ++
          receivedSignature ext session sent canonical ∧
      recomputeAuthorization ext session sent = .ok (Fields.get sent.headers authorizationName) := by
  obtain ⟨target, hparse⟩ : ∃ target, parseOriginForm ext request.target = some target := by
    rw [parseOriginForm, if_pos htarget]
    exact ⟨_, rfl⟩
  obtain ⟨sign, canonical, signed, sent, h⟩ := exists_prepared hsha hparse session now
  have hend : ascii "/s3/aws4_request" = ascii "/" ++ ascii "s3" ++ ascii "/" ++ ascii "aws4_request" := by decide
  refine ⟨sent, canonical, signed, h.prepares, h.stamped, h.written.trans h.signs, h.again, h.names, h.date, ?_,
    h.verifies⟩
  rw [h.received, receivedAuthorization, receivedScope, h.date, hend]
  simp [List.intercalate]

-- The digests the upload of test/object in the source's tests goes through.
def uploadExternals : Externals where
  sha256 _ :=
    [165, 118, 23, 190, 31, 66, 8, 78, 108, 63, 231, 192, 80, 253, 69, 181,
     216, 52, 87, 115, 66, 210, 218, 67, 204, 36, 139, 186, 207, 245, 116, 107]
  hmac _ message :=
    if message = ascii "20240831" then
      [230, 224, 98, 186, 239, 232, 158, 32, 179, 177, 6, 134, 133, 66, 87, 20,
       71, 20, 117, 230, 217, 70, 3, 133, 157, 50, 31, 6, 28, 15, 171, 250]
    else if message = ascii "default" then
      [47, 119, 14, 4, 170, 67, 238, 132, 134, 194, 2, 236, 67, 84, 19, 217,
       227, 37, 159, 218, 61, 101, 228, 191, 139, 191, 48, 169, 152, 23, 199, 16]
    else if message = ascii "s3" then
      [75, 161, 2, 94, 55, 210, 215, 211, 200, 231, 120, 115, 124, 245, 144, 45,
       143, 29, 24, 215, 207, 138, 157, 2, 232, 55, 141, 212, 106, 208, 61, 146]
    else if message = Scope.footer then
      [26, 191, 199, 237, 25, 193, 231, 84, 140, 74, 208, 180, 10, 186, 115, 139,
       222, 21, 96, 105, 131, 4, 170, 37, 36, 7, 232, 9, 185, 136, 149, 16]
    else
      [237, 32, 208, 215, 137, 199, 86, 92, 12, 206, 125, 187, 145, 126, 229, 150,
       141, 147, 95, 225, 9, 171, 189, 130, 77, 204, 97, 113, 41, 230, 165, 166]
  originForm target := target.head? = some 47 && target.all fun b => Query.queryChar b
  dropChunked _ := []

def uploadSession : Session where
  accessKey := ascii "MFPLGSQ8XT86RRZ7WGMI"
  secretAccessKey := ascii "5GIcBiiLd4ZuXONNYHkMDDdx1zrAHaCODyVlA2TB"
  region := ascii "default"
  endpoint := ascii "rgw.ceph.jgspace.org:7840"

def uploadRequest : Request where
  method := ascii "PUT"
  target := ascii "/test/object"
  headers := [
    Field.store contentSha256
      (ascii "810ff2fb242a5dee4220f2cb0e6a519891fb67f2f828a6cab4ef8894633b1f50"),
    Field.store (ascii "Content-MD5") (ascii "72VMQKtPF0f8aZkV1PcJAg==")]
  body := []

def uploadTime : UtcTime := ⟨2024, 8, 31, 23, 43, 9⟩

theorem prepareRequest_signs_upload :
    ∃ sent canonical signed,
      prepareRequest uploadExternals uploadRequest uploadSession uploadTime = .ok sent ∧
      canonicalizeRequest uploadExternals sent = .ok (canonical, signed, sent) ∧
      ListsSignedHeaders sent.headers signed ∧
      Fields.get sent.headers amzDate = ascii "20240831T234309Z" ∧
      Fields.get sent.headers authorizationName =
        ascii "AWS4-HMAC-SHA256 Credential=MFPLGSQ8XT86RRZ7WGMI/20240831/default/s3/aws4_request" ++
          ascii ",SignedHeaders=" ++ signed ++ ascii ",Signature=" ++
          receivedSignature uploadExternals uploadSession sent canonical ∧
      recomputeAuthorization uploadExternals uploadSession sent =
        .ok (Fields.get sent.headers authorizationName) := by
  obtain ⟨sent, canonical, signed, hsent, -, -, hagain, hnames, hdate, htext, hverify⟩ :=
    prepareRequest_signs uploadExternals (fun _ => by simp [uploadExternals]) uploadRequest
      (by decide) uploadSession uploadTime
  have htime : formatTimestamp uploadTime = ascii "20240831T234309Z" := by decide
  have hcredential : ascii "AWS4-HMAC-SHA256 Credential=MFPLGSQ8XT86RRZ7WGMI/20240831/default/s3/aws4_request" =
      ascii "AWS4-HMAC-SHA256 Credential=" ++ uploadSession.accessKey ++ ascii "/" ++
        (formatTimestamp uploadTime).take 8 ++ ascii "/" ++ uploadSession.region ++
        ascii "/s3/aws4_request" := by decide +kernel
  refine ⟨sent, canonical, signed, hsent, hagain, hnames, hdate.trans htime, ?_, hverify⟩
  rw [htext, hcredential]

example :
    (prepareRequest uploadExternals uploadRequest uploadSession uploadTime).toOption.map
        (fun sent => Fields.get sent.headers authorizationName) =
      some (ascii "AWS4-HMAC-SHA256 " ++ ascii "Credential=MFPLGSQ8XT86RRZ7WGMI/" ++
        ascii "20240831/default/s3/aws4_request," ++ ascii "SignedHeaders=content-md5;host;" ++
        ascii "x-amz-content-sha256;x-amz-date," ++ ascii "Signature=" ++
        ascii "ed20d0d789c7565c0cce7dbb917ee596" ++ ascii "8d935fe109abbd824dcc617129e6a5a6") := by
  decide +kernel

end S3Cpp.Aws.S3
