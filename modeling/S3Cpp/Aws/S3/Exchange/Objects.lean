import Mathlib.Logic.Function.Basic
import S3Cpp.Aws.S3.Exchange.Theorems
import S3Cpp.Aws.S3.Session.Theorems

-- The objects that a session puts and gets, as its caller and as a service that
-- sees only the requests have them.
namespace S3Cpp.Aws.S3.Exchange

open Library Library.Http Iam

abbrev Objects := Str → Option Str

inductive Command
  | put (data : Str)
  | get
  deriving DecidableEq

-- A path that is handed over encoded has no query in it.
structure Operation where
  command : Command
  path : Str
  headers : Fields
  isEncoded : Bool
  plain : isEncoded = true → questionMark ∉ path
  deriving DecidableEq

inductive Answer
  | forbidden
  | incomplete
  | badDigest
  | notAllowed
  | stored
  | found (data : Option Str)
  deriving DecidableEq

namespace Operation

variable (operation : Operation)

def data : Str :=
  match operation.command with
  | .put data => data
  | .get => []

def arguments : Arguments where
  method :=
    match operation.command with
    | .put _ => ascii "PUT"
    | .get => ascii "GET"
  path := operation.path
  isPathEncoded := operation.isEncoded
  query := []
  headers := operation.headers
  body := operation.data

-- The name of the object that the caller means.
def name : Str := if operation.isEncoded then Percent.decode operation.path else operation.path

-- The caller may say what the digest of its data is, and may be wrong.
def misdeclared (ext : Externals) : Bool :=
  let declared := Fields.get operation.headers contentSha256
  declared ≠ [] && declared ≠ hexEncode (ext.sha256 operation.data)

-- What the operation does to the objects, and what the caller is told.
def perform (ext : Externals) (objects : Objects) : Objects × Answer :=
  if operation.misdeclared ext then (objects, .badDigest)
  else
    match operation.command with
    | .put data => (Function.update objects operation.name (some data), .stored)
    | .get => (objects, .found (objects operation.name))

end Operation

-- What a service that has the session's keys makes of a request.
def serve (ext : Externals) (session : Session) (request : Request) (objects : Objects) : Objects × Answer :=
  let name := (Target.read request.target).path
  if recomputeAuthorization ext session request ≠ .ok (Fields.get request.headers authorizationName) then
    (objects, .forbidden)
  else if Fields.get request.headers (ascii "Content-Length") ≠ decimal request.body.length then
    (objects, .incomplete)
  else if Fields.get request.headers contentSha256 ≠ hexEncode (ext.sha256 request.body) then
    (objects, .badDigest)
  else if request.method = ascii "PUT" then
    (Function.update objects name (some request.body), .stored)
  else if request.method = ascii "GET" then (objects, .found (objects name))
  else (objects, .notAllowed)

section Served

variable {ext : Externals} {session : Session} {now : UtcTime}

-- The operations are those of Session::put and Session::get.
theorem Operation.prepare_eq (operation : Operation) :
    operation.arguments.prepare ext session now =
      match operation.command with
      | .put data => Session.put ext session now operation.path data operation.headers operation.isEncoded
      | .get => Session.get ext session now operation.path [] operation.headers operation.isEncoded := by
  obtain ⟨command, path, headers, isEncoded, plain⟩ := operation
  cases command <;> rfl

theorem get_contentLength (ext : Externals) (headers : Fields) (size : Nat) :
    Fields.get (contentLength ext headers size) (ascii "Content-Length") = decimal size := by
  have hset : Fields.get (Fields.set headers (ascii "Content-Length") (decimal size)) (ascii "Content-Length") =
      decimal size := by
    rw [Fields.get_set_self]
    exact trim_of_no_blank (decimal_no_blank size)
  simp only [contentLength]
  split
  · exact hset
  · split
    · rw [Fields.get, Fields.find_erase_ne _ (by decide)]
      exact hset
    · rw [Fields.get_set_ne _ _ (by decide)]
      exact hset

-- What a receiver reads out of the path that is sent is what the caller means.
theorem Operation.read_target (operation : Operation)
    (hform : (Session.encodedTarget operation.path operation.isEncoded []).head? = some Target.slash) :
    (Target.read (Session.encodedTarget operation.path operation.isEncoded [])).path = operation.name := by
  have hwhole {path : Str} (hpath : questionMark ∉ path) : Target.pathOf path = path := by
    rw [Target.pathOf, List.takeWhile_eq_self_iff]
    exact Target.ne_of_not_mem hpath
  cases hencoded : operation.isEncoded with
  | true =>
      have htarget : Session.encodedTarget operation.path true [] = operation.path := by
        simp [Session.encodedTarget]
      rw [htarget, Target.read, hwhole (operation.plain hencoded), Operation.name, hencoded, if_pos rfl]
  | false =>
      rw [hencoded] at hform
      have hname : operation.name = operation.path := by
        rw [Operation.name, hencoded]
        rfl
      cases hrequired : urlencodePathRequired operation.path with
      | true =>
          have htarget : Session.encodedTarget operation.path false [] = urlencodePath operation.path := by
            simp [Session.encodedTarget, hrequired]
          have hnone : questionMark ∉ urlencodePath operation.path :=
            Target.questionMark_not_mem_encode (by decide) operation.path
          rw [htarget, Target.read, hwhole hnone, hname]
          exact Percent.decode_encode pathCharset (by decide) operation.path
      | false =>
          -- the path is left as it is, and has no slash to begin with
          have htarget : Session.encodedTarget operation.path false [] = operation.path := by
            simp [Session.encodedTarget, hrequired]
          rw [htarget] at hform
          have hslash : Target.slash ∈ operation.path := List.mem_of_mem_head? hform
          have hrequires := (encodingRequired_iff pathCharset operation.path).mpr ⟨_, hslash, by decide⟩
          rw [urlencodePathRequired, hrequires] at hrequired
          cases hrequired

theorem Operation.get_contentSha256 (operation : Operation) (sign : Str) :
    let stamped := stampRequest ext ⟨operation.arguments.method,
      Session.encodedTarget operation.path operation.isEncoded [], operation.headers, operation.data⟩ session
      (formatTimestamp now)
    (Fields.get (Fields.set stamped.headers authorizationName sign) contentSha256 ≠
      hexEncode (ext.sha256 operation.data)) ↔ operation.misdeclared ext := by
  intro stamped
  rw [Fields.get_set_ne _ _ (by decide), Fields.get,
    find_stamped _ _ _ _ (by decide) (by decide) (by decide) (by decide), ← Fields.get]
  have hhost : Fields.get (Fields.set operation.headers (ascii "Host") session.endpoint) contentSha256 =
      Fields.get operation.headers contentSha256 := Fields.get_set_ne _ _ (by decide)
  simp only [hashPayload, hhost]
  cases hdeclared : (Fields.get operation.headers contentSha256).isEmpty with
  | true =>
      rw [if_pos rfl, Fields.get_set_self, trim_of_no_blank (hexEncode_no_blank _)]
      have hnone : Fields.get operation.headers contentSha256 = [] := by simpa using hdeclared
      simp [Operation.misdeclared, hnone]
  | false =>
      rw [if_neg Bool.false_ne_true, hhost]
      have hsome : Fields.get operation.headers contentSha256 ≠ [] := by simpa using hdeclared
      simp [Operation.misdeclared, hsome]

-- The service does what the caller has asked for.
theorem serve_prepare (hsha : ∀ message, ext.sha256 message ≠ [])
    (hgrammar : ∀ target, ext.originForm target → target.head? = some Target.slash) {operation : Operation}
    {request : Request} (h : operation.arguments.prepare ext session now = .ok request) (objects : Objects) :
    serve ext session request objects = operation.perform ext objects := by
  obtain ⟨sign, hform, hrequest, hsigned⟩ := Arguments.prepare_stamped hsha h
  have hname : (Target.read request.target).path = operation.name := by
    rw [hrequest]
    exact operation.read_target (hgrammar _ hform)
  have hbody : request.body = operation.data := by
    rw [hrequest]
    rfl
  have hmethod : request.method = operation.arguments.method := by
    rw [hrequest]
    rfl
  have hlength : Fields.get request.headers (ascii "Content-Length") = decimal operation.data.length := by
    rw [hrequest]
    simp only [stampRequest]
    rw [Fields.get_set_ne _ _ (by decide), Fields.get_set_ne _ _ (by decide), Fields.get_set_ne _ _ (by decide)]
    exact get_contentLength _ _ _
  have hdigest : Fields.get request.headers contentSha256 ≠ hexEncode (ext.sha256 operation.data) ↔
      operation.misdeclared ext := by
    rw [hrequest]
    exact operation.get_contentSha256 sign
  simp only [serve, hsigned, hbody, hlength, hname, hmethod, ne_eq, not_true_eq_false, if_false]
  by_cases hmisdeclared : operation.misdeclared ext
  · rw [if_pos (hdigest.mpr hmisdeclared), Operation.perform, if_pos hmisdeclared]
  · rw [if_neg (mt hdigest.mp hmisdeclared), Operation.perform, if_neg hmisdeclared]
    obtain ⟨command, path, headers, isEncoded, plain⟩ := operation
    cases command <;> rfl

end Served

end S3Cpp.Aws.S3.Exchange
