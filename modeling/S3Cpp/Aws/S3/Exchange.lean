import S3Cpp.Aws.S3.DnsCache
import S3Cpp.Aws.S3.Session

namespace S3Cpp.Aws.S3.Exchange

open Library.Http Library.Transition Iam DnsCache

-- The endpoint's URL as far as a connection depends on it. Without a scheme
-- scheme() is empty.
structure EndpointUrl where
  scheme : Option Str
  host : Str
  hostName : Str
  port : Option Str

namespace EndpointUrl

variable (url : EndpointUrl)

-- What update() asks the resolver for along with the host.
def portOrScheme : Str := url.port.getD (url.scheme.getD (ascii "https"))

def isSsl : Bool := url.scheme.getD [] ≠ ascii "http"

-- The name as OpenSSL reads it.
def hostNameCStr : Str := url.hostName.takeWhile (· ≠ 0)

end EndpointUrl

-- The stream of one request, of the variant with TLS or of the one without.
structure Stream where
  isSsl : Bool
  expiresAfter : Option Nat
  peer : Option Str
  tlsextHostName : Option Str
  verifyCallback : Option Str
  verifyPeer : Bool
  shaken : Bool
deriving DecidableEq

def getSslStream (isSsl : Bool) : Stream := ⟨isSsl, none, none, none, none, false, false⟩

-- Where a method_impl call stands once its request is prepared.
inductive Stage (ρ : Type)
  | expiresAfter
  | getEndpoint (caller : Nat)
  | connect (endpoints : Results)
  | setHostName
  | setVerifyCallback
  | setVerifyMode
  | handshake
  | write
  | read
  | returned (result : Except ErrorCode ρ)

-- The requests that have gone out, in whole or in part, with the peer each went to.
structure Call (ρ : Type) where
  request : Request
  stage : Stage ρ
  stream : Stream
  written : List (Option Str × Request)

-- What an operation on the stream completes with. The name that SSL takes, the
-- endpoint that is reached and the response are used only by their own steps.
structure Outcome (ρ : Type) where
  code : ErrorCode
  accepted : Bool
  reached : Nat
  response : ρ

def Call.fail {ρ : Type} (call : Call ρ) (code : ErrorCode) : Call ρ :=
  { call with stage := .returned (.error code) }

-- One step of prepare_stream and of what method_impl does with the stream.
def callStep {ρ : Type} (url : EndpointUrl) (outcome : Outcome ρ) (call : Call ρ) : Option (Call ρ) :=
  let failed := outcome.code.failed
  match call.stage with
  | .connect endpoints =>
      if failed then some (call.fail outcome.code)
      else
        (endpoints[outcome.reached]?).map fun peer =>
          { call with stream.peer := some peer, stage := if call.stream.isSsl then .setHostName else .write }
  | .setHostName =>
      if outcome.accepted then
        some { call with stream.tlsextHostName := some url.hostNameCStr, stage := .setVerifyCallback }
      else some (call.fail outcome.code)
  | .setVerifyCallback =>
      if failed then some (call.fail outcome.code)
      else some { call with stream.verifyCallback := some url.hostName, stage := .setVerifyMode }
  | .setVerifyMode =>
      if failed then some (call.fail outcome.code)
      else some { call with stream.verifyPeer := true, stage := .handshake }
  | .handshake =>
      if failed then some (call.fail outcome.code)
      else some { call with stream.shaken := true, stage := .write }
  | .write =>
      let call := { call with written := call.written ++ [(call.stream.peer, call.request)] }
      if failed then some (call.fail outcome.code) else some { call with stage := .read }
  | .read =>
      if failed then some (call.fail outcome.code)
      else some { call with stage := .returned (.ok outcome.response) }
  | .expiresAfter | .getEndpoint _ | .returned _ => none

-- A session at work: its cache and the calls that share it.
structure State (ρ : Type) where
  cache : DnsCache.State
  calls : List (Call ρ)

-- Session::Session
def construct {ρ : Type} (now : Int) (resolution : Resolution) : State ρ := ⟨DnsCache.construct now resolution, []⟩

-- The arguments of method_impl.
structure Arguments where
  method : Str
  path : Str
  isPathEncoded : Bool
  query : Str
  headers : Fields
  body : Str

def Arguments.prepare (arguments : Arguments) (ext : Externals) (session : Session) (now : UtcTime) :
    Except Failure Request :=
  Session.methodImpl ext session now arguments.method arguments.path arguments.isPathEncoded arguments.query
    arguments.headers arguments.body

inductive Action (ρ : Type)
  | call (now : UtcTime) (arguments : Arguments)
  | step (index : Nat) (now : Int) (resolution : Resolution) (outcome : Outcome ρ)

section Step

variable {ρ : Type} (ext : Externals) (session : Session) (url : EndpointUrl)

-- One step of one call. Until it has endpoints these are the steps of its
-- get_endpoint call.
def advance (now : Int) (resolution : Resolution) (outcome : Outcome ρ) (s : State ρ) (call : Call ρ) :
    Option (DnsCache.State × Call ρ) :=
  match call.stage with
  | .expiresAfter =>
      (DnsCache.step s.cache .call).map fun cache =>
        (cache, { call with stream.expiresAfter := some 300, stage := .getEndpoint s.cache.callers.length })
  | .getEndpoint caller =>
      match s.cache.callers[caller]? with
      | some (.returned (.ok endpoints)) => some (s.cache, { call with stage := .connect endpoints })
      | some (.returned (.error code)) => some (s.cache, call.fail code)
      | _ => (DnsCache.step s.cache (.step caller now resolution)).map fun cache => (cache, call)
  | _ => (callStep url outcome call).map fun call => (s.cache, call)

-- An exception in prepare_request ends a call before it has touched anything.
def step (s : State ρ) : Action ρ → Option (State ρ)
  | .call now arguments =>
      match arguments.prepare ext session now with
      | .error _ => some s
      | .ok request =>
          some { s with calls := s.calls ++ [⟨request, .expiresAfter, getSslStream url.isSsl, []⟩] }
  | .step index now resolution outcome =>
      (s.calls[index]?).bind fun call =>
        (advance url now resolution outcome s call).map fun next =>
          { cache := next.1, calls := s.calls.set index next.2 }

end Step

end S3Cpp.Aws.S3.Exchange
