import S3Cpp.Bytes
import S3Cpp.Library.Transition

namespace S3Cpp.Aws.S3.DnsCache

open Library.Transition

-- boost::system::error_code: the zero value of a category is success.
structure ErrorCode where
  value : Int
  category : Str
  deriving DecidableEq

namespace ErrorCode

def failed (code : ErrorCode) : Bool := code.value ≠ 0

def success : ErrorCode := ⟨0, ascii "system"⟩

def hostUnreachable : ErrorCode := ⟨113, ascii "generic"⟩

end ErrorCode

-- Times are readings of std::chrono::system_clock in nanoseconds.
def seconds (n : Int) : Int := n * 1000000000

-- The addresses a resolution returned, abstract to the cache.
abbrev Results := List Str

structure Endpoints where
  created : Int
  endpoints : Results
  deriving DecidableEq

-- What one async_resolve completes with.
structure Resolution where
  code : ErrorCode
  results : Results
  deriving DecidableEq

abbrev Answer := Except ErrorCode Results

-- Where one get_endpoint call stands in its loop.
inductive Caller
  | snapshot
  | checkNull (endpoints : Option Endpoints)
  | compareExchange (endpoints : Endpoints)
  | update
  | store (newEndpoints : Option Endpoints)
  | resetFlag
  | returned (answer : Answer)
  deriving DecidableEq

structure State where
  currentEndpoints : Option Endpoints
  beingUpdated : Bool
  lastError : ErrorCode
  callers : List Caller
  -- Every value ever stored in current_endpoints, the constructor's first.
  stored : List (Option Endpoints)
  deriving DecidableEq

-- update(): the value to store and, on failure, the new last_error. The
-- creation time is read once the resolver has answered.
def update (lastError : ErrorCode) (now : Int) (resolution : Resolution) :
    ErrorCode × Option Endpoints :=
  if resolution.code.failed then (resolution.code, none)
  else if resolution.results.isEmpty then (ErrorCode.hostUnreachable, none)
  else (lastError, some ⟨now, resolution.results⟩)

-- DnsCache::DnsCache resolves once before any call can be made.
def construct (now : Int) (resolution : Resolution) : State :=
  let result := update ErrorCode.success now resolution
  { currentEndpoints := result.2
    beingUpdated := false
    lastError := result.1
    callers := []
    stored := [result.2] }

def stale (endpoints : Endpoints) (now : Int) : Bool :=
  endpoints.created < now - seconds 60

-- One step of one call. The clock reading and the resolver's answer are used
-- only by the steps that read them.
def callerStep (now : Int) (resolution : Resolution) (s : State) : Caller → Option (State × Caller)
  | .snapshot => some (s, .checkNull s.currentEndpoints)
  | .checkNull none => some (s, .returned (.error s.lastError))
  | .checkNull (some endpoints) =>
      if stale endpoints now then some (s, .compareExchange endpoints)
      else some (s, .returned (.ok endpoints.endpoints))
  | .compareExchange endpoints =>
      -- only one coroutine updates, the others go on with the old endpoints
      if s.beingUpdated then some (s, .returned (.ok endpoints.endpoints))
      else some ({ s with beingUpdated := true }, .update)
  | .update =>
      let result := update s.lastError now resolution
      some ({ s with lastError := result.1 }, .store result.2)
  | .store newEndpoints =>
      some ({ s with currentEndpoints := newEndpoints, stored := s.stored ++ [newEndpoints] },
        .resetFlag)
  | .resetFlag => some ({ s with beingUpdated := false }, .snapshot)
  | .returned _ => none

inductive Action
  | call
  | step (caller : Nat) (now : Int) (resolution : Resolution)

def step (s : State) : Action → Option State
  | .call => some { s with callers := s.callers ++ [.snapshot] }
  | .step caller now resolution =>
      (s.callers[caller]?).bind fun pc =>
        (callerStep now resolution s pc).map fun next =>
          { next.1 with callers := next.1.callers.set caller next.2 }

-- A cache some time after its construction, whatever calls, clock readings
-- and resolver answers came before.
def ReachableCache (s : State) : Prop :=
  ∃ now resolution, Reachable step (construct now resolution) s

end S3Cpp.Aws.S3.DnsCache
