import Mathlib.Algebra.Order.Floor.Semiring
import Mathlib.Data.Rat.Floor
import S3Cpp.Tools.ListAllObjects.Worker

namespace S3Cpp.Tools.ListAllObjects

open Aws.S3.Client

-- What a timer wait completes with, and whether it has.
inductive WaitResult
  | success
  | aborted
  | failed
deriving DecidableEq

inductive Wait
  | pending
  | completed (result : WaitResult)
deriving DecidableEq

-- cancellation_signal::emit reaches a wait that has not completed yet.
def Wait.emit : Wait → Wait
  | .pending => .completed .aborted
  | .completed result => .completed result

-- ~WorkerManager: its loop up to reading the two counters under the mutex,
-- the report about a queue that is not empty, then the two signals and the join.
inductive ManagerState
  | waiting
  | cleanup
  | readQueueLength
  | readActive
  | checkQueue
  | draining
  | emitScaling
  | emitWriter
  | joining
  | joined
deriving DecidableEq

inductive ScalingState
  | arming
  | waiting (wait : Wait)
  | loadOps
  | checkQueue (mean : Rat)
  | loadActive
  | alignTarget (active : Nat)
  | calculate (mean : Rat)
  | compareTarget (desired : Nat)
  | setTarget (desired : Nat)
  | loadRunning (desired : Nat)
  | spawning (remaining : Nat)
  | returned
  | threw
deriving DecidableEq

-- The coroutine's own variables: previous_ops and the samples of the
-- accumulator's window, oldest first.
structure ScalingWorker where
  state : ScalingState
  previousOps : Nat
  samples : List Nat
deriving DecidableEq

inductive WriterState
  | arming
  | waiting (wait : Wait)
  | draining (aborted : Bool)
  | writing (aborted : Bool) (text : Str)
  | returned
  | threw
deriving DecidableEq

structure Writer where
  state : WriterState
  output : Str
deriving DecidableEq

def windowSize : Nat := 60

def rollingMean (samples : List Nat) : Rat := (samples.sum : Rat) / samples.length

def addSample (samples : List Nat) (sample : Nat) : List Nat :=
  (samples ++ [sample]).drop (samples.length + 1 - windowSize)

def calculateDesiredWorkers (config : Config) (currentWorkers : Nat) (opsPerSecond : Rat) : Nat :=
  if opsPerSecond < 1 then max currentWorkers 10
  else
    let desired :=
      if (currentWorkers : Rat) < opsPerSecond then
        ⌈max (currentWorkers * config.scaleUpFactor) opsPerSecond⌉₊
      else if (currentWorkers : Rat) > opsPerSecond * (3 / 2) then
        ⌈max (currentWorkers * config.scaleDownFactor) opsPerSecond⌉₊
      else currentWorkers
    max desired 1

-- The whole program at work.
structure Crawl where
  shared : Shared
  workers : List WorkerState
  manager : ManagerState
  scaling : ScalingWorker
  writer : Writer

-- The state the constructor leaves, with fresh metrics.
def construct : Crawl where
  shared := {
    metrics := {
      totalOps := 0
      totalQueueLength := 1
      totalObjectsFound := 0
      activeWorkers := 0
      targetWorkers := max 0 1
    }
    prefixQueue := [⟨0, [⟨none⟩]⟩]
    queueMutex := false
    writeStack := []
    stderr := []
    pushed := [⟨none⟩]
    taken := []
    handed := []
    written := []
    ended := []
  }
  workers := []
  manager := .waiting
  scaling := ⟨.arming, 0, []⟩
  writer := ⟨.arming, []⟩

def remainingLines (entry : PrefixQueueEntry) : List Str :=
  entry.paths.map fun path => ascii "  prefix: " ++ path.Prefix.getD (ascii "<empty>") ++ ascii "\n"

def remainingHeader : Str :=
  ascii ("ERROR: prefix queue not empty but no active workers and zero queue length\n" ++
    "remaining prefixes:\n")

def ScalingState.ended : ScalingState → Bool
  | .returned | .threw => true
  | _ => false

def WriterState.ended : WriterState → Bool
  | .returned | .threw => true
  | _ => false

def ScalingState.emit : ScalingState → ScalingState
  | .waiting wait => .waiting wait.emit
  | state => state

def WriterState.emit : WriterState → WriterState
  | .waiting wait => .waiting wait.emit
  | state => state

def WorkerState.ended : WorkerState → Bool
  | .finished => true
  | _ => false

def managerStep (choice : Nat) (s : Crawl) : Option Crawl :=
  let sh := s.shared
  match s.manager with
  | .waiting => if sh.queueMutex then none else some { s with shared := sh.lock, manager := .cleanup }
  | .cleanup =>
      if sh.prefixQueue = [] then some { s with manager := .readQueueLength }
      else
        (PrefixQueue.top sh.prefixQueue choice).map fun top =>
          if top.paths = [] then
            { s with shared := { sh with prefixQueue := sh.prefixQueue.eraseIdx choice } }
          else { s with manager := .readQueueLength }
  | .readQueueLength =>
      if sh.metrics.totalQueueLength = 0 then some { s with manager := .readActive }
      else some { s with shared := sh.unlock, manager := .waiting }
  | .readActive =>
      if sh.metrics.activeWorkers = 0 then some { s with manager := .checkQueue }
      else some { s with shared := sh.unlock, manager := .waiting }
  | .checkQueue =>
      if sh.prefixQueue = [] then some { s with shared := sh.unlock, manager := .emitScaling }
      else some { s with shared := sh.print [remainingHeader], manager := .draining }
  | .draining =>
      if sh.prefixQueue = [] then some { s with shared := sh.unlock, manager := .emitScaling }
      else
        (PrefixQueue.top sh.prefixQueue choice).map fun top =>
          let sh := sh.print (remainingLines top)
          { s with shared := { sh with prefixQueue := sh.prefixQueue.eraseIdx choice } }
  | .emitScaling =>
      some { s with scaling.state := s.scaling.state.emit, manager := .emitWriter }
  | .emitWriter => some { s with writer.state := s.writer.state.emit, manager := .joining }
  | .joining =>
      if s.scaling.state.ended && s.writer.state.ended && s.workers.all WorkerState.ended then
        some { s with manager := .joined }
      else none
  | .joined => none

def scalingStep (config : Config) (s : Crawl) : Option Crawl :=
  let metrics := s.shared.metrics
  let go (state : ScalingState) : Option Crawl := some { s with scaling.state := state }
  match s.scaling.state with
  | .arming => go (.waiting .pending)
  | .waiting .pending => none
  | .waiting (.completed .aborted) => go .returned
  | .waiting (.completed .failed) => go .threw
  | .waiting (.completed .success) => go .loadOps
  | .loadOps =>
      let samples := addSample s.scaling.samples (metrics.totalOps - s.scaling.previousOps)
      some { s with scaling := ⟨.checkQueue (rollingMean samples), metrics.totalOps, samples⟩ }
  | .checkQueue mean => go (if metrics.totalQueueLength = 0 then .loadActive else .calculate mean)
  | .loadActive => go (.alignTarget metrics.activeWorkers)
  | .alignTarget active =>
      some { s with shared.metrics.targetWorkers := active, scaling.state := .arming }
  | .calculate mean => go (.compareTarget (calculateDesiredWorkers config metrics.activeWorkers mean))
  | .compareTarget desired =>
      go (if desired ≠ metrics.targetWorkers then .setTarget desired else .arming)
  | .setTarget desired =>
      some { s with shared.metrics.targetWorkers := desired, scaling.state := .loadRunning desired }
  | .loadRunning desired =>
      go (if metrics.activeWorkers < desired then .spawning (desired - metrics.activeWorkers)
        else .arming)
  | .spawning 0 => go .arming
  | .spawning (remaining + 1) =>
      some { s with workers := s.workers ++ [.pending], scaling.state := .spawning remaining }
  | .returned | .threw => none

-- A write that fails may have written a part of the text.
def writerStep (failure : Option (Nat × Str)) (s : Crawl) : Option Crawl :=
  let sh := s.shared
  let go (state : WriterState) : Option Crawl := some { s with writer.state := state }
  match s.writer.state with
  | .arming => go (.waiting .pending)
  | .waiting .pending => none
  | .waiting (.completed .aborted) => go (.draining true)
  | .waiting (.completed .success) => go (.draining false)
  | .waiting (.completed .failed) => go .threw
  | .draining aborted =>
      match sh.writeStack with
      | [] => go (if aborted then .returned else .arming)
      | text :: rest =>
          some { s with shared.writeStack := rest, writer.state := .writing aborted text }
  | .writing aborted text =>
      match failure with
      | none => some { s with writer := ⟨.draining aborted, s.writer.output ++ text⟩ }
      | some (count, what) =>
          some { s with
            shared := sh.print [ascii "ERROR writing to output file: " ++ what]
            writer := ⟨.draining aborted, s.writer.output ++ text.take count⟩ }
  | .returned | .threw => none

inductive Action
  | worker (index choice : Nat) (response : Response)
  | manager (choice : Nat)
  | scaling
  | writer (failure : Option (Nat × Str))
  | scalingTimer
  | writerTimer

def step (config : Config) (s : Crawl) : Action → Option Crawl
  | .worker index choice response =>
      (s.workers[index]?).bind fun worker =>
        (workerStep config choice response s.shared worker).map fun next =>
          { s with shared := next.1, workers := s.workers.set index next.2 }
  | .manager choice => managerStep choice s
  | .scaling => scalingStep config s
  | .writer failure => writerStep failure s
  | .scalingTimer =>
      if s.scaling.state = .waiting .pending then
        some { s with scaling.state := .waiting (.completed .success) }
      else none
  | .writerTimer =>
      if s.writer.state = .waiting .pending then
        some { s with writer.state := .waiting (.completed .success) }
      else none

end S3Cpp.Tools.ListAllObjects
