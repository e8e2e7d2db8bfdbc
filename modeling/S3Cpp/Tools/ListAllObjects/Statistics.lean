import S3Cpp.Tools.ListAllObjects.WorkerManager

namespace S3Cpp.Tools.ListAllObjects

-- What the thread prints: the counters, and what they gain in a second.
structure StatsLine where
  activeWorkers : Nat
  queuedOps : Nat
  totalOps : Nat
  totalObjects : Nat
  objectsPerSecond : Rat
  opsPerSecond : Rat
deriving DecidableEq

-- The loop of the thread that main starts for the statistics, with every load of
-- a counter a step of its own.
inductive StatsState
  | stopRequested
  | loadPreviousObjects
  | loadPreviousOps (previousObjects : Nat)
  | sleeping (previousObjects previousOps : Nat)
  | loadNewObjects (previousObjects previousOps : Nat)
  | loadNewOps (previousOps newObjects : Nat)
  | accumulate (newObjects newOps : Nat)
  | printActive
  | printQueued (activeWorkers : Nat)
  | printOps (activeWorkers queuedOps : Nat)
  | printObjects (activeWorkers queuedOps totalOps : Nat)
  | returned
deriving DecidableEq

structure StatsThread where
  state : StatsState
  objectsAccumulator : List Nat
  opsAccumulator : List Nat
  lines : List StatsLine
deriving DecidableEq

def statsWindowSize : Nat := 300

def accumulateSample (window : Nat) (samples : List Nat) (sample : Nat) : List Nat :=
  (samples ++ [sample]).drop (samples.length + 1 - window)

-- The difference of two std::size_t.
def sizeDifference (a b : Nat) : Nat := if b ≤ a then a - b else 2 ^ 64 - (b - a)

-- main at work: the crawl and the thread next to it. The thread is asked to stop
-- when main leaves its body, which is when ~WorkerManager has returned.
structure Program where
  crawl : Crawl
  stats : StatsThread
  stopToken : Bool

def Program.start : Program := ⟨construct, ⟨.stopRequested, [], [], []⟩, false⟩

def statsStep (p : Program) : Option Program :=
  let metrics := p.crawl.shared.metrics
  let go (state : StatsState) : Option Program := some { p with stats.state := state }
  match p.stats.state with
  | .stopRequested => go (if p.stopToken then .returned else .loadPreviousObjects)
  | .loadPreviousObjects => go (.loadPreviousOps metrics.totalObjectsFound)
  | .loadPreviousOps previousObjects => go (.sleeping previousObjects metrics.totalOps)
  | .sleeping previousObjects previousOps => go (.loadNewObjects previousObjects previousOps)
  | .loadNewObjects previousObjects previousOps =>
      go (.loadNewOps previousOps (sizeDifference metrics.totalObjectsFound previousObjects))
  | .loadNewOps previousOps newObjects =>
      go (.accumulate newObjects (sizeDifference metrics.totalOps previousOps))
  | .accumulate newObjects newOps =>
      some { p with
        stats.state := .printActive
        stats.objectsAccumulator := accumulateSample statsWindowSize p.stats.objectsAccumulator newObjects
        stats.opsAccumulator := accumulateSample statsWindowSize p.stats.opsAccumulator newOps }
  | .printActive => go (.printQueued metrics.activeWorkers)
  | .printQueued activeWorkers => go (.printOps activeWorkers metrics.totalQueueLength)
  | .printOps activeWorkers queuedOps => go (.printObjects activeWorkers queuedOps metrics.totalOps)
  | .printObjects activeWorkers queuedOps totalOps =>
      let line : StatsLine := {
        activeWorkers := activeWorkers
        queuedOps := queuedOps
        totalOps := totalOps
        totalObjects := metrics.totalObjectsFound
        objectsPerSecond := rollingMean p.stats.objectsAccumulator
        opsPerSecond := rollingMean p.stats.opsAccumulator
      }
      some { p with stats.state := .stopRequested, stats.lines := p.stats.lines ++ [line] }
  | .returned => none

inductive ProgramAction
  | crawl (action : Action)
  | stats
  | requestStop

def programStep (config : Config) (p : Program) : ProgramAction → Option Program
  | .crawl action => (step config p.crawl action).map fun crawl => { p with crawl := crawl }
  | .stats => statsStep p
  | .requestStop => if p.crawl.manager = .joined then some { p with stopToken := true } else none

end S3Cpp.Tools.ListAllObjects
