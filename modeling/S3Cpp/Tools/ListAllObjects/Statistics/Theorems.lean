import S3Cpp.Library.Sampling
import S3Cpp.Tools.ListAllObjects.Statistics
import S3Cpp.Tools.ListAllObjects.WorkerManager.Completeness
import S3Cpp.Tools.ListAllObjects.WorkerManager.Coroutines

namespace S3Cpp.Tools.ListAllObjects

open Aws.S3.Client Library.Sampling Library.Transition

-- A load of a counter: after how many steps of the program, and what was there.
structure Load where
  time : Nat
  value : Nat

-- The loads that samples are made of, each kind in the order of the run: those of
-- total_ops by the scaling worker, and those of the two counters by the thread.
structure History where
  time : Nat
  ticks : List Load
  objects : List Load
  ops : List Load

def History.start : History := ⟨0, [], [], []⟩

def Crawl.loadsOps (s : Crawl) : Action → Bool
  | .scaling =>
      match s.scaling.state with
      | .loadOps => true
      | _ => false
  | _ => false

def StatsState.loadsObjects : StatsState → Bool
  | .loadPreviousObjects | .loadNewObjects _ _ => true
  | _ => false

def StatsState.loadsOps : StatsState → Bool
  | .loadPreviousOps _ | .loadNewOps _ _ => true
  | _ => false

def note (loads : List Load) (time value : Nat) (isLoad : Bool) : List Load :=
  if isLoad then loads ++ [⟨time, value⟩] else loads

def History.record (h : History) (p : Program) : ProgramAction → History
  | .crawl action =>
      { h with
        time := h.time + 1
        ticks := note h.ticks h.time p.crawl.shared.metrics.totalOps (p.crawl.loadsOps action) }
  | .stats =>
      { h with
        time := h.time + 1
        objects := note h.objects h.time p.crawl.shared.metrics.totalObjectsFound p.stats.state.loadsObjects
        ops := note h.ops h.time p.crawl.shared.metrics.totalOps p.stats.state.loadsOps }
  | .requestStop => { h with time := h.time + 1 }

-- The program with its history. It does what the program does.
def historyStep (config : Config) (s : Program × History) (action : ProgramAction) : Option (Program × History) :=
  (programStep config s.1 action).map fun p => (p, s.2.record s.1 action)

def Chronicled (config : Config) (p : Program) (history : History) : Prop :=
  Reachable (historyStep config) (Program.start, History.start) (p, history)

theorem exists_chronicled {config : Config} {p : Program} (h : Reachable (programStep config) Program.start p) :
    ∃ history, Chronicled config p history := by
  induction h with
  | refl => exact ⟨_, .refl⟩
  | @tail q r action _ _ hstep ih =>
      obtain ⟨history, hreach⟩ := ih
      have hchronicled : historyStep config (q, history) action = some (r, history.record q action) := by
        rw [historyStep, hstep]
        rfl
      exact ⟨_, hreach.tail trivial hchronicled⟩

-- Loads that follow one another, of a counter that does not go back.
structure InOrder (loads : List Load) (time value : Nat) : Prop where
  times : loads.Pairwise fun earlier later => earlier.time < later.time
  values : loads.Pairwise fun earlier later => earlier.value ≤ later.value
  past : ∀ load ∈ loads, load.time < time ∧ load.value ≤ value

def inPairs (intervals : List (Load × Load)) : List Load := intervals.flatMap fun i => [i.1, i.2]

def samplesOf (window : Nat) (intervals : List (Load × Load)) : List Nat :=
  lastOf window (intervals.map fun i => i.2.value - i.1.value)

-- The samples are what the counter gained from the first to the second load of
-- each pair, as many of the last as the window holds. The loads of the sample to
-- come stand at the end.
def Metered (window : Nat) (samples : List Nat) (loads : List Load) : Prop :=
  ∃ intervals pending, loads = inPairs intervals ++ pending ∧ pending.length ≤ 2 ∧
    samples = samplesOf window intervals

-- What the thread has of a counter for its next sample.
inductive Reading
  | none
  | first (value : Nat)
  | gained (n : Nat)

def Reading.Pending : Reading → List Load → Prop
  | .none, pending => pending = []
  | .first previous, pending => ∃ time, pending = [⟨time, previous⟩]
  | .gained n, pending => ∃ first last : Load, pending = [first, last] ∧ n = last.value - first.value

def Reading.Sound (window : Nat) (samples : List Nat) (loads : List Load) (reading : Reading) : Prop :=
  ∃ intervals pending, loads = inPairs intervals ++ pending ∧ reading.Pending pending ∧
    samples = samplesOf window intervals

section Meter

variable {window time value value' : Nat} {samples : List Nat} {loads : List Load} {reading : Reading}

theorem InOrder.grow {time' : Nat} (h : InOrder loads time value) (htime : time ≤ time') (hvalue : value ≤ value') :
    InOrder loads time' value' :=
  ⟨h.times, h.values, fun load hload => ⟨(h.past load hload).1.trans_le htime, (h.past load hload).2.trans hvalue⟩⟩

theorem InOrder.note (h : InOrder loads time value) (isLoad : Bool) :
    InOrder (note loads time value isLoad) (time + 1) value := by
  cases isLoad with
  | false => exact h.grow (Nat.le_succ _) (Nat.le_refl _)
  | true =>
      refine ⟨List.pairwise_append.mpr ⟨h.times, List.pairwise_singleton _ _, ?_⟩,
        List.pairwise_append.mpr ⟨h.values, List.pairwise_singleton _ _, ?_⟩, fun load hload => ?_⟩
      · intro load hload last hlast
        obtain rfl := List.mem_singleton.mp hlast
        exact (h.past load hload).1
      · intro load hload last hlast
        obtain rfl := List.mem_singleton.mp hlast
        exact (h.past load hload).2
      · rcases List.mem_append.mp hload with hload | hload
        · exact (h.grow (Nat.le_succ _) (Nat.le_refl _)).past load hload
        · obtain rfl := List.mem_singleton.mp hload
          exact ⟨Nat.lt_succ_self _, Nat.le_refl _⟩

theorem Reading.Sound.metered (h : reading.Sound window samples loads) : Metered window samples loads := by
  obtain ⟨intervals, pending, hloads, hpending, hsamples⟩ := h
  refine ⟨intervals, pending, hloads, ?_, hsamples⟩
  cases reading with
  | none =>
      rw [show pending = [] from hpending]
      exact Nat.zero_le _
  | first previous =>
      obtain ⟨time, rfl⟩ := hpending
      exact Nat.le_succ _
  | gained n =>
      obtain ⟨first, last, rfl, -⟩ := hpending
      exact Nat.le_refl _

-- No two samples count the same, so together they count no more than there is.
theorem Metered.sum_le (h : Metered window samples loads) (hloads : InOrder loads time value) :
    samples.sum ≤ value := by
  obtain ⟨intervals, pending, rfl, -, rfl⟩ := h
  have hordered : ((inPairs intervals).map Load.value).Pairwise (· ≤ ·) :=
    List.pairwise_map.mpr (hloads.values.sublist (List.sublist_append_left _ _))
  have hrange : ∀ load ∈ inPairs intervals, 0 ≤ load.value ∧ load.value ≤ value := fun load hload =>
    ⟨Nat.zero_le _, (hloads.past load (List.mem_append_left _ hload)).2⟩
  have hsum := ((ascending_of_pairwise Load.value hordered hrange (Nat.zero_le _)).drop
    (intervals.length - window)).sum_gain_le
  have hsamples : samplesOf window intervals =
      ((intervals.map fun i => (i.1.value, i.2.value)).drop (intervals.length - window)).map gain := by
    rw [samplesOf, lastOf, List.length_map, ← List.map_drop, ← List.map_drop, List.map_map]
    rfl
  rw [hsamples]
  omega

theorem Metered.mean_le (h : Metered window samples loads) (hloads : InOrder loads time value) :
    rollingMean samples ≤ value := by
  have hsum : (samples.sum : Rat) ≤ value := by exact_mod_cast h.sum_le hloads
  rw [rollingMean]
  rcases Nat.eq_zero_or_pos samples.length with hzero | hpos
  · rw [hzero, Nat.cast_zero, div_zero]
    exact Nat.cast_nonneg value
  · have hone : (1 : Rat) ≤ samples.length := by exact_mod_cast hpos
    exact (div_le_self (Nat.cast_nonneg _) hone).trans hsum

theorem Reading.Sound.begin (h : Reading.none.Sound window samples loads) (time value : Nat) :
    (Reading.first value).Sound window samples (loads ++ [⟨time, value⟩]) := by
  obtain ⟨intervals, pending, rfl, rfl, hsamples⟩ := h
  exact ⟨intervals, [⟨time, value⟩], by rw [List.append_nil], ⟨time, rfl⟩, hsamples⟩

-- The difference is what the counter gained: it never went back.
theorem Reading.Sound.load {previous : Nat} (h : (Reading.first previous).Sound window samples loads)
    (hloads : InOrder loads time value) :
    (Reading.gained (sizeDifference value previous)).Sound window samples (loads ++ [⟨time, value⟩]) := by
  obtain ⟨intervals, pending, rfl, ⟨earlier, rfl⟩, hsamples⟩ := h
  have hle := (hloads.past ⟨earlier, previous⟩ (by simp)).2
  refine ⟨intervals, [⟨earlier, previous⟩, ⟨time, value⟩], by simp, ⟨_, _, rfl, ?_⟩, hsamples⟩
  rw [sizeDifference, if_pos hle]

-- A sample taken after the others joins them, and the oldest may go.
theorem Reading.Sound.accumulate {n : Nat} (h : (Reading.gained n).Sound window samples loads) :
    Reading.none.Sound window (accumulateSample window samples n) loads := by
  obtain ⟨intervals, pending, rfl, ⟨first, last, rfl, rfl⟩, rfl⟩ := h
  refine ⟨intervals ++ [(first, last)], [], by simp [inPairs], rfl, ?_⟩
  simp only [samplesOf, List.map_append, List.map_singleton]
  rw [← lastOf_concat]
  rfl

end Meter

section Crawl

variable {config : Config} {s t : Crawl}

theorem WorkerStep.counters_grow {response : Response} {sh sh' : Shared} {w w' : WorkerState}
    (h : WorkerStep config response sh w sh' w') :
    sh.metrics.totalOps ≤ sh'.metrics.totalOps ∧
      sh.metrics.totalObjectsFound ≤ sh'.metrics.totalObjectsFound := by
  cases h with
  | list call token retries h => cases h <;> exact ⟨Nat.le_refl _, Nat.le_refl _⟩
  | count call page => exact ⟨Nat.le_refl _, Nat.le_add_right _ _⟩
  | push call page =>
      unfold Shared.pushPrefixes
      split <;> exact ⟨Nat.le_refl _, Nat.le_refl _⟩
  | nextPage | lastPage => exact ⟨Nat.le_add_right _ _, Nat.le_refl _⟩
  | _ => exact ⟨Nat.le_refl _, Nat.le_refl _⟩

theorem counters_grow {action : Action} (h : step config s action = some t) :
    s.shared.metrics.totalOps ≤ t.shared.metrics.totalOps ∧
      s.shared.metrics.totalObjectsFound ≤ t.shared.metrics.totalObjectsFound := by
  cases step_sound h with
  | worker index choice response before after w w' sh' hworkers hindex hw => exact hw.counters_grow
  | manager choice hm => cases hm <;> exact ⟨Nat.le_refl _, Nat.le_refl _⟩
  | frame _ _ hf =>
      cases hf with
      | touch target stack lines hmanager hworkers hlines hshared =>
          rw [hshared]
          exact ⟨Nat.le_refl _, Nat.le_refl _⟩
      | spawn hmanager hworkers hshared =>
          rw [hshared]
          exact ⟨Nat.le_refl _, Nat.le_refl _⟩

-- The samples of the scaling worker are what total_ops gained from each of its loads
-- to the next, the first of them from the start of the crawl, as many of the last as
-- the window holds. Together they are all that was done since the window began.
structure Windowed (s : Crawl) (ticks : List Load) : Prop where
  previous : s.scaling.previousOps = (ticks.map Load.value).getLastD 0
  samples : s.scaling.samples = lastOf windowSize (gainsFrom 0 (ticks.map Load.value))
  sum : (0 :: ticks.map Load.value).getD (ticks.length - windowSize) 0 + s.scaling.samples.sum =
    s.scaling.previousOps

theorem windowed_of_samples {ticks : List Load} {time value : Nat} (hticks : InOrder ticks time value)
    (hprevious : s.scaling.previousOps = (ticks.map Load.value).getLastD 0)
    (hsamples : s.scaling.samples = lastOf windowSize (gainsFrom 0 (ticks.map Load.value))) : Windowed s ticks := by
  refine ⟨hprevious, hsamples, ?_⟩
  have hordered : (0 :: ticks.map Load.value).Pairwise (· ≤ ·) :=
    List.pairwise_cons.mpr ⟨fun _ _ => Nat.zero_le _, List.pairwise_map.mpr hticks.values⟩
  have hsum := sum_drop_gainsFrom hordered (ticks.length - windowSize) (by simp)
  rw [hsamples, hprevious, lastOf, length_gainsFrom, List.length_map]
  exact hsum

theorem windowed_step {ticks : List Load} {time : Nat} {action : Action} (hs : Windowed s ticks)
    (hticks : InOrder ticks time s.shared.metrics.totalOps) (h : step config s action = some t) :
    Windowed t (note ticks time s.shared.metrics.totalOps (s.loadsOps action)) := by
  have hkeep (hload : s.loadsOps action = false) (hprevious : t.scaling.previousOps = s.scaling.previousOps)
      (hsamples : t.scaling.samples = s.scaling.samples) :
      Windowed t (note ticks time s.shared.metrics.totalOps (s.loadsOps action)) := by
    rw [hload]
    exact windowed_of_samples hticks (hprevious.trans hs.previous) (hsamples.trans hs.samples)
  cases step_inv h with
  | worker | scalingTimer | writerTimer => exact hkeep rfl rfl rfl
  | manager choice hm => cases hm <;> exact hkeep rfl rfl rfl
  | writer failure hstep => exact hkeep rfl (by rw [hstep.others.2.1]) (by rw [hstep.others.2.1])
  | scaling hstep =>
      cases hstep with
      | loadOps samples hstate hsamples =>
          have hload : s.loadsOps .scaling = true := by simp only [Crawl.loadsOps, hstate]
          rw [hload]
          refine windowed_of_samples (hticks.note true) ?_ ?_
          · simp [note]
          · simp only [note, if_true, List.map_append, List.map_singleton]
            rw [hsamples, hs.previous, gainsFrom_concat, ← lastOf_concat, ← hs.samples]
            rfl
      | arm hstate | aborted hstate | failed hstate | expired hstate | queueEmpty _ hstate | queued _ hstate
      | loadActive hstate | alignTarget _ hstate | calculate _ hstate | keep _ hstate | change _ hstate
      | setTarget _ hstate | fewer _ hstate | enough _ hstate | spawned hstate | spawn _ hstate =>
          exact hkeep (by simp only [Crawl.loadsOps, hstate]) rfl rfl

end Crawl

def StatsState.objectsReading : StatsState → Reading
  | .loadPreviousOps previous | .sleeping previous _ | .loadNewObjects previous _ => .first previous
  | .loadNewOps _ gained | .accumulate gained _ => .gained gained
  | _ => .none

def StatsState.opsReading : StatsState → Reading
  | .sleeping _ previous | .loadNewObjects _ previous | .loadNewOps previous _ => .first previous
  | .accumulate _ gained => .gained gained
  | _ => .none

-- What a line says at the time it is printed is still so later.
structure StatsLine.Sound (line : StatsLine) (metrics : Metrics) : Prop where
  ops : line.opsPerSecond ≤ line.totalOps ∧ line.totalOps ≤ metrics.totalOps
  objects : line.objectsPerSecond ≤ line.totalObjects ∧ line.totalObjects ≤ metrics.totalObjectsFound

-- A total that has been loaded for the line but not printed.
def StatsThread.Printing (stats : StatsThread) (metrics : Metrics) : Prop :=
  match stats.state with
  | .printObjects _ _ totalOps =>
      rollingMean stats.opsAccumulator ≤ totalOps ∧ totalOps ≤ metrics.totalOps
  | _ => True

structure Metering (p : Program) (h : History) : Prop where
  crawl : Windowed p.crawl h.ticks
  objects : p.stats.state.objectsReading.Sound statsWindowSize p.stats.objectsAccumulator h.objects
  ops : p.stats.state.opsReading.Sound statsWindowSize p.stats.opsAccumulator h.ops
  ticksInOrder : InOrder h.ticks h.time p.crawl.shared.metrics.totalOps
  objectsInOrder : InOrder h.objects h.time p.crawl.shared.metrics.totalObjectsFound
  opsInOrder : InOrder h.ops h.time p.crawl.shared.metrics.totalOps
  printing : p.stats.Printing p.crawl.shared.metrics
  lines : ∀ line ∈ p.stats.lines, line.Sound p.crawl.shared.metrics

section Program

variable {config : Config} {p q : Program} {history : History}

theorem StatsLine.Sound.grow {line : StatsLine} {metrics metrics' : Metrics} (h : line.Sound metrics)
    (hops : metrics.totalOps ≤ metrics'.totalOps)
    (hobjects : metrics.totalObjectsFound ≤ metrics'.totalObjectsFound) : line.Sound metrics' :=
  ⟨⟨h.ops.1, h.ops.2.trans hops⟩, ⟨h.objects.1, h.objects.2.trans hobjects⟩⟩

theorem Metering.crawlStep {crawl : Crawl} {action : Action} (hp : Metering p history)
    (h : step config p.crawl action = some crawl) :
    Metering { p with crawl := crawl } (history.record p (.crawl action)) := by
  obtain ⟨hops, hobjects⟩ := counters_grow h
  refine ⟨windowed_step hp.crawl hp.ticksInOrder h, hp.objects, hp.ops,
    (hp.ticksInOrder.note _).grow (Nat.le_refl _) hops, hp.objectsInOrder.grow (Nat.le_succ _) hobjects,
    hp.opsInOrder.grow (Nat.le_succ _) hops, ?_, fun line hline => (hp.lines line hline).grow hops hobjects⟩
  have hprinting := hp.printing
  unfold StatsThread.Printing at hprinting ⊢
  dsimp only at hprinting ⊢
  split
  · simp only [*] at hprinting
    exact ⟨hprinting.1, hprinting.2.trans hops⟩
  · trivial

-- What is left to see of a step of the thread when its loads have been noted.
theorem Metering.statsRecord (hp : Metering p history) (hcrawl : q.crawl = p.crawl)
    (hobjects : q.stats.state.objectsReading.Sound statsWindowSize q.stats.objectsAccumulator
      (note history.objects history.time p.crawl.shared.metrics.totalObjectsFound p.stats.state.loadsObjects))
    (hops : q.stats.state.opsReading.Sound statsWindowSize q.stats.opsAccumulator
      (note history.ops history.time p.crawl.shared.metrics.totalOps p.stats.state.loadsOps))
    (hprinting : q.stats.Printing p.crawl.shared.metrics)
    (hlines : ∀ line ∈ q.stats.lines, line.Sound p.crawl.shared.metrics) :
    Metering q (history.record p .stats) := by
  refine ⟨hcrawl ▸ hp.crawl, hobjects, hops, ?_, ?_, ?_, hcrawl ▸ hprinting, hcrawl ▸ hlines⟩
  · rw [hcrawl]
    exact hp.ticksInOrder.grow (Nat.le_succ _) (Nat.le_refl _)
  · rw [hcrawl]
    exact hp.objectsInOrder.note _
  · rw [hcrawl]
    exact hp.opsInOrder.note _

theorem Metering.statsStep (hp : Metering p history) (h : statsStep p = some q) :
    Metering q (history.record p .stats) := by
  have hobjects := hp.objects
  have hops := hp.ops
  have hprinting := hp.printing
  cases hstate : p.stats.state with
  | stopRequested =>
      rw [hstate] at hobjects hops
      simp only [ListAllObjects.statsStep, hstate] at h
      split at h
      all_goals
        obtain rfl := Option.some.inj h
        exact hp.statsRecord rfl (by rw [hstate]; exact hobjects) (by rw [hstate]; exact hops) trivial hp.lines
  | loadPreviousObjects =>
      rw [hstate] at hobjects hops
      simp only [ListAllObjects.statsStep, hstate] at h
      obtain rfl := Option.some.inj h
      exact hp.statsRecord rfl (by rw [hstate]; exact hobjects.begin _ _) (by rw [hstate]; exact hops) trivial hp.lines
  | loadPreviousOps previousObjects =>
      rw [hstate] at hobjects hops
      simp only [ListAllObjects.statsStep, hstate] at h
      obtain rfl := Option.some.inj h
      exact hp.statsRecord rfl (by rw [hstate]; exact hobjects) (by rw [hstate]; exact hops.begin _ _) trivial hp.lines
  | sleeping previousObjects previousOps =>
      rw [hstate] at hobjects hops
      simp only [ListAllObjects.statsStep, hstate] at h
      obtain rfl := Option.some.inj h
      exact hp.statsRecord rfl (by rw [hstate]; exact hobjects) (by rw [hstate]; exact hops) trivial hp.lines
  | loadNewObjects previousObjects previousOps =>
      rw [hstate] at hobjects hops
      simp only [ListAllObjects.statsStep, hstate] at h
      obtain rfl := Option.some.inj h
      exact hp.statsRecord rfl (by rw [hstate]; exact hobjects.load hp.objectsInOrder) (by rw [hstate]; exact hops)
        trivial hp.lines
  | loadNewOps previousOps newObjects =>
      rw [hstate] at hobjects hops
      simp only [ListAllObjects.statsStep, hstate] at h
      obtain rfl := Option.some.inj h
      exact hp.statsRecord rfl (by rw [hstate]; exact hobjects) (by rw [hstate]; exact hops.load hp.opsInOrder)
        trivial hp.lines
  | accumulate newObjects newOps =>
      rw [hstate] at hobjects hops
      simp only [ListAllObjects.statsStep, hstate] at h
      obtain rfl := Option.some.inj h
      have hobjects := @Reading.Sound.accumulate statsWindowSize _ _ newObjects hobjects
      have hops := @Reading.Sound.accumulate statsWindowSize _ _ newOps hops
      refine hp.statsRecord rfl ?_ ?_ trivial hp.lines
      · simpa only [StatsState.objectsReading, StatsState.loadsObjects, hstate, note, Bool.false_eq_true, if_false] using hobjects
      · simpa only [StatsState.opsReading, StatsState.loadsOps, hstate, note, Bool.false_eq_true, if_false] using hops
  | printActive | printQueued =>
      rw [hstate] at hobjects hops
      simp only [ListAllObjects.statsStep, hstate] at h
      obtain rfl := Option.some.inj h
      exact hp.statsRecord rfl (by rw [hstate]; exact hobjects) (by rw [hstate]; exact hops) trivial hp.lines
  | printOps activeWorkers queuedOps =>
      rw [hstate] at hobjects hops
      simp only [ListAllObjects.statsStep, hstate] at h
      obtain rfl := Option.some.inj h
      exact hp.statsRecord rfl (by rw [hstate]; exact hobjects) (by rw [hstate]; exact hops)
        ⟨hops.metered.mean_le hp.opsInOrder, Nat.le_refl _⟩ hp.lines
  | printObjects activeWorkers queuedOps totalOps =>
      rw [hstate] at hobjects hops
      simp only [StatsThread.Printing, hstate] at hprinting
      simp only [ListAllObjects.statsStep, hstate] at h
      obtain rfl := Option.some.inj h
      refine hp.statsRecord rfl (by rw [hstate]; exact hobjects) (by rw [hstate]; exact hops) trivial
        fun line hline => ?_
      rcases List.mem_append.mp hline with hline | hline
      · exact hp.lines line hline
      · obtain rfl := List.mem_singleton.mp hline
        exact ⟨hprinting, ⟨hobjects.metered.mean_le hp.objectsInOrder, Nat.le_refl _⟩⟩
  | returned =>
      simp only [ListAllObjects.statsStep, hstate] at h
      cases h

theorem metering_start : Metering Program.start History.start where
  crawl := ⟨rfl, rfl, rfl⟩
  objects := ⟨[], [], rfl, rfl, rfl⟩
  ops := ⟨[], [], rfl, rfl, rfl⟩
  ticksInOrder := ⟨.nil, .nil, by simp [History.start]⟩
  objectsInOrder := ⟨.nil, .nil, by simp [History.start]⟩
  opsInOrder := ⟨.nil, .nil, by simp [History.start]⟩
  printing := trivial
  lines := by simp [Program.start]

theorem metering_step {action : ProgramAction} (hp : Metering p history)
    (h : programStep config p action = some q) : Metering q (history.record p action) := by
  cases action with
  | crawl action =>
      obtain ⟨crawl, hcrawl, rfl⟩ := Option.map_eq_some_iff.mp h
      exact hp.crawlStep hcrawl
  | stats => exact hp.statsStep h
  | requestStop =>
      simp only [programStep] at h
      split at h
      · obtain rfl := Option.some.inj h
        exact ⟨hp.crawl, hp.objects, hp.ops, hp.ticksInOrder.grow (Nat.le_succ _) (Nat.le_refl _),
          hp.objectsInOrder.grow (Nat.le_succ _) (Nat.le_refl _), hp.opsInOrder.grow (Nat.le_succ _) (Nat.le_refl _),
          hp.printing, hp.lines⟩
      · cases h

end Program

-- The two that measure the crawl take their samples from what they have loaded,
-- from disjoint intervals of the run, and no difference goes below zero.
theorem statistics_sound (config : Config) (p : Program) (h : Reachable (programStep config) Program.start p) :
    (∃ history, Chronicled config p history) ∧ ∀ history, Chronicled config p history →
      Windowed p.crawl history.ticks ∧
        Metered statsWindowSize p.stats.objectsAccumulator history.objects ∧
        Metered statsWindowSize p.stats.opsAccumulator history.ops ∧
        InOrder history.ticks history.time p.crawl.shared.metrics.totalOps ∧
        InOrder history.objects history.time p.crawl.shared.metrics.totalObjectsFound ∧
        InOrder history.ops history.time p.crawl.shared.metrics.totalOps ∧
        ∀ line ∈ p.stats.lines, line.Sound p.crawl.shared.metrics := by
  refine ⟨exists_chronicled h, fun history hchronicled => ?_⟩
  have hp : Metering p history := by
    refine hchronicled.invariant (I := fun s => Metering s.1 s.2) metering_start ?_
    rintro ⟨q, history⟩ action t - hq hstep
    obtain ⟨r, hr, rfl⟩ := Option.map_eq_some_iff.mp hstep
    exact metering_step hq hr
  exact ⟨hp.crawl, hp.objects.metered, hp.ops.metered, hp.ticksInOrder, hp.objectsInOrder, hp.opsInOrder, hp.lines⟩

-- The thread reads the counters before and after the crawl has listed all.
def watchedRun : List ProgramAction :=
  List.replicate 4 .stats ++ twoKeysRun.map .crawl ++ List.replicate 8 .stats

theorem statistics_sound_twoKeys :
    ∃ p history, Reachable (programStep defaultConfig) Program.start p ∧ Chronicled defaultConfig p history ∧
      p.stats.opsAccumulator = [4] ∧ Metered statsWindowSize p.stats.opsAccumulator history.ops ∧
      p.stats.lines.length = 1 ∧ ∀ line ∈ p.stats.lines, line.opsPerSecond ≤ line.totalOps := by
  have hrun : (run (programStep defaultConfig) Program.start watchedRun).map
      (fun p => decide (p.stats.opsAccumulator = [4] ∧ p.stats.lines.length = 1)) = some true := by decide +kernel
  obtain ⟨p, hp, hfacts⟩ := Option.map_eq_some_iff.mp hrun
  have hreach := Reachable.of_run hp
  obtain ⟨hops, hlength⟩ := of_decide_eq_true hfacts
  obtain ⟨⟨history, hchronicled⟩, hsound⟩ := statistics_sound defaultConfig p hreach
  obtain ⟨-, -, hmetered, -, -, -, hlines⟩ := hsound history hchronicled
  exact ⟨p, history, hreach, hchronicled, hops, hmetered, hlength, fun line hline => (hlines line hline).ops.1⟩

end S3Cpp.Tools.ListAllObjects
