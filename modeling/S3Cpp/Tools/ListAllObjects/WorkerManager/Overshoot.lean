import S3Cpp.Tools.ListAllObjects.WorkerManager.Completion

namespace S3Cpp.Tools.ListAllObjects

open Aws.S3 Aws.S3.Client Library.Population Library.Transition Library.Xml

namespace WorkerState

-- Whether a worker has been spawned and has not started yet, or has ended.
def unstarted : WorkerState → Nat
  | pending => 1
  | _ => 0

def exited : WorkerState → Nat
  | finished => 1
  | _ => 0

end WorkerState

open WorkerState

namespace Crawl

variable (s : Crawl)

def unstarted : Nat := total WorkerState.unstarted s.workers

def running : Nat := s.shared.metrics.activeWorkers

def exited : Nat := total WorkerState.exited s.workers

end Crawl

-- The scaling worker does not leave the loop that spawns.
def sameTick (s : Crawl) (action : Action) : Prop :=
  action = .scaling → s.scaling.state ≠ .spawning 0

theorem Accounted.length_workers {s : Crawl} (ha : Accounted s) :
    s.workers.length = s.unstarted + s.running + s.exited := by
  have hone (w : WorkerState) : 1 = w.unstarted + w.started + w.exited := by cases w <;> rfl
  rw [Crawl.unstarted, Crawl.running, Crawl.exited, ha.active, ← total_add, ← total_add, ← total_one]
  exact total_congr fun w _ => hone w

def ScalingState.Waits : ScalingState → Prop
  | .waiting _ => True
  | _ => False

section Steps

variable {config : Config} {s t : Crawl}

theorem WorkerStep.target_eq {response : Response} {sh sh' : Shared} {w w' : WorkerState}
    (h : WorkerStep config response sh w sh' w') :
    sh'.metrics.targetWorkers = sh.metrics.targetWorkers := by
  cases h with
  | list call token retries h => cases h <;> rfl
  | push call page => simp
  | _ => rfl

theorem emit_waits (state : ScalingState) : state.emit = state ∨ state.Waits ∧ state.emit.Waits := by
  cases state with
  | waiting wait => exact .inr ⟨trivial, trivial⟩
  | _ => exact .inl rfl

-- Only the scaling worker spawns and sets the target.
theorem step_others {action : Action} (haction : action ≠ .scaling)
    (h : step config s action = some t) :
    t.workers.length = s.workers.length ∧
      t.shared.metrics.targetWorkers = s.shared.metrics.targetWorkers ∧
      (t.scaling.state = s.scaling.state ∨ s.scaling.state.Waits ∧ t.scaling.state.Waits) := by
  cases step_inv h with
  | worker index choice response w w' sh' hw hstep =>
      exact ⟨List.length_set, hstep.target_eq, .inl rfl⟩
  | manager choice hstep =>
      cases hstep with
      | emitScaling => exact ⟨rfl, rfl, emit_waits s.scaling.state⟩
      | _ => exact ⟨rfl, rfl, .inl rfl⟩
  | scaling => exact absurd rfl haction
  | writer failure hstep => cases hstep <;> exact ⟨rfl, rfl, .inl rfl⟩
  | scalingTimer hpending => exact ⟨rfl, rfl, .inr ⟨hpending ▸ trivial, trivial⟩⟩
  | writerTimer => exact ⟨rfl, rfl, .inl rfl⟩

-- The target is the one just stored when the running workers are read.
def Targeted (s : Crawl) : Prop :=
  ∀ desired, s.scaling.state = .loadRunning desired → s.shared.metrics.targetWorkers = desired

theorem targeted_construct : Targeted construct := by
  intro desired hload
  cases hload

theorem targeted_step {action : Action} (hs : Targeted s) (h : step config s action = some t) :
    Targeted t := by
  intro desired hload
  by_cases haction : action = .scaling
  · subst haction
    cases scalingStep_sound h with
    | setTarget stored hstate => exact ScalingState.loadRunning.inj hload
    | _ => cases hload
  · obtain ⟨-, htarget, hstate | ⟨-, hwaits⟩⟩ := step_others haction h
    · rw [htarget]
      exact hs desired (hstate ▸ hload)
    · rw [hload] at hwaits
      exact hwaits.elim

theorem ReachableCrawl.targeted (h : ReachableCrawl config s) : Targeted s :=
  h.invariant targeted_construct fun _ _ _ _ hs ht => targeted_step hs ht

-- The tick has `planned` workers in all, those it is still to spawn included.
structure Spawning (desired planned : Nat) (s : Crawl) : Prop where
  accounted : Accounted s
  target : s.shared.metrics.targetWorkers = desired
  spawns : ∃ remaining, s.scaling.state = .spawning remaining ∧ s.workers.length + remaining = planned

theorem spawning_step {desired planned : Nat} {action : Action} (htick : sameTick s action)
    (hs : Spawning desired planned s) (h : step config s action = some t) :
    Spawning desired planned t := by
  have haccounted := accounted_step hs.accounted h
  obtain ⟨remaining, hstate, hplanned⟩ := hs.spawns
  by_cases haction : action = .scaling
  · subst haction
    cases remaining with
    | zero => exact absurd hstate (htick rfl)
    | succ left =>
        simp only [step, scalingStep, hstate] at h
        obtain rfl := Option.some.inj h
        refine ⟨haccounted, hs.target, left, rfl, ?_⟩
        rw [List.length_append, List.length_singleton]
        omega
  · obtain ⟨hlength, htarget, hsame | ⟨hwaits, -⟩⟩ := step_others haction h
    · exact ⟨haccounted, htarget.trans hs.target, remaining, hsame.trans hstate, by omega⟩
    · rw [hstate] at hwaits
      exact hwaits.elim

end Steps

-- When a tick has spawned its workers, those that run and those that have not
-- started are within the target exactly when the workers that had not started
-- at the tick's reading are made up for by workers that have ended since.
theorem spawned_le_target_iff (config : Config) (s t u : Crawl) (desired : Nat)
    (hs : ReachableCrawl config s) (hload : s.scaling.state = .loadRunning desired)
    (hfewer : s.running < desired) (ht : step config s .scaling = some t)
    (hu : Reach (step config) sameTick t u) (hend : u.scaling.state = .spawning 0) :
    u.running + u.unstarted ≤ u.shared.metrics.targetWorkers ↔
      s.unstarted + s.exited ≤ u.exited := by
  have hspawning : Spawning desired (s.workers.length + (desired - s.running)) t := by
    have haccounted := accounted_step hs.accounted ht
    have hactive : s.shared.metrics.activeWorkers < desired := hfewer
    simp only [step, scalingStep, hload, if_pos hactive] at ht
    obtain rfl := Option.some.inj ht
    exact ⟨haccounted, hs.targeted desired hload, _, rfl, rfl⟩
  have hafter : Spawning desired (s.workers.length + (desired - s.running)) u :=
    hu.invariant hspawning fun _ _ _ htick hv hstep => spawning_step htick hv hstep
  obtain ⟨remaining, hstate, hplanned⟩ := hafter.spawns
  obtain rfl : remaining = 0 := ScalingState.spawning.inj (hstate.symm.trans hend)
  have hbefore := hs.accounted.length_workers
  have hnow := hafter.accounted.length_workers
  rw [hafter.target]
  omega

def staysInTick (s : Crawl) : Action → Bool
  | .scaling => s.scaling.state ≠ .spawning 0
  | _ => true

-- Runs up to a tick's reading of the running workers, and through its spawning.
theorem tick_of_run {config : Config} {before spawns : List Action} {facts : Crawl → Crawl → Bool}
    (h : ((run (step config) construct before).bind fun s =>
      (step config s .scaling).bind fun t =>
        (run (guarded (step config) staysInTick) t spawns).map (facts s)) = some true) :
    ∃ s t u, ReachableCrawl config s ∧ step config s .scaling = some t ∧
      Reach (step config) sameTick t u ∧ facts s u = true := by
  obtain ⟨s, hs, h⟩ := Option.bind_eq_some_iff.mp h
  obtain ⟨t, ht, h⟩ := Option.bind_eq_some_iff.mp h
  obtain ⟨u, hu, hfacts⟩ := Option.map_eq_some_iff.mp h
  refine ⟨s, t, u, Reachable.of_run hs, ht, (Reach.of_run hu).mono ?_, hfacts⟩
  intro v action hcheck haction
  subst haction
  exact of_decide_eq_true hcheck

-- At the first tick no worker is left over from an earlier one.
theorem spawned_le_target_iff_first :
    ∃ u, ReachableCrawl defaultConfig u ∧ u.scaling.state = .spawning 0 ∧
      u.running + u.unstarted ≤ u.shared.metrics.targetWorkers := by
  let facts (s u : Crawl) : Bool :=
    s.scaling.state = .loadRunning 10 && s.running = 0 && s.unstarted + s.exited = 0 &&
      u.scaling.state = .spawning 0
  obtain ⟨s, t, u, hs, ht, hu, hfacts⟩ :=
    @tick_of_run defaultConfig (firstTick.take 8) (List.replicate 10 .scaling) facts (by decide +kernel)
  simp only [facts, Bool.and_eq_true, decide_eq_true_eq] at hfacts
  obtain ⟨⟨⟨hload, hrunning⟩, hnone⟩, hend⟩ := hfacts
  refine ⟨u, (hs.tail trivial ht).trans hu.reachable, hend, ?_⟩
  apply (spawned_le_target_iff defaultConfig s t u 10 hs hload (by omega) ht hu hend).mpr
  omega

-- Ten workers are spawned and one starts. It takes the root, so that the second
-- tick finds the queue empty and lowers the target to one. The root has a prefix
-- and a second page, so the third tick wants ten workers once more.
def lateStartRun : List Action :=
  let first : Action := .worker 0 0 (listingResponse [prefixElement "b/",
    textElement "IsTruncated" "true", textElement "NextContinuationToken" "next"])
  firstTick ++ workerSteps 0 4 ++ [.scaling, .scalingTimer] ++ List.replicate 5 .scaling ++ [first] ++
    workerSteps 0 5 ++ [.scaling, .scalingTimer] ++ List.replicate 6 .scaling

-- One worker runs, nine are still to start, and nine more are spawned.
theorem spawns_beyond_target :
    ¬ ∀ (config : Config) (s t u : Crawl) (desired : Nat), ReachableCrawl config s →
      s.scaling.state = .loadRunning desired → s.running < desired →
      step config s .scaling = some t → Reach (step config) sameTick t u →
      u.scaling.state = .spawning 0 → u.running + u.unstarted ≤ u.shared.metrics.targetWorkers := by
  intro h
  let facts (s u : Crawl) : Bool :=
    s.scaling.state = .loadRunning 10 && s.running = 1 && u.scaling.state = .spawning 0 &&
      u.running + u.unstarted = 19 && u.shared.metrics.targetWorkers = 10
  obtain ⟨s, t, u, hs, ht, hu, hfacts⟩ :=
    @tick_of_run defaultConfig lateStartRun (List.replicate 9 .scaling) facts (by decide +kernel)
  simp only [facts, Bool.and_eq_true, decide_eq_true_eq] at hfacts
  obtain ⟨⟨⟨⟨hload, hrunning⟩, hend⟩, hcount⟩, htarget⟩ := hfacts
  have hbound := h defaultConfig s t u 10 hs hload (by omega) ht hu hend
  omega

end S3Cpp.Tools.ListAllObjects
