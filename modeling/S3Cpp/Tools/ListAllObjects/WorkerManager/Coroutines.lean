import S3Cpp.Tools.ListAllObjects.WorkerManager.Completion

namespace S3Cpp.Tools.ListAllObjects

open Aws.S3 Aws.S3.Client Library.Transition

-- Whether ~WorkerManager has sent its signals.
def ManagerState.scalingSignalled : ManagerState → Bool
  | .emitWriter | .joining | .joined => true
  | _ => false

def ManagerState.writerSignalled : ManagerState → Bool
  | .joining | .joined => true
  | _ => false

-- The coroutines where no aborted or failed wait has taken them.
def ScalingState.Running : ScalingState → Prop
  | .waiting (.completed .aborted) | .waiting (.completed .failed) | .returned | .threw => False
  | _ => True

def WriterState.Running : WriterState → Prop
  | .waiting (.completed .aborted) | .waiting (.completed .failed) | .draining true | .writing true _
  | .returned | .threw => False
  | _ => True

section Steps

variable {config : Config} {s t : Crawl}

theorem ScalingStep.running (h : ScalingStep config s t) (hs : s.scaling.state.Running) :
    t.scaling.state.Running := by
  cases h with
  | aborted h | failed h =>
      rw [h] at hs
      exact hs.elim
  | _ => trivial

theorem ScalingStep.others (h : ScalingStep config s t) :
    t.manager = s.manager ∧ t.writer = s.writer ∧ t.shared.writeStack = s.shared.writeStack := by
  cases h <;> exact ⟨rfl, rfl, rfl⟩

theorem ScalingStep.written (h : ScalingStep config s t) : t.shared.written = s.shared.written := by
  cases h <;> rfl

theorem WriterStep.running (h : WriterStep s t) (hs : s.writer.state.Running) :
    t.writer.state.Running := by
  cases h with
  | aborted h | failed h | finish h =>
      rw [h] at hs
      exact hs.elim
  | pop aborted text rest h | write aborted text h | writeFailed aborted text line count h =>
      rw [h] at hs
      cases aborted with
      | true => exact hs.elim
      | false => trivial
  | _ => trivial

theorem WriterStep.others (h : WriterStep s t) :
    t.manager = s.manager ∧ t.scaling = s.scaling ∧ t.workers = s.workers := by
  cases h <;> exact ⟨rfl, rfl, rfl⟩

end Steps

structure Unsignalled (s : Crawl) : Prop where
  scaling : s.manager.scalingSignalled = false → s.scaling.state.Running
  writer : s.manager.writerSignalled = false → s.writer.state.Running

theorem unsignalled_construct : Unsignalled construct := ⟨fun _ => trivial, fun _ => trivial⟩

theorem unsignalled_step {config : Config} {s t : Crawl} {action : Action} (hs : Unsignalled s)
    (h : step config s action = some t) : Unsignalled t := by
  cases step_inv h with
  | worker => exact ⟨hs.scaling, hs.writer⟩
  | manager choice hstep =>
      cases hstep with
      | emitScaling hm => exact ⟨nofun, fun _ => hs.writer (by rw [hm]; rfl)⟩
      | emitWriter hm => exact ⟨nofun, nofun⟩
      | join => exact ⟨nofun, nofun⟩
      | drop before after top hm | drain before after top hm =>
          exact ⟨hs.scaling, hs.writer⟩
      | lock hm | clean hm | found _ _ _ hm | noLength hm | length hm | noWorker hm | worker hm
      | finish hm | report hm | drained hm =>
          exact ⟨fun _ => hs.scaling (by rw [hm]; rfl), fun _ => hs.writer (by rw [hm]; rfl)⟩
  | scaling hstep =>
      obtain ⟨hmanager, hwriter, -⟩ := hstep.others
      refine ⟨?_, ?_⟩
      · rw [hmanager]
        exact fun h => hstep.running (hs.scaling h)
      · rw [hmanager, hwriter]
        exact hs.writer
  | writer failure hstep =>
      obtain ⟨hmanager, hscaling, -⟩ := hstep.others
      refine ⟨?_, ?_⟩
      · rw [hmanager, hscaling]
        exact hs.scaling
      · rw [hmanager]
        exact fun h => hstep.running (hs.writer h)
  | scalingTimer => exact ⟨fun _ => trivial, hs.writer⟩
  | writerTimer => exact ⟨hs.scaling, fun _ => trivial⟩

theorem ReachableCrawl.unsignalled {config : Config} {s : Crawl} (h : ReachableCrawl config s) :
    Unsignalled s :=
  h.invariant unsignalled_construct fun _ _ _ _ hs ht => unsignalled_step hs ht

-- The scaling worker left alone with its timer, of which at most one can move
-- at a time.
def Action.isTick : Action → Bool
  | .scaling | .scalingTimer => true
  | _ => false

abbrev Ticks (config : Config) : Crawl → Crawl → Prop :=
  Reach (step config) fun _ action => action.isTick = true

theorem exists_ticks_of_step {config : Config} {s : Crawl} {P : Crawl → Prop} (t : Crawl)
    (h : scalingStep config s = some t) (ht : ∃ u, Ticks config t u ∧ P u) :
    ∃ u, Ticks config s u ∧ P u := by
  obtain ⟨u, hu, hP⟩ := ht
  have hfirst : Ticks config s t := Reach.single (show Action.scaling.isTick = true from rfl) h
  exact ⟨u, hfirst.trans hu, hP⟩

theorem exists_ticks_of_timer {config : Config} {s : Crawl} {P : Crawl → Prop}
    (h : s.scaling.state = .waiting .pending)
    (ht : ∃ u, Ticks config { s with scaling.state := .waiting (.completed .success) } u ∧ P u) :
    ∃ u, Ticks config s u ∧ P u := by
  obtain ⟨u, hu, hP⟩ := ht
  have hfirst : Ticks config s { s with scaling.state := .waiting (.completed .success) } :=
    Reach.single (show Action.scalingTimer.isTick = true from rfl) (by simp only [step, if_pos h])
  exact ⟨u, hfirst.trans hu, hP⟩

section Ticks

variable {config : Config} {s : Crawl}

abbrev Arms (config : Config) (s : Crawl) : Prop :=
  ∃ t, Ticks config s t ∧ t.scaling.state = .arming

theorem arms_of_spawning {remaining : Nat} (h : s.scaling.state = .spawning remaining) :
    Arms config s := by
  induction remaining generalizing s with
  | zero =>
      exact exists_ticks_of_step { s with scaling.state := .arming } (by simp only [scalingStep, h])
        ⟨_, .refl, rfl⟩
  | succ remaining ih =>
      exact exists_ticks_of_step
        { s with workers := s.workers ++ [.pending], scaling.state := .spawning remaining }
        (by simp only [scalingStep, h]) (ih rfl)

theorem arms_of_loadRunning {desired : Nat} (h : s.scaling.state = .loadRunning desired) :
    Arms config s := by
  by_cases hrunning : s.shared.metrics.activeWorkers < desired
  · exact exists_ticks_of_step
      { s with scaling.state := .spawning (desired - s.shared.metrics.activeWorkers) }
      (by simp only [scalingStep, h, if_pos hrunning]) (arms_of_spawning rfl)
  · exact exists_ticks_of_step { s with scaling.state := .arming }
      (by simp only [scalingStep, h, if_neg hrunning]) ⟨_, .refl, rfl⟩

theorem arms_of_compareTarget {desired : Nat} (h : s.scaling.state = .compareTarget desired) :
    Arms config s := by
  by_cases htarget : desired = s.shared.metrics.targetWorkers
  · exact exists_ticks_of_step { s with scaling.state := .arming }
      (by simp only [scalingStep, h, if_neg (not_not_intro htarget)]) ⟨_, .refl, rfl⟩
  · refine exists_ticks_of_step { s with scaling.state := .setTarget desired }
      (by simp only [scalingStep, h, if_pos htarget]) ?_
    exact exists_ticks_of_step
      { s with shared.metrics.targetWorkers := desired, scaling.state := .loadRunning desired } rfl
      (arms_of_loadRunning rfl)

theorem arms_of_checkQueue {mean : Rat} (h : s.scaling.state = .checkQueue mean) : Arms config s := by
  by_cases hlength : s.shared.metrics.totalQueueLength = 0
  · refine exists_ticks_of_step { s with scaling.state := .loadActive }
      (by simp only [scalingStep, h, if_pos hlength]) ?_
    refine exists_ticks_of_step
      { s with scaling.state := .alignTarget s.shared.metrics.activeWorkers } rfl ?_
    exact exists_ticks_of_step
      { s with
        shared.metrics.targetWorkers := s.shared.metrics.activeWorkers, scaling.state := .arming } rfl
      ⟨_, .refl, rfl⟩
  · refine exists_ticks_of_step { s with scaling.state := .calculate mean }
      (by simp only [scalingStep, h, if_neg hlength]) ?_
    exact exists_ticks_of_step
      { s with
        scaling.state :=
          .compareTarget (calculateDesiredWorkers config s.shared.metrics.activeWorkers mean) } rfl
      (arms_of_compareTarget rfl)

theorem arms_of_loadOps (h : s.scaling.state = .loadOps) : Arms config s := by
  let samples := addSample s.scaling.samples (s.shared.metrics.totalOps - s.scaling.previousOps)
  exact exists_ticks_of_step
    { s with scaling := ⟨.checkQueue (rollingMean samples), s.shared.metrics.totalOps, samples⟩ }
    (by simp only [scalingStep, h, samples]) (arms_of_checkQueue rfl)

theorem arms_of_expired (h : s.scaling.state = .waiting (.completed .success)) : Arms config s :=
  exists_ticks_of_step { s with scaling.state := .loadOps } (by simp only [scalingStep, h])
    (arms_of_loadOps rfl)

-- Left alone, a scaling worker that runs comes to the start of its loop.
theorem ScalingState.Running.arms (config : Config) (h : s.scaling.state.Running) : Arms config s := by
  cases hstate : s.scaling.state with
  | arming => exact ⟨s, .refl, hstate⟩
  | waiting wait =>
      cases wait with
      | pending => exact exists_ticks_of_timer hstate (arms_of_expired rfl)
      | completed result =>
          cases result with
          | success => exact arms_of_expired hstate
          | aborted | failed =>
              rw [hstate] at h
              exact h.elim
  | loadOps => exact arms_of_loadOps hstate
  | checkQueue mean => exact arms_of_checkQueue hstate
  | loadActive =>
      refine exists_ticks_of_step
        { s with scaling.state := .alignTarget s.shared.metrics.activeWorkers }
        (by simp only [scalingStep, hstate]) ?_
      exact exists_ticks_of_step
        { s with
          shared.metrics.targetWorkers := s.shared.metrics.activeWorkers, scaling.state := .arming } rfl
        ⟨_, .refl, rfl⟩
  | alignTarget active =>
      exact exists_ticks_of_step
        { s with shared.metrics.targetWorkers := active, scaling.state := .arming }
        (by simp only [scalingStep, hstate]) ⟨_, .refl, rfl⟩
  | calculate mean =>
      exact exists_ticks_of_step
        { s with
          scaling.state :=
            .compareTarget (calculateDesiredWorkers config s.shared.metrics.activeWorkers mean) }
        (by simp only [scalingStep, hstate]) (arms_of_compareTarget rfl)
  | compareTarget desired => exact arms_of_compareTarget hstate
  | setTarget desired =>
      exact exists_ticks_of_step
        { s with shared.metrics.targetWorkers := desired, scaling.state := .loadRunning desired }
        (by simp only [scalingStep, hstate]) (arms_of_loadRunning rfl)
  | loadRunning desired => exact arms_of_loadRunning hstate
  | spawning remaining => exact arms_of_spawning hstate
  | returned | threw =>
      rw [hstate] at h
      exact h.elim

-- A writer that no signal has reached starts another wait.
theorem WriterState.Running.arms (config : Config) (h : s.writer.state.Running)
    (hpending : s.writer.state ≠ .waiting .pending) :
    ∃ t, Reachable (step config) s t ∧ t.writer.state = .arming := by
  have own {s t : Crawl} (hstep : writerStep none s = some t)
      (ht : ∃ u, Reachable (step config) t u ∧ u.writer.state = .arming) :
      ∃ u, Reachable (step config) s u ∧ u.writer.state = .arming := by
    obtain ⟨u, hu, harming⟩ := ht
    have hfirst : Reachable (step config) s t := Reach.single (a := Action.writer none) trivial hstep
    exact ⟨u, hfirst.trans hu, harming⟩
  have draining (s : Crawl) (h : s.writer.state = .draining false) :
      ∃ u, Reachable (step config) s u ∧ u.writer.state = .arming := by
    induction hstack : s.shared.writeStack generalizing s with
    | nil => exact own (by simp only [writerStep, h, hstack]; rfl) ⟨_, .refl, rfl⟩
    | cons text rest ih =>
        refine own (by simp only [writerStep, h, hstack]; rfl) ?_
        exact own rfl (ih _ rfl rfl)
  cases hstate : s.writer.state with
  | arming => exact ⟨s, .refl, hstate⟩
  | waiting wait =>
      rw [hstate] at h
      cases wait with
      | pending => exact absurd hstate hpending
      | completed result =>
          cases result with
          | success => exact own (by simp only [writerStep, hstate]; rfl) (draining _ rfl)
          | aborted | failed => exact h.elim
  | draining aborted =>
      rw [hstate] at h
      cases aborted with
      | true => exact h.elim
      | false => exact draining s hstate
  | writing aborted text =>
      rw [hstate] at h
      cases aborted with
      | true => exact h.elim
      | false => exact own (by simp only [writerStep, hstate]; rfl) (draining _ rfl)
  | returned | threw =>
      rw [hstate] at h
      exact h.elim

end Ticks

end S3Cpp.Tools.ListAllObjects
