import S3Cpp.Tools.ListAllObjects.WorkerManager.Coroutines

namespace S3Cpp.Tools.ListAllObjects

open Aws.S3 Aws.S3.Client Library.Population Library.Transition

-- The coroutines once the signal has reached a pending wait.
def ScalingState.Stopping : ScalingState → Prop
  | .waiting (.completed .aborted) | .returned => True
  | _ => False

def WriterState.Stopping : WriterState → Prop
  | .waiting (.completed .aborted) | .draining true | .writing true _ | .returned => True
  | _ => False

section Steps

variable {config : Config} {s t : Crawl} {action : Action}

-- Neither coroutine is moved by anything but itself, its timer and its signal.
theorem step_scaling (h : step config s action = some t) :
    t.scaling.state = s.scaling.state ∨ t.scaling.state = s.scaling.state.emit ∨
      ScalingStep config s t ∨ s.scaling.state = .waiting .pending := by
  cases step_inv h with
  | manager choice hstep =>
      cases hstep with
      | emitScaling => exact .inr (.inl rfl)
      | _ => exact .inl rfl
  | scaling hstep => exact .inr (.inr (.inl hstep))
  | writer failure hstep => exact .inl (by rw [hstep.others.2.1])
  | scalingTimer hpending => exact .inr (.inr (.inr hpending))
  | worker | writerTimer => exact .inl rfl

theorem step_writer (h : step config s action = some t) :
    t.writer.state = s.writer.state ∨ t.writer.state = s.writer.state.emit ∨ WriterStep s t ∨
      s.writer.state = .waiting .pending := by
  cases step_inv h with
  | manager choice hstep =>
      cases hstep with
      | emitWriter => exact .inr (.inl rfl)
      | _ => exact .inl rfl
  | scaling hstep => exact .inl (by rw [hstep.others.2.1])
  | writer failure hstep => exact .inr (.inr (.inl hstep))
  | writerTimer hpending => exact .inr (.inr (.inr hpending))
  | worker | scalingTimer => exact .inl rfl

theorem ScalingState.Stopping.emit {state : ScalingState} (h : state.Stopping) :
    state.emit.Stopping := by
  unfold Stopping at h
  split at h <;> trivial

theorem WriterState.Stopping.emit {state : WriterState} (h : state.Stopping) : state.emit.Stopping := by
  unfold Stopping at h
  split at h <;> trivial

theorem ScalingStep.stopping (h : ScalingStep config s t) (hs : s.scaling.state.Stopping) :
    s.scaling.state = .waiting (.completed .aborted) ∧ t = { s with scaling.state := .returned } := by
  cases h with
  | aborted h => exact ⟨h, rfl⟩
  | arm h | failed h | expired h | loadOps _ h | queueEmpty _ h | queued _ h | loadActive h
  | alignTarget _ h | calculate _ h | keep _ h | change _ h | setTarget _ h | fewer _ h | enough _ h
  | spawned h | spawn _ h =>
      rw [h] at hs
      exact hs.elim

theorem scaling_stopping_step (hs : s.scaling.state.Stopping) (h : step config s action = some t) :
    t.scaling.state.Stopping := by
  rcases step_scaling h with h | h | h | h
  · exact h ▸ hs
  · exact h ▸ hs.emit
  · obtain ⟨-, rfl⟩ := h.stopping hs
    trivial
  · rw [h] at hs
    exact hs.elim

theorem WriterStep.stopping (h : WriterStep s t) (hs : s.writer.state.Stopping) :
    t.writer.state.Stopping := by
  cases h with
  | aborted h | finish h => trivial
  | pop aborted text rest h | write aborted text h | writeFailed aborted text line count h =>
      rw [h] at hs
      cases aborted with
      | true => trivial
      | false => exact hs.elim
  | arm h | expired h | failed h | rearm h =>
      rw [h] at hs
      exact hs.elim

theorem writer_stopping_step (hs : s.writer.state.Stopping) (h : step config s action = some t) :
    t.writer.state.Stopping := by
  rcases step_writer h with h | h | h | h
  · exact h ▸ hs
  · exact h ▸ hs.emit
  · exact h.stopping hs
  · rw [h] at hs
    exact hs.elim

end Steps

-- How many steps are left at most.
def WorkerState.remaining : WorkerState → Nat
  | .pending => 5
  | .getNextPrefix => 4
  | .scanQueue => 3
  | .isDone => 2
  | .leaving => 1
  | _ => 0

def ManagerState.remaining : ManagerState → Nat
  | .joined => 0
  | _ => 1

def ScalingState.remaining : ScalingState → Nat
  | .returned => 0
  | _ => 1

def WriterState.remaining : WriterState → Nat
  | .waiting _ | .writing _ _ => 2
  | .draining _ => 1
  | _ => 0

def Crawl.remaining (s : Crawl) : Nat :=
  total WorkerState.remaining s.workers + s.manager.remaining + s.scaling.state.remaining +
    s.writer.state.remaining + 2 * s.shared.writeStack.length

-- Both signals have been sent and both have been received.
structure Closing (s : Crawl) : Prop where
  accounted : Accounted s
  manager : s.manager = .joining ∨ s.manager = .joined
  scaling : s.scaling.state.Stopping
  writer : s.writer.state.Stopping

def Closed (s : Crawl) : Prop :=
  s.manager = .joined ∧ s.scaling.state = .returned ∧ s.writer.state = .returned

section Closing

variable {config : Config} {s t : Crawl} {action : Action}

theorem Closing.quiet (hs : Closing s) : Quiet s.shared s.workers := by
  refine hs.accounted.quiet ?_
  rcases hs.manager with h | h <;> rw [h] <;> trivial

theorem WorkerStep.remaining_lt {response : Response} {sh sh' : Shared} {w w' : WorkerState}
    {before after : List WorkerState} (h : WorkerStep config response sh w sh' w')
    (hq : Quiet sh (before ++ w :: after)) :
    w'.remaining < w.remaining ∧ sh'.writeStack = sh.writeStack := by
  have hw := hq.workers w (by simp)
  cases h with
  | start | lock | empty | leave | done => exact ⟨by decide, rfl⟩
  | drop before' after' top htop => exact absurd (htop.split.symm.trans hq.queue) (by simp)
  | take before' after' depth paths path htop => exact absurd (htop.split.symm.trans hq.queue) (by simp)
  | notDone h => exact absurd hq.length h
  | _ => exact hw.elim

theorem WriterStep.remaining_lt (h : WriterStep s t) (hs : s.writer.state.Stopping) :
    t.writer.state.remaining + 2 * t.shared.writeStack.length <
      s.writer.state.remaining + 2 * s.shared.writeStack.length := by
  cases h with
  | aborted h => simp [h, WriterState.remaining]
  | finish h => simp [h, WriterState.remaining]
  | pop aborted text rest h hstack =>
      simp only [h, hstack, WriterState.remaining, List.length_cons]
      omega
  | write aborted text h => simp [h, WriterState.remaining]
  | writeFailed aborted text line count h => simp [h, WriterState.remaining, Shared.print]
  | arm h | expired h | failed h | rearm h =>
      rw [h] at hs
      exact hs.elim

theorem closing_step (hs : Closing s) (h : step config s action = some t) :
    Closing t ∧ t.remaining < s.remaining := by
  have haccounted := accounted_step hs.accounted h
  have hscaling := scaling_stopping_step hs.scaling h
  have hwriter := writer_stopping_step hs.writer h
  cases step_inv h with
  | worker index choice response w w' sh' hw hstep =>
      obtain ⟨before, after, hworkers, -, hset, -⟩ := split_of_getElem? hw
      have hquiet := hs.quiet
      rw [hworkers] at hquiet
      obtain ⟨hlt, hstack⟩ := hstep.remaining_lt hquiet
      refine ⟨⟨haccounted, hs.manager, hscaling, hwriter⟩, ?_⟩
      have hmove := total_move WorkerState.remaining before after w w'
      rw [← hset w', ← hworkers] at hmove
      simp only [Crawl.remaining, hstack]
      omega
  | manager choice hstep =>
      have hmanager := hs.manager
      cases hstep with
      | join hm =>
          refine ⟨⟨haccounted, .inr rfl, hscaling, hwriter⟩, ?_⟩
          simp only [Crawl.remaining, hm, ManagerState.remaining]
          omega
      | lock hm | clean hm | drop _ _ _ hm | found _ _ _ hm | noLength hm | length hm | noWorker hm
      | worker hm | finish hm | report hm | drained hm | drain _ _ _ hm | emitScaling hm | emitWriter hm =>
          simp [hm] at hmanager
  | scaling hstep =>
      obtain ⟨hstate, rfl⟩ := hstep.stopping hs.scaling
      refine ⟨⟨haccounted, hs.manager, hscaling, hwriter⟩, ?_⟩
      simp only [Crawl.remaining, hstate, ScalingState.remaining]
      omega
  | writer failure hstep =>
      obtain ⟨hmanager, hsame, hworkers⟩ := hstep.others
      have hlt := hstep.remaining_lt hs.writer
      refine ⟨⟨haccounted, hmanager ▸ hs.manager, hscaling, hwriter⟩, ?_⟩
      simp only [Crawl.remaining, hmanager, hsame, hworkers]
      omega
  | scalingTimer hpending =>
      have hstopping := hs.scaling
      rw [hpending] at hstopping
      exact hstopping.elim
  | writerTimer hpending =>
      have hstopping := hs.writer
      rw [hpending] at hstopping
      exact hstopping.elim

theorem exists_worker_step {w : WorkerState} (hw : w ∈ s.workers)
    (h : (workerStep config 0 (.failed []) s.shared w).isSome) : ∃ action t, step config s action = some t := by
  obtain ⟨index, hindex⟩ := List.getElem?_of_mem hw
  obtain ⟨next, hnext⟩ := Option.isSome_iff_exists.mp h
  exact ⟨.worker index 0 (.failed []), _, by simp only [step, hindex, hnext, Option.bind_some, Option.map_some]; rfl⟩

-- A worker that waits for the mutex waits for one that can go on.
theorem Closing.workers_progress (hs : Closing s) {w : WorkerState} (hw : w ∈ s.workers)
    (hended : w.ended = false) : ∃ action t, step config s action = some t := by
  have hq := hs.quiet
  cases hmutex : s.shared.queueMutex with
  | true =>
      have hholding : 0 < total WorkerState.holding s.workers := by
        have hbits := hs.accounted.mutex
        rw [mutexBit, hmutex, Bool.toNat_true] at hbits
        rcases hs.manager with h | h <;> simp only [h, ManagerState.holding] at hbits <;> omega
      obtain ⟨v, hv, hpos⟩ := exists_of_total_pos WorkerState.holding hholding
      have hidle := hq.workers v hv
      cases v with
      | scanQueue => exact exists_worker_step hv (by simp [workerStep, hq.queue])
      | pending | getNextPrefix | isDone | leaving | finished => simp [WorkerState.holding] at hpos
      | _ => exact hidle.elim
  | false =>
      have hidle := hq.workers w hw
      refine exists_worker_step hw ?_
      cases w with
      | finished => cases hended
      | getNextPrefix => simp [workerStep, hmutex]
      | scanQueue => simp [workerStep, hq.queue]
      | pending | isDone | leaving => rfl
      | _ => exact hidle.elim

theorem Closing.progress (hs : Closing s) (hopen : ¬ Closed s) :
    ∃ action t, step config s action = some t := by
  have hscaling := hs.scaling
  have hwriter := hs.writer
  cases hstate : s.scaling.state with
  | returned =>
      cases hwstate : s.writer.state with
      | returned =>
          rcases hs.manager with hm | hm
          · by_cases hended : s.workers.all WorkerState.ended = true
            · exact ⟨.manager 0, { s with manager := .joined },
                by simp [step, managerStep, hm, hstate, hwstate, ScalingState.ended, WriterState.ended, hended]⟩
            · simp only [List.all_eq_true, not_forall] at hended
              obtain ⟨w, hw, hrunning⟩ := hended
              exact hs.workers_progress hw (by simpa using hrunning)
          · exact absurd ⟨hm, hstate, hwstate⟩ hopen
      | waiting wait =>
          rw [hwstate] at hwriter
          cases wait with
          | pending => exact hwriter.elim
          | completed result =>
              cases result with
              | aborted => exact ⟨.writer none, _, by simp only [step, writerStep, hwstate]; rfl⟩
              | success | failed => exact hwriter.elim
      | draining aborted =>
          cases hstack : s.shared.writeStack with
          | nil => exact ⟨.writer none, _, by simp only [step, writerStep, hwstate, hstack]; rfl⟩
          | cons text rest => exact ⟨.writer none, _, by simp only [step, writerStep, hwstate, hstack]; rfl⟩
      | writing aborted text => exact ⟨.writer none, _, by simp only [step, writerStep, hwstate]; rfl⟩
      | arming | threw =>
          rw [hwstate] at hwriter
          exact hwriter.elim
  | waiting wait =>
      rw [hstate] at hscaling
      cases wait with
      | pending => exact hscaling.elim
      | completed result =>
          cases result with
          | aborted => exact ⟨.scaling, _, by simp only [step, scalingStep, hstate]; rfl⟩
          | success | failed => exact hscaling.elim
  | _ =>
      rw [hstate] at hscaling
      exact hscaling.elim

theorem Closing.inevitable (hs : Closing s) : Inevitable (step config) Closed s :=
  Inevitable.of_measure Crawl.remaining (fun _ _ _ hu _ hv => closing_step hu hv)
    (fun _ hu hopen => hu.progress hopen) hs

end Closing

section Signals

variable {config : Config} {s t : Crawl} {choice : Nat}

theorem emitScaling_eq (hm : s.manager = .emitScaling) (h : step config s (.manager choice) = some t) :
    t = { s with scaling.state := s.scaling.state.emit, manager := .emitWriter } := by
  simp only [step, managerStep, hm] at h
  exact (Option.some.inj h).symm

theorem emitWriter_eq (hm : s.manager = .emitWriter) (h : step config s (.manager choice) = some t) :
    t = { s with writer.state := s.writer.state.emit, manager := .joining } := by
  simp only [step, managerStep, hm] at h
  exact (Option.some.inj h).symm

theorem ScalingState.emit_eq {state : ScalingState} (h : state ≠ .waiting .pending) :
    state.emit = state := by
  unfold emit
  split
  · rename_i wait
    cases wait with
    | pending => exact absurd rfl h
    | completed result => rfl
  · rfl

theorem WriterState.emit_eq {state : WriterState} (h : state ≠ .waiting .pending) :
    state.emit = state := by
  unfold emit
  split
  · rename_i wait
    cases wait with
    | pending => exact absurd rfl h
    | completed result => rfl
  · rfl

theorem scaling_arms_of_missed (hs : ReachableCrawl config s) (hm : s.manager = .emitScaling)
    (h : step config s (.manager choice) = some t) (hmissed : s.scaling.state ≠ .waiting .pending) :
    ∃ u, Reachable (step config) t u ∧ u.scaling.state = .arming := by
  have hrunning := hs.unsignalled.scaling (by rw [hm]; rfl)
  rw [← ScalingState.emit_eq hmissed] at hrunning
  obtain rfl := emitScaling_eq hm h
  obtain ⟨u, hu, harming⟩ := ScalingState.Running.arms config
    (s := { s with scaling.state := s.scaling.state.emit, manager := .emitWriter }) hrunning
  exact ⟨u, hu.reachable, harming⟩

theorem writer_missed (hs : ReachableCrawl config s) (hm : s.manager = .emitWriter)
    (h : step config s (.manager choice) = some t) (hmissed : s.writer.state ≠ .waiting .pending) :
    t.writer.state.Running ∧ t.writer.state ≠ .waiting .pending := by
  have hrunning := hs.unsignalled.writer (by rw [hm]; rfl)
  obtain rfl := emitWriter_eq hm h
  rw [WriterState.emit_eq hmissed]
  exact ⟨hrunning, hmissed⟩

end Signals

-- Both coroutines stop for good and the destructor returns if and only if each
-- signal finds its coroutine in a wait.
theorem shutdown_iff (config : Config) (s s' t t' : Crawl) (choice choice' : Nat)
    (hs : ReachableCrawl config s) (hms : s.manager = .emitScaling)
    (hs' : step config s (.manager choice) = some s') (ht : Reachable (step config) s' t)
    (hmt : t.manager = .emitWriter) (ht' : step config t (.manager choice') = some t') :
    ((∀ u, Reachable (step config) s' u → u.scaling.state ≠ .arming) ∧
      (∀ u, Reachable (step config) t' u → u.writer.state ≠ .arming) ∧
      Inevitable (step config) Closed t') ↔
    s.scaling.state = .waiting .pending ∧ t.writer.state = .waiting .pending := by
  have htreach : ReachableCrawl config t := (hs.trans (Reach.single trivial hs')).trans ht
  constructor
  · rintro ⟨hscaling, hwriter, -⟩
    refine ⟨not_not.mp fun hmissed => ?_, not_not.mp fun hmissed => ?_⟩
    · obtain ⟨u, hu, harming⟩ := scaling_arms_of_missed hs hms hs' hmissed
      exact hscaling u hu harming
    · obtain ⟨hrunning, hpending⟩ := writer_missed htreach hmt ht' hmissed
      obtain ⟨u, hu, harming⟩ := hrunning.arms config hpending
      exact hwriter u hu harming
  · rintro ⟨hspending, htpending⟩
    have hsstopping : s'.scaling.state.Stopping := by
      rw [emitScaling_eq hms hs', hspending]
      trivial
    have hscaling (u : Crawl) (hu : Reachable (step config) s' u) : u.scaling.state.Stopping :=
      hu.invariant (I := fun v => v.scaling.state.Stopping) hsstopping fun _ _ _ _ hv hstep =>
        scaling_stopping_step hv hstep
    have htstopping : t'.writer.state.Stopping := by
      rw [emitWriter_eq hmt ht', htpending]
      trivial
    have hwriter (u : Crawl) (hu : Reachable (step config) t' u) : u.writer.state.Stopping :=
      hu.invariant (I := fun v => v.writer.state.Stopping) htstopping fun _ _ _ _ hv hstep =>
        writer_stopping_step hv hstep
    have hlast : Reachable (step config) t t' := Reach.single trivial ht'
    refine ⟨fun u hu harming => ?_, fun u hu harming => ?_, Closing.inevitable ⟨?_, ?_, ?_, htstopping⟩⟩
    · exact absurd (hscaling u hu) (by rw [harming]; exact id)
    · exact absurd (hwriter u hu) (by rw [harming]; exact id)
    · exact accounted_step htreach.accounted ht'
    · rw [emitWriter_eq hmt ht']
      exact .inl rfl
    · exact hscaling t' (ht.trans hlast)

-- Both coroutines wait when their signals come.
def orderlyRun : List Action := emptyBucketRun ++ [.scaling, .writer none]

theorem shutdown_iff_orderly :
    ∃ s s' t', ReachableCrawl defaultConfig s ∧ step defaultConfig s (.manager 0) = some s' ∧
      step defaultConfig s' (.manager 0) = some t' ∧ Inevitable (step defaultConfig) Closed t' := by
  let facts (s : Crawl) : Bool :=
    s.manager = .emitScaling && s.scaling.state = .waiting .pending && s.writer.state = .waiting .pending
  obtain ⟨s, hs, hfacts⟩ := @ReachableCrawl.of_run defaultConfig orderlyRun facts (by decide +kernel)
  simp only [facts, Bool.and_eq_true, decide_eq_true_eq] at hfacts
  obtain ⟨⟨hm, hscaling⟩, hwriter⟩ := hfacts
  have hs' : step defaultConfig s (.manager 0) =
      some { s with scaling.state := s.scaling.state.emit, manager := .emitWriter } := by
    simp only [step, managerStep, hm]
  exact ⟨s, _, _, hs, hs', rfl,
    ((shutdown_iff defaultConfig s _ _ _ 0 0 hs hm hs' .refl rfl rfl).mpr ⟨hscaling, hwriter⟩).2.2⟩

theorem writer_running_step {config : Config} {s t : Crawl} {action : Action}
    (hs : s.manager = .joining ∧ s.writer.state.Running) (h : step config s action = some t) :
    t.manager = .joining ∧ t.writer.state.Running := by
  obtain ⟨hm, hrunning⟩ := hs
  cases step_inv h with
  | manager choice hstep =>
      cases hstep with
      | join _ _ hended =>
          cases hstate : s.writer.state <;> simp [hstate, WriterState.ended] at hended
          all_goals
            rw [hstate] at hrunning
            exact hrunning.elim
      | lock hm' | clean hm' | drop _ _ _ hm' | found _ _ _ hm' | noLength hm' | length hm'
      | noWorker hm' | worker hm' | finish hm' | report hm' | drained hm' | drain _ _ _ hm'
      | emitScaling hm' | emitWriter hm' =>
          simp [hm] at hm'
  | scaling hstep =>
      obtain ⟨hmanager, hwriter, -⟩ := hstep.others
      exact ⟨hmanager.trans hm, hwriter ▸ hrunning⟩
  | writer failure hstep => exact ⟨hstep.others.1.trans hm, hstep.running hrunning⟩
  | worker | scalingTimer => exact ⟨hm, hrunning⟩
  | writerTimer => exact ⟨hm, trivial⟩

-- The writer's wait has expired when its signal comes. It starts to wait again
-- and the join waits for it.
def lateSignalRun : List Action := orderlyRun ++ [.writerTimer, .manager 0]

theorem writer_misses_signal :
    ∃ s t u, ReachableCrawl defaultConfig s ∧ s.manager = .emitWriter ∧
      step defaultConfig s (.manager 0) = some t ∧ Reachable (step defaultConfig) t u ∧
      u.writer.state = .arming ∧ ∀ v, Reachable (step defaultConfig) t v → v.manager = .joining := by
  let facts (s : Crawl) : Bool :=
    s.manager = .emitWriter && s.writer.state = .waiting (.completed .success)
  obtain ⟨s, hs, hfacts⟩ := @ReachableCrawl.of_run defaultConfig lateSignalRun facts (by decide +kernel)
  simp only [facts, Bool.and_eq_true, decide_eq_true_eq] at hfacts
  obtain ⟨hm, hexpired⟩ := hfacts
  have ht : step defaultConfig s (.manager 0) =
      some { s with writer.state := s.writer.state.emit, manager := .joining } := by
    simp only [step, managerStep, hm]
  obtain ⟨hrunning, hpending⟩ := writer_missed hs hm ht (by simp [hexpired])
  obtain ⟨u, hu, harming⟩ := hrunning.arms defaultConfig hpending
  refine ⟨s, _, u, hs, hm, ht, hu, harming, fun v hv => ?_⟩
  exact (hv.invariant (I := fun v => v.manager = .joining ∧ v.writer.state.Running) ⟨rfl, hrunning⟩
    fun _ _ _ _ hv hstep => writer_running_step hv hstep).1

end S3Cpp.Tools.ListAllObjects
