import S3Cpp.Tools.ListAllObjects.WorkerManager.Destructor
import S3Cpp.Tools.ListAllObjects.WorkerManager.Shutdown
import S3Cpp.Tools.ListAllObjects.WorkerManager.Termination

namespace S3Cpp.Tools.ListAllObjects

open Aws.S3 Aws.S3.Client Aws.Iam Library Library.Delimited Library.Population Library.Transition

-- A worker that does not have to leave when it is the last one.
def WorkerState.Stays (target : Nat) : WorkerState → Prop
  | .leaving | .finished => False
  | .readTarget active => active ≤ target
  | _ => True

-- One worker that stays is left.
structure Manned (s : Crawl) : Prop where
  target : 1 ≤ s.shared.metrics.targetWorkers
  worker : ∃ w ∈ s.workers, w.Stays s.shared.metrics.targetWorkers

section Workers

variable {ext : Externals} {session : Session} {service : Service} {config : Config} {s t : Crawl}
  {action : Action} {index target : Nat}

-- One worker stands back. It moves only while it holds the mutex.
def Service.OthersMove (service : Service) (ext : Externals) (session : Session) (config : Config) (index : Nat)
    (s : Crawl) (action : Action) : Prop :=
  service.WorkerMoves ext session config s action ∧
    (action.ofWorker index = true → ∃ w, s.workers[index]? = some w ∧ w.holding = 1)

-- A worker that holds the mutex stays.
theorem WorkerStep.stays {response : Response} {sh sh' : Shared} {w w' : WorkerState}
    (h : WorkerStep config response sh w sh' w') (hw : w.holding = 1) : w'.Stays target := by
  cases h with
  | empty | drop | take | release | count | push | nextPage | lastPage => trivial
  | _ => cases hw

theorem Service.OthersMove.stays {w : WorkerState} (hmoves : service.OthersMove ext session config index s action)
    (hw : s.workers[index]? = some w) (hstays : w.Stays target) (h : step config s action = some t) :
    ∃ w', t.workers[index]? = some w' ∧ w'.Stays target := by
  obtain ⟨own, choice, response, rfl⟩ := hmoves.1.inv
  cases step_inv h with
  | worker _ _ _ v v' sh' hv hstep =>
      by_cases hown : own = index
      · subst hown
        obtain ⟨u, hu, hholding⟩ := hmoves.2 (by simp [Action.ofWorker])
        obtain rfl : u = v := Option.some.inj (hu.symm.trans hv)
        have hlt := (List.getElem?_eq_some_iff.mp hv).1
        exact ⟨v', List.getElem?_set_self hlt, hstep.stays hholding⟩
      · exact ⟨w, by rw [List.getElem?_set_ne hown]; exact hw, hstays⟩

-- When all the others have finished the one that is left is enough.
theorem staffed_of_alone {w : WorkerState} (ha : Accounted s) (htarget : 1 ≤ s.shared.metrics.targetWorkers)
    (hw : s.workers[index]? = some w) (hstays : w.Stays s.shared.metrics.targetWorkers)
    (hothers : ∀ other v, s.workers[other]? = some v → other ≠ index → v = .finished) : Staffed s := by
  obtain ⟨before, after, hworkers, rfl, -, -⟩ := split_of_getElem? hw
  have hbefore : ∀ v ∈ before, v = .finished := by
    intro v hv
    obtain ⟨other, hother⟩ := List.getElem?_of_mem hv
    have hlt := (List.getElem?_eq_some_iff.mp hother).1
    exact hothers other v (by rw [hworkers, List.getElem?_append_left hlt, hother]) (Nat.ne_of_lt hlt)
  have hafter : ∀ v ∈ after, v = .finished := by
    intro v hv
    obtain ⟨other, hother⟩ := List.getElem?_of_mem hv
    refine hothers (before.length + 1 + other) v ?_ (by omega)
    rw [hworkers, List.getElem?_append_right (by omega), Nat.add_assoc, Nat.add_sub_cancel_left, Nat.add_comm,
      List.getElem?_cons_succ, hother]
  have hmem (v : WorkerState) (hv : v ∈ s.workers) : v = w ∨ v = .finished := by
    rw [hworkers] at hv
    refine (mem_move.mp hv).imp id fun hrest => ?_
    exact (List.mem_append.mp hrest).elim (hbefore v) (hafter v)
  refine ⟨?_, fun active hactive => ?_, .inr ⟨w, List.mem_of_getElem? hw, fun hdeparting => ?_⟩⟩
  · have hzero (f : WorkerState → Nat) (hf : f .finished = 0) : total f s.workers = f w := by
      have hnone (l : List WorkerState) (hl : ∀ v ∈ l, v = .finished) : total f l = 0 :=
        (total_eq_zero_iff f l).mpr fun v hv => by rw [hl v hv, hf]
      rw [hworkers, total_append, total_cons, hnone before hbefore, hnone after hafter, Nat.zero_add, Nat.add_zero]
    have hactive := ha.active
    rw [hzero WorkerState.started rfl] at hactive
    rw [Crawl.unstarted, hzero WorkerState.unstarted rfl, Crawl.running, hactive]
    have hone : w.unstarted + w.started ≤ 1 := by
      cases w <;> simp [WorkerState.unstarted, WorkerState.started]
    exact hone.trans htarget
  · rcases hmem _ hactive with heq | hfinished
    · rwa [← heq] at hstays
    · cases hfinished
  · cases w with
    | leaving | finished => exact hstays.elim
    | _ => exact hdeparting.elim

variable (hsha : ∀ message, ext.sha256 message ≠ [])
  (hgrammar : ∀ target, Target.originForm target → ext.originForm target)

include hsha hgrammar

theorem others_inevitable {w : WorkerState}
    (h : Reach (step config) (service.Connected ext session config) construct s) (hmanager : s.manager.holding = 0)
    (hw : s.workers[index]? = some w) (hstays : w.Stays s.shared.metrics.targetWorkers) :
    Inevitable (restrict (step config) (service.OthersMove ext session config index))
      (fun t => service.Working ext session config s t ∧
        (∃ v, t.workers[index]? = some v ∧ v.Stays s.shared.metrics.targetWorkers) ∧
        ∀ other v, t.workers[other]? = some v → other ≠ index → v = .finished) s := by
  let I (t : Crawl) : Prop := service.Working ext session config s t ∧
    ∃ v, t.workers[index]? = some v ∧ v.Stays s.shared.metrics.targetWorkers
  refine Inevitable.of_measure (service.server.workLeft s.workers.length) (I := I) ?_ ?_
    ⟨⟨h, rfl, rfl, rfl⟩, w, hw, hstays⟩
  · rintro t action u ⟨ht, v, hv, hvstays⟩ - hstep
    obtain ⟨hmoves, hstep⟩ := restrict_eq_some_iff.mp hstep
    obtain ⟨hu, hless⟩ := ht.move hsha hgrammar hmoves.1 hstep
    exact ⟨⟨hu, hmoves.stays hv hvstays hstep⟩, hless⟩
  · rintro t ⟨ht, hleft⟩ hopen
    have ha : Accounted t := ReachableCrawl.accounted ht.reach.reachable
    have hsome : ∃ other v, t.workers[other]? = some v ∧ other ≠ index ∧ v ≠ .finished := by
      by_contra hnone
      push Not at hnone
      exact hopen ⟨ht, hleft, hnone⟩
    obtain ⟨other, v, hv, hne, hopen⟩ := hsome
    cases hmutex : t.shared.queueMutex with
    | false =>
        obtain ⟨choice, response, u, hmoves, hu⟩ := exists_workerMove hsha hgrammar hv hopen (.inr hmutex)
        refine ⟨_, u, restrict_eq_some_iff.mpr ⟨⟨hmoves, fun hown => ?_⟩, hu⟩⟩
        exact absurd (by simpa [Action.ofWorker] using hown) hne
    | true =>
        have hunlocked : t.manager.holding = 0 := by rw [ht.manager, hmanager]
        obtain ⟨holder, hholder, hrunning, hone⟩ :=
          exists_enabled ha hunlocked ⟨v, List.mem_of_getElem? hv, hopen⟩
        have hone : holder.holding = 1 := hone.resolve_right (by simp [hmutex])
        obtain ⟨place, hplace⟩ := List.getElem?_of_mem hholder
        obtain ⟨choice, response, u, hmoves, hu⟩ := exists_workerMove hsha hgrammar hplace hrunning (.inl hone)
        refine ⟨_, u, restrict_eq_some_iff.mpr ⟨⟨hmoves, fun hown => ?_⟩, hu⟩⟩
        obtain rfl : place = index := by simpa [Action.ofWorker] using hown
        exact ⟨holder, hplace, hone⟩

-- While one worker stays the workers can come to the end of the work.
theorem Manned.exhausts (hs : Manned s) (h : Reach (step config) (service.Connected ext session config) construct s)
    (hmanager : s.manager.holding = 0) :
    ∃ t, Reach (step config) (service.Connected ext session config) s t ∧ t.manager = s.manager ∧ AllDone t := by
  obtain ⟨w, hw, hstays⟩ := hs.worker
  obtain ⟨index, hindex⟩ := List.getElem?_of_mem hw
  obtain ⟨t, ht, hworking, ⟨v, hv, hvstays⟩, hothers⟩ :=
    (others_inevitable hsha hgrammar h hmanager hindex hstays).exists_reach
  have ha : Accounted t := ReachableCrawl.accounted hworking.reach.reachable
  have hstaffed : Staffed t := by
    refine staffed_of_alone ha ?_ hv ?_ hothers
    · rw [hworking.target]
      exact hs.target
    · rwa [hworking.target]
  obtain ⟨u, hu, hdone, hfinished, hkeeps⟩ :=
    (workers_inevitable hsha hgrammar hworking.reach (by rw [hworking.manager, hmanager])).exists_reach
  have hau : Accounted u := ReachableCrawl.accounted hdone.reach.reachable
  refine ⟨u, (ht.mono fun _ _ h => h.1.2).trans (hu.mono fun _ _ h => h.2), hdone.manager.trans hworking.manager,
    (hkeeps hstaffed).length_eq_zero hfinished, ?_⟩
  rw [hau.active]
  exact (total_eq_zero_iff _ _).mpr fun x hx => by rw [hfinished x hx]; rfl

end Workers

section Coroutines

variable {ext : Externals} {session : Session} {service : Service} {config : Config} {s t : Crawl}
  {action : Action}

theorem connected_of_manager (h : ManagerMoves s action) : service.Connected ext session config s action := by
  cases action with
  | manager choice => trivial
  | _ => exact h.elim

theorem connected_of_tick (h : action.isTick = true) : service.Connected ext session config s action := by
  cases action with
  | scaling | scalingTimer => trivial
  | _ => cases h

-- A round in which ~WorkerManager has begun ends in front of the next one or
-- behind the loop.
theorem releases (h : ReachableCrawl config s) (hexit : ¬ s.manager.Exited) :
    ∃ t, Reach (step config) (service.Connected ext session config) s t ∧ t.workers = s.workers ∧
      t.shared.metrics = s.shared.metrics ∧ (t.manager = .waiting ∨ t.manager = .emitScaling) := by
  have hknows := h.accounted.manager
  have hround : Round s True s := by
    refine ⟨h.accounted, rfl, rfl, rfl, ?_⟩
    unfold ManagerKnows at hknows
    cases hm : s.manager <;> rw [hm] at hknows hexit
    case readActive => exact hknows.2
    case draining => exact hknows
    case emitScaling | emitWriter | joining | joined => exact absurd trivial hexit
    all_goals trivial
  have hends := @Round.inevitable config s s True
    (fun t => Round s True t ∧ (t.manager = .waiting ∨ t.manager = .emitScaling)) hround (fun _ => trivial)
    (fun t ht hm => ⟨ht, .inr hm⟩) (fun t ht hm => .inl ⟨ht, .inl hm⟩)
  obtain ⟨t, ht, hkept, hm⟩ := hends.exists_reach
  exact ⟨t, ht.mono fun _ _ h => connected_of_manager h, hkept.workers, hkept.metrics, hm⟩

-- From there on it leaves the loop when all is done.
theorem leaves (ha : Accounted s) (hm : s.manager = .waiting) (hdone : AllDone s) :
    ∃ t, Reach (step config) (service.Connected ext session config) s t ∧ t.manager = .emitScaling := by
  have hround : Round s True s := ⟨ha, rfl, rfl, rfl, by rw [hm]; trivial⟩
  have hends := @Round.inevitable config s s True (fun t => t.manager = .emitScaling) hround (fun _ => trivial)
    (fun t ht hm => hm) fun t ht hm => .inr ⟨hdone, ht.accounted.free_of_allDone hm (by
      rw [AllDone, ht.metrics]
      exact hdone)⟩
  obtain ⟨t, ht, hm⟩ := hends.exists_reach
  exact ⟨t, ht.mono fun _ _ h => connected_of_manager h, hm⟩

-- The scaling worker comes to wait for its timer.
theorem scaling_waits (hrunning : s.scaling.state.Running) :
    ∃ t, Reach (step config) (service.Connected ext session config) s t ∧ t.manager = s.manager ∧
      t.scaling.state = .waiting .pending := by
  obtain ⟨t, ht, harming⟩ := hrunning.arms config
  have hmanager : t.manager = s.manager := by
    refine ht.invariant (I := fun t => t.manager = s.manager) rfl fun u action v htick hu hstep => ?_
    cases step_inv hstep with
    | scaling hstep => exact hstep.others.1.trans hu
    | scalingTimer => exact hu
    | worker | manager | writer | writerTimer => cases htick
  have hconnected : Reach (step config) (service.Connected ext session config) s t :=
    ht.mono fun _ _ h => connected_of_tick h
  refine ⟨{ t with scaling.state := .waiting .pending }, ?_, hmanager, rfl⟩
  exact .tail (a := Action.scaling) hconnected trivial (by simp only [step, scalingStep, harming])

def WriterState.untilWait : WriterState → Nat
  | .arming => 1
  | .draining _ => 2
  | .writing _ _ | .waiting (.completed _) => 3
  | _ => 0

-- So does the writer, with what it has left to write.
theorem writer_waits (hrunning : s.writer.state.Running) :
    ∃ t, Reach (step config) (service.Connected ext session config) s t ∧ t.manager = s.manager ∧
      t.scaling = s.scaling ∧ t.writer.state = .waiting .pending := by
  let I (t : Crawl) : Prop := t.manager = s.manager ∧ t.scaling = s.scaling ∧ t.writer.state.Running
  have hwaits : Inevitable (restrict (step config) fun _ action => action = .writer none)
      (fun t => I t ∧ t.writer.state = .waiting .pending) s := by
    refine Inevitable.of_measure (I := I)
      (fun t => t.writer.state.untilWait + 2 * t.shared.writeStack.length) ?_ ?_ ⟨rfl, rfl, hrunning⟩
    · rintro t action u ⟨hmanager, hscaling, ht⟩ hopen hstep
      obtain ⟨rfl, hstep⟩ := restrict_eq_some_iff.mp hstep
      cases step_inv hstep with
      | writer failure hwriter =>
          obtain ⟨hsame, hscale, -⟩ := hwriter.others
          refine ⟨⟨hsame.trans hmanager, hscale.trans hscaling, hwriter.running ht⟩, ?_⟩
          cases hwriter with
          | pop aborted text rest h hstack =>
              simp only [h, hstack, WriterState.untilWait, List.length_cons]
              omega
          | arm h | aborted h | expired h | failed h | finish h | write _ _ h | writeFailed _ _ _ _ h =>
              simp [h, WriterState.untilWait, Shared.print]
          | rearm h => simp [h, WriterState.untilWait]
    · rintro t ⟨hmanager, hscaling, ht⟩ hopen
      have go {u : Crawl} (h : writerStep none t = some u) :
          ∃ action u, restrict (step config) (fun _ action => action = .writer none) t action = some u :=
        ⟨.writer none, u, restrict_eq_some_iff.mpr ⟨rfl, h⟩⟩
      cases hstate : t.writer.state with
      | arming => exact go (by simp only [writerStep, hstate]; rfl)
      | waiting wait =>
          cases wait with
          | pending => exact absurd ⟨⟨hmanager, hscaling, ht⟩, hstate⟩ hopen
          | completed result => cases result <;> exact go (by simp only [writerStep, hstate]; rfl)
      | draining aborted =>
          cases hstack : t.shared.writeStack <;> exact go (by simp only [writerStep, hstate, hstack]; rfl)
      | writing aborted text => exact go (by simp only [writerStep, hstate]; rfl)
      | returned | threw =>
          rw [hstate] at ht
          exact ht.elim
  obtain ⟨t, ht, ⟨hmanager, hscaling, -⟩, hpending⟩ := hwaits.exists_reach
  exact ⟨t, ht.mono fun _ _ h => by rw [h]; rfl, hmanager, hscaling, hpending⟩

-- The signals can come when the coroutines wait for them.
theorem signals (h : Reach (step config) (service.Connected ext session config) construct s)
    (hm : s.manager = .emitScaling) :
    ∃ t, Reach (step config) (service.Connected ext session config) s t ∧ Closing t := by
  have hunsignalled := (ReachableCrawl.unsignalled h.reachable).scaling (by rw [hm]; rfl)
  obtain ⟨a, ha, hma, hpending⟩ := scaling_waits hunsignalled
  let b : Crawl := { a with scaling.state := a.scaling.state.emit, manager := .emitWriter }
  have hb : Reach (step config) (service.Connected ext session config) s b :=
    .tail (a := Action.manager 0) ha trivial (by simp only [step, managerStep, hma.trans hm]; rfl)
  obtain ⟨c, hc, hmc, hscaling, hwpending⟩ := writer_waits
    ((ReachableCrawl.unsignalled (h.trans hb).reachable).writer rfl)
  let d : Crawl := { c with writer.state := c.writer.state.emit, manager := .joining }
  have hd : Reach (step config) (service.Connected ext session config) s d :=
    (hb.trans hc).tail (a := Action.manager 0) trivial (by simp only [step, managerStep, hmc]; rfl)
  refine ⟨d, hd, ReachableCrawl.accounted (h.trans hd).reachable, .inl rfl, ?_, ?_⟩
  · have hstate : d.scaling.state = a.scaling.state.emit := congrArg ScalingWorker.state hscaling
    rw [hstate, hpending]
    trivial
  · have hstate : d.writer.state = c.writer.state.emit := rfl
    rw [hstate, hwpending]
    trivial

-- Where a write may fail it may succeed.
theorem exists_write {failure : Option (Nat × Str)} (h : writerStep failure s = some t) :
    ∃ u, writerStep none s = some u := by
  cases hstate : s.writer.state with
  | waiting wait =>
      cases wait with
      | pending => simp only [writerStep, hstate, reduceCtorEq] at h
      | completed result => cases result <;> exact ⟨_, by simp only [writerStep, hstate]; rfl⟩
  | draining aborted => cases hstack : s.shared.writeStack <;> exact ⟨_, by simp only [writerStep, hstate, hstack]; rfl⟩
  | arming | writing => exact ⟨_, by simp only [writerStep, hstate]; rfl⟩
  | returned | threw => simp only [writerStep, hstate, reduceCtorEq] at h

-- No response and no failed write is needed to close.
theorem Closing.closes (hs : Closing s) :
    ∃ t, Reach (step config) (service.Connected ext session config) s t ∧ Closed t := by
  refine Inevitable.exists_reach (Inevitable.of_measure (I := Closing) Crawl.remaining ?_ ?_ hs)
  · rintro t action u ht - hstep
    exact closing_step ht (restrict_eq_some_iff.mp hstep).2
  · rintro t ht hopen
    obtain ⟨action, u, hu⟩ := @Closing.progress config t ht hopen
    cases action with
    | worker index choice response =>
        have hconnected : service.Connected ext session config t (.worker index choice response) :=
          fun call token retries hw => (ht.quiet.workers _ (List.mem_of_getElem? hw)).elim
        exact ⟨_, u, restrict_eq_some_iff.mpr ⟨hconnected, hu⟩⟩
    | writer failure =>
        obtain ⟨v, hv⟩ := exists_write hu
        exact ⟨.writer none, v, restrict_eq_some_iff.mpr ⟨rfl, hv⟩⟩
    | manager choice => exact ⟨.manager choice, u, restrict_eq_some_iff.mpr ⟨trivial, hu⟩⟩
    | scaling => exact ⟨.scaling, u, restrict_eq_some_iff.mpr ⟨trivial, hu⟩⟩
    | scalingTimer => exact ⟨.scalingTimer, u, restrict_eq_some_iff.mpr ⟨trivial, hu⟩⟩
    | writerTimer => exact ⟨.writerTimer, u, restrict_eq_some_iff.mpr ⟨trivial, hu⟩⟩

end Coroutines

-- There is no dead end: as long as one worker is left that stays, the program can
-- still come to its end, whatever has happened before, and the file then holds
-- every key once.
theorem crawl_can_complete (ext : Externals) (hsha : ∀ message, ext.sha256 message ≠ [])
    (hgrammar : ∀ target, Target.originForm target → ext.originForm target) (session : Session)
    (service : Service) (config : Config) (s : Crawl)
    (h : Reach (step config) (service.Connected ext session config) construct s)
    (hexit : ¬ s.manager.Exited) (hmanned : Manned s) :
    ∃ t, Reach (step config) (service.Connected ext session config) s t ∧ Closed t ∧
      ∃ objects : List Object, (objects.map Object.Key).Perm (service.keys.map some) ∧
        t.writer.output = objectsText config objects := by
  obtain ⟨a, ha, hworkers, hmetrics, hm⟩ := @releases ext session service config s h.reachable hexit
  have hleft : ∃ b, Reach (step config) (service.Connected ext session config) s b ∧ b.manager = .emitScaling := by
    rcases hm with hm | hm
    · have hmanned : Manned a := by
        refine ⟨?_, ?_⟩
        · rw [hmetrics]
          exact hmanned.target
        · rw [hworkers, hmetrics]
          exact hmanned.worker
      obtain ⟨b, hb, hmb, hdone⟩ := hmanned.exhausts hsha hgrammar (h.trans ha) (by rw [hm]; rfl)
      have haccounted : Accounted b := ReachableCrawl.accounted ((h.trans ha).trans hb).reachable
      obtain ⟨c, hc, hmc⟩ := leaves haccounted (hmb.trans hm) hdone
      exact ⟨c, (ha.trans hb).trans hc, hmc⟩
    · exact ⟨a, ha, hm⟩
  obtain ⟨b, hb, hmb⟩ := hleft
  obtain ⟨c, hc, hclosing⟩ := signals (h.trans hb) hmb
  obtain ⟨t, ht, hclosed⟩ := hclosing.closes
  have hreach := (hb.trans hc).trans ht
  have hwhole := h.trans hreach
  obtain ⟨objects, hobjects, houtput⟩ :=
    output_of_collected hwhole.reachable (collected_of_connected hwhole) hclosed.2.2
  have hexited : t.manager.Exited := by
    rw [hclosed.1]
    trivial
  exact ⟨t, hreach, hclosed, objects,
    (hobjects.map Object.Key).trans ((crawled_of_connected hsha hgrammar hwhole).handed_perm hexited), houtput⟩

-- A worker has listed the root and its second request has failed.
def interruptedRun : List Action :=
  firstTick ++ workerSteps 0 4 ++ [.worker 0 0 (returned ⟨none⟩ none)] ++ workerSteps 0 9 ++
    [.worker 0 1 (.failed [])] ++ workerSteps 0 3

def asksAgain : WorkerState → Bool
  | .listOne _ _ retries => retries = 2
  | _ => false

theorem crawl_can_complete_twoKeys :
    ∃ s t, Reach (step defaultConfig) (twoKeysService.Connected targetExternals uploadSession defaultConfig) s t ∧
      (∃ w ∈ s.workers, asksAgain w = true) ∧ Closed t ∧
      ∃ objects : List Object, (objects.map Object.Key).Perm [some (ascii "a"), some (ascii "b/c")] ∧
        t.writer.output = objectsText defaultConfig objects := by
  have hrun : (run (guarded (step defaultConfig) connects) construct interruptedRun).map
      (fun s => decide (s.manager = .waiting ∧ 1 ≤ s.shared.metrics.targetWorkers) && s.workers.any asksAgain) =
      some true := by decide +kernel
  obtain ⟨s, hs, hfacts⟩ := Option.map_eq_some_iff.mp hrun
  obtain ⟨hfacts, hasks⟩ := Bool.and_eq_true_iff.mp hfacts
  obtain ⟨hm, htarget⟩ := of_decide_eq_true hfacts
  obtain ⟨w, hw, hasks⟩ := List.any_eq_true.mp hasks
  have hmanned : Manned s := by
    refine ⟨htarget, w, hw, ?_⟩
    cases w with
    | listOne => trivial
    | _ => cases hasks
  obtain ⟨t, ht, hclosed, hfile⟩ := crawl_can_complete targetExternals
    (fun _ => by simp [targetExternals, uploadExternals]) (fun _ h => h) uploadSession twoKeysService defaultConfig s
    ((Reach.of_run hs).mono fun _ _ h => connected_of_connects h) (by rw [hm]; exact id) hmanned
  exact ⟨s, t, ht, ⟨w, hw, hasks⟩, hclosed, hfile⟩

end S3Cpp.Tools.ListAllObjects
