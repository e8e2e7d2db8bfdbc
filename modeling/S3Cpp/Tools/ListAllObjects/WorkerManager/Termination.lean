import S3Cpp.Tools.ListAllObjects.WorkerManager.Overshoot
import S3Cpp.Tools.ListAllObjects.WorkerManager.Work

namespace S3Cpp.Tools.ListAllObjects

open Aws.S3 Aws.S3.Client Aws.Iam Library Library.Delimited Library.Population Library.Transition

-- A step of a worker in a crawl that is connected to the service.
def Service.WorkerMoves (service : Service) (ext : Externals) (session : Session) (config : Config) (s : Crawl)
    (action : Action) : Prop :=
  action.isWorker = true ∧ service.Connected ext session config s action

def WorkerState.Departing : WorkerState → Prop
  | .leaving | .finished => True
  | _ => False

-- The target lets every worker stay that is there or still to start, and what is
-- queued has a worker that stays.
structure Staffed (s : Crawl) : Prop where
  enough : s.unstarted + s.running ≤ s.shared.metrics.targetWorkers
  known : ∀ active, .readTarget active ∈ s.workers → active ≤ s.shared.metrics.targetWorkers
  busy : s.shared.metrics.totalQueueLength = 0 ∨ ∃ w ∈ s.workers, ¬ w.Departing

section Progress

variable {config : Config} {sh : Shared} {w : WorkerState} {s : Crawl}

-- A worker moves on unless it waits for the mutex.
theorem workerStep_enabled (hw : w ≠ .finished) (hmutex : w.holding = 1 ∨ sh.queueMutex = false)
    (response : Response) : ∃ choice next, workerStep config choice response sh w = some next := by
  cases w with
  | scanQueue => exact workerStep_scanQueue config response sh
  | getNextPrefix | lockQueue =>
      have hfree := hmutex.resolve_left (by simp [WorkerState.holding])
      exact ⟨0, _, by rw [workerStep, hfree]; rfl⟩
  | countOp call page => cases hnext : page.nextToken <;> exact ⟨0, _, by simp only [workerStep, hnext]; rfl⟩
  | finished => exact absurd rfl hw
  | _ => exact ⟨0, _, rfl⟩

-- Where one worker waits for the mutex another one has it.
theorem exists_enabled (ha : Accounted s) (hmanager : s.manager.holding = 0)
    (hopen : ∃ w ∈ s.workers, w ≠ .finished) :
    ∃ w ∈ s.workers, w ≠ .finished ∧ (w.holding = 1 ∨ s.shared.queueMutex = false) := by
  cases hmutex : s.shared.queueMutex with
  | false =>
      obtain ⟨w, hw, hne⟩ := hopen
      exact ⟨w, hw, hne, .inr rfl⟩
  | true =>
      have hbit := ha.mutex
      rw [mutexBit, hmutex, hmanager, Bool.toNat_true] at hbit
      have hheld : 0 < total WorkerState.holding s.workers := by omega
      obtain ⟨w, hw, hpos⟩ := exists_of_total_pos WorkerState.holding hheld
      have hle := le_total WorkerState.holding hw
      have hone : w.holding = 1 := by omega
      refine ⟨w, hw, ?_, .inl hone⟩
      rintro rfl
      cases hpos

end Progress

-- What the steps of the workers leave alone.
structure Service.Working (service : Service) (ext : Externals) (session : Session) (config : Config)
    (start s : Crawl) : Prop where
  reach : Reach (step config) (service.Connected ext session config) construct s
  manager : s.manager = start.manager
  target : s.shared.metrics.targetWorkers = start.shared.metrics.targetWorkers
  length : s.workers.length = start.workers.length

section Finish

variable {ext : Externals} {session : Session} {service : Service} {config : Config} {s t : Crawl}
  {action : Action}

theorem Service.WorkerMoves.inv (h : service.WorkerMoves ext session config s action) :
    ∃ index choice response, action = .worker index choice response := by
  cases action with
  | worker index choice response => exact ⟨index, choice, response, rfl⟩
  | _ => cases h.1

theorem WorkerStep.staff_le {response : Response} {sh sh' : Shared} {w w' : WorkerState}
    (h : WorkerStep config response sh w sh' w') (hactive : w.started ≤ sh.metrics.activeWorkers) :
    w'.unstarted + sh'.metrics.activeWorkers ≤ w.unstarted + sh.metrics.activeWorkers := by
  have hcount := h.active_eq hactive
  cases h with
  | list call token retries h => cases h <;> exact Nat.le_refl _
  | push call page =>
      rw [Shared.pushPrefixes_metrics]
      exact Nat.le_refl _
  | start | leave =>
      simp only [WorkerState.unstarted, WorkerState.started] at hcount ⊢
      omega
  | _ => exact Nat.le_refl _

theorem Staffed.step {index choice : Nat} {response : Response} (hs : Staffed s) (ha : Accounted s)
    (hcourse : ∀ w ∈ s.workers, service.server.OnCourse w)
    (hserves : service.server.serves config s (.crawl (.worker index choice response)) = true)
    (h : step config s (.worker index choice response) = some t) : Staffed t := by
  cases step_sound h with
  | frame _ haction => exact absurd rfl (haction index choice response)
  | worker _ _ _ before after w w' sh' hworkers hindex hstep =>
      have hget : s.workers[index]? = some w := by simp [hworkers, ← hindex]
      have hmem : w ∈ s.workers := List.mem_of_getElem? hget
      have henough := hs.enough
      have hactive := ha.active
      have hstarted := le_total WorkerState.started hmem
      have hstaff := hstep.staff_le (by omega)
      refine ⟨?_, fun active hactive => ?_, ?_⟩
      · have hmove := total_move WorkerState.unstarted before after w w'
        rw [← hworkers] at hmove
        simp only [Crawl.unstarted, Crawl.running, hstep.target_eq] at henough ⊢
        omega
      · rw [hstep.target_eq]
        rcases mem_move.mp hactive with hown | hother
        · cases hstep with
          | readActive =>
              obtain rfl := WorkerState.readTarget.inj hown
              exact (Nat.le_add_left _ _).trans henough
          | list call token retries h => cases h <;> cases hown
          | _ => cases hown
        · exact hs.known active (by rw [hworkers]; exact mem_move.mpr (.inr hother))
      · by_cases hdeparting : w'.Departing
        · have stays (hleft : sh'.metrics.totalQueueLength = s.shared.metrics.totalQueueLength)
              (hw : w.Departing) : sh'.metrics.totalQueueLength = 0 ∨
                ∃ v ∈ before ++ w' :: after, ¬ v.Departing := by
            rw [hleft]
            refine hs.busy.imp id ?_
            rintro ⟨v, hv, hstays⟩
            rw [hworkers] at hv
            refine ⟨v, mem_move.mpr (.inr ?_), hstays⟩
            exact (mem_move.mp hv).resolve_left fun heq => hstays (heq ▸ hw)
          cases hstep with
          | done hlength => exact .inl hlength
          | tooMany active hfew =>
              have hknown := hs.known active hmem
              omega
          | leave => exact stays rfl trivial
          | list call token retries h =>
              have hserved : service.server.answers config call.path token retries response = true := by
                simpa only [Server.serves, hget] using hserves
              rcases h.served hserved (hcourse _ hmem) with ⟨lines, call', -, rfl, -⟩ | ⟨-, rfl⟩ <;>
                exact hdeparting.elim
          | _ => exact hdeparting.elim
        · exact .inr ⟨w', by simp, hdeparting⟩

theorem Staffed.length_eq_zero (hs : Staffed s) (hfinished : ∀ w ∈ s.workers, w = .finished) :
    s.shared.metrics.totalQueueLength = 0 := by
  refine hs.busy.resolve_right ?_
  rintro ⟨w, hw, hstays⟩
  rw [hfinished w hw] at hstays
  exact hstays trivial

theorem Staffed.handed_perm (hs : Staffed s) (h : service.server.Crawled config s)
    (hfinished : ∀ w ∈ s.workers, w = .finished) :
    (s.shared.handed.map Object.Key).Perm (service.keys.map some) := by
  refine service.server.handed_perm_of_spent fun ledger => ?_
  have haccount := h.onAccount ledger
  have hzero := hs.length_eq_zero hfinished
  have hpaths : PrefixQueue.paths s.shared.prefixQueue = [] := by
    have hlength := haccount.accounted.length
    exact List.length_eq_zero_iff.mp (by omega)
  have hdebt : total (service.server.debt ledger) s.workers = 0 := by
    refine (total_eq_zero_iff _ _).mpr fun w hw => ?_
    rw [hfinished w hw]
    rfl
  have hbalance := haccount.balance
  rw [hdebt, Ledger.queued, hpaths] at hbalance
  exact hbalance

variable (hsha : ∀ message, ext.sha256 message ≠ [])
  (hgrammar : ∀ target, Target.originForm target → ext.originForm target)

include hsha hgrammar

theorem exists_workerMove {index : Nat} {w : WorkerState} (hindex : s.workers[index]? = some w)
    (hne : w ≠ .finished) (hmutex : w.holding = 1 ∨ s.shared.queueMutex = false) :
    ∃ choice response t, service.WorkerMoves ext session config s (.worker index choice response) ∧
      step config s (.worker index choice response) = some t := by
  -- the response is used only by a worker that waits for one
  obtain ⟨response, hresponse⟩ : ∃ response, ∀ call token retries, w = .listOne call token retries →
      service.Returns ext session config call.path token retries response := by
    cases w with
    | listOne call token retries =>
        obtain ⟨sent, hsent, -⟩ := @listOneRequest_understood ext session hsha hgrammar ⟨0, 0, 0, 0, 0, 0⟩ config
          service.bucket call.path token
        refine ⟨service.respond ext session sent, fun _ _ _ heq => ?_⟩
        obtain ⟨rfl, rfl, rfl⟩ := WorkerState.listOne.inj heq
        exact .inr ⟨_, sent, hsent, rfl⟩
    | _ => exact ⟨.failed [], fun _ _ _ heq => by cases heq⟩
  obtain ⟨choice, next, hnext⟩ := @workerStep_enabled config _ _ hne hmutex response
  refine ⟨choice, response, { s with shared := next.1, workers := s.workers.set index next.2 }, ⟨rfl, ?_⟩, ?_⟩
  · intro call token retries hget
    exact hresponse call token retries (Option.some.inj (hindex.symm.trans hget))
  · rw [step, hindex, Option.bind_some, hnext, Option.map_some]

theorem Service.Working.move {start : Crawl} (hs : service.Working ext session config start s)
    (hmoves : service.WorkerMoves ext session config s action) (h : step config s action = some t) :
    service.Working ext session config start t ∧
      service.server.workLeft start.workers.length t < service.server.workLeft start.workers.length s := by
  obtain ⟨index, choice, response, rfl⟩ := hmoves.inv
  have hconnected := hmoves.2
  have haccount := (crawled_of_connected hsha hgrammar hs.reach).onAccount
    (service.server.calls start.workers.length)
  obtain ⟨hless, hsame⟩ :=
    Server.workLeft_worker haccount (hconnected.serves hsha hgrammar) h hs.length.le
  refine ⟨?_, hless⟩
  cases step_sound h with
  | frame _ haction => exact absurd rfl (haction index choice response)
  | worker _ _ _ before after w w' sh' hworkers hindex hstep =>
      exact ⟨.tail hs.reach hconnected h, hs.manager, hstep.target_eq.trans hs.target, hsame.trans hs.length⟩

-- Whatever the order, all workers come to an end.
theorem workers_inevitable (h : Reach (step config) (service.Connected ext session config) construct s)
    (hmanager : s.manager.holding = 0) :
    Inevitable (restrict (step config) (service.WorkerMoves ext session config))
      (fun t => service.Working ext session config s t ∧ (∀ w ∈ t.workers, w = .finished) ∧
        (Staffed s → Staffed t)) s := by
  let I (t : Crawl) : Prop := service.Working ext session config s t ∧ (Staffed s → Staffed t)
  refine Inevitable.of_measure (service.server.workLeft s.workers.length) (I := I) ?_ ?_ ⟨⟨h, rfl, rfl, rfl⟩, id⟩
  · rintro t action u ⟨ht, hstaffed⟩ - hstep
    obtain ⟨hmoves, hstep⟩ := restrict_eq_some_iff.mp hstep
    obtain ⟨hu, hless⟩ := ht.move hsha hgrammar hmoves hstep
    obtain ⟨index, choice, response, rfl⟩ := hmoves.inv
    have haccount := (crawled_of_connected hsha hgrammar ht.reach).onAccount
      (service.server.calls s.workers.length)
    refine ⟨⟨hu, fun hs => ?_⟩, hless⟩
    exact (hstaffed hs).step haccount.accounted haccount.course (hmoves.2.serves hsha hgrammar) hstep
  · rintro t ⟨ht, hstaffed⟩ hopen
    have ha : Accounted t := ReachableCrawl.accounted ht.reach.reachable
    have hsome : ∃ w ∈ t.workers, w ≠ .finished := by
      by_contra hnone
      push Not at hnone
      exact hopen ⟨ht, hnone, hstaffed⟩
    obtain ⟨w, hw, hne, hmutex⟩ := exists_enabled ha (by rw [ht.manager, hmanager]) hsome
    obtain ⟨index, hindex⟩ := List.getElem?_of_mem hw
    obtain ⟨choice, response, u, hmoves, hu⟩ := exists_workerMove hsha hgrammar hindex hne hmutex
    exact ⟨_, u, restrict_eq_some_iff.mpr ⟨hmoves, hu⟩⟩

end Finish

-- Left to themselves the workers come to an end, in whatever order they move and
-- whichever requests fail. When none of them had to leave for the target the
-- whole bucket has then been handed to the write stack.
theorem workers_finish (ext : Externals) (hsha : ∀ message, ext.sha256 message ≠ [])
    (hgrammar : ∀ target, Target.originForm target → ext.originForm target) (session : Session)
    (service : Service) (config : Config) (s : Crawl)
    (h : Reach (step config) (service.Connected ext session config) construct s)
    (hmanager : s.manager.holding = 0) :
    Inevitable (restrict (step config) (service.WorkerMoves ext session config))
      (fun t => (∀ w ∈ t.workers, w = .finished) ∧
        (Staffed s → (t.shared.handed.map Object.Key).Perm (service.keys.map some))) s := by
  refine (workers_inevitable hsha hgrammar h hmanager).mono fun t ht => ?_
  obtain ⟨hworking, hfinished, hstaffed⟩ := ht
  exact ⟨hfinished, fun hs =>
    (hstaffed hs).handed_perm (crawled_of_connected hsha hgrammar hworking.reach) hfinished⟩

-- Ten workers that are spawned at the first tick list the bucket.
theorem workers_finish_twoKeys :
    ∃ s, Reach (step defaultConfig) (twoKeysService.Connected targetExternals uploadSession defaultConfig)
        construct s ∧ s.workers.length = 10 ∧
      Inevitable (restrict (step defaultConfig)
          (twoKeysService.WorkerMoves targetExternals uploadSession defaultConfig))
        (fun t => (∀ w ∈ t.workers, w = .finished) ∧
          (t.shared.handed.map Object.Key).Perm [some (ascii "a"), some (ascii "b/c")]) s := by
  have hrun : (run (guarded (step defaultConfig) connects) construct firstTick).map
      (fun s => decide (s.manager.holding = 0 ∧ s.workers.length = 10 ∧
        s.unstarted + s.running = s.shared.metrics.targetWorkers ∧ ∀ w ∈ s.workers, w.unstarted = 1)) =
      some true := by decide +kernel
  obtain ⟨s, hs, hfacts⟩ := Option.map_eq_some_iff.mp hrun
  obtain ⟨hmanager, hlength, hstaff, hpending⟩ := of_decide_eq_true hfacts
  have hconnected := (Reach.of_run hs).mono fun _ _ h => connected_of_connects h
  have hstaffed : Staffed s := by
    refine ⟨hstaff.le, fun active hactive => ?_, .inr ?_⟩
    · cases hpending _ hactive
    · obtain ⟨w, hw⟩ := List.exists_mem_of_length_pos (show 0 < s.workers.length by omega)
      have hone := hpending w hw
      refine ⟨w, hw, fun hdeparting => ?_⟩
      cases w with
      | leaving | finished => cases hone
      | _ => exact hdeparting.elim
  have hfinish := workers_finish targetExternals (fun _ => by simp [targetExternals, uploadExternals])
    (fun _ h => h) uploadSession twoKeysService defaultConfig s hconnected hmanager
  exact ⟨s, hconnected, hlength, hfinish.mono fun t ht => ⟨ht.1, ht.2 hstaffed⟩⟩

end S3Cpp.Tools.ListAllObjects
