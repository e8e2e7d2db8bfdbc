import S3Cpp.Tools.ListAllObjects.WorkerManager.Steps

namespace S3Cpp.Tools.ListAllObjects

open Aws.S3 Aws.S3.Client Library.Population Library.Transition

namespace WorkerState

-- Whether a worker holds the queue mutex.
def holding : WorkerState → Nat
  | scanQueue | taken _ _ | countObjects _ _ | pushPrefixes _ _ | countOp _ _ => 1
  | _ => 0

-- Whether a worker counts as active.
def started : WorkerState → Nat
  | pending | finished => 0
  | _ => 1

-- Whether a worker has taken a path that is still counted as queued.
def removing : WorkerState → Nat
  | taken _ _ => 1
  | _ => 0

-- The path a worker is listing.
def path? : WorkerState → Option CommonPrefix
  | taken path _ => some path
  | listOne call _ _ | writeObjects call _ | lockQueue call _ | countObjects call _
  | pushPrefixes call _ | countOp call _ => some call.path
  | _ => none

def listing (path : CommonPrefix) (w : WorkerState) : Nat := if w.path? = some path then 1 else 0

end WorkerState

open WorkerState

def mutexBit (sh : Shared) : Nat := sh.queueMutex.toNat

theorem locked_of_mutexBit {sh : Shared} (h : 1 ≤ mutexBit sh) : sh.queueMutex = true := by
  cases hm : sh.queueMutex with
  | true => rfl
  | false => simp [mutexBit, hm] at h

def ManagerState.holding : ManagerState → Nat
  | .cleanup | .readQueueLength | .readActive | .checkQueue | .draining => 1
  | _ => 0

def Shared.endedPaths (sh : Shared) : List CommonPrefix := sh.ended.map fun entry => entry.1.path

section Worker

variable {config : Config} {response : Response} {sh sh' : Shared} {w w' : WorkerState}

theorem WorkerStep.holding_eq (h : WorkerStep config response sh w sh' w')
    (hmutex : w.holding ≤ mutexBit sh) :
    w'.holding + mutexBit sh = w.holding + mutexBit sh' := by
  cases h with
  | list call token retries h => cases h <;> rfl
  | push call page => simp [holding, mutexBit]
  | lock hfree | lockAgain call page hfree => simp [holding, mutexBit, Shared.lock, hfree]
  | empty | release | nextPage | lastPage =>
      simp [holding, mutexBit, Shared.unlock, Shared.finish, locked_of_mutexBit hmutex]
  | _ => rfl

theorem WorkerStep.active_eq (h : WorkerStep config response sh w sh' w')
    (hactive : w.started ≤ sh.metrics.activeWorkers) :
    sh'.metrics.activeWorkers + w.started = sh.metrics.activeWorkers + w'.started := by
  cases h with
  | list call token retries h => cases h <;> rfl
  | push call page => simp [started]
  | leave =>
      simp only [started] at hactive
      simp only [started, decrement]
      rw [if_neg (by omega)]
      omega
  | _ => rfl

theorem WorkerStep.length_eq (h : WorkerStep config response sh w sh' w')
    (hlength : w.removing ≤ sh.metrics.totalQueueLength) :
    sh'.metrics.totalQueueLength + (PrefixQueue.paths sh.prefixQueue).length + w.removing =
      sh.metrics.totalQueueLength + (PrefixQueue.paths sh'.prefixQueue).length + w'.removing := by
  cases h with
  | list call token retries h => cases h <;> rfl
  | push call page =>
      simp [removing]
      omega
  | drop before after top htop hnone =>
      simp [removing, htop.split, PrefixQueue.paths, hnone]
  | take before after depth paths path htop =>
      simp [removing, htop.split, PrefixQueue.paths]
      omega
  | release path depth =>
      simp only [removing] at hlength
      simp only [removing, decrement, Shared.unlock]
      rw [if_neg (by omega)]
      omega
  | _ => rfl

theorem WorkerStep.queued_eq (h : WorkerStep config response sh w sh' w') (path : CommonPrefix) :
    sh'.pushed.count path + sh.taken.count path + (PrefixQueue.paths sh.prefixQueue).count path =
      sh.pushed.count path + sh'.taken.count path +
        (PrefixQueue.paths sh'.prefixQueue).count path := by
  cases h with
  | list call token retries h => cases h <;> rfl
  | push call page =>
      simp
      omega
  | drop before after top htop hnone => simp [htop.split, PrefixQueue.paths, hnone]
  | take before after depth paths path htop =>
      simp [htop.split, PrefixQueue.paths, List.count_cons]
      omega
  | _ => rfl

theorem WorkerStep.calls_eq (h : WorkerStep config response sh w sh' w') (path : CommonPrefix) :
    sh'.taken.count path + sh.endedPaths.count path + w.listing path =
      sh.taken.count path + sh'.endedPaths.count path + w'.listing path := by
  cases h with
  | list call token retries h =>
      cases h <;> simp [listing, path?, Shared.endedPaths, Shared.print, Shared.finish, Call.receive,
        Call.print, List.count_singleton]
      · omega
      · omega
  | push call page => simp [listing, path?, Shared.endedPaths, Call.queue]
  | write call page => simp [listing, path?, Shared.endedPaths, Call.hand, Shared.writeObjects]
  | take before after depth paths taken htop =>
      simp [listing, path?, Shared.endedPaths, List.count_singleton]
      omega
  | lastPage call page hlast =>
      simp [listing, path?, Shared.endedPaths, Shared.finish, Shared.unlock, List.count_singleton]
      omega
  | _ => simp [listing, path?, Shared.endedPaths, Shared.unlock, Shared.lock, Call.start]

-- Without the mutex a worker neither changes the queue nor its length.
theorem WorkerStep.queue_of_not_holding (h : WorkerStep config response sh w sh' w')
    (hw : w.holding = 0) :
    sh'.prefixQueue = sh.prefixQueue ∧
      sh'.metrics.totalQueueLength = sh.metrics.totalQueueLength := by
  cases h with
  | list call token retries h => cases h <;> exact ⟨rfl, rfl⟩
  | drop | take | release | push | nextPage | lastPage => simp [holding] at hw
  | _ => exact ⟨rfl, rfl⟩

end Worker

-- The states of a worker that has nothing and will find nothing.
def WorkerState.Idle : WorkerState → Prop
  | pending | getNextPrefix | scanQueue | isDone | leaving | finished => True
  | _ => False

structure Quiet (sh : Shared) (workers : List WorkerState) : Prop where
  queue : sh.prefixQueue = []
  length : sh.metrics.totalQueueLength = 0
  workers : ∀ w ∈ workers, w.Idle

-- What ~WorkerManager knows at each point of its loop and after it.
def ManagerKnows (s : Crawl) : Prop :=
  match s.manager with
  | .waiting | .cleanup => True
  | .readQueueLength => s.shared.prefixQueue = [] ∨ PrefixQueue.paths s.shared.prefixQueue ≠ []
  | .readActive => s.shared.prefixQueue = [] ∧ s.shared.metrics.totalQueueLength = 0
  | .draining => False
  | .checkQueue | .emitScaling | .emitWriter | .joining | .joined => Quiet s.shared s.workers

structure Accounted (s : Crawl) : Prop where
  mutex : total holding s.workers + s.manager.holding = mutexBit s.shared
  active : s.shared.metrics.activeWorkers = total started s.workers
  length : s.shared.metrics.totalQueueLength =
    (PrefixQueue.paths s.shared.prefixQueue).length + total removing s.workers
  queued : ∀ path, s.shared.pushed.count path =
    s.shared.taken.count path + (PrefixQueue.paths s.shared.prefixQueue).count path
  calls : ∀ path, s.shared.taken.count path =
    s.shared.endedPaths.count path + total (listing path) s.workers
  manager : ManagerKnows s

theorem WorkerStep.quiet {config : Config} {response : Response} {sh sh' : Shared}
    {w w' : WorkerState} {before after : List WorkerState}
    (h : WorkerStep config response sh w sh' w') (hq : Quiet sh (before ++ w :: after)) :
    Quiet sh' (before ++ w' :: after) ∧ sh'.taken = sh.taken ∧ sh'.written = sh.written := by
  have hw := hq.workers w (by simp)
  have keep (hidle : w'.Idle) (hqueue : sh'.prefixQueue = sh.prefixQueue)
      (hlength : sh'.metrics.totalQueueLength = sh.metrics.totalQueueLength) :
      Quiet sh' (before ++ w' :: after) := by
    exact ⟨hqueue.trans hq.queue, hlength.trans hq.length, forall_move hq.workers hidle⟩
  cases h with
  | start | lock | empty | leave | done => exact ⟨keep trivial rfl rfl, rfl, rfl⟩
  | drop before' after' top htop => simp [hq.queue] at htop; exact absurd htop.split (by simp)
  | take before' after' depth paths path htop => exact absurd (htop.split.symm.trans hq.queue) (by simp)
  | notDone h => exact absurd hq.length h
  | _ => exact hw.elim

-- While the mutex is with ~WorkerManager, no worker touches the queue.
theorem ManagerKnows.worker {config : Config} {response : Response} {s : Crawl} {sh' : Shared}
    {w w' : WorkerState} {before after : List WorkerState} (hknows : ManagerKnows s)
    (hworkers : s.workers = before ++ w :: after) (h : WorkerStep config response s.shared w sh' w')
    (hw : s.manager.holding = 1 → w.holding = 0) :
    ManagerKnows { s with shared := sh', workers := before ++ w' :: after } := by
  have hquiet (hq : Quiet s.shared s.workers) : Quiet sh' (before ++ w' :: after) :=
    (h.quiet (hworkers ▸ hq)).1
  have hqueue (hone : s.manager.holding = 1) : sh'.prefixQueue = s.shared.prefixQueue ∧
      sh'.metrics.totalQueueLength = s.shared.metrics.totalQueueLength :=
    h.queue_of_not_holding (hw hone)
  unfold ManagerKnows at hknows ⊢
  dsimp only
  cases hm : s.manager with
  | waiting | cleanup => trivial
  | readQueueLength =>
      rw [hm] at hknows
      rwa [(hqueue (by rw [hm]; rfl)).1]
  | readActive =>
      rw [hm] at hknows
      rwa [(hqueue (by rw [hm]; rfl)).1, (hqueue (by rw [hm]; rfl)).2]
  | draining =>
      rw [hm] at hknows
      exact hknows.elim
  | checkQueue | emitScaling | emitWriter | joining | joined =>
      rw [hm] at hknows
      exact hquiet hknows

theorem accounted_construct : Accounted construct where
  mutex := rfl
  active := rfl
  length := rfl
  queued path := by simp [construct, PrefixQueue.paths]
  calls path := by simp [construct, Shared.endedPaths]
  manager := trivial

theorem accounted_worker {config : Config} {response : Response} {s : Crawl} {sh' : Shared}
    {w w' : WorkerState} {before after : List WorkerState} (ha : Accounted s)
    (hworkers : s.workers = before ++ w :: after)
    (h : WorkerStep config response s.shared w sh' w') :
    Accounted { s with shared := sh', workers := before ++ w' :: after } := by
  have hmem : w ∈ s.workers := by simp [hworkers]
  have hmove (f : WorkerState → Nat) : total f (before ++ w' :: after) + f w = total f s.workers + f w' := by
    rw [hworkers]
    exact total_move f before after w w'
  have hmutex := ha.mutex
  have hactive := ha.active
  have hlength := ha.length
  have hholding := h.holding_eq ((le_total holding hmem).trans (by omega))
  have hstarted := h.active_eq ((le_total started hmem).trans (by omega))
  have hremoving := h.length_eq ((le_total removing hmem).trans (by omega))
  refine ⟨?_, ?_, ?_, fun path => ?_, fun path => ?_, ?_⟩
  · have := hmove holding
    dsimp only
    omega
  · have := hmove started
    dsimp only
    omega
  · have := hmove removing
    dsimp only
    omega
  · have := ha.queued path
    have := h.queued_eq path
    dsimp only
    omega
  · have := ha.calls path
    have := h.calls_eq path
    have := hmove (listing path)
    dsimp only
    omega
  · refine ha.manager.worker hworkers h fun hone => ?_
    have hbit : mutexBit s.shared ≤ 1 := Bool.toNat_le _
    have := le_total holding hmem
    omega

theorem mutexBit_lock (sh : Shared) : mutexBit sh.lock = 1 := rfl

theorem mutexBit_unlock (sh : Shared) : mutexBit sh.unlock = 0 := rfl

theorem idle_of_not_started {w : WorkerState} (h : w.started = 0) : w.Idle := by
  cases w with
  | pending | finished => trivial
  | _ => simp [started] at h

-- What neither counts, removes nor starts anything keeps the accounts.
theorem Accounted.keep {s t : Crawl} (ha : Accounted s)
    (hcounts : t.shared.metrics.activeWorkers = s.shared.metrics.activeWorkers ∧
      t.shared.metrics.totalQueueLength = s.shared.metrics.totalQueueLength ∧
      t.shared.pushed = s.shared.pushed ∧ t.shared.taken = s.shared.taken ∧ t.shared.ended = s.shared.ended)
    (htotal : ∀ f : WorkerState → Nat, f .pending = 0 → total f t.workers = total f s.workers)
    (hpaths : PrefixQueue.paths t.shared.prefixQueue = PrefixQueue.paths s.shared.prefixQueue)
    (hbits : t.manager.holding + mutexBit s.shared = s.manager.holding + mutexBit t.shared)
    (hknows : ManagerKnows t) : Accounted t := by
  obtain ⟨hactive, hlength, hpushed, htaken, hended⟩ := hcounts
  have hmutex := ha.mutex
  refine ⟨?_, ?_, ?_, fun path => ?_, fun path => ?_, hknows⟩
  · rw [htotal holding rfl]
    omega
  · rw [htotal started rfl, hactive]
    exact ha.active
  · rw [htotal removing rfl, hlength, hpaths]
    exact ha.length
  · rw [hpushed, htaken, hpaths]
    exact ha.queued path
  · rw [htotal (listing path) rfl, htaken, Shared.endedPaths, hended]
    exact ha.calls path

theorem accounted_manager {s t : Crawl} (ha : Accounted s) (h : ManagerStep s t) : Accounted t := by
  have hknows := ha.manager
  have hmutex := ha.mutex
  have hlength := ha.length
  have hbit : mutexBit s.shared ≤ 1 := Bool.toNat_le _
  have keep (hcounts : t.shared.metrics = s.shared.metrics ∧ t.shared.pushed = s.shared.pushed ∧
        t.shared.taken = s.shared.taken ∧ t.shared.ended = s.shared.ended)
      (hworkers : t.workers = s.workers)
      (hpaths : PrefixQueue.paths t.shared.prefixQueue = PrefixQueue.paths s.shared.prefixQueue)
      (hbits : t.manager.holding + mutexBit s.shared = s.manager.holding + mutexBit t.shared)
      (hk : ManagerKnows t) : Accounted t :=
    ha.keep ⟨by rw [hcounts.1], by rw [hcounts.1], hcounts.2⟩ (fun _ _ => by rw [hworkers]) hpaths hbits hk
  unfold ManagerKnows at hknows
  cases h with
  | lock hm hfree =>
      exact keep ⟨rfl, rfl, rfl, rfl⟩ rfl rfl
        (by rw [hm, mutexBit_lock, mutexBit, hfree]; rfl) trivial
  | clean hm hempty =>
      exact keep ⟨rfl, rfl, rfl, rfl⟩ rfl rfl (by rw [hm]; rfl) (.inl hempty)
  | drop before after top hm htop hnone =>
      exact keep ⟨rfl, rfl, rfl, rfl⟩ rfl (by simp [htop.split, PrefixQueue.paths, hnone]) rfl
        (by simp only [ManagerKnows, hm])
  | found before after top hm htop hsome =>
      refine keep ⟨rfl, rfl, rfl, rfl⟩ rfl rfl (by rw [hm]; rfl) (.inr ?_)
      simp [htop.split, PrefixQueue.paths, hsome]
  | noLength hm h =>
      rw [hm] at hknows
      have hpaths : PrefixQueue.paths s.shared.prefixQueue = [] :=
        List.length_eq_zero_iff.mp (by omega)
      exact keep ⟨rfl, rfl, rfl, rfl⟩ rfl rfl (by rw [hm]; rfl)
        ⟨hknows.resolve_right fun hne => hne hpaths, h⟩
  | noWorker hm h =>
      rw [hm] at hknows
      have hstarted : total started s.workers = 0 := ha.active.symm.trans h
      exact keep ⟨rfl, rfl, rfl, rfl⟩ rfl rfl (by rw [hm]; rfl)
        ⟨hknows.1, hknows.2, fun w hw =>
          idle_of_not_started ((total_eq_zero_iff started s.workers).mp hstarted w hw)⟩
  | length hm h | worker hm h =>
      rw [hm, ManagerState.holding] at hmutex
      exact keep ⟨rfl, rfl, rfl, rfl⟩ rfl rfl
        (by rw [hm, mutexBit_unlock]; simp only [ManagerState.holding]; omega) trivial
  | finish hm hempty =>
      rw [hm] at hknows
      rw [hm, ManagerState.holding] at hmutex
      exact keep ⟨rfl, rfl, rfl, rfl⟩ rfl rfl
        (by rw [hm, mutexBit_unlock]; simp only [ManagerState.holding]; omega)
        ⟨hknows.queue, hknows.length, hknows.workers⟩
  | report hm h =>
      rw [hm] at hknows
      exact absurd hknows.queue h
  | drained hm hempty | drain before after top hm htop =>
      rw [hm] at hknows
      exact hknows.elim
  | emitScaling hm | emitWriter hm | join hm =>
      rw [hm] at hknows
      exact keep ⟨rfl, rfl, rfl, rfl⟩ rfl rfl (by rw [hm]; rfl)
        ⟨hknows.queue, hknows.length, hknows.workers⟩

theorem ManagerKnows.of_same {s t : Crawl} (h : ManagerKnows s) (hmanager : t.manager = s.manager)
    (hqueue : t.shared.prefixQueue = s.shared.prefixQueue)
    (hlength : t.shared.metrics.totalQueueLength = s.shared.metrics.totalQueueLength)
    (hidle : (∀ w ∈ s.workers, w.Idle) → ∀ w ∈ t.workers, w.Idle) : ManagerKnows t := by
  unfold ManagerKnows at h ⊢
  rw [hmanager, hqueue, hlength]
  cases hm : s.manager with
  | waiting | cleanup => trivial
  | readQueueLength | readActive | draining => rwa [hm] at h
  | checkQueue | emitScaling | emitWriter | joining | joined =>
      rw [hm] at h
      exact ⟨hqueue.trans h.queue, hlength.trans h.length, hidle h.workers⟩

theorem accounted_frame {s t : Crawl} (ha : Accounted s) (h : FrameStep s t) : Accounted t := by
  cases h with
  | touch target stack lines hmanager hworkers hlines hshared =>
      refine ha.keep ?_ (fun _ _ => by rw [hworkers]) (by rw [hshared]) (by rw [hmanager, hshared]; rfl) ?_
      · rw [hshared]
        exact ⟨rfl, rfl, rfl, rfl, rfl⟩
      · refine ha.manager.of_same hmanager (by rw [hshared]) (by rw [hshared]) ?_
        rw [hworkers]
        exact id
  | spawn hmanager hworkers hshared =>
      refine ha.keep ?_ (fun f hf => ?_) (by rw [hshared]) (by rw [hmanager, hshared]) ?_
      · rw [hshared]
        exact ⟨rfl, rfl, rfl, rfl, rfl⟩
      · -- the pending worker has started nothing
        simp [hworkers, hf]
      · refine ha.manager.of_same hmanager (by rw [hshared]) (by rw [hshared]) fun hidle => ?_
        rw [hworkers]
        exact forall_concat hidle trivial

theorem accounted_step {config : Config} {s t : Crawl} {action : Action} (ha : Accounted s)
    (h : step config s action = some t) : Accounted t := by
  cases step_sound h with
  | worker index choice response before after w w' sh' hworkers hindex hstep =>
      exact accounted_worker ha hworkers hstep
  | manager choice hstep => exact accounted_manager ha hstep
  | frame _ _ hstep => exact accounted_frame ha hstep

theorem ReachableCrawl.accounted {config : Config} {s : Crawl} (h : ReachableCrawl config s) :
    Accounted s :=
  h.invariant accounted_construct fun _ _ _ _ ha hs => accounted_step ha hs

end S3Cpp.Tools.ListAllObjects
