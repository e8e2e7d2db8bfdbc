import S3Cpp.Tools.ListAllObjects.WorkerManager.QueueAccounting

namespace S3Cpp.Tools.ListAllObjects

open Aws.S3 Aws.S3.Client Library.Population Library.Transition

-- A step of ~WorkerManager.
def ManagerMoves (_ : Crawl) : Action → Prop
  | .manager _ => True
  | _ => False

-- Nothing is queued and nobody is at work.
def AllDone (s : Crawl) : Prop :=
  s.shared.metrics.totalQueueLength = 0 ∧ s.shared.metrics.activeWorkers = 0

instance (s : Crawl) : Decidable (AllDone s) := inferInstanceAs (Decidable (_ ∧ _))

-- How many steps ~WorkerManager is from the end of a round at most.
def ManagerState.round : ManagerState → Nat
  | .waiting => 5
  | .cleanup => 4
  | .readQueueLength => 3
  | .readActive => 2
  | .checkQueue => 1
  | _ => 0

-- What a round has found out by the point it is at.
def RoundKnows (start : Crawl) (done : Prop) : ManagerState → Prop
  | .waiting | .cleanup | .readQueueLength => True
  | .readActive => start.shared.metrics.totalQueueLength = 0
  | .checkQueue | .emitScaling => done
  | .draining | .emitWriter | .joining | .joined => False

-- The states of a round of the loop in which nobody else moves.
structure Round (start : Crawl) (done : Prop) (s : Crawl) : Prop where
  accounted : Accounted s
  metrics : s.shared.metrics = start.shared.metrics
  workers : s.workers = start.workers
  lines : s.shared.stderr = start.shared.stderr
  found : RoundKnows start done s.manager

section Round

variable {config : Config} {start s t : Crawl} {done : Prop} {action : Action}

-- One step of a round brings it nearer to its end or ends it in front of the next
-- one, and that only where something is to be done.
theorem Round.advance (hs : Round start done s) (hdone : AllDone start → done) (h : ManagerStep s t)
    (hinside : s.manager ≠ .emitScaling) :
    Round start done t ∧ (t.manager = .waiting ∧ ¬ AllDone start ∨
      t.shared.prefixQueue.length + t.manager.round < s.shared.prefixQueue.length + s.manager.round) := by
  have haccounted := accounted_manager hs.accounted h
  have hmetrics := hs.metrics
  have hfound := hs.found
  have hknows := hs.accounted.manager
  cases h with
  | lock hm hfree | clean hm hempty | found before after top hm =>
      refine ⟨⟨haccounted, hmetrics, hs.workers, hs.lines, trivial⟩, .inr ?_⟩
      simp [hm, ManagerState.round, Shared.lock]
  | drop before after top hm htop =>
      refine ⟨⟨haccounted, hmetrics, hs.workers, hs.lines, hfound⟩, .inr ?_⟩
      simp only [htop.split, List.length_append, List.length_cons]
      omega
  | noLength hm hlength =>
      rw [hmetrics] at hlength
      refine ⟨⟨haccounted, hmetrics, hs.workers, hs.lines, hlength⟩, .inr ?_⟩
      simp [hm, ManagerState.round]
  | length hm hlength =>
      rw [hmetrics] at hlength
      exact ⟨⟨haccounted, hmetrics, hs.workers, hs.lines, trivial⟩, .inl ⟨rfl, fun h => hlength h.1⟩⟩
  | noWorker hm hactive =>
      rw [hm] at hfound
      rw [hmetrics] at hactive
      refine ⟨⟨haccounted, hmetrics, hs.workers, hs.lines, hdone ⟨hfound, hactive⟩⟩, .inr ?_⟩
      simp [hm, ManagerState.round]
  | worker hm hactive =>
      rw [hmetrics] at hactive
      exact ⟨⟨haccounted, hmetrics, hs.workers, hs.lines, trivial⟩, .inl ⟨rfl, fun h => hactive h.2⟩⟩
  | finish hm hempty =>
      rw [hm] at hfound
      refine ⟨⟨haccounted, hmetrics, hs.workers, hs.lines, hfound⟩, .inr ?_⟩
      simp [hm, ManagerState.round, Shared.unlock]
  | report hm hsome =>
      rw [ManagerKnows, hm] at hknows
      exact absurd hknows.queue hsome
  | emitScaling hm => exact absurd hm hinside
  | drained hm | drain before after top hm | emitWriter hm | join hm =>
      rw [hm] at hfound
      exact hfound.elim

-- The loop never gets stuck while nobody holds the mutex.
theorem Round.progress (hs : Round start done s) (hinside : s.manager ≠ .emitScaling)
    (hfree : s.manager = .waiting → s.shared.queueMutex = false) :
    ∃ choice t, ManagerMoves s (.manager choice) ∧ step config s (.manager choice) = some t := by
  have hfound := hs.found
  cases hm : s.manager with
  | waiting => exact ⟨0, _, trivial, by simp only [step, managerStep, hm, hfree hm]; rfl⟩
  | cleanup =>
      by_cases hempty : s.shared.prefixQueue = []
      · exact ⟨0, _, trivial, by simp only [step, managerStep, hm, if_pos hempty]; rfl⟩
      · obtain ⟨choice, top, htop⟩ := exists_top hempty
        exact ⟨choice, _, trivial, by simp only [step, managerStep, hm, if_neg hempty, htop]; rfl⟩
  | readQueueLength =>
      by_cases hlength : s.shared.metrics.totalQueueLength = 0
      · exact ⟨0, _, trivial, by simp only [step, managerStep, hm, if_pos hlength]; rfl⟩
      · exact ⟨0, _, trivial, by simp only [step, managerStep, hm, if_neg hlength]; rfl⟩
  | readActive =>
      by_cases hactive : s.shared.metrics.activeWorkers = 0
      · exact ⟨0, _, trivial, by simp only [step, managerStep, hm, if_pos hactive]; rfl⟩
      · exact ⟨0, _, trivial, by simp only [step, managerStep, hm, if_neg hactive]; rfl⟩
  | checkQueue =>
      have hknows := hs.accounted.manager
      rw [ManagerKnows, hm] at hknows
      exact ⟨0, _, trivial, by simp only [step, managerStep, hm, if_pos hknows.queue]; rfl⟩
  | emitScaling => exact absurd hm hinside
  | draining | emitWriter | joining | joined =>
      rw [hm] at hfound
      exact hfound.elim

theorem managerMoves_sound (h : restrict (step config) ManagerMoves s action = some t) : ManagerStep s t := by
  obtain ⟨hmoves, hs⟩ := restrict_eq_some_iff.mp h
  cases action with
  | manager choice => exact managerStep_sound hs
  | _ => exact hmoves.elim

-- A round comes to its end, in whatever order entries of one depth are popped.
theorem Round.inevitable {P : Crawl → Prop} (hs : Round start done s) (hdone : AllDone start → done)
    (hexit : ∀ t, Round start done t → t.manager = .emitScaling → P t)
    (hwaits : ∀ t, Round start done t → t.manager = .waiting →
      P t ∨ AllDone start ∧ t.shared.queueMutex = false) :
    Inevitable (restrict (step config) ManagerMoves) P s := by
  let left (t : Crawl) : Nat :=
    if t.manager = .waiting ∧ ¬ AllDone start then 0 else t.shared.prefixQueue.length + t.manager.round
  have hinside (t : Crawl) (ht : Round start done t) (hopen : ¬ P t) : t.manager ≠ .emitScaling :=
    fun hm => hopen (hexit t ht hm)
  refine Inevitable.of_measure left (I := fun t => Round start done t) (fun t action u ht hopen hstep => ?_)
    (fun t ht hopen => ?_) hs
  · obtain ⟨hu, hend⟩ := ht.advance hdone (managerMoves_sound hstep) (hinside t ht hopen)
    have hstarts : ¬ (t.manager = .waiting ∧ ¬ AllDone start) := fun h =>
      (hwaits t ht h.1).elim hopen fun hall => h.2 hall.1
    have hpos : 0 < left t := by
      simp only [left, if_neg hstarts]
      have hfound := ht.found
      cases hm : t.manager with
      | emitScaling => exact absurd hm (hinside t ht hopen)
      | draining | emitWriter | joining | joined =>
          rw [hm] at hfound
          exact hfound.elim
      | _ => exact Nat.lt_of_lt_of_le (by decide) (Nat.le_add_left _ _)
    refine ⟨hu, ?_⟩
    by_cases hends : u.manager = .waiting ∧ ¬ AllDone start
    · simpa only [left, if_pos hends] using hpos
    · simp only [left, if_neg hends, if_neg hstarts]
      exact hend.resolve_left hends
  · obtain ⟨choice, u, hmoves, hu⟩ := @Round.progress config start t done ht (hinside t ht hopen) fun hm =>
      ((hwaits t ht hm).resolve_left hopen).2
    exact ⟨_, u, restrict_eq_some_iff.mpr ⟨hmoves, hu⟩⟩

end Round

-- With nobody at work nobody holds the mutex.
theorem Accounted.free_of_allDone {s : Crawl} (ha : Accounted s) (hm : s.manager = .waiting) (hdone : AllDone s) :
    s.shared.queueMutex = false := by
  have hstarted : total WorkerState.started s.workers = 0 := ha.active.symm.trans hdone.2
  have hholding : total WorkerState.holding s.workers = 0 := by
    refine (total_eq_zero_iff _ _).mpr fun w hw => ?_
    have hzero := (total_eq_zero_iff WorkerState.started s.workers).mp hstarted w hw
    cases w with
    | pending | finished => rfl
    | _ => cases hzero
  have hmutex := ha.mutex
  rw [hholding, hm] at hmutex
  cases hbit : s.shared.queueMutex with
  | false => rfl
  | true => simp [mutexBit, hbit, ManagerState.holding] at hmutex

-- Left alone ~WorkerManager leaves its loop, without a report, exactly when
-- nothing is queued and nobody is at work. Emptied entries do not hold it up.
theorem destructor_leaves_iff (config : Config) (s : Crawl) (h : ReachableCrawl config s)
    (hwaiting : s.manager = .waiting) :
    Inevitable (restrict (step config) ManagerMoves)
      (fun t => t.manager = .emitScaling ∧ t.shared.stderr = s.shared.stderr) s ↔ AllDone s := by
  have hstart : Round s (AllDone s) s := ⟨h.accounted, rfl, rfl, rfl, by rw [hwaiting]; trivial⟩
  constructor
  · intro hleaves
    obtain ⟨t, ht, hm, -⟩ := hleaves.exists_reach
    have hround : Round s (AllDone s) t ∨ AllDone s := by
      refine ht.invariant (I := fun t => Round s (AllDone s) t ∨ AllDone s) (.inl hstart) ?_
      rintro u action v hmoves (hu | hdone) hv
      · by_cases hinside : u.manager = .emitScaling
        · have hfound := hu.found
          rw [hinside] at hfound
          exact .inr hfound
        · have hstep := managerMoves_sound (restrict_eq_some_iff.mpr ⟨hmoves, hv⟩)
          exact .inl (hu.advance id hstep hinside).1
      · exact .inr hdone
    rcases hround with hround | hdone
    · have hfound := hround.found
      rwa [hm] at hfound
    · exact hdone
  · intro hdone
    refine hstart.inevitable id (fun t ht hm => ⟨hm, ht.lines⟩) fun t ht hm => .inr ⟨hdone, ?_⟩
    refine ht.accounted.free_of_allDone hm ?_
    rw [AllDone, ht.metrics]
    exact hdone

-- Nine workers have not started yet when the only one at work has left.
def listedRun : List Action :=
  firstTick ++ workerSteps 0 4 ++ [.worker 0 0 (listingResponse [textElement "IsTruncated" "false"])] ++
    workerSteps 0 7

theorem destructor_leaves_iff_listed :
    ∃ s, ReachableCrawl defaultConfig s ∧ s.workers.length = 10 ∧
      Inevitable (restrict (step defaultConfig) ManagerMoves)
        (fun t => t.manager = .emitScaling ∧ t.shared.stderr = s.shared.stderr) s := by
  obtain ⟨s, hs, hfacts⟩ := @ReachableCrawl.of_run defaultConfig listedRun
    (fun s => s.workers.length = 10 ∧ s.manager = .waiting ∧ AllDone s) (by decide +kernel)
  obtain ⟨hlength, hwaiting, hdone⟩ := of_decide_eq_true hfacts
  exact ⟨s, hs, hlength, (destructor_leaves_iff defaultConfig s hs hwaiting).mpr hdone⟩

end S3Cpp.Tools.ListAllObjects
