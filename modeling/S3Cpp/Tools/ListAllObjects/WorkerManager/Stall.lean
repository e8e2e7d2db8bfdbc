import Mathlib.Data.List.DropRight
import S3Cpp.Tools.ListAllObjects.WorkerManager.Coroutines
import S3Cpp.Tools.ListAllObjects.WorkerManager.Scaling

namespace S3Cpp.Tools.ListAllObjects

open Aws.S3 Aws.S3.Client Library.Population Library.Transition Library.Xml

-- The windows of the coming ticks when no further operation is counted.
def window (samples : List Nat) (newOps : Nat) : Nat → List Nat
  | 0 => addSample samples newOps
  | k + 1 => addSample (window samples newOps k) 0

def upcomingMean (s : Crawl) (k : Nat) : Rat :=
  rollingMean (window s.scaling.samples (s.shared.metrics.totalOps - s.scaling.previousOps) k)

theorem window_addSample (samples : List Nat) (newOps k : Nat) :
    window (addSample samples newOps) 0 k = window samples newOps (k + 1) := by
  induction k with
  | zero => rfl
  | succ k ih => exact congrArg (addSample · 0) ih

theorem addSample_eq (samples : List Nat) (sample : Nat) :
    addSample samples sample = (samples ++ [sample]).rtake windowSize := by
  simp [addSample, List.rtake]

theorem rtake_rtake_concat (l : List Nat) (sample n : Nat) :
    (l.rtake n ++ [sample]).rtake n = (l ++ [sample]).rtake n := by
  cases n with
  | zero => simp
  | succ n =>
      rw [List.rtake_concat_succ, List.rtake_concat_succ]
      simp only [List.rtake_eq_reverse_take_reverse, List.reverse_reverse, List.take_take]
      rw [Nat.min_eq_left (Nat.le_succ n)]

theorem window_eq (samples : List Nat) (newOps k : Nat) :
    window samples newOps k = (samples ++ newOps :: List.replicate k 0).rtake windowSize := by
  induction k with
  | zero => exact addSample_eq samples newOps
  | succ k ih =>
      rw [window, ih, addSample_eq, rtake_rtake_concat, List.append_assoc, List.cons_append,
        ← List.replicate_succ']

-- A window of ticks without operations has only zeros.
theorem rollingMean_window_eq_zero (samples : List Nat) (newOps k : Nat) (hk : windowSize ≤ k) :
    rollingMean (window samples newOps k) = 0 := by
  obtain ⟨rest, rfl⟩ := Nat.exists_eq_add_of_le' hk
  have hwindow : window samples newOps (rest + windowSize) = List.replicate windowSize 0 := by
    have hsplit : samples ++ newOps :: List.replicate (rest + windowSize) 0 =
        (samples ++ newOps :: List.replicate rest 0) ++ List.replicate windowSize 0 := by
      rw [List.replicate_add]
      simp
    rw [window_eq, hsplit, List.rtake_eq_reverse_take_reverse, List.reverse_append]
    simp
  simp [rollingMean, hwindow]

-- A mean for which the number of workers wanted of none is not ten.
def NotTen (mean : Rat) : Prop := (1 ≤ mean ∧ mean ≤ 9) ∨ 10 < mean

instance (mean : Rat) : Decidable (NotTen mean) := inferInstanceAs (Decidable (_ ∨ _))

theorem calculateDesiredWorkers_eq_ten_iff (config : Config) (mean : Rat) :
    calculateDesiredWorkers config 0 mean = 10 ↔ ¬ NotTen mean := by
  unfold calculateDesiredWorkers NotTen
  by_cases hlow : mean < 1
  · rw [if_pos hlow]
    refine iff_of_true rfl ?_
    rintro (⟨h, -⟩ | h) <;> linarith
  · have hone : 1 ≤ mean := not_lt.mp hlow
    have hpos : 0 < mean := lt_of_lt_of_le one_pos hone
    rw [if_neg hlow]
    simp only [Nat.cast_zero, zero_mul, if_pos hpos, max_eq_right hpos.le]
    rw [max_eq_left (Nat.one_le_iff_ne_zero.mpr (Nat.ceil_pos.mpr hpos).ne'),
      Nat.ceil_eq_iff (by decide)]
    constructor
    · rintro ⟨hlower, hupper⟩ (⟨-, h⟩ | h)
      · norm_num at hlower
        linarith
      · norm_num at hupper
        linarith
    · intro h
      push Not at h
      obtain ⟨hlower, hupper⟩ := h
      refine ⟨?_, ?_⟩
      · have := hlower hone
        norm_num
        exact this
      · norm_num
        exact hupper

-- What the coming ticks make of the target when no worker is active.
def Unsettled (s : Crawl) : Prop :=
  s.shared.metrics.targetWorkers ≠ 10 ∨ ∃ k, NotTen (upcomingMean s k)

-- The same, for every point of a tick.
def WillSpawn (s : Crawl) : Prop :=
  match s.scaling.state with
  | .checkQueue mean | .calculate mean => NotTen mean ∨ Unsettled s
  | .loadActive | .setTarget _ => True
  | .alignTarget active => active ≠ 10 ∨ ∃ k, NotTen (upcomingMean s k)
  | .compareTarget desired => desired ≠ 10 ∨ Unsettled s
  | .loadRunning remaining | .spawning remaining => 0 < remaining ∨ Unsettled s
  | .returned | .threw => False
  | _ => Unsettled s

-- Something is queued and nobody is there or about to come.
structure Deserted (s : Crawl) : Prop where
  workers : ∀ w ∈ s.workers, w = .finished
  active : s.shared.metrics.activeWorkers = 0
  length : s.shared.metrics.totalQueueLength ≠ 0
  running : s.scaling.state.Running

section Ticks

variable {config : Config} {s t : Crawl}

theorem exists_notTen_iff (s : Crawl) :
    (∃ k, NotTen (upcomingMean s k)) ↔
      NotTen (upcomingMean s 0) ∨ ∃ k, NotTen (upcomingMean s (k + 1)) := by
  constructor
  · rintro ⟨k, hk⟩
    cases k with
    | zero => exact .inl hk
    | succ k => exact .inr ⟨k, hk⟩
  · rintro (h | ⟨k, hk⟩)
    · exact ⟨0, h⟩
    · exact ⟨k + 1, hk⟩

theorem ScalingStep.deserted (h : ScalingStep config s t) (hs : Deserted s) :
    (s.workers.length < t.workers.length ∧ WillSpawn s) ∨
      (t.workers = s.workers ∧ Deserted t ∧ (WillSpawn t ↔ WillSpawn s)) := by
  have hrunning := h.running hs.running
  have keep (hworkers : t.workers = s.workers)
      (hactive : t.shared.metrics.activeWorkers = s.shared.metrics.activeWorkers)
      (hlength : t.shared.metrics.totalQueueLength = s.shared.metrics.totalQueueLength)
      (hspawn : WillSpawn t ↔ WillSpawn s) :
      t.workers = s.workers ∧ Deserted t ∧ (WillSpawn t ↔ WillSpawn s) :=
    ⟨hworkers, ⟨hworkers ▸ hs.workers, hactive.trans hs.active, hlength ▸ hs.length, hrunning⟩, hspawn⟩
  cases h with
  | arm h | expired h | queued _ h _ | alignTarget _ h =>
      refine .inr (keep rfl rfl rfl ?_)
      simp only [WillSpawn, h]
      exact Iff.rfl
  | aborted h | failed h => exact hrunning.elim
  | loadOps samples h hsamples =>
      refine .inr (keep rfl rfl rfl ?_)
      simp only [WillSpawn, h, Unsettled, exists_notTen_iff s]
      have hnext (state : ScalingState) (k : Nat) : upcomingMean
          { s with scaling := ⟨state, s.shared.metrics.totalOps, samples⟩ } k = upcomingMean s (k + 1) := by
        simp only [upcomingMean, hsamples, Nat.sub_self, window_addSample]
      have hmean : rollingMean samples = upcomingMean s 0 := by rw [hsamples]; rfl
      simp only [hnext, hmean]
      exact or_left_comm
  | queueEmpty mean h hlength => exact absurd hlength hs.length
  | loadActive h =>
      refine .inr (keep rfl rfl rfl ?_)
      simp [WillSpawn, h, hs.active]
  | calculate mean h =>
      refine .inr (keep rfl rfl rfl ?_)
      simp only [WillSpawn, h, hs.active, ne_eq, calculateDesiredWorkers_eq_ten_iff, not_not]
      exact Iff.rfl
  | keep desired h htarget =>
      refine .inr (keep rfl rfl rfl ?_)
      simp only [WillSpawn, h]
      exact ⟨.inr, fun hs => hs.elim (fun hne => .inl (htarget ▸ hne)) id⟩
  | change desired h htarget =>
      refine .inr (keep rfl rfl rfl ?_)
      simp only [WillSpawn, h]
      refine iff_of_true trivial ?_
      by_cases hten : desired = 10
      · exact .inr (.inl (hten ▸ htarget.symm))
      · exact .inl hten
  | setTarget desired h =>
      refine .inr (keep rfl rfl rfl ?_)
      simp only [WillSpawn, h]
      refine iff_of_true ?_ trivial
      rcases Nat.eq_zero_or_pos desired with rfl | hpos
      · exact .inr (.inl (show (0 : Nat) ≠ 10 by decide))
      · exact .inl hpos
  | fewer desired h hrunning =>
      refine .inr (keep rfl rfl rfl ?_)
      simp only [WillSpawn, h, hs.active, Nat.sub_zero]
      exact Iff.rfl
  | enough desired h hrunning =>
      refine .inr (keep rfl rfl rfl ?_)
      have hzero : desired = 0 := by
        have := hs.active
        omega
      simp only [WillSpawn, h, hzero, Nat.lt_irrefl, false_or]
      exact Iff.rfl
  | spawned h =>
      refine .inr (keep rfl rfl rfl ?_)
      simp only [WillSpawn, h, Nat.lt_irrefl, false_or]
      exact Iff.rfl
  | spawn remaining h =>
      refine .inl ⟨by simp, ?_⟩
      simp [WillSpawn, h]

theorem step_tick {action : Action} (haction : action.isTick = true) (h : step config s action = some t) :
    ScalingStep config s t ∨
      s.scaling.state = .waiting .pending ∧ t = { s with scaling.state := .waiting (.completed .success) } := by
  cases step_inv h with
  | scaling hstep => exact .inl hstep
  | scalingTimer hpending => exact .inr ⟨hpending, rfl⟩
  | worker | manager | writer | writerTimer => cases haction

theorem Deserted.tick {action : Action} (hs : Deserted s) (haction : action.isTick = true)
    (h : step config s action = some t) :
    (s.workers.length < t.workers.length ∧ WillSpawn s) ∨
      (t.workers = s.workers ∧ Deserted t ∧ (WillSpawn t ↔ WillSpawn s)) := by
  rcases step_tick haction h with h | ⟨hpending, rfl⟩
  · exact h.deserted hs
  · refine .inr ⟨rfl, ⟨hs.workers, hs.active, hs.length, trivial⟩, ?_⟩
    simp only [WillSpawn, hpending]
    exact Iff.rfl

theorem length_le_of_tick {action : Action} (haction : action.isTick = true)
    (h : step config s action = some t) : s.workers.length ≤ t.workers.length := by
  rcases step_tick haction h with h | ⟨-, rfl⟩
  · cases h with
    | spawn => simp
    | _ => exact Nat.le_refl _
  · exact Nat.le_refl _

theorem Deserted.not_spawns (hs : Deserted s) (hspawn : ¬ WillSpawn s) (ht : Ticks config s t) :
    t.workers = s.workers := by
  let Kept (u : Crawl) : Prop := u.workers = s.workers ∧ Deserted u ∧ ¬ WillSpawn u
  have hkept : Kept t := by
    refine ht.invariant (show Kept s from ⟨rfl, hs, hspawn⟩) fun u action v haction hu hstep => ?_
    obtain ⟨hworkers, hdeserted, hnot⟩ := hu
    rcases hdeserted.tick haction hstep with ⟨-, h⟩ | ⟨hsame, hv, hiff⟩
    · exact absurd h hnot
    · exact ⟨hsame.trans hworkers, hv, fun h => hnot (hiff.mp h)⟩
  exact hkept.1

theorem Deserted.spawns_of_compareTarget {desired : Nat} (hs : Deserted s)
    (h : s.scaling.state = .compareTarget desired) (hpos : 0 < desired)
    (hne : desired ≠ s.shared.metrics.targetWorkers) :
    ∃ t, Ticks config s t ∧ s.workers.length < t.workers.length := by
  refine exists_ticks_of_step { s with scaling.state := .setTarget desired }
    (by simp only [scalingStep, h, if_pos hne]) ?_
  refine exists_ticks_of_step
    { s with shared.metrics.targetWorkers := desired, scaling.state := .loadRunning desired } rfl ?_
  obtain ⟨remaining, rfl⟩ := Nat.exists_eq_succ_of_ne_zero hpos.ne'
  refine exists_ticks_of_step
    { s with
      shared.metrics.targetWorkers := remaining + 1, scaling.state := .spawning (remaining + 1) }
    (by simp only [scalingStep, hs.active, if_pos hpos, Nat.sub_zero]) ?_
  refine exists_ticks_of_step
    { s with
      shared.metrics.targetWorkers := remaining + 1
      workers := s.workers ++ [.pending]
      scaling.state := .spawning remaining } rfl ?_
  exact ⟨_, .refl, by simp⟩

theorem Deserted.exists_ticks_of_arming {P : Crawl → Prop} (hs : Deserted s)
    (harming : s.scaling.state = .arming)
    (ht : ∃ u, Ticks config
      { s with
        scaling := ⟨.compareTarget (calculateDesiredWorkers config 0 (upcomingMean s 0)),
          s.shared.metrics.totalOps,
          addSample s.scaling.samples (s.shared.metrics.totalOps - s.scaling.previousOps)⟩ } u ∧ P u) :
    ∃ u, Ticks config s u ∧ P u := by
  let samples := addSample s.scaling.samples (s.shared.metrics.totalOps - s.scaling.previousOps)
  refine exists_ticks_of_step { s with scaling.state := .waiting .pending }
    (by simp only [scalingStep, harming]) ?_
  refine exists_ticks_of_timer rfl ?_
  refine exists_ticks_of_step { s with scaling.state := .loadOps } rfl ?_
  refine exists_ticks_of_step
    { s with scaling := ⟨.checkQueue (upcomingMean s 0), s.shared.metrics.totalOps, samples⟩ } rfl ?_
  refine exists_ticks_of_step
    { s with scaling := ⟨.calculate (upcomingMean s 0), s.shared.metrics.totalOps, samples⟩ }
    (by simp only [scalingStep, if_neg hs.length]) ?_
  exact exists_ticks_of_step _ (by simp only [scalingStep, hs.active]; rfl) ht

-- The tick whose mean asks for another number than the target spawns.
theorem Deserted.spawns_of_differs {k : Nat} (hs : Deserted s) (harming : s.scaling.state = .arming)
    (hk : calculateDesiredWorkers config 0 (upcomingMean s k) ≠ s.shared.metrics.targetWorkers) :
    ∃ t, Ticks config s t ∧ s.workers.length < t.workers.length := by
  induction k generalizing s with
  | zero =>
      refine hs.exists_ticks_of_arming harming ?_
      exact Deserted.spawns_of_compareTarget ⟨hs.workers, hs.active, hs.length, trivial⟩ rfl
        (calculateDesiredWorkers_pos config 0 _) hk
  | succ k ih =>
      refine hs.exists_ticks_of_arming harming ?_
      by_cases htarget : calculateDesiredWorkers config 0 (upcomingMean s 0) = s.shared.metrics.targetWorkers
      · refine exists_ticks_of_step
          { s with
            scaling := ⟨.arming, s.shared.metrics.totalOps,
              addSample s.scaling.samples (s.shared.metrics.totalOps - s.scaling.previousOps)⟩ }
          (by simp only [scalingStep, if_neg (not_not_intro htarget)]) ?_
        refine ih ⟨hs.workers, hs.active, hs.length, trivial⟩ rfl ?_
        simpa only [upcomingMean, Nat.sub_self, window_addSample] using hk
      · exact Deserted.spawns_of_compareTarget ⟨hs.workers, hs.active, hs.length, trivial⟩ rfl
          (calculateDesiredWorkers_pos config 0 _) htarget

theorem unsettled_iff (config : Config) (s : Crawl) :
    Unsettled s ↔
      ∃ k, calculateDesiredWorkers config 0 (upcomingMean s k) ≠ s.shared.metrics.targetWorkers := by
  -- ten is what a window of zeros asks for
  have differs (htarget : s.shared.metrics.targetWorkers ≠ 10) :
      ∃ k, calculateDesiredWorkers config 0 (upcomingMean s k) ≠ s.shared.metrics.targetWorkers := by
    refine ⟨windowSize, ?_⟩
    have hmean : upcomingMean s windowSize = 0 := rollingMean_window_eq_zero _ _ _ (Nat.le_refl _)
    rw [(calculateDesiredWorkers_eq_ten_iff config _).mpr (by rw [hmean]; decide)]
    exact htarget.symm
  constructor
  · rintro (htarget | ⟨k, hk⟩)
    · exact differs htarget
    · by_cases htarget : s.shared.metrics.targetWorkers = 10
      · refine ⟨k, fun h => ?_⟩
        exact (calculateDesiredWorkers_eq_ten_iff config _).mp (h.trans htarget) hk
      · exact differs htarget
  · rintro ⟨k, hk⟩
    by_contra hsettled
    obtain ⟨htarget, hnone⟩ := not_or.mp hsettled
    have hten := (calculateDesiredWorkers_eq_ten_iff config _).mpr (not_exists.mp hnone k)
    exact htarget fun h => hk (hten.trans h.symm)

theorem Deserted.spawns_iff (hs : Deserted s) :
    (∃ t, Ticks config s t ∧ s.workers.length < t.workers.length) ↔ WillSpawn s := by
  constructor
  · rintro ⟨t, ht, hlt⟩
    by_contra hspawn
    rw [hs.not_spawns hspawn ht] at hlt
    exact Nat.lt_irrefl _ hlt
  · intro hspawn
    let Followed (u : Crawl) : Prop :=
      s.workers.length < u.workers.length ∨ u.workers = s.workers ∧ Deserted u ∧ WillSpawn u
    obtain ⟨t, ht, harming⟩ := hs.running.arms config
    have hfollowed : Followed t := by
      refine ht.invariant (show Followed s from .inr ⟨rfl, hs, hspawn⟩) fun u action v haction hu hv => ?_
      rcases hu with hlt | ⟨hworkers, hdeserted, hu⟩
      · exact .inl (Nat.lt_of_lt_of_le hlt (length_le_of_tick haction hv))
      · rcases hdeserted.tick haction hv with ⟨hlt, -⟩ | ⟨hsame, hv, hiff⟩
        · exact .inl (hworkers ▸ hlt)
        · exact .inr ⟨hsame.trans hworkers, hv, hiff.mpr hu⟩
    rcases hfollowed with hlt | ⟨hworkers, hdeserted, hwill⟩
    · exact ⟨t, ht, hlt⟩
    · simp only [WillSpawn, harming] at hwill
      obtain ⟨k, hk⟩ := (unsettled_iff config t).mp hwill
      obtain ⟨u, hu, hlt⟩ := hdeserted.spawns_of_differs harming hk
      exact ⟨u, ht.trans hu, hworkers ▸ hlt⟩

end Ticks

theorem ReachableCrawl.deserted {config : Config} {s : Crawl} (h : ReachableCrawl config s)
    (hlength : 0 < s.shared.metrics.totalQueueLength) (hworkers : ∀ w ∈ s.workers, w = .finished) :
    Deserted s := by
  have ha := h.accounted
  refine ⟨hworkers, ?_, hlength.ne', h.unsignalled.scaling ?_⟩
  · rw [ha.active]
    apply (total_eq_zero_iff WorkerState.started s.workers).mpr
    intro w hw
    rw [hworkers w hw]
    rfl
  · -- the signal is sent to an empty queue
    by_contra hsignalled
    have hexit : s.manager.Exited := by
      cases hm : s.manager <;> simp [hm, ManagerState.scalingSignalled] at hsignalled <;> trivial
    exact hlength.ne' (ha.quiet hexit).length

-- Of a queue that nobody attends to the scaling worker takes notice unless its
-- target is ten and every window to come asks for ten workers.
theorem scaling_spawns_iff (config : Config) (s : Crawl) (h : ReachableCrawl config s)
    (hlength : 0 < s.shared.metrics.totalQueueLength) (hworkers : ∀ w ∈ s.workers, w = .finished) :
    (∃ t, Ticks config s t ∧ s.workers.length < t.workers.length) ↔ WillSpawn s :=
  (h.deserted hlength hworkers).spawns_iff

-- Ten workers are wanted and start. Nine find nothing to do. The tenth queues
-- two prefixes and then gets a listing that it cannot use.
def stalledRun : List Action :=
  firstTick ++ workerSteps 0 4 ++ workerSteps 1 6 ++
    (List.range' 2 8).flatMap (fun index => workerSteps index 5) ++
    [.worker 0 0 (listingResponse
      [prefixElement "a/", prefixElement "b/", textElement "IsTruncated" "true",
        textElement "NextContinuationToken" "next"])] ++
    workerSteps 0 5 ++ [.worker 0 0 (listingResponse [])] ++ workerSteps 0 1

def stalled (s : Crawl) : Bool :=
  s.shared.metrics.totalQueueLength = 2 && s.workers.all WorkerState.ended &&
    s.scaling.state = .arming && s.shared.metrics.targetWorkers = 10 &&
    (List.range windowSize).all fun k => ¬ NotTen (upcomingMean s k)

structure Stalled (s : Crawl) : Prop where
  length : s.shared.metrics.totalQueueLength = 2
  workers : ∀ w ∈ s.workers, w = .finished
  never : ¬ WillSpawn s

theorem stalled_sound {s : Crawl} (h : stalled s = true) : Stalled s := by
  simp only [stalled, Bool.and_eq_true, decide_eq_true_eq, List.all_eq_true, List.mem_range] at h
  obtain ⟨⟨⟨⟨hlength, hended⟩, harming⟩, htarget⟩, hmeans⟩ := h
  refine ⟨hlength, fun w hw => ?_, ?_⟩
  · have := hended w hw
    cases w with
    | finished => rfl
    | _ => cases this
  · simp only [WillSpawn, harming]
    rintro (hne | ⟨k, hk⟩)
    · exact hne htarget
    · by_cases hlt : k < windowSize
      · exact hmeans k hlt hk
      · have hmean : upcomingMean s k = 0 := rollingMean_window_eq_zero _ _ _ (Nat.le_of_not_lt hlt)
        rw [hmean] at hk
        exact absurd hk (by decide)

theorem exists_stalled : ∃ s, ReachableCrawl defaultConfig s ∧ Stalled s := by
  obtain ⟨s, hs, hstalled⟩ := @ReachableCrawl.of_run defaultConfig stalledRun stalled (by decide +kernel)
  exact ⟨s, hs, stalled_sound hstalled⟩

theorem scaling_spawns_iff_stalled :
    ∃ s, ReachableCrawl defaultConfig s ∧ 0 < s.shared.metrics.totalQueueLength ∧
      ((∃ t, Ticks defaultConfig s t ∧ s.workers.length < t.workers.length) ↔ WillSpawn s) := by
  obtain ⟨s, hs, hstalled⟩ := exists_stalled
  have hlength : 0 < s.shared.metrics.totalQueueLength := by
    rw [hstalled.length]
    decide
  exact ⟨s, hs, hlength, scaling_spawns_iff defaultConfig s hs hlength hstalled.workers⟩

-- The two prefixes stay queued however many ticks go by.
theorem queued_prefixes_stall :
    ∃ s, ReachableCrawl defaultConfig s ∧ s.shared.metrics.totalQueueLength = 2 ∧
      (∀ w ∈ s.workers, w = .finished) ∧ ∀ t, Ticks defaultConfig s t → t.workers = s.workers := by
  obtain ⟨s, hs, hstalled⟩ := exists_stalled
  have hlength : 0 < s.shared.metrics.totalQueueLength := by
    rw [hstalled.length]
    decide
  exact ⟨s, hs, hstalled.length, hstalled.workers, fun t ht =>
    (hs.deserted hlength hstalled.workers).not_spawns hstalled.never ht⟩

end S3Cpp.Tools.ListAllObjects
