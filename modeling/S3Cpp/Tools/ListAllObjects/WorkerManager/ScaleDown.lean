import S3Cpp.Tools.ListAllObjects.WorkerManager.Completion

namespace S3Cpp.Tools.ListAllObjects

open Aws.S3 Aws.S3.Client Library.Population Library.Transition Library.Xml

-- Whether a running worker has yet to decide to leave.
def WorkerState.undecided : WorkerState → Nat
  | .pending | .leaving | .finished => 0
  | _ => 1

def WorkerState.departing : WorkerState → Nat
  | .leaving => 1
  | _ => 0

-- No worker ends by an exception.
def noThrow (config : Config) (s : Crawl) : Action → Bool
  | .worker index _ response =>
      match s.workers[index]?, request config.apiVersion response with
      | some (.listOne _ _ _), .exception _ => false
      | _, _ => true
  | _ => true

-- A worker that leaves because there are more workers than wanted leaves
-- another one behind that has not decided to leave, or an empty queue.
def leavesAnother (s : Crawl) : Action → Bool
  | .worker index _ _ =>
      match s.workers[index]? with
      | some (.readTarget active) =>
          active ≤ s.shared.metrics.targetWorkers || s.shared.metrics.totalQueueLength = 0 ||
            (s.workers.eraseIdx index).any fun w => 0 < w.undecided
      | _ => true
  | _ => true

-- While anything is queued, some running worker will look again.
def Attended (s : Crawl) : Prop :=
  0 < s.shared.metrics.totalQueueLength → 0 < s.shared.metrics.activeWorkers →
    0 < total WorkerState.undecided s.workers

theorem started_eq (w : WorkerState) : w.started = w.undecided + w.departing := by
  cases w <;> rfl

theorem WorkerStep.undecided {config : Config} {response : Response} {sh sh' : Shared}
    {w w' : WorkerState} (h : WorkerStep config response sh w sh' w')
    (hthrow : ∀ call token retries, w = .listOne call token retries →
      ∀ what, request config.apiVersion response ≠ .exception what) :
    0 < w'.undecided ∨ sh.metrics.totalQueueLength = 0 ∧ sh' = sh ∨
      (∃ active, w = .readTarget active ∧ sh.metrics.targetWorkers < active ∧ sh' = sh) ∨
      w = .leaving ∧ w' = .finished ∧
        sh'.metrics.totalQueueLength = sh.metrics.totalQueueLength := by
  cases h with
  | list call token retries h =>
      cases h with
      | throws what h => exact absurd h (hthrow call token retries rfl what)
      | _ => exact .inl Nat.one_pos
  | done h => exact .inr (.inl ⟨h, rfl⟩)
  | tooMany active h => exact .inr (.inr (.inl ⟨active, rfl, h, rfl⟩))
  | leave => exact .inr (.inr (.inr ⟨rfl, rfl, rfl⟩))
  | _ => exact .inl Nat.one_pos

theorem WorkerStep.leaving_of_started_lt {config : Config} {response : Response} {sh sh' : Shared}
    {w w' : WorkerState} (h : WorkerStep config response sh w sh' w') (hlt : w'.started < w.started) :
    w = .leaving := by
  cases h with
  | list call token retries h => cases h <;> simp [WorkerState.started] at hlt
  | leave => rfl
  | _ => simp [WorkerState.started] at hlt

theorem attended_step {config : Config} {s t : Crawl} {action : Action}
    (hallowed : noThrow config s action && leavesAnother s action) (ha : Accounted s)
    (hs : Attended s) (h : step config s action = some t) : Attended t := by
  cases step_sound h with
  | worker index choice response before after w w' sh' hworkers hindex hstep =>
      have hget : s.workers[index]? = some w := by simp [hworkers, ← hindex]
      have hmove := total_move WorkerState.undecided before after w w'
      rw [Bool.and_eq_true] at hallowed
      have hcases := hstep.undecided fun call token retries hw what hthrow => by
        simp [noThrow, hget, hw, hthrow] at hallowed
      intro hlength hactive
      dsimp only at hlength hactive ⊢
      rcases hcases with hw' | ⟨hzero, rfl⟩ | ⟨active, rfl, htarget, rfl⟩ | ⟨rfl, rfl, hsame⟩
      · simp only [total_append, total_cons]
        omega
      · omega
      · have hothers : s.workers.eraseIdx index = before ++ after := by
          rw [hworkers, ← hindex, List.eraseIdx_append_of_length_le (Nat.le_refl _), Nat.sub_self]
          rfl
        have hanother := hallowed.2
        simp only [leavesAnother, hget, hothers, Bool.or_eq_true, decide_eq_true_eq,
          List.any_eq_true] at hanother
        rcases hanother with (htarget' | hzero) | ⟨v, hv, hpos⟩
        · omega
        · omega
        · have := le_total WorkerState.undecided hv
          simp only [total_append, total_cons] at this ⊢
          omega
      · have hpos := hs (by omega) (by
          have := ha.active
          simp only [hworkers, total_append, total_cons, WorkerState.started] at this
          omega)
        rw [hworkers] at hpos
        simpa [WorkerState.undecided] using hpos
  | manager choice hstep => cases hstep <;> exact hs
  | frame _ _ hstep =>
      cases hstep with
      | touch target stack lines hmanager hworkers hlines hshared =>
          rw [Attended, hworkers, hshared]
          exact hs
      | spawn hmanager hworkers hshared =>
          rw [Attended, hworkers, hshared, total_append]
          exact hs

-- Under that condition the last worker leaves an empty queue behind.
theorem last_exit_empty (config : Config) (s t : Crawl) (index choice : Nat) (response : Response)
    (hs : Reach (step config) (fun s action => noThrow config s action && leavesAnother s action)
      construct s)
    (hstep : step config s (.worker index choice response) = some t)
    (hbefore : s.shared.metrics.activeWorkers = 1) (hafter : t.shared.metrics.activeWorkers = 0) :
    s.shared.metrics.totalQueueLength = 0 := by
  have hreach : ReachableCrawl config s := hs.reachable
  have ha := hreach.accounted
  have hattended : Attended s :=
    hs.invariant_of (fun u hu => (ReachableCrawl.accounted (show ReachableCrawl config u from hu.reachable)))
      (fun _ h => absurd h (by decide)) fun u action v hallowed hu hatt hv =>
        attended_step hallowed hu hatt hv
  cases step_sound hstep with
  | worker _ _ _ before after w w' sh' hworkers hindex hw =>
      have hmem : w ∈ s.workers := by simp [hworkers]
      have hactive := hw.active_eq ((le_total WorkerState.started hmem).trans (by rw [ha.active]))
      dsimp only at hafter
      obtain rfl := hw.leaving_of_started_lt (by omega)
      by_contra hne
      have hpos := hattended (by omega) (by omega)
      have hsum : total WorkerState.started s.workers =
          total WorkerState.undecided s.workers + total WorkerState.departing s.workers := by
        rw [← total_add]
        exact congrArg (total · s.workers) (funext started_eq)
      have hdeparting : 1 ≤ _ := le_total WorkerState.departing hmem
      have := ha.active
      omega
  | frame _ haction => exact absurd rfl (haction index choice response)

-- A tick sets the target to one, a second worker starts, and the first queues a
-- prefix and is about to leave as there are two.
def crowdedRun : List Action :=
  firstTick ++ [.scaling] ++ workerSteps 0 4 ++ .scalingTimer :: List.replicate 6 .scaling ++ workerSteps 1 1 ++
    [.worker 0 0 (listingResponse [prefixElement "a/", textElement "IsTruncated" "false"])] ++ workerSteps 0 7

-- The second worker lists the prefix after the first has left.
def relievedRun : List Action :=
  workerSteps 0 2 ++ workerSteps 1 1 ++ [.worker 1 1 (.failed [])] ++ workerSteps 1 2 ++
    [.worker 1 0 (listingResponse [textElement "IsTruncated" "false"])] ++ workerSteps 1 6

def crowded (s : Crawl) : Bool :=
  match s.workers.head? with
  | some (.readTarget active) =>
      s.shared.metrics.targetWorkers < active && 0 < s.shared.metrics.totalQueueLength
  | _ => false

theorem last_exit_empty_relieved :
    ∃ r s t, crowded r = true ∧
      Reach (step defaultConfig) (fun s action => noThrow defaultConfig s action && leavesAnother s action) r s ∧
      step defaultConfig s (.worker 1 0 (.failed [])) = some t ∧
      s.shared.metrics.activeWorkers = 1 ∧ t.shared.metrics.activeWorkers = 0 ∧
      s.shared.metrics.totalQueueLength = 0 ∧ s.shared.ended.length = 2 := by
  let check (s : Crawl) (action : Action) := noThrow defaultConfig s action && leavesAnother s action
  let facts (s : Crawl) : Bool :=
    s.shared.metrics.activeWorkers = 1 && s.shared.ended.length = 2 &&
      (step defaultConfig s (.worker 1 0 (.failed []))).any fun t => t.shared.metrics.activeWorkers = 0
  have hcrowded : (run (guarded (step defaultConfig) check) construct crowdedRun).map crowded = some true := by
    decide +kernel
  obtain ⟨r, hr, hcrowd⟩ := Option.map_eq_some_iff.mp hcrowded
  have hrelieved : ((run (guarded (step defaultConfig) check) construct crowdedRun).bind fun r =>
      run (guarded (step defaultConfig) check) r relievedRun).map facts = some true := by decide +kernel
  rw [hr, Option.bind_some] at hrelieved
  obtain ⟨s, hs, hfacts⟩ := Option.map_eq_some_iff.mp hrelieved
  simp only [facts, Bool.and_eq_true, decide_eq_true_eq, Option.any_eq_true] at hfacts
  obtain ⟨⟨hbefore, hended⟩, t, hstep, hafter⟩ := hfacts
  have hreach := Reach.of_run hs
  have hempty := last_exit_empty defaultConfig s t 1 0 (.failed []) ((Reach.of_run hr).trans hreach) hstep hbefore
    hafter
  exact ⟨r, s, t, hcrowd, hreach, hstep, hbefore, hafter, hempty, hended⟩

-- While the only worker lists the root, a tick finds the queue empty and keeps
-- the target at one. A second worker starts, finds nothing and decides to leave.
-- The first one queues two prefixes and leaves because it still counts both.
def strandedRun : List Action :=
  firstTick ++ [.scaling] ++ workerSteps 0 4 ++ .scalingTimer :: List.replicate 6 .scaling ++
    workerSteps 1 5 ++
    [.worker 0 0 (listingResponse
      [prefixElement "a/", prefixElement "b/", textElement "IsTruncated" "false"])] ++
    workerSteps 0 8 ++ workerSteps 1 1

theorem last_exit_strands_prefixes :
    ∃ s t, Reach (step defaultConfig) (fun s action => noThrow defaultConfig s action) construct s ∧
      step defaultConfig s (.worker 0 0 (.failed [])) = some t ∧
      s.shared.metrics.activeWorkers = 1 ∧ t.shared.metrics.activeWorkers = 0 ∧
      s.shared.metrics.totalQueueLength = 2 := by
  let facts (s : Crawl) : Bool :=
    s.shared.metrics.activeWorkers = 1 && s.shared.metrics.totalQueueLength = 2 &&
      (step defaultConfig s (.worker 0 0 (.failed []))).any fun t => t.shared.metrics.activeWorkers = 0
  have hrun : (run (guarded (step defaultConfig) (noThrow defaultConfig)) construct strandedRun).map
      facts = some true := by decide +kernel
  obtain ⟨s, hs, hfacts⟩ := Option.map_eq_some_iff.mp hrun
  simp only [facts, Bool.and_eq_true, decide_eq_true_eq, Option.any_eq_true] at hfacts
  obtain ⟨⟨hbefore, hlength⟩, t, hstep, hafter⟩ := hfacts
  exact ⟨s, t, Reach.of_run hs, hstep, hbefore, hafter, hlength⟩

end S3Cpp.Tools.ListAllObjects
