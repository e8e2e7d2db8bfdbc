import S3Cpp.Library.Exploration
import S3Cpp.Tools.ListAllObjects.WorkerManager.Calls
import S3Cpp.Tools.ListAllObjects.WorkerManager.Tallies

namespace S3Cpp.Tools.ListAllObjects

open Aws.S3 Aws.S3.Client Library.Exploration Library.Population Library.Xml

-- What the calls for each path at each depth are answered with.
abbrev Answers := CommonPrefix → Nat → List Response

def Answered (answers : Answers) (s : Crawl) : Prop :=
  ∀ entry ∈ s.shared.ended, entry.1.exchanges.map Prod.snd = answers entry.1.path entry.1.depth

instance (answers : Answers) (s : Crawl) : Decidable (Answered answers s) :=
  inferInstanceAs (Decidable (∀ entry ∈ s.shared.ended, _))

section Replay

variable {config : Config}

-- The call for a path and a depth that these answers are given to.
def answeredCall (config : Config) (answers : Answers) (item : CommonPrefix × Nat) : Call × Ending :=
  match processPrefix config item.1 item.2 (answers item.1 item.2) with
  | .ended call ending => (call, ending)
  | .waiting call _ _ => (call, .returned)

-- The scaling has no part in what a call does.
theorem listOneImpl_scaling (up down : Rat) (token : Option Str) (call : Call) (retries : Nat)
    (responses : List Response) :
    listOneImpl { config with scaleUpFactor := up, scaleDownFactor := down } token call retries responses =
      listOneImpl config token call retries responses := by
  induction responses generalizing call retries with
  | nil => rfl
  | cons response responses ih => simp only [listOneImpl, ih]

theorem processPages_scaling (up down : Rat) (call : Call) (token : Option Str) (retries : Nat)
    (responses : List Response) :
    processPages { config with scaleUpFactor := up, scaleDownFactor := down } call token retries responses =
      processPages config call token retries responses := by
  induction hlength : responses.length using Nat.strongRecOn generalizing call token retries responses with
  | _ length ih =>
      rw [processPages_eq, processPages_eq, listOneImpl_scaling]
      cases hlist : listOneImpl config token call retries responses with
      | waiting | threw => rfl
      | page later page rest =>
          dsimp only
          split
          · rfl
          · unfold Call.afterPage
            cases page.nextToken with
            | none => rfl
            | some next => exact ih rest.length (hlength ▸ listOneImpl_rest_lt hlist) _ _ _ _ rfl

-- The paths that are queued when a path at a depth is answered.
def answeredChildren (config : Config) (answers : Answers) (item : CommonPrefix × Nat) :
    List (CommonPrefix × Nat) :=
  (answeredCall config answers item).1.queued.flatten.map fun path => (path, item.2 + 1)

theorem answered_ranked (answers : Answers) :
    Ranked (⟨none⟩, 0) (answeredChildren config answers) Prod.snd where
  root := rfl
  child item other hother := by
    obtain ⟨path, -, rfl⟩ := List.mem_map.mp hother
    rfl

theorem answeredCall_scaling (up down : Rat) (answers : Answers) (item : CommonPrefix × Nat) :
    answeredCall { config with scaleUpFactor := up, scaleDownFactor := down } answers item =
      answeredCall config answers item := by
  simp only [answeredCall, processPrefix, processPages_scaling]

theorem answeredChildren_scaling (up down : Rat) (answers : Answers) :
    answeredChildren { config with scaleUpFactor := up, scaleDownFactor := down } answers =
      answeredChildren config answers := by
  funext item
  simp only [answeredChildren, answeredCall_scaling]

end Replay

section Exit

variable {config : Config} {s : Crawl} {answers : Answers}

theorem nothing_of_idle {w : WorkerState} (h : w.Idle) :
    w.call? = none ∧ w.item? = none ∧ w.uncountedOp = 0 := by
  cases w with
  | pending | getNextPrefix | scanQueue | isDone | leaving | finished => exact ⟨rfl, rfl, rfl⟩
  | _ => exact h.elim

theorem calls_of_exited (h : ReachableCrawl config s) (hexit : s.manager.Exited) :
    s.calls = s.shared.ended.map Prod.fst ∧ s.items = [] := by
  have hquiet := h.accounted.quiet hexit
  have hcalls : s.workers.filterMap WorkerState.call? = [] :=
    List.filterMap_eq_nil_iff.mpr fun w hw => (nothing_of_idle (hquiet.workers w hw)).1
  have hitems : s.workers.filterMap WorkerState.item? = [] :=
    List.filterMap_eq_nil_iff.mpr fun w hw => (nothing_of_idle (hquiet.workers w hw)).2.1
  constructor
  · rw [Crawl.calls, hcalls, List.append_nil]
  · rw [Crawl.items, hitems, hquiet.queue]
    rfl

theorem counters_of_exited (h : ReachableCrawl config s) (hexit : s.manager.Exited) :
    s.shared.metrics.totalOps =
        total (fun call => call.queued.length) (s.shared.ended.map Prod.fst) ∧
      s.shared.metrics.totalObjectsFound =
        total (fun call => call.handed.flatten.length) (s.shared.ended.map Prod.fst) := by
  have hidle := (h.accounted.quiet hexit).workers
  have hop : total WorkerState.uncountedOp s.workers = 0 :=
    (total_eq_zero_iff _ _).mpr fun w hw => (nothing_of_idle (hidle w hw)).2.2
  have hfound : total WorkerState.uncounted s.workers = 0 :=
    (total_eq_zero_iff _ _).mpr fun w hw => uncounted_of_idle (hidle w hw)
  have hops := ops_eq_calls h
  have hfounds := found_eq_calls h
  rw [(calls_of_exited h hexit).1] at hops hfounds
  omega

-- A crawl that is over has explored what its calls have queued.
theorem explores_of_children (h : ReachableCrawl config s) (hexit : s.manager.Exited)
    {children : CommonPrefix × Nat → List (CommonPrefix × Nat)}
    (hchildren : ∀ entry ∈ s.shared.ended, children entry.1.item = entry.1.children) :
    Explores (⟨none⟩, 0) children (s.shared.ended.map fun entry => entry.1.item) := by
  obtain ⟨hcalls, hitems⟩ := calls_of_exited h hexit
  have hperm := items_perm_calls h
  rw [hcalls, hitems, List.nil_append, List.flatMap_map] at hperm
  rw [Explores, List.flatMap_map]
  refine hperm.trans (List.Perm.of_eq ?_)
  congr 1
  exact List.flatMap_congr fun entry hentry => (hchildren entry hentry).symm

theorem Answered.entry (hanswered : Answered answers s) (h : ReachableCrawl config s)
    {entry : Call × Ending} (hentry : entry ∈ s.shared.ended) :
    answeredCall config answers entry.1.item = entry := by
  have hreplay := ended_of_reachable h entry hentry
  rw [Call.replay, hanswered entry hentry] at hreplay
  simp only [answeredCall, Call.item, hreplay]

theorem Answered.ended (hanswered : Answered answers s) (h : ReachableCrawl config s) :
    s.shared.ended = (s.shared.ended.map fun entry => entry.1.item).map (answeredCall config answers) := by
  rw [List.map_map]
  exact (List.map_congr_left fun entry hentry => hanswered.entry h hentry).trans (List.map_id _) |>.symm

theorem Answered.explores (hanswered : Answered answers s) (h : ReachableCrawl config s)
    (hexit : s.manager.Exited) :
    Explores (⟨none⟩, 0) (answeredChildren config answers) (s.shared.ended.map fun entry => entry.1.item) :=
  explores_of_children h hexit fun entry hentry => by
    rw [answeredChildren, hanswered.entry h hentry]
    rfl

end Exit

-- What a call is for: the path it lists and what it hands over and queues, not
-- its requests and the lines it prints.
def Call.work (call : Call) : Call := { call with exchanges := [], lines := [] }

-- Two crawls that are over and whose calls have done the same work have the same
-- outcome.
theorem outcome_of_work {config other : Config} {s t : Crawl} (hs : ReachableCrawl config s)
    (ht : ReachableCrawl other t) (hformat : ∀ call : Call, call.texts other = call.texts config)
    (hsexit : s.manager.Exited) (htexit : t.manager.Exited)
    (hwork : (s.shared.ended.map fun entry => entry.1.work).Perm
      (t.shared.ended.map fun entry => entry.1.work)) :
    s.shared.handed.Perm t.shared.handed ∧ s.shared.written.Perm t.shared.written ∧
      s.shared.metrics.totalOps = t.shared.metrics.totalOps ∧
      s.shared.metrics.totalObjectsFound = t.shared.metrics.totalObjectsFound := by
  have hhanded := handed_perm_calls hs
  have hhanded' := handed_perm_calls ht
  have hwritten := written_perm_calls hs
  have hwritten' := written_perm_calls ht
  simp only [hformat] at hwritten'
  rw [(calls_of_exited hs hsexit).1, List.flatMap_map] at hhanded hwritten
  rw [(calls_of_exited ht htexit).1, List.flatMap_map] at hhanded' hwritten'
  obtain ⟨hops, hfound⟩ := counters_of_exited hs hsexit
  obtain ⟨hops', hfound'⟩ := counters_of_exited ht htexit
  rw [total_map] at hops hfound hops' hfound'
  have hflat {α : Type} (f : Call → List α) (hf : ∀ call, f call.work = f call) :
      (s.shared.ended.flatMap fun entry => f entry.1).Perm
        (t.shared.ended.flatMap fun entry => f entry.1) := by
    have hperm := hwork.flatMap_right f
    simpa only [List.flatMap_map, hf] using hperm
  have hsum (f : Call → Nat) (hf : ∀ call, f call.work = f call) :
      total (fun entry => f entry.1) s.shared.ended = total (fun entry => f entry.1) t.shared.ended := by
    have htotal := total_perm f hwork
    simpa only [total_map, Function.comp_def, hf] using htotal
  refine ⟨?_, ?_, ?_, ?_⟩
  · exact hhanded.trans ((hflat (fun call => call.handed.flatten) fun _ => rfl).trans hhanded'.symm)
  · exact hwritten.trans ((hflat (Call.texts config) fun _ => rfl).trans hwritten'.symm)
  · rw [hops, hops']
    exact hsum (fun call => call.queued.length) fun _ => rfl
  · rw [hfound, hfound']
    exact hsum (fun call => call.handed.flatten.length) fun _ => rfl

-- What a crawl lists, hands over and counts depends on the answers only: not on
-- the order in which the workers take their steps, on how many there are, or on
-- how they are scaled.
theorem schedule_independent (config : Config) (up down : Rat) (answers : Answers) (s t : Crawl)
    (hs : ReachableCrawl config s)
    (ht : ReachableCrawl { config with scaleUpFactor := up, scaleDownFactor := down } t)
    (hsexit : s.manager.Exited) (htexit : t.manager.Exited)
    (hsanswered : Answered answers s) (htanswered : Answered answers t) :
    s.shared.ended.Perm t.shared.ended ∧ s.shared.handed.Perm t.shared.handed ∧
      s.shared.written.Perm t.shared.written ∧
      s.shared.metrics.totalOps = t.shared.metrics.totalOps ∧
      s.shared.metrics.totalObjectsFound = t.shared.metrics.totalObjectsFound := by
  have hother : answeredCall { config with scaleUpFactor := up, scaleDownFactor := down } answers =
      answeredCall config answers := funext (answeredCall_scaling up down answers)
  have hexplored := htanswered.explores ht htexit
  rw [answeredChildren_scaling] at hexplored
  have hitems := (hsanswered.explores hs hsexit).unique hexplored (answered_ranked answers)
  have hended : s.shared.ended.Perm t.shared.ended := by
    rw [hsanswered.ended hs, htanswered.ended ht, hother]
    exact hitems.map _
  exact ⟨hended, outcome_of_work hs ht (fun _ => rfl) hsexit htexit (hended.map _)⟩

def lastPage (children : List Node) : Response :=
  listingResponse (children ++ [textElement "IsTruncated" "false"])

-- A key, and two prefixes with a key below each. One of them fails at first.
def threeKeysAnswers : Answers := fun path _ =>
  match path.Prefix with
  | none => [lastPage [keyElement "a", prefixElement "b/", prefixElement "c/"]]
  | some p =>
      if p = ascii "b/" then [lastPage [keyElement "b/x"]] else [.failed [], lastPage [keyElement "c/y"]]

def respond (index : Nat) (path : Option String) : List Action :=
  (threeKeysAnswers ⟨path.map ascii⟩ 0).map fun response => .worker index 0 response

-- One worker lists all of it.
def aloneRun : List Action :=
  firstTick ++ workerSteps 0 4 ++ respond 0 none ++ workerSteps 0 9 ++ [.worker 0 1 (.failed [])] ++
    workerSteps 0 2 ++ respond 0 (some "c/") ++ workerSteps 0 11 ++ respond 0 (some "b/") ++
    workerSteps 0 7 ++ List.replicate 6 (.manager 0)

-- Two workers list the two prefixes at the same time.
def togetherRun : List Action :=
  firstTick ++ workerSteps 0 4 ++ respond 0 none ++ workerSteps 0 5 ++ workerSteps 1 2 ++
    [.worker 1 1 (.failed [])] ++ workerSteps 1 2 ++ workerSteps 0 6 ++ respond 0 (some "b/") ++
    workerSteps 0 1 ++ respond 1 (some "c/") ++ workerSteps 1 1 ++ workerSteps 0 6 ++ workerSteps 1 6 ++
    List.replicate 6 (.manager 0)

theorem schedule_independent_threeKeys :
    ∃ s t, ReachableCrawl defaultConfig s ∧
      ReachableCrawl { defaultConfig with scaleUpFactor := 2, scaleDownFactor := 1 } t ∧
      s.shared.handed.map Object.Key = [some (ascii "a"), some (ascii "c/y"), some (ascii "b/x")] ∧
      t.shared.handed.map Object.Key = [some (ascii "a"), some (ascii "b/x"), some (ascii "c/y")] ∧
      s.shared.ended.Perm t.shared.ended := by
  obtain ⟨s, hs, hsok⟩ := @ReachableCrawl.of_run defaultConfig aloneRun
    (fun s => decide (s.manager.Exited ∧ Answered threeKeysAnswers s ∧
      s.shared.handed.map Object.Key = [some (ascii "a"), some (ascii "c/y"), some (ascii "b/x")]))
    (by decide +kernel)
  obtain ⟨t, ht, htok⟩ :=
    @ReachableCrawl.of_run { defaultConfig with scaleUpFactor := 2, scaleDownFactor := 1 } togetherRun
      (fun t => decide (t.manager.Exited ∧ Answered threeKeysAnswers t ∧
        t.shared.handed.map Object.Key = [some (ascii "a"), some (ascii "b/x"), some (ascii "c/y")]))
      (by decide +kernel)
  obtain ⟨hsexit, hsanswered, hskeys⟩ := of_decide_eq_true hsok
  obtain ⟨htexit, htanswered, htkeys⟩ := of_decide_eq_true htok
  have hperm := schedule_independent defaultConfig 2 1 threeKeysAnswers s t hs ht hsexit htexit
    hsanswered htanswered
  exact ⟨s, t, hs, ht, hskeys, htkeys, hperm.1⟩

end S3Cpp.Tools.ListAllObjects
