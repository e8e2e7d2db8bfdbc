import S3Cpp.Tools.ListAllObjects.WorkerManager.Schedule

namespace S3Cpp.Tools.ListAllObjects

open Aws.S3 Aws.S3.Client Library.Exploration

-- An attempt that list_one_impl answers with another one.
def failed (config : Config) (response : Response) : Bool :=
  match request config.apiVersion response with
  | .unexpected _ => true
  | .value _ | .exception _ => false

def succeeded (config : Config) (responses : List Response) : List Response :=
  responses.filter fun response => !failed config response

-- No page fails max_retries times, where the first one is at some retry.
def endures (config : Config) : Nat → List Response → Bool
  | _, [] => true
  | retries, response :: rest =>
      if failed config response then decide (retries < maxRetries) && endures config (retries + 1) rest
      else endures config 1 rest

def Progress.work : Progress → Progress
  | .waiting call token _ => .waiting call.work token 1
  | .ended call ending => .ended call.work ending

section Work

variable {config : Config} {token : Option Str} {call other : Call}

theorem Call.work_receive (response : Response) (h : call.work = other.work) :
    (call.receive token response).work = (other.receive token response).work := h

theorem Call.work_print (lines : List Str) : (call.print lines).work = call.work := rfl

theorem Call.work_page {page : Page} (h : call.work = other.work) :
    ((call.hand page.contents).queue page.commonPrefixes).work =
      ((other.hand page.contents).queue page.commonPrefixes).work := by
  simp only [work, hand, queue, Call.mk.injEq] at h ⊢
  simp [h]

-- What list_one_impl returns with is what it returns with on the attempts that
-- succeed.
theorem listOneImpl_enduring {retries : Nat} {responses : List Response}
    (hendures : endures config retries responses) (h : call.work = other.work) :
    match listOneImpl config token call retries responses with
    | .waiting later _ => ∃ later', later.work = later'.work ∧
        listOneImpl config token other 1 (succeeded config responses) = .waiting later' 1
    | .threw later what => ∃ later', later.work = later'.work ∧
        listOneImpl config token other 1 (succeeded config responses) = .threw later' what
    | .page later page rest => endures config 1 rest ∧ ∃ later', later.work = later'.work ∧
        listOneImpl config token other 1 (succeeded config responses) =
          .page later' page (succeeded config rest) := by
  induction responses generalizing call retries with
  | nil => exact ⟨other, h, rfl⟩
  | cons response responses ih =>
      rw [endures] at hendures
      cases hr : request config.apiVersion response with
      | exception what =>
          have hok : failed config response = false := by simp only [failed, hr]
          simp only [listOneImpl, succeeded, List.filter_cons, hok, hr, Bool.not_false, if_true]
          exact ⟨_, Call.work_receive response h, rfl⟩
      | value page =>
          have hok : failed config response = false := by simp only [failed, hr]
          rw [hok, if_neg Bool.false_ne_true] at hendures
          simp only [listOneImpl, succeeded, List.filter_cons, hok, hr, Bool.not_false, if_true]
          exact ⟨hendures, _, Call.work_receive response h, rfl⟩
      | unexpected error =>
          have hfailed : failed config response = true := by simp only [failed, hr]
          rw [hfailed, if_pos rfl, Bool.and_eq_true, decide_eq_true_eq] at hendures
          have hfilter : succeeded config (response :: responses) = succeeded config responses := by
            simp [succeeded, hfailed]
          simp only [listOneImpl, hr, if_pos hendures.1, hfilter]
          exact ih hendures.2 h

theorem processPages_enduring {retries : Nat} {responses : List Response}
    (hendures : endures config retries responses) (h : call.work = other.work) :
    (processPages config call token retries responses).work =
      (processPages config other token 1 (succeeded config responses)).work := by
  induction hlength : responses.length using Nat.strongRecOn
    generalizing call other token retries responses with
  | _ length ih =>
      have hlist := @listOneImpl_enduring config token call other retries responses hendures h
      rw [processPages_eq, processPages_eq other]
      cases hfirst : listOneImpl config token call retries responses with
      | waiting later retries' =>
          rw [hfirst] at hlist
          obtain ⟨later', hwork, hsecond⟩ := hlist
          rw [hsecond]
          simp only [Progress.work, hwork]
      | threw later what =>
          rw [hfirst] at hlist
          obtain ⟨later', hwork, hsecond⟩ := hlist
          rw [hsecond]
          simp only [Progress.work, hwork]
      | page later page rest =>
          rw [hfirst] at hlist
          obtain ⟨hrest, later', hwork, hsecond⟩ := hlist
          rw [hsecond]
          dsimp only
          split
          · simp only [Progress.work, Call.work_print, hwork]
          · unfold Call.afterPage
            cases page.nextToken with
            | none => simp only [Progress.resume, Progress.work, Call.work_page hwork]
            | some next =>
                exact ih rest.length (hlength ▸ listOneImpl_rest_lt hfirst) hrest
                  (Call.work_page hwork) rfl

end Work

-- Every call that has ended has got these answers after attempts that failed,
-- but never max_retries times in a row.
def Succeeded (config : Config) (answers : Answers) (s : Crawl) : Prop :=
  ∀ entry ∈ s.shared.ended,
    endures config 1 (entry.1.exchanges.map Prod.snd) ∧
      succeeded config (entry.1.exchanges.map Prod.snd) = answers entry.1.path entry.1.depth

instance (config : Config) (answers : Answers) (s : Crawl) : Decidable (Succeeded config answers s) :=
  inferInstanceAs (Decidable (∀ entry ∈ s.shared.ended, _))

section Exit

variable {config : Config} {s : Crawl} {answers : Answers}

theorem Succeeded.scaling (up down : Rat) (hsucceeded : Succeeded config answers s) :
    Succeeded { config with scaleUpFactor := up, scaleDownFactor := down } answers s := by
  have hendures (retries : Nat) (responses : List Response) :
      endures { config with scaleUpFactor := up, scaleDownFactor := down } retries responses =
        endures config retries responses := by
    induction responses generalizing retries with
    | nil => rfl
    | cons response responses ih =>
        simp only [endures, ih]
        rfl
  intro entry hentry
  rw [hendures]
  exact hsucceeded entry hentry

-- The call has done what the call without failures does.
theorem Succeeded.entry (hsucceeded : Succeeded config answers s) (h : ReachableCrawl config s)
    {entry : Call × Ending} (hentry : entry ∈ s.shared.ended) :
    (answeredCall config answers entry.1.item).1.work = entry.1.work ∧
      (answeredCall config answers entry.1.item).2 = entry.2 := by
  obtain ⟨hendures, hanswers⟩ := hsucceeded entry hentry
  have hreplay := ended_of_reachable h entry hentry
  have hquiet := @processPages_enduring config none (Call.start entry.1.path entry.1.depth) _ 1 _
    hendures rfl
  rw [Call.replay, processPrefix] at hreplay
  rw [hreplay, hanswers] at hquiet
  simp only [answeredCall, Call.item, processPrefix]
  cases hcall : processPages config (Call.start entry.1.path entry.1.depth) none 1
      (answers entry.1.path entry.1.depth) with
  | waiting call token retries =>
      rw [hcall] at hquiet
      cases hquiet
  | ended call ending =>
      rw [hcall] at hquiet
      simp only [Progress.work, Progress.ended.injEq] at hquiet
      exact ⟨hquiet.1.symm, hquiet.2.symm⟩

theorem Succeeded.explores (hsucceeded : Succeeded config answers s) (h : ReachableCrawl config s)
    (hexit : s.manager.Exited) :
    Explores (⟨none⟩, 0) (answeredChildren config answers) (s.shared.ended.map fun entry => entry.1.item) :=
  explores_of_children h hexit fun entry hentry => by
    have hqueued := congrArg Call.queued (hsucceeded.entry h hentry).1
    simp only [answeredChildren, Call.children]
    rw [show (answeredCall config answers entry.1.item).1.queued = entry.1.queued from hqueued]
    rfl

theorem Succeeded.ended (hsucceeded : Succeeded config answers s) (h : ReachableCrawl config s) :
    (s.shared.ended.map fun entry => (entry.1.work, entry.2)) =
      (s.shared.ended.map fun entry => entry.1.item).map fun item =>
        ((answeredCall config answers item).1.work, (answeredCall config answers item).2) := by
  rw [List.map_map]
  refine List.map_congr_left fun entry hentry => ?_
  obtain ⟨hwork, hending⟩ := hsucceeded.entry h hentry
  simp only [Function.comp_apply, hwork, hending]

end Exit

-- Attempts that fail and are made again leave no trace in what a crawl lists,
-- hands over and counts.
theorem failures_transparent (config : Config) (up down : Rat) (answers : Answers) (s t : Crawl)
    (hs : ReachableCrawl config s)
    (ht : ReachableCrawl { config with scaleUpFactor := up, scaleDownFactor := down } t)
    (hsexit : s.manager.Exited) (htexit : t.manager.Exited)
    (hssucceeded : Succeeded config answers s) (htsucceeded : Succeeded config answers t) :
    (s.shared.ended.map fun entry => (entry.1.work, entry.2)).Perm
        (t.shared.ended.map fun entry => (entry.1.work, entry.2)) ∧
      s.shared.handed.Perm t.shared.handed ∧ s.shared.written.Perm t.shared.written ∧
      s.shared.metrics.totalOps = t.shared.metrics.totalOps ∧
      s.shared.metrics.totalObjectsFound = t.shared.metrics.totalObjectsFound := by
  have hother : answeredCall { config with scaleUpFactor := up, scaleDownFactor := down } answers =
      answeredCall config answers := funext (answeredCall_scaling up down answers)
  have htsucceeded := htsucceeded.scaling up down
  have hexplored := htsucceeded.explores ht htexit
  rw [answeredChildren_scaling] at hexplored
  have hitems := (hssucceeded.explores hs hsexit).unique hexplored (answered_ranked answers)
  have hended : (s.shared.ended.map fun entry => (entry.1.work, entry.2)).Perm
      (t.shared.ended.map fun entry => (entry.1.work, entry.2)) := by
    rw [hssucceeded.ended hs, htsucceeded.ended ht, hother]
    exact hitems.map _
  refine ⟨hended, outcome_of_work hs ht (fun _ => rfl) hsexit htexit ?_⟩
  have hwork := hended.map Prod.fst
  simpa only [List.map_map, Function.comp_def] using hwork

-- The answers without the attempt that fails at first.
def respondQuietly (index : Nat) (path : Option String) : List Action :=
  (succeeded defaultConfig (threeKeysAnswers ⟨path.map ascii⟩ 0)).map fun response =>
    .worker index 0 response

def quietRun : List Action :=
  firstTick ++ workerSteps 0 4 ++ respondQuietly 0 none ++ workerSteps 0 9 ++ [.worker 0 1 (.failed [])] ++
    workerSteps 0 2 ++ respondQuietly 0 (some "c/") ++ workerSteps 0 11 ++ respondQuietly 0 (some "b/") ++
    workerSteps 0 7 ++ List.replicate 6 (.manager 0)

theorem failures_transparent_threeKeys :
    ∃ s t, ReachableCrawl defaultConfig s ∧ ReachableCrawl defaultConfig t ∧
      s.shared.stderr = [] ∧ t.shared.stderr.length = 1 ∧ s.shared.handed.length = 3 ∧
      s.shared.handed.Perm t.shared.handed := by
  let answers : Answers := fun path depth => succeeded defaultConfig (threeKeysAnswers path depth)
  obtain ⟨s, hs, hsok⟩ := @ReachableCrawl.of_run defaultConfig quietRun
    (fun s => decide (s.manager.Exited ∧ Succeeded defaultConfig answers s ∧ s.shared.stderr = [] ∧
      s.shared.handed.length = 3)) (by decide +kernel)
  obtain ⟨t, ht, htok⟩ := @ReachableCrawl.of_run defaultConfig togetherRun
    (fun t => decide (t.manager.Exited ∧ Succeeded defaultConfig answers t ∧ t.shared.stderr.length = 1))
    (by decide +kernel)
  obtain ⟨hsexit, hssucceeded, hquiet, hkeys⟩ := of_decide_eq_true hsok
  obtain ⟨htexit, htsucceeded, hwarned⟩ := of_decide_eq_true htok
  have hsame := failures_transparent defaultConfig defaultConfig.scaleUpFactor
    defaultConfig.scaleDownFactor answers s t hs ht hsexit htexit hssucceeded htsucceeded
  exact ⟨s, t, hs, ht, hquiet, hwarned, hkeys, hsame.2.1⟩

end S3Cpp.Tools.ListAllObjects
