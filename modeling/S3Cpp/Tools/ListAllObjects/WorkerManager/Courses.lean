import S3Cpp.Tools.ListAllObjects.WorkerManager.WriteErrors

namespace S3Cpp.Tools.ListAllObjects

open Aws.S3 Aws.S3.Client Library.Population Library.Transition

-- A count over calls, keys and prefixes, and what it goes by: the pages that may
-- come for a prefix, and how much of its share there is still to come from a token
-- on. Where it is steady no page lets anything of that slip away.
structure Course where
  call : Option Str → Nat
  key : Option Str → Nat
  share : Option Str → Nat
  sends : CommonPrefix → Option Str → Page → Prop
  valid : CommonPrefix → Option Str → Prop
  remaining : CommonPrefix → Option Str → Nat
  steady : Prop
  start : ∀ path, valid path none
  opens : ∀ path, call path.Prefix + remaining path none = share path.Prefix
  bounded : ∀ path token, valid path token → remaining path token ≤ share path.Prefix
  fresh : ∀ path token page, valid path token → sends path token page → page.repeatsToken = false
  next : ∀ path token page, valid path token → sends path token page →
    ∀ next, page.nextToken = some next → valid path (some next)
  spends : ∀ path token page, valid path token → sends path token page →
    total key (page.contents.map Object.Key) + total share (page.commonPrefixes.map CommonPrefix.Prefix) +
        (page.nextToken.elim 0 fun next => remaining path (some next)) ≤ remaining path token
  keeps : steady → ∀ path token page, valid path token → sends path token page → remaining path token ≤
    total key (page.contents.map Object.Key) + total share (page.commonPrefixes.map CommonPrefix.Prefix) +
        (page.nextToken.elim 0 fun next => remaining path (some next))

namespace Course

variable (course : Course)

def prefixDebt (page : Page) : Nat := total course.share (page.commonPrefixes.map CommonPrefix.Prefix)

def pageDebt (page : Page) : Nat := total course.key (page.contents.map Object.Key) + course.prefixDebt page

def laterDebt (path : CommonPrefix) (page : Page) : Nat :=
  page.nextToken.elim 0 fun next => course.remaining path (some next)

-- What a worker has counted no share of yet.
def debt : WorkerState → Nat
  | .taken path _ => course.remaining path none
  | .listOne call token _ => course.remaining call.path token
  | .writeObjects call page => course.pageDebt page + course.laterDebt call.path page
  | .lockQueue call page | .countObjects call page | .pushPrefixes call page =>
      course.prefixDebt page + course.laterDebt call.path page
  | .countOp call page => course.laterDebt call.path page
  | _ => 0

-- Where the listing of a worker goes on.
def Follows : WorkerState → Prop
  | .listOne call token _ => course.valid call.path token
  | .writeObjects call page | .lockQueue call page | .countObjects call page | .pushPrefixes call page
  | .countOp call page => ∀ next, page.nextToken = some next → course.valid call.path (some next)
  | _ => True

def spent (sh : Shared) : Nat :=
  total course.call (sh.taken.map CommonPrefix.Prefix) + total course.key (sh.handed.map Object.Key)

def queued (sh : Shared) : Nat :=
  total course.share ((PrefixQueue.paths sh.prefixQueue).map CommonPrefix.Prefix)

-- What an attempt may get: one of the pages, or something that is no listing.
def Replies (config : Config) (path : CommonPrefix) (token : Option Str) (response : Response) : Prop :=
  (∃ error, request config.apiVersion response = .unexpected error) ∨
    ∃ page, request config.apiVersion response = .value page ∧ course.sends path token page

-- A part of the count is gone, and a line says for which prefix.
def Reported (lines : List Str) : Prop :=
  ∃ path : CommonPrefix, errorNoSuccess path ∈ lines ∧ 0 < course.share path.Prefix

end Course

section Worker

variable {course : Course} {config : Config} {response : Response} {sh sh' : Shared} {w w' : WorkerState}

theorem Course.Reported.mono {lines more : List Str} (h : course.Reported lines) (hmore : lines <+: more) :
    course.Reported more := by
  obtain ⟨path, hline, hshare⟩ := h
  exact ⟨path, hmore.subset hline, hshare⟩

theorem Course.debt_of_idle (h : w.Idle) : course.debt w = 0 := by
  cases w with
  | pending | getNextPrefix | scanQueue | isDone | leaving | finished => rfl
  | _ => exact h.elim

-- An attempt is repeated, gets a page of the course, or gives the prefix up.
theorem ListStep.replied {call : Call} {token : Option Str} {retries : Nat}
    (h : ListStep config response sh call token retries sh' w')
    (hreplies : course.Replies config call.path token response) (hvalid : course.valid call.path token) :
    (∃ lines call', sh' = sh.print lines ∧ w' = .listOne call' token (retries + 1) ∧ call'.path = call.path) ∨
      (∃ call' page, sh' = sh ∧ w' = .writeObjects call' page ∧ call'.path = call.path ∧
        course.sends call.path token page) ∨
      ∃ lines call', sh' = sh.print lines ∧ errorNoSuccess call.path ∈ lines ∧
        w' = .writeObjects call' (Page.default config.apiVersion) ∧ call'.path = call.path := by
  cases h with
  | throws what hr => simp [Course.Replies, hr] at hreplies
  | retry error hr hmore => exact .inl ⟨_, _, rfl, rfl, rfl⟩
  | giveUp error hr hlast => exact .inr (.inr ⟨_, _, rfl, by simp, rfl, rfl⟩)
  | repeated page hr hrepeats =>
      obtain ⟨error, herror⟩ | ⟨other, hpage, hsends⟩ := hreplies
      · rw [hr] at herror
        cases herror
      · obtain rfl := Outcome.value.inj (hr.symm.trans hpage)
        have hfresh := course.fresh call.path token page hvalid hsends
        rw [hrepeats] at hfresh
        cases hfresh
  | accept page hr hrepeats =>
      obtain ⟨error, herror⟩ | ⟨other, hpage, hsends⟩ := hreplies
      · rw [hr] at herror
        cases herror
      · obtain rfl := Outcome.value.inj (hr.symm.trans hpage)
        exact .inr (.inl ⟨_, page, rfl, rfl, rfl, hsends⟩)

theorem WorkerStep.follows_course (h : WorkerStep config response sh w sh' w')
    (hreplies : ∀ call token retries, w = .listOne call token retries →
      course.Replies config call.path token response)
    (hw : course.Follows w) : course.Follows w' := by
  cases h with
  | release path depth => exact course.start path
  | list call token retries h =>
      rcases h.replied (hreplies call token retries rfl) hw with
        ⟨lines, call', -, rfl, hpath⟩ | ⟨call', page, -, rfl, hpath, hsends⟩ | ⟨lines, call', -, -, rfl, hpath⟩
      · rw [Course.Follows, hpath]
        exact hw
      · intro next hnext
        rw [hpath]
        exact course.next call.path token page hw hsends next hnext
      · intro next hnext
        cases hversion : config.apiVersion <;> rw [hversion] at hnext <;> cases hnext
  | write | lockAgain | count | push => exact hw
  | nextPage call page token htoken => exact hw token htoken
  | _ => trivial

-- What the step of a worker takes away from the count it has reported.
theorem WorkerStep.shifts (h : WorkerStep config response sh w sh' w')
    (hreplies : ∀ call token retries, w = .listOne call token retries →
      course.Replies config call.path token response)
    (hw : course.Follows w) :
    course.spent sh' + course.queued sh' + course.debt w' ≤ course.spent sh + course.queued sh + course.debt w ∧
      (course.steady → course.spent sh + course.queued sh + course.debt w ≤
          course.spent sh' + course.queued sh' + course.debt w' ∨ course.Reported sh'.stderr) := by
  have keep : course.spent sh' + course.queued sh' + course.debt w' =
        course.spent sh + course.queued sh + course.debt w →
      course.spent sh' + course.queued sh' + course.debt w' ≤ course.spent sh + course.queued sh + course.debt w ∧
        (course.steady → course.spent sh + course.queued sh + course.debt w ≤
          course.spent sh' + course.queued sh' + course.debt w' ∨ course.Reported sh'.stderr) :=
    fun heq => ⟨heq.le, fun _ => .inl heq.ge⟩
  cases h with
  | drop before after top htop hnone =>
      apply keep
      simp [Course.queued, Course.spent, htop.split, PrefixQueue.paths, hnone, Course.debt]
  | take before after depth paths path htop =>
      have hopens := course.opens path
      apply keep
      simp [Course.queued, Course.spent, htop.split, PrefixQueue.paths, Course.debt]
      omega
  | list call token retries h =>
      rcases h.replied (hreplies call token retries rfl) hw with
        ⟨lines, call', rfl, rfl, hpath⟩ | ⟨call', page, rfl, rfl, hpath, hsends⟩ | ⟨lines, call', rfl, hline, rfl, hpath⟩
      · apply keep
        simp only [Course.debt, hpath]
        rfl
      · have hspends := course.spends call.path token page hw hsends
        simp only [Course.debt, Course.pageDebt, Course.prefixDebt, Course.laterDebt, hpath]
        refine ⟨by omega, fun hsteady => .inl ?_⟩
        have hkeeps := course.keeps hsteady call.path token page hw hsends
        omega
      · have hnothing : course.debt (.writeObjects call' (Page.default config.apiVersion)) = 0 := by
          cases config.apiVersion <;> rfl
        have hshared : course.spent (sh.print lines) + course.queued (sh.print lines) =
            course.spent sh + course.queued sh := rfl
        refine ⟨by omega, fun _ => ?_⟩
        by_cases hdebt : course.debt (.listOne call token retries) = 0
        · exact .inl (by omega)
        · have hbounded := course.bounded call.path token hw
          have hremaining : course.debt (.listOne call token retries) = course.remaining call.path token := rfl
          exact .inr ⟨call.path, List.mem_append_right _ hline, by omega⟩
  | write call page =>
      apply keep
      simp [Course.queued, Course.spent, Course.debt, Course.pageDebt, Shared.writeObjects, Call.hand]
      omega
  | push call page =>
      apply keep
      simp [Course.queued, Course.spent, Course.debt, Course.prefixDebt, Call.queue]
      omega
  | nextPage call page token htoken =>
      apply keep
      simp only [Course.debt, Course.laterDebt, htoken]
      rfl
  | lastPage call page hlast =>
      apply keep
      simp only [Course.debt, Course.laterDebt, hlast]
      rfl
  | _ => exact keep rfl

end Worker

-- A step in which an attempt, if it is made, gets a reply of the course.
def Course.RepliesIn (course : Course) (config : Config) (s : Crawl) : Action → Prop
  | .worker index _ response => ∀ call token retries, s.workers[index]? = some (.listOne call token retries) →
      course.Replies config call.path token response
  | _ => True

-- What holds of every run of such steps.
structure Explained (course : Course) (s : Crawl) : Prop where
  accounted : Accounted s
  follows : ∀ w ∈ s.workers, course.Follows w
  atMost : course.spent s.shared + course.queued s.shared + total course.debt s.workers ≤ course.share none
  atLeast : course.steady → course.share none ≤
    course.spent s.shared + course.queued s.shared + total course.debt s.workers ∨ course.Reported s.shared.stderr

section Runs

variable {course : Course} {config : Config} {s t : Crawl}

theorem explained_construct : Explained course construct where
  accounted := accounted_construct
  follows := by simp [construct]
  atMost := by simp [construct, Course.spent, Course.queued, PrefixQueue.paths]
  atLeast := by simp [construct, Course.spent, Course.queued, PrefixQueue.paths]

theorem explained_worker {index choice : Nat} {response : Response} (hs : Explained course s)
    (hreplies : course.RepliesIn config s (.worker index choice response))
    (h : step config s (.worker index choice response) = some t) : Explained course t := by
  have haccounted := accounted_step hs.accounted h
  cases step_sound h with
  | frame _ haction => exact absurd rfl (haction index choice response)
  | worker _ _ _ before after w w' sh' hworkers hindex hstep =>
      have hget : s.workers[index]? = some w := by simp [hworkers, ← hindex]
      have hreplies : ∀ call token retries, w = .listOne call token retries →
          course.Replies config call.path token response := by
        rintro call token retries rfl
        exact hreplies call token retries hget
      have hw := hs.follows w (by simp [hworkers])
      obtain ⟨hmost, hleast⟩ := hstep.shifts hreplies hw
      have hmove : total course.debt (before ++ w' :: after) + course.debt w =
          total course.debt s.workers + course.debt w' := by
        rw [hworkers]
        exact total_move course.debt before after w w'
      have hothers := hs.follows
      rw [hworkers] at hothers
      refine ⟨haccounted, forall_move hothers (hstep.follows_course hreplies hw), ?_, fun hsteady => ?_⟩
      · have := hs.atMost
        dsimp only
        omega
      · rcases hs.atLeast hsteady with hbefore | hbefore
        · rcases hleast hsteady with hstep | hreported
          · exact .inl (by dsimp only; omega)
          · exact .inr hreported
        · exact .inr (hbefore.mono hstep.stderr_grows)

-- What neither the queue nor a worker takes part in explains as much as before.
theorem Explained.keep (hs : Explained course s) (haccounted : Accounted t) (hworkers : t.workers = s.workers)
    (hspent : course.spent t.shared = course.spent s.shared)
    (hqueued : course.queued t.shared = course.queued s.shared)
    (hlines : s.shared.stderr <+: t.shared.stderr) : Explained course t := by
  refine ⟨haccounted, hworkers ▸ hs.follows, ?_, fun hsteady => ?_⟩
  · rw [hworkers, hspent, hqueued]
    exact hs.atMost
  · rw [hworkers, hspent, hqueued]
    exact (hs.atLeast hsteady).imp id fun hreported => hreported.mono hlines

theorem explained_manager {choice : Nat} (hs : Explained course s) (h : step config s (.manager choice) = some t) :
    Explained course t := by
  have haccounted := accounted_step hs.accounted h
  have hlines := stderr_grows h
  cases managerStep_sound h with
  | drain before after top hm htop =>
      have hknows := hs.accounted.manager
      rw [ManagerKnows, hm] at hknows
      exact hknows.elim
  | drop before after top hm htop hnone =>
      have hpaths : PrefixQueue.paths (before ++ after) = PrefixQueue.paths s.shared.prefixQueue := by
        simp [htop.split, PrefixQueue.paths, hnone]
      exact hs.keep haccounted rfl rfl (by simp only [Course.queued, hpaths]) hlines
  | _ => exact hs.keep haccounted rfl rfl rfl hlines

theorem explained_frame (hs : Explained course s) (h : FrameStep s t) : Explained course t := by
  have haccounted := accounted_frame hs.accounted h
  cases h with
  | touch target stack lines hmanager hworkers hlines hshared =>
      refine hs.keep haccounted hworkers ?_ ?_ ?_
      · rw [hshared]
        rfl
      · rw [hshared]
        rfl
      · rw [hshared]
        exact hlines
  | spawn hmanager hworkers hshared =>
      have hdebt : total course.debt t.workers = total course.debt s.workers := by
        rw [hworkers, total_append]
        rfl
      refine ⟨haccounted, ?_, ?_, ?_⟩
      · rw [hworkers]
        exact forall_concat hs.follows trivial
      · rw [hdebt, hshared]
        exact hs.atMost
      · rw [hdebt, hshared]
        exact hs.atLeast

theorem explained_step {action : Action} (hreplies : course.RepliesIn config s action) (hs : Explained course s)
    (h : step config s action = some t) : Explained course t := by
  cases action with
  | worker index choice response => exact explained_worker hs hreplies h
  | manager choice => exact explained_manager hs h
  | scaling => exact explained_frame hs (scalingStep_sound h).frame
  | writer failure => exact explained_frame hs (writerStep_sound h).frame
  | scalingTimer | writerTimer =>
      cases step_sound h with
      | frame _ _ hframe => exact explained_frame hs hframe

-- When ~WorkerManager leaves its loop nothing is queued or under way any more.
theorem Explained.spent_bounds (hs : Explained course s) (hexit : s.manager.Exited) :
    course.spent s.shared ≤ course.share none ∧
      (course.steady → course.share none ≤ course.spent s.shared ∨ course.Reported s.shared.stderr) := by
  have hquiet := hs.accounted.quiet hexit
  have hdebt : total course.debt s.workers = 0 :=
    (total_eq_zero_iff _ _).mpr fun w hw => Course.debt_of_idle (hquiet.workers w hw)
  have hqueued : course.queued s.shared = 0 := by
    rw [Course.queued, hquiet.queue]
    rfl
  have hmost := hs.atMost
  have hleast := hs.atLeast
  rw [hdebt, hqueued] at hmost hleast
  exact ⟨hmost, hleast⟩

end Runs

end S3Cpp.Tools.ListAllObjects
