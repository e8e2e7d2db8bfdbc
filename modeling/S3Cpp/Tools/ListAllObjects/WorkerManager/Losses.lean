import S3Cpp.Tools.ListAllObjects.WorkerManager.Completion

namespace S3Cpp.Tools.ListAllObjects

open Aws.S3 Aws.S3.Client Library.Population Library.Transition Library.Xml

-- The element that has to say where a truncated listing goes on.
def ListObjectsApiVersion.nextTokenName : ListObjectsApiVersion → String
  | .V1 => "NextMarker"
  | .V2 => "NextContinuationToken"

def Unusable (version : ListObjectsApiVersion) : Response → Prop
  | .received (.document document) => MalformedListing version.nextTokenName document
  | _ => False

theorem request_exception_iff (version : ListObjectsApiVersion) (response : Response) :
    (∃ what, request version response = .exception what) ↔ Unusable version response := by
  have hunusable : Unusable version response ↔ ∃ document, response = .received (.document document) ∧
      MalformedListing version.nextTokenName document := by
    cases response with
    | failed error => simp [Unusable]
    | received body => cases body <;> simp [Unusable]
  rw [hunusable]
  cases version with
  | V1 =>
      simp only [ListObjectsApiVersion.nextTokenName, ← parseListObjectsV1_throws_iff,
        ← outcome_exception_iff, request, listObjects]
      cases outcome parseListObjectsV1 response <;> simp
  | V2 =>
      simp only [ListObjectsApiVersion.nextTokenName, ← parseListObjectsV2_throws_iff,
        ← outcome_exception_iff, request, listObjectsV2]
      cases outcome parseListObjectsV2 response <;> simp

-- The pages among what came back.
def pagesOf (version : ListObjectsApiVersion) (exchanges : List (Option Str × Response)) : List Page :=
  exchanges.filterMap fun exchange =>
    match request version exchange.2 with
    | .value page => some page
    | _ => none

def tokenAfter (pages : List Page) : Option Str := pages.getLast?.bind Page.nextToken

namespace Call

variable (config : Config) (sh : Shared) (call : Call)

def pages : List Page := pagesOf config.apiVersion call.exchanges

-- Every request asks for what follows the last page before it.
def Linked : Prop :=
  ∀ before exchange after, call.exchanges = before ++ exchange :: after →
    exchange.1 = tokenAfter (pagesOf config.apiVersion before)

structure Handed (pages : List Page) : Prop where
  objects : call.handed = pages.map Page.contents
  written : ∀ page ∈ pages, objectsText config page.contents ≠ [] →
    objectsText config page.contents ∈ sh.written

structure Queued (pages : List Page) : Prop where
  prefixes : call.queued = pages.map Page.commonPrefixes
  pushed : ∀ page ∈ pages, page.commonPrefixes ⊆ sh.pushed

def Printed (line : Str) : Prop := line ∈ call.lines ∧ line ∈ sh.stderr

end Call

def MorePages (pages : List Page) : Prop := ∀ page ∈ pages, page.nextToken ≠ none

-- Every page up to the first without a next token has come, has been handed to
-- the write stack and has had its prefixes queued.
structure Complete (config : Config) (sh : Shared) (call : Call) : Prop where
  linked : call.Linked config
  last : ∃ before page, call.pages config = before ++ [page] ∧ MorePages before ∧ page.nextToken = none
  handed : call.Handed config sh (call.pages config)
  queued : call.Queued sh (call.pages config)

def NotLost (config : Config) (sh : Shared) (call : Call) : Prop :=
  Complete config sh call ∨ call.Printed sh (errorNoSuccess call.path) ∨
    call.Printed sh (warnRepeated config.apiVersion call.path)

-- What a call prints as long as it has not given up.
def Call.Warned (call : Call) : Prop :=
  ∀ line ∈ call.lines, ∃ error retries, line = warnRetry call.path error retries

structure Sound (config : Config) (sh : Shared) (call : Call) : Prop where
  linked : call.Linked config
  usable : ∀ exchange ∈ call.exchanges, ¬ Unusable config.apiVersion exchange.2
  printed : call.lines ⊆ sh.stderr

structure Asking (config : Config) (sh : Shared) (call : Call) (token : Option Str) : Prop where
  more : MorePages (call.pages config)
  token_eq : token = tokenAfter (call.pages config)
  handed : call.Handed config sh (call.pages config)
  queued : call.Queued sh (call.pages config)
  warned : call.Warned

-- A page has come, and of it what is in `handed` and `queued` has been dealt with.
def Accepted (config : Config) (sh : Shared) (call : Call) (page : Page) (handed queued : List Page) :
    Prop :=
  ∃ before, call.pages config = before ++ [page] ∧ MorePages before ∧
    call.Handed config sh (before ++ handed) ∧ call.Queued sh (before ++ queued) ∧ call.Warned

def GaveUp (call : Call) (page : Page) : Prop :=
  page.nextToken = none ∧ errorNoSuccess call.path ∈ call.lines

def CallSound (config : Config) (sh : Shared) : WorkerState → Prop
  | .listOne call token _ => Sound config sh call ∧ Asking config sh call token
  | .writeObjects call page =>
      Sound config sh call ∧ (GaveUp call page ∨ Accepted config sh call page [] [])
  | .lockQueue call page | .countObjects call page | .pushPrefixes call page =>
      Sound config sh call ∧ (GaveUp call page ∨ Accepted config sh call page [page] [])
  | .countOp call page =>
      Sound config sh call ∧ (GaveUp call page ∨ Accepted config sh call page [page] [page])
  | _ => True

-- Nothing was printed and no last page has come when an exception ends a call.
structure Lost (config : Config) (call : Call) : Prop where
  unusable : ∃ exchange ∈ call.exchanges, Unusable config.apiVersion exchange.2
  more : MorePages (call.pages config)
  warned : call.Warned

def EndedSound (config : Config) (sh : Shared) (call : Call) : Prop :=
  (Sound config sh call ∧ NotLost config sh call) ∨ Lost config call

section Pages

variable {config : Config} {call : Call} {token : Option Str} {response : Response}

theorem Call.pages_receive_value {page : Page} (h : request config.apiVersion response = .value page) :
    (call.receive token response).pages config = call.pages config ++ [page] := by
  simp [Call.pages, Call.receive, pagesOf, h]

theorem Call.pages_receive_of_not_value
    (h : ∀ page, request config.apiVersion response ≠ .value page) :
    (call.receive token response).pages config = call.pages config := by
  cases hr : request config.apiVersion response with
  | value page => exact absurd hr (h page)
  | unexpected error => simp [Call.pages, Call.receive, pagesOf, hr]
  | exception what => simp [Call.pages, Call.receive, pagesOf, hr]

theorem Call.Linked.receive (h : call.Linked config) (htoken : token = tokenAfter (call.pages config)) :
    (call.receive token response).Linked config := by
  intro before exchange after hsplit
  rcases List.eq_nil_or_concat after with rfl | ⟨rest, last, rfl⟩
  · obtain ⟨rfl, hlast⟩ := List.append_inj' hsplit rfl
    obtain rfl := List.singleton_inj.mp hlast
    exact htoken
  · rw [List.concat_eq_append, ← List.cons_append, ← List.append_assoc] at hsplit
    exact h before exchange rest (List.append_inj' hsplit rfl).1

theorem tokenAfter_concat (pages : List Page) (page : Page) :
    tokenAfter (pages ++ [page]) = page.nextToken := by
  simp [tokenAfter]

theorem MorePages.concat {pages : List Page} {page : Page} (h : MorePages pages)
    (hpage : page.nextToken ≠ none) : MorePages (pages ++ [page]) := by
  intro p hp
  rcases List.mem_append.mp hp with hp | hp
  · exact h p hp
  · exact List.mem_singleton.mp hp ▸ hpage

end Pages

theorem warnRetry_ne_errorNoSuccess (path other : CommonPrefix) (error : ListError) (retries : Nat) :
    warnRetry path error retries ≠ errorNoSuccess other := by
  intro h
  have := congrArg List.head? h
  simp [warnRetry, errorNoSuccess, ascii] at this

theorem warnRetry_ne_warnRepeated (path other : CommonPrefix) (error : ListError) (retries : Nat)
    (version : ListObjectsApiVersion) : warnRetry path error retries ≠ warnRepeated version other := by
  intro h
  have := congrArg (·[5]?) h
  simp [warnRetry, warnRepeated, ascii] at this

theorem Lost.not_notLost {config : Config} {sh : Shared} {call : Call} (h : Lost config call) :
    ¬ NotLost config sh call := by
  rintro (hcomplete | ⟨hprinted, -⟩ | ⟨hprinted, -⟩)
  · obtain ⟨before, page, hpages, -, hlast⟩ := hcomplete.last
    exact h.more page (by simp [hpages]) hlast
  · obtain ⟨error, retries, hline⟩ := h.warned _ hprinted
    exact warnRetry_ne_errorNoSuccess _ _ _ _ hline.symm
  · obtain ⟨error, retries, hline⟩ := h.warned _ hprinted
    exact warnRetry_ne_warnRepeated _ _ _ _ _ hline.symm

-- The histories only grow.
structure Grows (sh sh' : Shared) : Prop where
  written : sh.written ⊆ sh'.written
  pushed : sh.pushed ⊆ sh'.pushed
  stderr : sh.stderr ⊆ sh'.stderr

namespace Grows

variable {config : Config} {sh sh' : Shared} {call : Call} {pages : List Page}

theorem finish (sh : Shared) (call : Call) (ending : Ending) : Grows sh (sh.finish call ending) :=
  ⟨List.Subset.refl _, List.Subset.refl _, List.Subset.refl _⟩

theorem handed (hg : Grows sh sh') (h : call.Handed config sh pages) : call.Handed config sh' pages :=
  ⟨h.objects, fun page hpage hne => hg.written (h.written page hpage hne)⟩

theorem queued (hg : Grows sh sh') (h : call.Queued sh pages) : call.Queued sh' pages :=
  ⟨h.prefixes, fun page hpage => List.Subset.trans (h.pushed page hpage) hg.pushed⟩

theorem printed (hg : Grows sh sh') {line : Str} (h : call.Printed sh line) : call.Printed sh' line :=
  ⟨h.1, hg.stderr h.2⟩

theorem sound (hg : Grows sh sh') (h : Sound config sh call) : Sound config sh' call :=
  ⟨h.linked, h.usable, List.Subset.trans h.printed hg.stderr⟩

theorem accepted (hg : Grows sh sh') {page : Page} {handed queued : List Page}
    (h : Accepted config sh call page handed queued) : Accepted config sh' call page handed queued := by
  obtain ⟨before, hpages, hmore, hhanded, hqueued, hwarned⟩ := h
  exact ⟨before, hpages, hmore, hg.handed hhanded, hg.queued hqueued, hwarned⟩

theorem notLost (hg : Grows sh sh') (h : NotLost config sh call) : NotLost config sh' call := by
  rcases h with h | h | h
  · exact .inl ⟨h.linked, h.last, hg.handed h.handed, hg.queued h.queued⟩
  · exact .inr (.inl (hg.printed h))
  · exact .inr (.inr (hg.printed h))

theorem callSound (hg : Grows sh sh') {w : WorkerState} (h : CallSound config sh w) :
    CallSound config sh' w := by
  cases w with
  | listOne call token retries =>
      exact ⟨hg.sound h.1, h.2.more, h.2.token_eq, hg.handed h.2.handed, hg.queued h.2.queued, h.2.warned⟩
  | writeObjects | lockQueue | countObjects | pushPrefixes | countOp =>
      exact ⟨hg.sound h.1, h.2.imp_right hg.accepted⟩
  | _ => trivial

theorem endedSound (hg : Grows sh sh') (h : EndedSound config sh call) : EndedSound config sh' call :=
  h.imp_left fun h => ⟨hg.sound h.1, hg.notLost h.2⟩

end Grows

section Worker

variable {config : Config} {response : Response} {sh sh' : Shared} {w w' : WorkerState}

theorem ListStep.grows {call : Call} {token : Option Str} {retries : Nat}
    (h : ListStep config response sh call token retries sh' w') : Grows sh sh' := by
  cases h with
  | throws | accept => exact ⟨List.Subset.refl _, List.Subset.refl _, List.Subset.refl _⟩
  | retry | giveUp | repeated =>
      exact ⟨List.Subset.refl _, List.Subset.refl _, List.subset_append_left _ _⟩

theorem WorkerStep.grows (h : WorkerStep config response sh w sh' w') : Grows sh sh' := by
  cases h with
  | list call token retries h => exact h.grows
  | write call page =>
      refine ⟨?_, List.Subset.refl _, List.subset_append_left _ _⟩
      dsimp only [Shared.writeObjects]
      split
      · exact List.Subset.refl _
      · exact List.subset_append_left _ _
  | push call page =>
      refine ⟨by simp, by simp, ?_⟩
      unfold Shared.pushPrefixes
      split <;> exact List.Subset.refl _
  | _ => exact ⟨List.Subset.refl _, List.Subset.refl _, List.Subset.refl _⟩

theorem Sound.receive {call : Call} {token : Option Str} (h : Sound config sh call)
    (htoken : token = tokenAfter (call.pages config)) (hr : ¬ Unusable config.apiVersion response) :
    Sound config sh (call.receive token response) := by
  refine ⟨h.linked.receive htoken, fun exchange hexchange => ?_, h.printed⟩
  rcases List.mem_append.mp hexchange with hexchange | hexchange
  · exact h.usable exchange hexchange
  · obtain rfl := List.mem_singleton.mp hexchange
    exact hr

theorem Sound.print {call : Call} (h : Sound config sh call) (lines : List Str) :
    Sound config (sh.print lines) (call.print lines) := by
  refine ⟨h.linked, h.usable, fun line hline => ?_⟩
  rcases List.mem_append.mp hline with hline | hline
  · exact List.mem_append_left _ (h.printed hline)
  · exact List.mem_append_right _ hline

theorem ListStep.callSound {call : Call} {token : Option Str} {retries : Nat}
    (h : ListStep config response sh call token retries sh' w')
    (hw : Sound config sh call ∧ Asking config sh call token) :
    CallSound config sh' w' ∧
      (sh'.ended = sh.ended ∨ ∃ ended ending, sh'.ended = sh.ended ++ [(ended, ending)] ∧
        EndedSound config sh' ended) := by
  obtain ⟨hsound, hask⟩ := hw
  have husable (hr : ∀ what, request config.apiVersion response ≠ .exception what) :
      ¬ Unusable config.apiVersion response := fun hu => by
    obtain ⟨what, hwhat⟩ := (request_exception_iff _ _).mpr hu
    exact hr what hwhat
  cases h with
  | throws what hr =>
      refine ⟨trivial, .inr ⟨_, _, rfl, .inr ⟨?_, ?_, hask.warned⟩⟩⟩
      · exact ⟨(token, response), by simp [Call.receive], (request_exception_iff _ _).mp ⟨what, hr⟩⟩
      · rw [Call.pages_receive_of_not_value (by simp [hr])]
        exact hask.more
  | retry error hr hmore =>
      have hpages : ((call.receive token response).print [warnRetry call.path error retries]).pages config =
          call.pages config := Call.pages_receive_of_not_value (by simp [hr])
      refine ⟨⟨(hsound.receive hask.token_eq (husable (by simp [hr]))).print _, ?_⟩, .inl rfl⟩
      refine ⟨?_, ?_, ?_, ?_, fun line hline => ?_⟩
      · rw [hpages]
        exact hask.more
      · rw [hpages]
        exact hask.token_eq
      · rw [hpages]
        exact ⟨hask.handed.objects, hask.handed.written⟩
      · rw [hpages]
        exact ⟨hask.queued.prefixes, hask.queued.pushed⟩
      · rcases List.mem_append.mp hline with hline | hline
        · exact hask.warned line hline
        · exact ⟨error, retries, List.mem_singleton.mp hline⟩
  | giveUp error hr hlast =>
      have hnone : (Page.default config.apiVersion).nextToken = none := by
        cases config.apiVersion <;> rfl
      refine ⟨⟨(hsound.receive hask.token_eq (husable (by simp [hr]))).print _, .inl ⟨hnone, ?_⟩⟩,
        .inl rfl⟩
      simp [Call.print, Call.receive]
  | repeated page hr hrepeats =>
      refine ⟨trivial, .inr ⟨_, _, rfl, .inl ⟨?_, .inr (.inr ⟨?_, ?_⟩)⟩⟩⟩
      · exact (Grows.finish _ _ _).sound ((hsound.receive hask.token_eq (husable (by simp [hr]))).print _)
      · simp [Call.print, Call.receive]
      · simp [Call.print, Call.receive, Shared.print, Shared.finish]
  | accept page hr hrepeats =>
      refine ⟨⟨hsound.receive hask.token_eq (husable (by simp [hr])), .inr ?_⟩, .inl rfl⟩
      refine ⟨call.pages config, Call.pages_receive_value hr, hask.more, ?_, ?_, hask.warned⟩
      · rw [List.append_nil]
        exact ⟨hask.handed.objects, hask.handed.written⟩
      · rw [List.append_nil]
        exact ⟨hask.queued.prefixes, hask.queued.pushed⟩

theorem Accepted.hand {call : Call} {page : Page} (h : Accepted config sh call page [] []) :
    Accepted config (sh.writeObjects config page.contents) (call.hand page.contents) page [page] [] := by
  obtain ⟨before, hpages, hmore, hhanded, hqueued, hwarned⟩ := h
  rw [List.append_nil] at hhanded hqueued
  refine ⟨before, hpages, hmore, ⟨?_, fun p hp hne => ?_⟩, ?_, hwarned⟩
  · simp [Call.hand, hhanded.objects]
  · rcases List.mem_append.mp hp with hp | hp
    · have hold := hhanded.written p hp hne
      simp only [Shared.writeObjects]
      split
      · exact hold
      · exact List.mem_append_left _ hold
    · obtain rfl := List.mem_singleton.mp hp
      simp [Shared.writeObjects, hne]
  · rw [List.append_nil]
    exact ⟨hqueued.prefixes, hqueued.pushed⟩

theorem Accepted.queue {call : Call} {page : Page} (h : Accepted config sh call page [page] []) :
    Accepted config (sh.pushPrefixes call.depth page.commonPrefixes) (call.queue page.commonPrefixes) page
      [page] [page] := by
  obtain ⟨before, hpages, hmore, hhanded, hqueued, hwarned⟩ := h
  rw [List.append_nil] at hqueued
  refine ⟨before, hpages, hmore, ⟨hhanded.objects, ?_⟩, ⟨?_, fun p hp => ?_⟩, hwarned⟩
  · rw [Shared.pushPrefixes_written]
    exact hhanded.written
  · simp [Call.queue, hqueued.prefixes]
  · rw [Shared.pushPrefixes_pushed]
    rcases List.mem_append.mp hp with hp | hp
    · exact List.Subset.trans (hqueued.pushed p hp) (List.subset_append_left _ _)
    · obtain rfl := List.mem_singleton.mp hp
      exact List.subset_append_right _ _

theorem WorkerStep.callSound (h : WorkerStep config response sh w sh' w')
    (hw : CallSound config sh w) :
    CallSound config sh' w' ∧
      (sh'.ended = sh.ended ∨ ∃ ended ending, sh'.ended = sh.ended ++ [(ended, ending)] ∧
        EndedSound config sh' ended) := by
  have hgrows := h.grows
  cases h with
  | list call token retries h => exact h.callSound hw
  | release path depth =>
      refine ⟨⟨⟨?_, by simp [Call.start], by simp [Call.start]⟩, ?_⟩, .inl rfl⟩
      · intro before exchange after hsplit
        simp [Call.start] at hsplit
      · exact ⟨by simp [MorePages, Call.pages, Call.start, pagesOf], rfl,
          ⟨rfl, by simp [Call.pages, Call.start, pagesOf]⟩,
          ⟨rfl, by simp [Call.pages, Call.start, pagesOf]⟩, by simp [Call.Warned, Call.start]⟩
  | write call page =>
      obtain ⟨hsound, hcases⟩ := hw
      have hsound' := hgrows.sound hsound
      exact ⟨⟨⟨hsound'.linked, hsound'.usable, hsound'.printed⟩, hcases.imp_right Accepted.hand⟩, .inl rfl⟩
  | push call page =>
      obtain ⟨hsound, hcases⟩ := hw
      have hsound' := hgrows.sound hsound
      exact ⟨⟨⟨hsound'.linked, hsound'.usable, hsound'.printed⟩, hcases.imp_right Accepted.queue⟩,
        .inl (by simp)⟩
  | lockAgain call page | count call page => exact ⟨hgrows.callSound hw, .inl rfl⟩
  | nextPage call page token htoken =>
      obtain ⟨hsound, hcases⟩ := hw
      refine ⟨⟨hgrows.sound hsound, ?_⟩, .inl rfl⟩
      rcases hcases with ⟨hnone, -⟩ | haccepted
      · simp [hnone] at htoken
      · obtain ⟨before, hpages, hmore, hhanded, hqueued, hwarned⟩ := hgrows.accepted haccepted
        rw [← hpages] at hhanded hqueued
        refine ⟨?_, ?_, hhanded, hqueued, hwarned⟩
        · rw [hpages]
          exact hmore.concat (by simp [htoken])
        · rw [hpages, tokenAfter_concat, htoken]
  | lastPage call page hlast =>
      obtain ⟨hsound, hcases⟩ := hw
      have hsound := hgrows.sound hsound
      refine ⟨trivial, .inr ⟨_, _, rfl, .inl ⟨hsound, ?_⟩⟩⟩
      rcases hcases with ⟨-, hline⟩ | haccepted
      · exact .inr (.inl ⟨hline, hsound.printed hline⟩)
      · obtain ⟨before, hpages, hmore, hhanded, hqueued, -⟩ := hgrows.accepted haccepted
        rw [← hpages] at hhanded hqueued
        exact .inl ⟨hsound.linked, ⟨before, page, hpages, hmore, hlast⟩, hhanded, hqueued⟩
  | _ => exact ⟨trivial, .inl rfl⟩

end Worker

structure CallsSound (config : Config) (s : Crawl) : Prop where
  workers : ∀ w ∈ s.workers, CallSound config s.shared w
  ended : ∀ entry ∈ s.shared.ended, EndedSound config s.shared entry.1

theorem CallsSound.of_grows {config : Config} {s t : Crawl} (h : CallsSound config s)
    (hgrows : Grows s.shared t.shared) (hended : t.shared.ended = s.shared.ended)
    (hworkers : ∀ w ∈ t.workers, w ∈ s.workers ∨ w = .pending) : CallsSound config t := by
  refine ⟨fun w hw => ?_, fun entry hentry => ?_⟩
  · rcases hworkers w hw with hw | rfl
    · exact hgrows.callSound (h.workers w hw)
    · trivial
  · exact hgrows.endedSound (h.ended entry (hended ▸ hentry))

theorem callsSound_step {config : Config} {s t : Crawl} {action : Action} (hs : CallsSound config s)
    (h : step config s action = some t) : CallsSound config t := by
  cases step_sound h with
  | worker index choice response before after w w' sh' hworkers hindex hstep =>
      have hgrows := hstep.grows
      obtain ⟨hmoved, hended⟩ := hstep.callSound (hs.workers w (by simp [hworkers]))
      have hothers : ∀ v ∈ before ++ w :: after, CallSound config sh' v := fun v hv =>
        hgrows.callSound (hs.workers v (hworkers ▸ hv))
      refine ⟨forall_move hothers hmoved, fun entry hentry => ?_⟩
      · rcases hended with hsame | ⟨call, ending, hnew, hsound⟩
        · exact hgrows.endedSound (hs.ended entry (hsame ▸ hentry))
        · rw [hnew] at hentry
          rcases List.mem_append.mp hentry with hentry | hentry
          · exact hgrows.endedSound (hs.ended entry hentry)
          · obtain rfl := List.mem_singleton.mp hentry
            exact hsound
  | manager choice hstep =>
      cases hstep with
      | report hm h =>
          exact hs.of_grows ⟨List.Subset.refl _, List.Subset.refl _, List.subset_append_left _ _⟩ rfl
            fun w hw => .inl hw
      | drain before after top hm htop =>
          exact hs.of_grows ⟨List.Subset.refl _, List.Subset.refl _, List.subset_append_left _ _⟩ rfl
            fun w hw => .inl hw
      | _ =>
          exact hs.of_grows ⟨List.Subset.refl _, List.Subset.refl _, List.Subset.refl _⟩ rfl
            fun w hw => .inl hw
  | frame _ _ hstep =>
      cases hstep with
      | touch target stack lines hmanager hworkers hlines hshared =>
          refine hs.of_grows ?_ (by rw [hshared]) fun w hw => .inl (hworkers ▸ hw)
          rw [hshared]
          exact ⟨List.Subset.refl _, List.Subset.refl _, hlines.subset⟩
      | spawn hmanager hworkers hshared =>
          refine hs.of_grows ?_ (by rw [hshared]) fun w hw => ?_
          · rw [hshared]
            exact ⟨List.Subset.refl _, List.Subset.refl _, List.Subset.refl _⟩
          · rw [hworkers] at hw
            exact (List.mem_append.mp hw).imp_right List.mem_singleton.mp

theorem ReachableCrawl.callsSound {config : Config} {s : Crawl} (h : ReachableCrawl config s) :
    CallsSound config s :=
  h.invariant ⟨by simp [construct], by simp [construct]⟩ fun _ _ _ _ hs ht => callsSound_step hs ht

-- A process_prefix call that has ended has listed its prefix or said that it
-- has not, unless the server answered it with a listing of no use.
theorem ended_notLost_iff (config : Config) (s : Crawl) (h : ReachableCrawl config s) (call : Call)
    (ending : Ending) (hended : (call, ending) ∈ s.shared.ended) :
    NotLost config s.shared call ↔
      ∀ exchange ∈ call.exchanges, ¬ Unusable config.apiVersion exchange.2 := by
  rcases h.callsSound.ended _ hended with ⟨hsound, hnotLost⟩ | hlost
  · exact iff_of_true hnotLost hsound.usable
  · apply iff_of_false hlost.not_notLost
    intro husable
    obtain ⟨exchange, hexchange, hunusable⟩ := hlost.unusable
    exact husable exchange hexchange hunusable

def objectElement (key : String) : Node := .element (ascii "Contents") [textElement "Key" key, textElement "Size" "1"]

-- The root has an object and a prefix. The first attempt for the prefix fails.
def retriedRun : List Action :=
  firstTick ++ workerSteps 0 4 ++
    [.worker 0 0 (listingResponse [objectElement "a", prefixElement "b/", textElement "IsTruncated" "false"])] ++
    workerSteps 0 9 ++ [.worker 0 1 (.failed [])] ++ workerSteps 0 3 ++
    [.worker 0 0 (listingResponse [objectElement "b/c", textElement "IsTruncated" "false"])] ++ workerSteps 0 7

theorem ended_notLost_iff_retried :
    ∃ (s : Crawl) (call : Call) (ending : Ending), (call, ending) ∈ s.shared.ended ∧ call.path.Prefix = some (ascii "b/") ∧
      call.handed.flatten.map Object.Key = [some (ascii "b/c")] ∧ call.exchanges.length = 2 ∧
      NotLost defaultConfig s.shared call := by
  let facts (s : Crawl) : Bool :=
    s.shared.ended.any fun entry =>
      entry.1.path.Prefix = some (ascii "b/") && entry.1.handed.flatten.map Object.Key = [some (ascii "b/c")] &&
        entry.1.exchanges.length = 2 && entry.1.exchanges.all fun exchange =>
          match request defaultConfig.apiVersion exchange.2 with
          | .exception _ => false
          | _ => true
  obtain ⟨s, hs, hfacts⟩ := @ReachableCrawl.of_run defaultConfig retriedRun facts (by decide +kernel)
  simp only [facts, List.any_eq_true, Bool.and_eq_true, decide_eq_true_eq] at hfacts
  obtain ⟨⟨call, ending⟩, hmem, ⟨⟨hpath, hhanded⟩, hexchanges⟩, husable⟩ := hfacts
  refine ⟨s, call, ending, hmem, hpath, hhanded, hexchanges, ?_⟩
  apply (ended_notLost_iff defaultConfig s hs call ending hmem).mpr
  intro exchange hexchange hunusable
  obtain ⟨what, hwhat⟩ := (request_exception_iff _ _).mpr hunusable
  have hall := List.all_eq_true.mp husable exchange hexchange
  simp only [hwhat, Bool.false_eq_true] at hall

-- A truncated listing of the root without the token to go on with.
def tokenlessRun : List Action :=
  firstTick ++ workerSteps 0 4 ++ [.worker 0 0 (listingResponse [textElement "IsTruncated" "true"])]

theorem ended_root_lost :
    ∃ s call ending, ReachableCrawl defaultConfig s ∧ (call, ending) ∈ s.shared.ended ∧
      call.path ∈ s.shared.taken ∧ s.shared.stderr = [] ∧ ¬ NotLost defaultConfig s.shared call := by
  let facts (s : Crawl) : Bool :=
    s.shared.stderr = [] && s.shared.ended.any fun entry =>
      entry.1.path ∈ s.shared.taken && (entry.1.pages defaultConfig).isEmpty
  obtain ⟨s, hs, hfacts⟩ := @ReachableCrawl.of_run defaultConfig tokenlessRun facts (by decide +kernel)
  simp only [facts, Bool.and_eq_true, decide_eq_true_eq, List.any_eq_true, List.isEmpty_iff] at hfacts
  obtain ⟨hstderr, ⟨call, ending⟩, hended, htaken, hpages⟩ := hfacts
  refine ⟨s, call, ending, hs, hended, htaken, hstderr, ?_⟩
  rintro (hcomplete | ⟨-, hline⟩ | ⟨-, hline⟩)
  · obtain ⟨before, page, hlast, -⟩ := hcomplete.last
    simp [hpages] at hlast
  · simp [hstderr] at hline
  · simp [hstderr] at hline

end S3Cpp.Tools.ListAllObjects
