import S3Cpp.Tools.ListAllObjects.WorkerManager.Losses
import S3Cpp.Tools.ListAllObjects.WorkerManager.QueueAccounting

namespace S3Cpp.Tools.ListAllObjects

open Aws.S3 Aws.S3.Client Library.Population Library.Transition

namespace WorkerState

def call? : WorkerState → Option Call
  | listOne call _ _ | writeObjects call _ | lockQueue call _ | countObjects call _
  | pushPrefixes call _ | countOp call _ => some call
  | _ => none

-- The path a worker has taken, with its depth.
def item? : WorkerState → Option (CommonPrefix × Nat)
  | taken path depth => some (path, depth)
  | w => w.call?.map fun call => (call.path, call.depth)

-- The path is one that a worker is about to queue.
def Queues (w : WorkerState) (item : CommonPrefix × Nat) : Prop :=
  ∃ call page, w = pushPrefixes call page ∧ item.2 = call.depth + 1 ∧ item.1 ∈ page.commonPrefixes

end WorkerState

namespace Crawl

variable (s : Crawl)

-- All process_prefix calls there have been.
def calls : List Call := s.shared.ended.map Prod.fst ++ s.workers.filterMap WorkerState.call?

-- All paths that are queued or being listed, with their depths.
def items : List (CommonPrefix × Nat) :=
  s.shared.prefixQueue.items ++ s.workers.filterMap WorkerState.item?

end Crawl

theorem Crawl.mem_calls {s : Crawl} {call : Call} :
    call ∈ s.calls ↔ call ∈ s.shared.ended.map Prod.fst ∨ ∃ w ∈ s.workers, w.call? = some call := by
  rw [calls, List.mem_append, List.mem_filterMap]

theorem Crawl.mem_items {s : Crawl} {item : CommonPrefix × Nat} :
    item ∈ s.items ↔ item ∈ s.shared.prefixQueue.items ∨ ∃ w ∈ s.workers, w.item? = some item := by
  rw [items, List.mem_append, List.mem_filterMap]

-- A prefix some steps below the root: each step is an entry of the
-- CommonPrefixes of a page that a call for the prefix above it has received.
inductive Below (config : Config) (calls : List Call) : Nat → CommonPrefix → Prop
  | root : Below config calls 0 ⟨none⟩
  | step {path : CommonPrefix} (call : Call) (page : Page) (hcall : call ∈ calls)
      (habove : Below config calls call.depth call.path) (hpage : page ∈ call.pages config)
      (hpath : path ∈ page.commonPrefixes) : Below config calls (call.depth + 1) path

-- What becomes of a call as it goes on.
structure Call.Continues (config : Config) (call later : Call) : Prop where
  path : later.path = call.path
  depth : later.depth = call.depth
  pages : call.pages config ⊆ later.pages config

theorem Call.Continues.refl (config : Config) (call : Call) : call.Continues config call :=
  ⟨rfl, rfl, List.Subset.refl _⟩

theorem Below.mono {config : Config} {calls later : List Call}
    (h : ∀ call ∈ calls, ∃ next ∈ later, call.Continues config next) {depth : Nat} {path : CommonPrefix}
    (hbelow : Below config calls depth path) : Below config later depth path := by
  induction hbelow with
  | root => exact .root
  | step call page hcall habove hpage hpath ih =>
      obtain ⟨next, hnext, hcontinues⟩ := h call hcall
      rw [← hcontinues.depth, ← hcontinues.path] at ih
      rw [← hcontinues.depth]
      exact .step next page hnext ih (hcontinues.pages hpage) hpath

-- A page that a worker deals with is one that its call has received, or empty.
def FromCall (config : Config) : WorkerState → Prop
  | .writeObjects call page | .lockQueue call page | .countObjects call page | .pushPrefixes call page
  | .countOp call page => page ∈ call.pages config ∨ page.commonPrefixes = []
  | _ => True

theorem Shared.pushPrefixes_items (sh : Shared) (depth : Nat) (prefixes : List CommonPrefix) :
    (sh.pushPrefixes depth prefixes).prefixQueue.items =
      (prefixes.map fun path => (path, depth + 1)) ++ sh.prefixQueue.items := by
  unfold pushPrefixes
  split
  · simp [*]
  · rfl

section Worker

variable {config : Config} {response : Response} {sh sh' : Shared} {w w' : WorkerState}

theorem Call.continues_receive (call : Call) (token : Option Str) (response : Response) :
    call.Continues config (call.receive token response) := by
  refine ⟨rfl, rfl, ?_⟩
  simp only [Call.pages, Call.receive, pagesOf, List.filterMap_append]
  exact List.subset_append_left _ _

theorem ListStep.continues {call : Call} {token : Option Str} {retries : Nat}
    (h : ListStep config response sh call token retries sh' w') :
    ∃ gone, sh'.ended.map Prod.fst = sh.ended.map Prod.fst ++ gone ∧
      ∃ later ∈ w'.call?.toList ++ gone, call.Continues config later := by
  have hreceive : call.Continues config (call.receive token response) :=
    call.continues_receive token response
  cases h with
  | throws what hr =>
      exact ⟨[_], by simp [Shared.finish], _, List.mem_cons_self, hreceive⟩
  | retry error hr hmore =>
      exact ⟨[], by simp [Shared.print], _, List.mem_cons_self, hreceive.path, hreceive.depth, hreceive.pages⟩
  | giveUp error hr hlast =>
      exact ⟨[], by simp [Shared.print], _, List.mem_cons_self, hreceive.path, hreceive.depth, hreceive.pages⟩
  | repeated page hr hrepeats =>
      refine ⟨[(call.receive token response).print [warnRepeated config.apiVersion call.path]], ?_, _,
        List.mem_cons_self, hreceive.path, hreceive.depth, hreceive.pages⟩
      simp [Shared.finish, Shared.print]
  | accept page hr hrepeats => exact ⟨[], by simp, _, List.mem_cons_self, hreceive⟩

-- No call is lost sight of: it goes on or it is among those that have ended.
theorem WorkerStep.continues (h : WorkerStep config response sh w sh' w') :
    ∃ gone, sh'.ended.map Prod.fst = sh.ended.map Prod.fst ++ gone ∧
      ∀ call ∈ w.call?, ∃ later ∈ w'.call?.toList ++ gone, call.Continues config later := by
  cases h with
  | list call token retries h =>
      obtain ⟨gone, hgone, hlater⟩ := h.continues
      refine ⟨gone, hgone, fun other hother => ?_⟩
      obtain rfl := Option.some.inj hother
      exact hlater
  | write call page | lockAgain call page | count call page | push call page | nextPage call page =>
      refine ⟨[], by simp [Shared.writeObjects, Shared.lock, Shared.unlock], fun other hother => ?_⟩
      obtain rfl := Option.some.inj hother
      exact ⟨_, List.mem_cons_self, rfl, rfl, List.Subset.refl _⟩
  | lastPage call page hlast =>
      refine ⟨[call], by simp [Shared.finish, Shared.unlock], fun other hother => ?_⟩
      obtain rfl := Option.some.inj hother
      exact ⟨_, List.mem_cons_self, .refl config _⟩
  | _ => exact ⟨[], by simp [Shared.lock, Shared.unlock], fun call hcall => by cases hcall⟩

theorem WorkerStep.fromCall (h : WorkerStep config response sh w sh' w') (hw : FromCall config w) :
    FromCall config w' := by
  cases h with
  | list call token retries h =>
      cases h with
      | giveUp =>
          right
          cases config.apiVersion <;> rfl
      | accept page hr hrepeats =>
          left
          rw [Call.pages_receive_value hr]
          exact List.mem_append_right _ List.mem_cons_self
      | throws | retry | repeated => trivial
  | write | lockAgain | count | push => exact hw
  | _ => trivial

-- What is queued or being listed after a step was so before, or it is on the
-- page whose prefixes the step queues.
theorem WorkerStep.items_from (h : WorkerStep config response sh w sh' w') {item : CommonPrefix × Nat}
    (hitem : item ∈ sh'.prefixQueue.items ∨ item ∈ w'.item?) :
    item ∈ sh.prefixQueue.items ∨ item ∈ w.item? ∨ w.Queues item := by
  cases h with
  | list call token retries h =>
      cases h with
      | throws | repeated => exact .inl (hitem.resolve_right fun h => by cases h)
      | retry | giveUp | accept => exact hitem.imp_right .inl
  | drop before after top htop hnone =>
      refine .inl (hitem.elim (fun h => ?_) fun h => by cases h)
      rwa [htop.split, items_append, items_cons, hnone, List.map_nil, List.nil_append, ← items_append]
  | take before after depth paths path htop =>
      left
      rw [htop.split, items_append, items_cons]
      rcases hitem with hqueued | htaken
      · rw [items_append, items_cons] at hqueued
        simp only [List.map_append, List.mem_append] at hqueued ⊢
        tauto
      · obtain rfl := Option.some.inj htaken
        simp
  | push call page =>
      rcases hitem with hqueued | hlisting
      · rw [Shared.pushPrefixes_items, List.mem_append] at hqueued
        rcases hqueued with hnew | hold
        · obtain ⟨path, hpath, rfl⟩ := List.mem_map.mp hnew
          exact .inr (.inr ⟨call, page, rfl, rfl, hpath⟩)
        · exact .inl hold
      · exact .inr (.inl hlisting)
  | lastPage call page hlast => exact .inl (hitem.resolve_right fun h => by cases h)
  | _ => exact hitem.imp_right .inl

end Worker

-- Every path has come down to where it is by as many steps as its depth says.
structure Provenance (config : Config) (s : Crawl) : Prop where
  pages : ∀ w ∈ s.workers, FromCall config w
  below : ∀ item ∈ s.items, Below config s.calls item.2 item.1

theorem Provenance.of_same {config : Config} {s t : Crawl} (h : Provenance config s)
    (hended : t.shared.ended = s.shared.ended)
    (hqueue : ∀ item ∈ t.shared.prefixQueue.items, item ∈ s.shared.prefixQueue.items)
    (hworkers : t.workers = s.workers ∨ t.workers = s.workers ++ [.pending]) : Provenance config t := by
  have hcalls : t.calls = s.calls := by
    rcases hworkers with hworkers | hworkers <;> simp [Crawl.calls, hended, hworkers, WorkerState.call?]
  have hitems : t.workers.filterMap WorkerState.item? = s.workers.filterMap WorkerState.item? := by
    rcases hworkers with hworkers | hworkers <;> simp [hworkers, WorkerState.item?, WorkerState.call?]
  refine ⟨?_, fun item hitem => ?_⟩
  · rcases hworkers with hworkers | hworkers <;> rw [hworkers]
    · exact h.pages
    · exact forall_concat h.pages trivial
  · rw [hcalls]
    rw [Crawl.items, hitems, List.mem_append] at hitem
    exact h.below item (List.mem_append.mpr (hitem.imp_left (hqueue item)))

section Move

variable {config : Config} {response : Response} {s : Crawl} {sh' : Shared} {w w' : WorkerState}
  {before after : List WorkerState}

theorem calls_continue (hworkers : s.workers = before ++ w :: after)
    (h : WorkerStep config response s.shared w sh' w') : ∀ call ∈ s.calls,
      ∃ next ∈ Crawl.calls { s with shared := sh', workers := before ++ w' :: after },
        call.Continues config next := by
  obtain ⟨gone, hgone, hlater⟩ := h.continues
  intro call hcall
  simp only [Crawl.mem_calls, hworkers, hgone] at hcall ⊢
  rcases hcall with hended | ⟨v, hv, hcall⟩
  · exact ⟨call, .inl (List.mem_append_left _ hended), .refl config call⟩
  · rcases mem_move.mp hv with rfl | hv
    · obtain ⟨later, hmem, hcontinues⟩ := hlater call hcall
      rcases List.mem_append.mp hmem with hnow | hnow
      · exact ⟨later, .inr ⟨w', mem_move.mpr (.inl rfl), Option.mem_toList.mp hnow⟩, hcontinues⟩
      · exact ⟨later, .inl (List.mem_append_right _ hnow), hcontinues⟩
    · exact ⟨call, .inr ⟨v, mem_move.mpr (.inr hv), hcall⟩, .refl config call⟩

theorem items_move {item : CommonPrefix × Nat} (hworkers : s.workers = before ++ w :: after)
    (h : WorkerStep config response s.shared w sh' w')
    (hitem : item ∈ Crawl.items { s with shared := sh', workers := before ++ w' :: after }) :
    item ∈ s.items ∨ w.Queues item := by
  simp only [Crawl.mem_items, hworkers] at hitem ⊢
  have hown (hitem : item ∈ sh'.prefixQueue.items ∨ item ∈ w'.item?) : (item ∈ s.shared.prefixQueue.items ∨
      ∃ v ∈ before ++ w :: after, v.item? = some item) ∨ w.Queues item := by
    rcases h.items_from hitem with hqueued | hlisting | hpage
    · exact .inl (.inl hqueued)
    · exact .inl (.inr ⟨w, mem_move.mpr (.inl rfl), hlisting⟩)
    · exact .inr hpage
  rcases hitem with hqueued | ⟨v, hv, hlisting⟩
  · exact hown (.inl hqueued)
  · rcases mem_move.mp hv with rfl | hv
    · exact hown (.inr hlisting)
    · exact .inl (.inr ⟨v, mem_move.mpr (.inr hv), hlisting⟩)

theorem provenance_worker (hs : Provenance config s) (hworkers : s.workers = before ++ w :: after)
    (h : WorkerStep config response s.shared w sh' w') :
    Provenance config { s with shared := sh', workers := before ++ w' :: after } := by
  have hmem : w ∈ s.workers := by simp [hworkers]
  have hpages : ∀ v ∈ before ++ w :: after, FromCall config v := hworkers ▸ hs.pages
  refine ⟨forall_move hpages (h.fromCall (hs.pages w hmem)), fun item hitem => ?_⟩
  refine Below.mono (calls_continue hworkers h) ?_
  rcases items_move hworkers h hitem with hold | ⟨call, page, rfl, hdepth, hpath⟩
  · exact hs.below item hold
  · -- the page is not empty, so the call has received it
    have hcall : call ∈ s.calls := Crawl.mem_calls.mpr (.inr ⟨_, hmem, rfl⟩)
    have habove : (call.path, call.depth) ∈ s.items := Crawl.mem_items.mpr (.inr ⟨_, hmem, rfl⟩)
    have hpage : page ∈ call.pages config := (hs.pages _ hmem).resolve_right fun hnil => by
      rw [hnil] at hpath
      cases hpath
    rw [hdepth]
    exact .step call page hcall (hs.below _ habove) hpage hpath

end Move

theorem ReachableCrawl.provenance {config : Config} {s : Crawl} (h : ReachableCrawl config s) :
    Provenance config s := by
  refine h.invariant ⟨by simp [construct], fun item hitem => ?_⟩ fun s action t _ hs hstep => ?_
  · obtain rfl : item = (⟨none⟩, 0) := by simpa [Crawl.items, construct, PrefixQueue.items] using hitem
    exact .root
  · cases step_sound hstep with
    | worker index choice response before after w w' sh' hworkers hindex hw =>
        exact provenance_worker hs hworkers hw
    | manager choice hm => exact hs.of_same hm.histories.2 (items_subset hm.queue_sublist) (.inl hm.workers_eq)
    | frame _ _ hframe =>
        cases hframe with
        | touch target stack lines hmanager hworkers hlines hshared =>
            exact hs.of_same (by rw [hshared]) (by simp [hshared]) (.inl hworkers)
        | spawn hmanager hworkers hshared =>
            exact hs.of_same (by rw [hshared]) (by simp [hshared]) (.inr hworkers)

end S3Cpp.Tools.ListAllObjects
