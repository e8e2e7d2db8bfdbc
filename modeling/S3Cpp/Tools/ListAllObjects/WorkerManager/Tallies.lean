import S3Cpp.Tools.ListAllObjects.WorkerManager.Completeness
import S3Cpp.Tools.ListAllObjects.WorkerManager.Provenance

namespace S3Cpp.Tools.ListAllObjects

open Aws.S3 Aws.S3.Client Library.Population Library.Transition

-- What a response and a printed line do not change of a call.
structure Lasting (f : Call → Nat) : Prop where
  receive : ∀ call token response, f (call.receive token response) = f call
  print : ∀ call lines, f (call.print lines) = f call

-- A quantity that the calls bring into the shared state and take out of it.
-- What a worker has in its hands is counted for it.
structure Tally where
  stock : Shared → Nat
  held : WorkerState → Nat
  spent : Call → Nat
  earned : Call → Nat
  first : Nat

-- What the steps of the crawl do to a quantity that adds up.
structure Tally.Lawful (config : Config) (tally : Tally) : Prop where
  start : tally.stock construct.shared = tally.first
  touch : ∀ (sh : Shared) target stack lines ended, tally.stock
    { sh with metrics.targetWorkers := target, writeStack := stack, stderr := lines, ended := ended } =
      tally.stock sh
  empty : tally.held .pending = 0 ∧ tally.held .isDone = 0 ∧ tally.held .leaving = 0 ∧ ∀ call,
    (∀ token retries, tally.held (.listOne call token retries) = 0) ∧
      ∀ page, tally.held (.writeObjects call page) = 0
  lasting : Lasting tally.spent ∧ Lasting tally.earned
  manage : ∀ {s t}, ManagerStep s t → s.manager ≠ .draining → tally.stock t.shared = tally.stock s.shared
  work : ∀ {response sh sh' w w'}, WorkerStep config response sh w sh' w' →
    (∀ call token retries, w ≠ .listOne call token retries) →
    tally.stock sh' + tally.held w' + total tally.spent (sh'.ended.map Prod.fst ++ w'.call?.toList) +
        total tally.earned (sh.ended.map Prod.fst ++ w.call?.toList) =
      tally.stock sh + tally.held w + total tally.spent (sh.ended.map Prod.fst ++ w.call?.toList) +
        total tally.earned (sh'.ended.map Prod.fst ++ w'.call?.toList)

namespace Tally

variable {config : Config} {tally : Tally} {s t : Crawl} {response : Response} {sh sh' : Shared}
  {w w' : WorkerState}

theorem not_draining (h : ReachableCrawl config s) : s.manager ≠ .draining := by
  intro hm
  have hknows := h.accounted.manager
  rwa [ManagerKnows, hm] at hknows

def Balanced (tally : Tally) (s : Crawl) : Prop :=
  tally.stock s.shared + total tally.held s.workers + total tally.spent s.calls =
    tally.first + total tally.earned s.calls

theorem total_calls (f : Call → Nat) (s : Crawl) :
    total f s.calls = total f (s.shared.ended.map Prod.fst) +
      total (fun w => total f w.call?.toList) s.workers := by
  rw [Crawl.calls, total_append, List.filterMap_eq_flatMap_toList, total_flatMap]

namespace Lawful

variable (hlaws : tally.Lawful config)

include hlaws

theorem list {call : Call} {token : Option Str} {retries : Nat}
    (h : ListStep config response sh call token retries sh' w') :
    tally.stock sh' = tally.stock sh ∧ tally.held w' = 0 ∧ ∀ f, Lasting f →
      total f (sh'.ended.map Prod.fst ++ w'.call?.toList) = total f (sh.ended.map Prod.fst) + f call := by
  obtain ⟨-, hdone, hleaving, hcall⟩ := hlaws.empty
  refine ⟨?_, ?_, fun f hf => ?_⟩
  · cases h <;> exact hlaws.touch sh _ _ _ _
  · cases h with
    | throws => exact hleaving
    | retry => exact (hcall _).1 _ _
    | giveUp | accept => exact (hcall _).2 _
    | repeated => exact hdone
  · cases h <;> simp [Shared.finish, Shared.print, WorkerState.call?, hf.receive, hf.print]

theorem worker (h : WorkerStep config response sh w sh' w') :
    tally.stock sh' + tally.held w' + total tally.spent (sh'.ended.map Prod.fst ++ w'.call?.toList) +
        total tally.earned (sh.ended.map Prod.fst ++ w.call?.toList) =
      tally.stock sh + tally.held w + total tally.spent (sh.ended.map Prod.fst ++ w.call?.toList) +
        total tally.earned (sh'.ended.map Prod.fst ++ w'.call?.toList) := by
  by_cases hlist : ∀ call token retries, w ≠ .listOne call token retries
  · exact hlaws.work h hlist
  · push Not at hlist
    obtain ⟨call, token, retries, rfl⟩ := hlist
    cases h with
    | list _ _ _ h =>
        obtain ⟨hstock, hheld, hcalls⟩ := hlaws.list h
        have hnone := (hlaws.empty.2.2.2 call).1 token retries
        have hspent := hcalls _ hlaws.lasting.1
        have hearned := hcalls _ hlaws.lasting.2
        simp only [WorkerState.call?, Option.toList_some, total_append, total_cons, total_nil] at *
        omega

theorem balanced_construct : tally.Balanced construct := by
  have hcalls (f : Call → Nat) : total f construct.calls = 0 := rfl
  have hheld : total tally.held construct.workers = 0 := rfl
  rw [Balanced, hcalls, hcalls, hheld, hlaws.start]

theorem balanced_step {action : Action} (hdraining : s.manager ≠ .draining) (hs : tally.Balanced s)
    (h : step config s action = some t) : tally.Balanced t := by
  simp only [Balanced, total_calls] at hs ⊢
  cases step_sound h with
  | worker index choice response before after w w' sh' hworkers hindex hw =>
      have hmove (f : WorkerState → Nat) : total f (before ++ w' :: after) + f w = total f s.workers + f w' := by
        rw [hworkers]
        exact total_move f before after w w'
      have hwork := hlaws.worker hw
      simp only [total_append] at hwork
      have := hmove tally.held
      have := hmove fun w => total tally.spent w.call?.toList
      have := hmove fun w => total tally.earned w.call?.toList
      dsimp only at *
      omega
  | manager choice hm =>
      rw [hm.workers_eq, hm.histories.2, hlaws.manage hm hdraining]
      exact hs
  | frame _ _ hf =>
      cases hf with
      | touch target stack lines hmanager hworkers hlines hshared =>
          rw [hworkers, hshared]
          rwa [← hlaws.touch s.shared target stack lines s.shared.ended] at hs
      | spawn hmanager hworkers hshared =>
          have hnone (f : WorkerState → Nat) (hf : f .pending = 0) : total f t.workers = total f s.workers := by
            simp [hworkers, hf]
          rw [hshared, hnone _ hlaws.empty.1, hnone _ rfl, hnone _ rfl]
          exact hs

theorem balanced (h : ReachableCrawl config s) : tally.Balanced s :=
  h.invariant_of (fun _ hs => not_draining hs) hlaws.balanced_construct
    fun _ _ _ _ hdraining hs hstep => hlaws.balanced_step hdraining hs hstep

end Lawful

end Tally

namespace Call

variable (config : Config) (call : Call)

def item : CommonPrefix × Nat := (call.path, call.depth)

-- The paths a call has queued, at the depth they are queued with.
def children : List (CommonPrefix × Nat) := call.queued.flatten.map fun path => (path, call.depth + 1)

-- The texts a call has pushed on the write stack.
def texts : List Str := (call.handed.map (objectsText config)).filter (· ≠ [])

@[simp] theorem item_start (path : CommonPrefix) (depth : Nat) : (start path depth).item = (path, depth) := rfl

@[simp] theorem item_hand (objects : List Object) : (call.hand objects).item = call.item := rfl

@[simp] theorem item_queue (prefixes : List CommonPrefix) : (call.queue prefixes).item = call.item := rfl

@[simp] theorem children_start (path : CommonPrefix) (depth : Nat) : (start path depth).children = [] := rfl

@[simp] theorem children_hand (objects : List Object) : (call.hand objects).children = call.children := rfl

@[simp] theorem children_queue (prefixes : List CommonPrefix) :
    (call.queue prefixes).children = call.children ++ prefixes.map fun path => (path, call.depth + 1) := by
  simp [children, queue]

@[simp] theorem texts_start (path : CommonPrefix) (depth : Nat) : (start path depth).texts config = [] := rfl

@[simp] theorem texts_queue (prefixes : List CommonPrefix) :
    (call.queue prefixes).texts config = call.texts config := rfl

theorem texts_hand (objects : List Object) :
    (call.hand objects).texts config =
      call.texts config ++ if objectsText config objects = [] then [] else [objectsText config objects] := by
  by_cases h : objectsText config objects = [] <;> simp [texts, hand, h]

end Call

section Tallies

variable (config : Config)

-- The objects handed to the write stack.
def objectTally (object : Object) : Tally where
  stock sh := sh.handed.count object
  held _ := 0
  spent _ := 0
  earned call := call.handed.flatten.count object
  first := 0

theorem objectTally_lawful (object : Object) : (objectTally object).Lawful config where
  start := rfl
  touch _ _ _ _ _ := rfl
  empty := ⟨rfl, rfl, rfl, fun _ => ⟨fun _ _ => rfl, fun _ => rfl⟩⟩
  lasting := ⟨⟨fun _ _ _ => rfl, fun _ _ => rfl⟩, ⟨fun _ _ _ => rfl, fun _ _ => rfl⟩⟩
  manage h _ := by cases h <;> rfl
  work h hlist := by
    cases h with
    | list call token retries => exact absurd rfl (hlist call token retries)
    | write call page =>
        simp [objectTally, Shared.writeObjects, WorkerState.call?, Call.hand]
        omega
    | push call page => simp [objectTally, WorkerState.call?, Call.queue]
    | lastPage call page hlast => simp [objectTally, Shared.finish, Shared.unlock, WorkerState.call?]
    | _ => simp [objectTally, WorkerState.call?, Shared.lock, Shared.unlock, Call.start]

-- The texts pushed on the write stack.
def textTally (text : Str) : Tally where
  stock sh := sh.written.count text
  held _ := 0
  spent _ := 0
  earned call := (call.texts config).count text
  first := 0

theorem textTally_lawful (text : Str) : (textTally config text).Lawful config where
  start := rfl
  touch _ _ _ _ _ := rfl
  empty := ⟨rfl, rfl, rfl, fun _ => ⟨fun _ _ => rfl, fun _ => rfl⟩⟩
  lasting := ⟨⟨fun _ _ _ => rfl, fun _ _ => rfl⟩, ⟨fun _ _ _ => rfl, fun _ _ => rfl⟩⟩
  manage h _ := by cases h <;> rfl
  work h hlist := by
    cases h with
    | list call token retries => exact absurd rfl (hlist call token retries)
    | write call page =>
        by_cases hempty : objectsText config page.contents = []
        · simp [textTally, Shared.writeObjects, WorkerState.call?, Call.texts_hand, hempty]
        · simp [textTally, Shared.writeObjects, WorkerState.call?, Call.texts_hand, hempty]
          omega
    | push call page => simp [textTally, WorkerState.call?]
    | lastPage call page hlast => simp [textTally, Shared.finish, Shared.unlock, WorkerState.call?]
    | _ => simp [textTally, WorkerState.call?, Shared.lock, Shared.unlock]

-- A page that is dealt with and not yet counted as an operation.
def WorkerState.uncountedOp : WorkerState → Nat
  | .countOp _ _ => 1
  | _ => 0

-- The pages counted as operations.
def opTally : Tally where
  stock sh := sh.metrics.totalOps
  held := WorkerState.uncountedOp
  spent _ := 0
  earned call := call.queued.length
  first := 0

theorem opTally_lawful : opTally.Lawful config where
  start := rfl
  touch _ _ _ _ _ := rfl
  empty := ⟨rfl, rfl, rfl, fun _ => ⟨fun _ _ => rfl, fun _ => rfl⟩⟩
  lasting := ⟨⟨fun _ _ _ => rfl, fun _ _ => rfl⟩, ⟨fun _ _ _ => rfl, fun _ _ => rfl⟩⟩
  manage h _ := by cases h <;> rfl
  work h hlist := by
    cases h with
    | list call token retries => exact absurd rfl (hlist call token retries)
    | push call page =>
        simp [opTally, WorkerState.call?, WorkerState.uncountedOp, Call.queue]
        omega
    | lastPage call page hlast =>
        simp [opTally, Shared.finish, Shared.unlock, WorkerState.call?, WorkerState.uncountedOp]
    | nextPage call page token htoken =>
        simp [opTally, Shared.unlock, WorkerState.call?, WorkerState.uncountedOp]
    | write call page =>
        simp [opTally, Shared.writeObjects, WorkerState.call?, WorkerState.uncountedOp, Call.hand]
    | _ => simp [opTally, WorkerState.call?, WorkerState.uncountedOp, Shared.lock, Shared.unlock, Call.start]

-- A path at a depth, queued by a call for the prefix above it and taken by its own.
def itemTally (item : CommonPrefix × Nat) : Tally where
  stock sh := sh.prefixQueue.items.count item
  held
    | .taken path depth => [(path, depth)].count item
    | _ => 0
  spent call := [call.item].count item
  earned call := call.children.count item
  first := [(⟨none⟩, 0)].count item

theorem itemTally_lawful (item : CommonPrefix × Nat) : (itemTally item).Lawful config where
  start := rfl
  touch _ _ _ _ _ := rfl
  empty := ⟨rfl, rfl, rfl, fun _ => ⟨fun _ _ => rfl, fun _ => rfl⟩⟩
  lasting := ⟨⟨fun _ _ _ => rfl, fun _ _ => rfl⟩, ⟨fun _ _ _ => rfl, fun _ _ => rfl⟩⟩
  manage h hdraining := by
    cases h with
    | drop before after top hm htop hnone => simp [itemTally, htop.split, PrefixQueue.items, hnone]
    | drain before after top hm => exact absurd hm hdraining
    | _ => rfl
  work h hlist := by
    cases h with
    | list call token retries => exact absurd rfl (hlist call token retries)
    | drop before after top htop hnone =>
        simp [itemTally, htop.split, PrefixQueue.items, hnone, WorkerState.call?]
    | take before after depth paths path htop =>
        simp [itemTally, htop.split, PrefixQueue.items, WorkerState.call?, List.count_cons]
        omega
    | release path depth =>
        simp [itemTally, WorkerState.call?, Shared.unlock]
        omega
    | push call page =>
        simp [itemTally, WorkerState.call?, Shared.pushPrefixes_items]
        omega
    | lastPage call page hlast => simp [itemTally, Shared.finish, Shared.unlock, WorkerState.call?]
    | _ => simp [itemTally, WorkerState.call?, Shared.lock, Shared.unlock, Shared.writeObjects]

-- The objects counted as found.
def foundTally : Tally where
  stock sh := sh.metrics.totalObjectsFound
  held := WorkerState.uncounted
  spent _ := 0
  earned call := call.handed.flatten.length
  first := 0

theorem foundTally_lawful : foundTally.Lawful config where
  start := rfl
  touch _ _ _ _ _ := rfl
  empty := ⟨rfl, rfl, rfl, fun _ => ⟨fun _ _ => rfl, fun _ => rfl⟩⟩
  lasting := ⟨⟨fun _ _ _ => rfl, fun _ _ => rfl⟩, ⟨fun _ _ _ => rfl, fun _ _ => rfl⟩⟩
  manage h _ := by cases h <;> rfl
  work h hlist := by
    cases h with
    | list call token retries => exact absurd rfl (hlist call token retries)
    | write call page =>
        simp [foundTally, Shared.writeObjects, WorkerState.call?, WorkerState.uncounted, Call.hand]
        omega
    | push call page => simp [foundTally, WorkerState.call?, WorkerState.uncounted, Call.queue]
    | lastPage call page hlast =>
        simp [foundTally, Shared.finish, Shared.unlock, WorkerState.call?, WorkerState.uncounted]
    | _ => simp [foundTally, WorkerState.call?, WorkerState.uncounted, Shared.lock, Shared.unlock, Call.start]

end Tallies

section Sums

variable {config : Config} {s : Crawl}

theorem count_flatMap_total {α : Type*} [BEq α] (f : Call → List α) (a : α) (calls : List Call) :
    (calls.flatMap f).count a = total (fun call => (f call).count a) calls :=
  List.count_flatMap

theorem handed_perm_calls (h : ReachableCrawl config s) :
    s.shared.handed.Perm (s.calls.flatMap fun call => call.handed.flatten) := by
  apply List.perm_iff_count.mpr
  intro object
  have hbalanced := (objectTally_lawful config object).balanced h
  simp only [Tally.Balanced, objectTally, total_zero] at hbalanced
  rw [count_flatMap_total]
  omega

theorem written_perm_calls (h : ReachableCrawl config s) :
    s.shared.written.Perm (s.calls.flatMap fun call => call.texts config) := by
  apply List.perm_iff_count.mpr
  intro text
  have hbalanced := (textTally_lawful config text).balanced h
  simp only [Tally.Balanced, textTally, total_zero] at hbalanced
  rw [count_flatMap_total]
  omega

theorem items_perm_calls (h : ReachableCrawl config s) :
    (s.items ++ s.shared.ended.map fun entry => entry.1.item).Perm
      ((⟨none⟩, 0) :: s.calls.flatMap Call.children) := by
  apply List.perm_iff_count.mpr
  intro item
  have hbalanced := (itemTally_lawful config item).balanced h
  have hworkers : (s.workers.filterMap WorkerState.item?).count item =
      total (itemTally item).held s.workers +
        total (fun w => total (itemTally item).spent w.call?.toList) s.workers := by
    rw [List.filterMap_eq_flatMap_toList, List.count_flatMap, ← total_add]
    refine total_congr fun w _ => ?_
    cases w <;> simp [itemTally, WorkerState.item?, WorkerState.call?, Call.item]
  have hended : (s.shared.ended.map fun entry => entry.1.item).count item =
      total (itemTally item).spent (s.shared.ended.map Prod.fst) := by
    rw [total_map, List.map_eq_flatMap, List.count_flatMap]
    rfl
  have hcalls : ((⟨none⟩, 0) :: s.calls.flatMap Call.children).count item =
      (itemTally item).first + total (itemTally item).earned s.calls := by
    rw [← List.singleton_append, List.count_append, List.count_flatMap]
    rfl
  have hstock : (itemTally item).stock s.shared = s.shared.prefixQueue.items.count item := rfl
  rw [Tally.Balanced, Tally.total_calls] at hbalanced
  rw [Crawl.items, List.count_append, List.count_append, hworkers, hended, hcalls]
  omega

theorem ops_eq_calls (h : ReachableCrawl config s) :
    s.shared.metrics.totalOps + total WorkerState.uncountedOp s.workers =
      total (fun call => call.queued.length) s.calls := by
  have hbalanced := (opTally_lawful config).balanced h
  simp only [Tally.Balanced, opTally, total_zero] at hbalanced
  omega

theorem found_eq_calls (h : ReachableCrawl config s) :
    s.shared.metrics.totalObjectsFound + total WorkerState.uncounted s.workers =
      total (fun call => call.handed.flatten.length) s.calls := by
  have hbalanced := (foundTally_lawful config).balanced h
  simp only [Tally.Balanced, foundTally, total_zero] at hbalanced
  omega

end Sums

-- The shared state adds up to what the calls have done: nothing has been handed
-- over, written, queued or counted but by them, and nothing of theirs is missing.
theorem crawl_adds_up (config : Config) (s : Crawl) (h : ReachableCrawl config s) :
    s.shared.handed.Perm (s.calls.flatMap fun call => call.handed.flatten) ∧
      s.shared.written.Perm (s.calls.flatMap fun call => call.texts config) ∧
      (s.items ++ s.shared.ended.map fun entry => entry.1.item).Perm
        ((⟨none⟩, 0) :: s.calls.flatMap Call.children) ∧
      s.shared.metrics.totalOps + total WorkerState.uncountedOp s.workers =
        total (fun call => call.queued.length) s.calls ∧
      s.shared.metrics.totalObjectsFound + total WorkerState.uncounted s.workers =
        total (fun call => call.handed.flatten.length) s.calls :=
  ⟨handed_perm_calls h, written_perm_calls h, items_perm_calls h, ops_eq_calls h, found_eq_calls h⟩

theorem crawl_adds_up_twoKeys :
    ∃ s, ReachableCrawl defaultConfig s ∧ s.shared.handed.length = 2 ∧
      s.shared.handed.Perm (s.calls.flatMap fun call => call.handed.flatten) := by
  obtain ⟨s, hs, hhanded⟩ := @ReachableCrawl.of_run defaultConfig twoKeysRun
    (fun s => s.shared.handed.length == 2) (by decide +kernel)
  exact ⟨s, hs, eq_of_beq hhanded, (crawl_adds_up defaultConfig s hs).1⟩

end S3Cpp.Tools.ListAllObjects
