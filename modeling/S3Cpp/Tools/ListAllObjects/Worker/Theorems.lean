import S3Cpp.Aws.S3.Client.ListObjects.Theorems
import S3Cpp.Library.Population
import S3Cpp.Tools.ListAllObjects.Worker

namespace S3Cpp.Tools.ListAllObjects

open Aws.S3 Aws.S3.Client Library.Population

-- An entry that no other entry precedes, with the entries around it.
structure IsTop (queue before : PrefixQueue) (top : PrefixQueueEntry) (after : PrefixQueue) : Prop where
  split : queue = before ++ top :: after
  least : ∀ other ∈ queue, top.depth ≤ other.depth

theorem isTop_of_top {queue : PrefixQueue} {choice : Nat} {top : PrefixQueueEntry}
    (h : PrefixQueue.top queue choice = some top) :
    ∃ before after, IsTop queue before top after ∧ before.length = choice ∧
      (∀ entry, queue.set choice entry = before ++ entry :: after) ∧
      queue.eraseIdx choice = before ++ after := by
  obtain ⟨htop, hleast⟩ := Option.filter_eq_some_iff.mp h
  obtain ⟨before, after, hsplit, hlength, hset, herase⟩ := split_of_getElem? htop
  exact ⟨before, after, ⟨hsplit, by simpa using hleast⟩, hlength, hset, herase⟩

namespace Shared

variable (sh : Shared) (depth : Nat) (prefixes : List CommonPrefix)

@[simp] theorem pushPrefixes_queueMutex : (sh.pushPrefixes depth prefixes).queueMutex = sh.queueMutex := by
  unfold pushPrefixes
  split <;> rfl

@[simp] theorem pushPrefixes_metrics :
    (sh.pushPrefixes depth prefixes).metrics =
      { sh.metrics with totalQueueLength := sh.metrics.totalQueueLength + prefixes.length } := by
  unfold pushPrefixes
  split
  · simp [*]
  · rfl

@[simp] theorem pushPrefixes_paths :
    PrefixQueue.paths (sh.pushPrefixes depth prefixes).prefixQueue =
      prefixes ++ PrefixQueue.paths sh.prefixQueue := by
  unfold pushPrefixes
  split
  · simp [*]
  · rfl

@[simp] theorem pushPrefixes_pushed :
    (sh.pushPrefixes depth prefixes).pushed = sh.pushed ++ prefixes := by
  unfold pushPrefixes
  split
  · simp [*]
  · rfl

@[simp] theorem pushPrefixes_taken : (sh.pushPrefixes depth prefixes).taken = sh.taken := by
  unfold pushPrefixes
  split <;> rfl

@[simp] theorem pushPrefixes_handed : (sh.pushPrefixes depth prefixes).handed = sh.handed := by
  unfold pushPrefixes
  split <;> rfl

@[simp] theorem pushPrefixes_written : (sh.pushPrefixes depth prefixes).written = sh.written := by
  unfold pushPrefixes
  split <;> rfl

@[simp] theorem pushPrefixes_writeStack :
    (sh.pushPrefixes depth prefixes).writeStack = sh.writeStack := by
  unfold pushPrefixes
  split <;> rfl

@[simp] theorem pushPrefixes_ended : (sh.pushPrefixes depth prefixes).ended = sh.ended := by
  unfold pushPrefixes
  split <;> rfl

end Shared

-- All that one response can do to a listing.
inductive ListStep (config : Config) (response : Response) (sh : Shared) (call : Call)
    (token : Option Str) (retries : Nat) : Shared → WorkerState → Prop
  | throws (what : Str) (h : request config.apiVersion response = .exception what) :
      ListStep config response sh call token retries
        (sh.finish (call.receive token response) (.threw what)) .leaving
  | retry (error : ListError) (h : request config.apiVersion response = .unexpected error)
      (hmore : retries < maxRetries) :
      ListStep config response sh call token retries
        (sh.print [warnRetry call.path error retries])
        (.listOne ((call.receive token response).print [warnRetry call.path error retries]) token
          (retries + 1))
  | giveUp (error : ListError) (h : request config.apiVersion response = .unexpected error)
      (hlast : maxRetries ≤ retries) :
      ListStep config response sh call token retries
        (sh.print [warnRetry call.path error retries, errorNoSuccess call.path])
        (.writeObjects
          ((call.receive token response).print
            [warnRetry call.path error retries, errorNoSuccess call.path])
          (Page.default config.apiVersion))
  | repeated (page : Page) (h : request config.apiVersion response = .value page)
      (hrepeats : page.repeatsToken = true) :
      ListStep config response sh call token retries
        ((sh.print [warnRepeated config.apiVersion call.path]).finish
          ((call.receive token response).print [warnRepeated config.apiVersion call.path]) .returned)
        .isDone
  | accept (page : Page) (h : request config.apiVersion response = .value page)
      (hrepeats : page.repeatsToken = false) :
      ListStep config response sh call token retries sh
        (.writeObjects (call.receive token response) page)

-- All that one step of a worker can do.
inductive WorkerStep (config : Config) (response : Response) (sh : Shared) :
    WorkerState → Shared → WorkerState → Prop
  | start :
      WorkerStep config response sh .pending
        { sh with metrics.activeWorkers := sh.metrics.activeWorkers + 1 } .getNextPrefix
  | lock (hfree : sh.queueMutex = false) :
      WorkerStep config response sh .getNextPrefix sh.lock .scanQueue
  | empty (hempty : sh.prefixQueue = []) :
      WorkerStep config response sh .scanQueue sh.unlock .isDone
  | drop (before after : PrefixQueue) (top : PrefixQueueEntry)
      (htop : IsTop sh.prefixQueue before top after) (hnone : top.paths = []) :
      WorkerStep config response sh .scanQueue { sh with prefixQueue := before ++ after } .scanQueue
  | take (before after : PrefixQueue) (depth : Nat) (paths : List CommonPrefix) (path : CommonPrefix)
      (htop : IsTop sh.prefixQueue before ⟨depth, paths ++ [path]⟩ after) :
      WorkerStep config response sh .scanQueue
        { sh with prefixQueue := before ++ ⟨depth, paths⟩ :: after, taken := sh.taken ++ [path] }
        (.taken path depth)
  | release (path : CommonPrefix) (depth : Nat) :
      WorkerStep config response sh (.taken path depth)
        { sh.unlock with metrics.totalQueueLength := decrement sh.metrics.totalQueueLength }
        (.listOne (Call.start path depth) none 1)
  | list (call : Call) (token : Option Str) (retries : Nat) {sh' : Shared} {w' : WorkerState}
      (h : ListStep config response sh call token retries sh' w') :
      WorkerStep config response sh (.listOne call token retries) sh' w'
  | write (call : Call) (page : Page) :
      WorkerStep config response sh (.writeObjects call page)
        (sh.writeObjects config page.contents) (.lockQueue (call.hand page.contents) page)
  | lockAgain (call : Call) (page : Page) (hfree : sh.queueMutex = false) :
      WorkerStep config response sh (.lockQueue call page) sh.lock (.countObjects call page)
  | count (call : Call) (page : Page) :
      WorkerStep config response sh (.countObjects call page)
        { sh with metrics.totalObjectsFound := sh.metrics.totalObjectsFound + page.contents.length }
        (.pushPrefixes call page)
  | push (call : Call) (page : Page) :
      WorkerStep config response sh (.pushPrefixes call page)
        (sh.pushPrefixes call.depth page.commonPrefixes)
        (.countOp (call.queue page.commonPrefixes) page)
  | nextPage (call : Call) (page : Page) (token : Str) (h : page.nextToken = some token) :
      WorkerStep config response sh (.countOp call page)
        { sh.unlock with metrics.totalOps := sh.metrics.totalOps + 1 }
        (.listOne call (some token) 1)
  | lastPage (call : Call) (page : Page) (h : page.nextToken = none) :
      WorkerStep config response sh (.countOp call page)
        ({ sh.unlock with metrics.totalOps := sh.metrics.totalOps + 1 }.finish call .returned) .isDone
  | done (h : sh.metrics.totalQueueLength = 0) :
      WorkerStep config response sh .isDone sh .leaving
  | notDone (h : sh.metrics.totalQueueLength ≠ 0) :
      WorkerStep config response sh .isDone sh .readActive
  | readActive :
      WorkerStep config response sh .readActive sh (.readTarget sh.metrics.activeWorkers)
  | tooMany (active : Nat) (h : sh.metrics.targetWorkers < active) :
      WorkerStep config response sh (.readTarget active) sh .leaving
  | goOn (active : Nat) (h : active ≤ sh.metrics.targetWorkers) :
      WorkerStep config response sh (.readTarget active) sh .getNextPrefix
  | leave :
      WorkerStep config response sh .leaving
        { sh with metrics.activeWorkers := decrement sh.metrics.activeWorkers } .finished

theorem listStep_sound {config : Config} {response : Response} {sh sh' : Shared} {call : Call}
    {token : Option Str} {retries : Nat} {w' : WorkerState}
    (h : listStep config response sh call token retries = (sh', w')) :
    ListStep config response sh call token retries sh' w' := by
  unfold listStep at h
  split at h
  · rename_i what hr
    obtain ⟨rfl, rfl⟩ := Prod.mk.inj h
    exact .throws what hr
  · rename_i error hr
    dsimp only at h
    split at h
    · obtain ⟨rfl, rfl⟩ := Prod.mk.inj h
      exact .retry error hr ‹_›
    · obtain ⟨rfl, rfl⟩ := Prod.mk.inj h
      exact .giveUp error hr (by omega)
  · rename_i page hr
    split at h
    · obtain ⟨rfl, rfl⟩ := Prod.mk.inj h
      exact .repeated page hr ‹_›
    · obtain ⟨rfl, rfl⟩ := Prod.mk.inj h
      exact .accept page hr (by simpa using ‹¬ page.repeatsToken = true›)

theorem workerStep_sound {config : Config} {choice : Nat} {response : Response} {sh sh' : Shared}
    {w w' : WorkerState} (h : workerStep config choice response sh w = some (sh', w')) :
    WorkerStep config response sh w sh' w' := by
  cases w with
  | pending =>
      obtain ⟨rfl, rfl⟩ := Prod.mk.inj (Option.some.inj h)
      exact .start
  | getNextPrefix =>
      simp only [workerStep] at h
      split at h
      · cases h
      · obtain ⟨rfl, rfl⟩ := Prod.mk.inj (Option.some.inj h)
        exact .lock (by simpa using ‹¬ sh.queueMutex = true›)
  | scanQueue =>
      simp only [workerStep] at h
      split at h
      · obtain ⟨rfl, rfl⟩ := Prod.mk.inj (Option.some.inj h)
        exact .empty ‹_›
      · obtain ⟨top, htop, h⟩ := Option.map_eq_some_iff.mp h
        obtain ⟨before, after, htop, -, hset, herase⟩ := isTop_of_top htop
        split at h
        · obtain ⟨rfl, rfl⟩ := Prod.mk.inj h
          rw [herase]
          exact .drop before after top htop (List.getLast?_eq_none_iff.mp ‹_›)
        · rename_i path hlast
          obtain ⟨paths, hpaths⟩ := List.getLast?_eq_some_iff.mp hlast
          obtain ⟨rfl, rfl⟩ := Prod.mk.inj h
          rw [hpaths, List.dropLast_concat, hset]
          refine .take before after top.depth paths path ?_
          rw [← hpaths]
          exact htop
  | taken path depth =>
      obtain ⟨rfl, rfl⟩ := Prod.mk.inj (Option.some.inj h)
      exact .release path depth
  | listOne call token retries => exact .list call token retries (listStep_sound (Option.some.inj h))
  | writeObjects call page =>
      obtain ⟨rfl, rfl⟩ := Prod.mk.inj (Option.some.inj h)
      exact .write call page
  | lockQueue call page =>
      simp only [workerStep] at h
      split at h
      · cases h
      · obtain ⟨rfl, rfl⟩ := Prod.mk.inj (Option.some.inj h)
        exact .lockAgain call page (by simpa using ‹¬ sh.queueMutex = true›)
  | countObjects call page =>
      obtain ⟨rfl, rfl⟩ := Prod.mk.inj (Option.some.inj h)
      exact .count call page
  | pushPrefixes call page =>
      obtain ⟨rfl, rfl⟩ := Prod.mk.inj (Option.some.inj h)
      exact .push call page
  | countOp call page =>
      simp only [workerStep] at h
      split at h
      · obtain ⟨rfl, rfl⟩ := Prod.mk.inj (Option.some.inj h)
        exact .nextPage call page _ ‹_›
      · obtain ⟨rfl, rfl⟩ := Prod.mk.inj (Option.some.inj h)
        exact .lastPage call page ‹_›
  | isDone =>
      obtain ⟨rfl, rfl⟩ := Prod.mk.inj (Option.some.inj h)
      split
      · exact .done ‹_›
      · exact .notDone ‹_›
  | readActive =>
      obtain ⟨rfl, rfl⟩ := Prod.mk.inj (Option.some.inj h)
      exact .readActive
  | readTarget active =>
      obtain ⟨rfl, rfl⟩ := Prod.mk.inj (Option.some.inj h)
      split
      · exact .tooMany active ‹_›
      · exact .goOn active (by omega)
  | leaving =>
      obtain ⟨rfl, rfl⟩ := Prod.mk.inj (Option.some.inj h)
      exact .leave
  | finished => cases h

end S3Cpp.Tools.ListAllObjects
