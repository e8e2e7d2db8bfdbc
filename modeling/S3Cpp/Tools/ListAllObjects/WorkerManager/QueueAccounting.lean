import Mathlib.Data.Finset.Max
import S3Cpp.Tools.ListAllObjects.WorkerManager.Completion

namespace S3Cpp.Tools.ListAllObjects

open Aws.S3 Aws.S3.Client Library.Population Library.Transition

-- All that get_next_prefix may still return.
def PrefixQueue.items (queue : PrefixQueue) : List (CommonPrefix × Nat) :=
  queue.flatMap fun entry => entry.paths.map fun path => (path, entry.depth)

-- What a get_next_prefix call has made of the queue by `steps` steps of its own,
-- of which the one that ends it is the last and each other pops an entry.
inductive NextPrefix (queue : PrefixQueue) (w : WorkerState) (queue' : PrefixQueue) (steps : Nat) : Prop
  | scanning (hw : w = .scanQueue) (hitems : queue'.items = queue.items)
      (hpops : steps + queue'.length = queue.length) : NextPrefix queue w queue' steps
  | nothing (hw : w = .isDone) (hnone : queue.items = []) (hempty : queue' = [])
      (hpops : steps = queue.length + 1) : NextPrefix queue w queue' steps
  | found (path : CommonPrefix) (depth : Nat) (before after : List (CommonPrefix × Nat))
      (hw : w = .taken path depth) (hitems : queue.items = before ++ (path, depth) :: after)
      (hrest : queue'.items = before ++ after) (hpops : steps ≤ queue.length) :
      NextPrefix queue w queue' steps

section Queue

variable {queue : PrefixQueue}

theorem items_append (before after : PrefixQueue) :
    PrefixQueue.items (before ++ after) = PrefixQueue.items before ++ PrefixQueue.items after :=
  List.flatMap_append

theorem items_cons (entry : PrefixQueueEntry) (rest : PrefixQueue) :
    PrefixQueue.items (entry :: rest) =
      (entry.paths.map fun path => (path, entry.depth)) ++ PrefixQueue.items rest :=
  List.flatMap_cons

theorem items_map_fst (queue : PrefixQueue) : queue.items.map Prod.fst = queue.paths := by
  induction queue with
  | nil => rfl
  | cons entry rest ih => simp [items_cons, PrefixQueue.paths, ih, Function.comp_def]

theorem items_eq_nil_iff (queue : PrefixQueue) : queue.items = [] ↔ queue.paths = [] := by
  rw [← items_map_fst, List.map_eq_nil_iff]

theorem items_subset {other : PrefixQueue} (h : other.Sublist queue) :
    ∀ item ∈ other.items, item ∈ queue.items := by
  intro item hitem
  obtain ⟨entry, hentry, hitem⟩ := List.mem_flatMap.mp hitem
  exact List.mem_flatMap.mpr ⟨entry, h.subset hentry, hitem⟩

theorem length_paths (queue : PrefixQueue) :
    queue.paths.length = total (fun entry => entry.paths.length) queue := by
  rw [PrefixQueue.paths, List.length_flatMap]
  rfl

-- A queue that is not empty has an entry that no other precedes.
theorem exists_top (h : queue ≠ []) : ∃ choice top, PrefixQueue.top queue choice = some top := by
  have hnonempty : queue.toFinset.Nonempty := List.toFinset_nonempty_iff queue |>.mpr h
  obtain ⟨top, htop, hleast⟩ := queue.toFinset.exists_min_image PrefixQueueEntry.depth hnonempty
  obtain ⟨choice, hchoice⟩ := List.getElem?_of_mem (List.mem_toFinset.mp htop)
  refine ⟨choice, top, Option.filter_eq_some_iff.mpr ⟨hchoice, ?_⟩⟩
  simpa using hleast

end Queue

section Scan

variable {config : Config} {response : Response} {sh sh' : Shared} {w' : WorkerState}

theorem WorkerStep.nextPrefix (h : WorkerStep config response sh .scanQueue sh' w') :
    NextPrefix sh.prefixQueue w' sh'.prefixQueue 1 := by
  cases h with
  | empty hempty => exact .nothing rfl (by rw [hempty]; rfl) hempty (by rw [hempty]; rfl)
  | drop before after top htop hnone =>
      refine .scanning rfl ?_ ?_
      · rw [htop.split, items_append, items_append, items_cons, hnone]
        rfl
      · rw [htop.split]
        simp only [List.length_append, List.length_cons]
        omega
  | take before after depth paths path htop =>
      refine .found path depth
        (PrefixQueue.items before ++ paths.map fun path => (path, depth)) (PrefixQueue.items after) rfl ?_ ?_ ?_
      · rw [htop.split, items_append, items_cons]
        simp
      · rw [items_append, items_cons, List.append_assoc]
      · rw [htop.split]
        simp only [List.length_append, List.length_cons]
        omega

theorem NextPrefix.trans {queue queue' queue'' : PrefixQueue} {w : WorkerState} {steps more : Nat}
    (h : NextPrefix queue .scanQueue queue' steps) (h' : NextPrefix queue' w queue'' more) :
    NextPrefix queue w queue'' (steps + more) := by
  cases h with
  | scanning _ hitems hpops =>
      cases h' with
      | scanning hw hitems' hpops' => exact .scanning hw (hitems'.trans hitems) (by omega)
      | nothing hw hnone hempty hpops' => exact .nothing hw (hitems.symm.trans hnone) hempty (by omega)
      | found path depth before after hw hitems' hrest hpops' =>
          exact .found path depth before after hw (hitems.symm.trans hitems') hrest (by omega)
  | nothing hw => cases hw
  | found _ _ _ _ hw => cases hw

-- The scan never gets stuck.
theorem workerStep_scanQueue (config : Config) (response : Response) (sh : Shared) :
    ∃ choice next, workerStep config choice response sh .scanQueue = some next := by
  by_cases hempty : sh.prefixQueue = []
  · exact ⟨0, _, by rw [workerStep, if_pos hempty]⟩
  · obtain ⟨choice, top, htop⟩ := exists_top hempty
    exact ⟨choice, _, by rw [workerStep, if_neg hempty, htop, Option.map_some]⟩

end Scan

-- Nobody is between taking a path and counting it when the mutex is free.
theorem Accounted.removing_eq_zero {s : Crawl} (ha : Accounted s) (hfree : s.shared.queueMutex = false) :
    total WorkerState.removing s.workers = 0 := by
  have hbit : mutexBit s.shared = 0 := by rw [mutexBit, hfree]; rfl
  have hmutex := ha.mutex
  have hholding := (total_eq_zero_iff WorkerState.holding s.workers).mp (by omega)
  refine (total_eq_zero_iff WorkerState.removing s.workers).mpr fun w hw => ?_
  have hzero := hholding w hw
  cases w with
  | taken path depth => cases hzero
  | _ => rfl

section Others

variable {config : Config} {s t : Crawl} {index : Nat} {action : Action}

def Action.ofWorker (index : Nat) : Action → Bool
  | .worker own _ _ => own = index
  | _ => false

def scanning (index : Nat) (s : Crawl) (_ : Action) : Bool :=
  match s.workers[index]? with
  | some .scanQueue => true
  | _ => false

theorem scanning_iff : scanning index s action = true ↔ s.workers[index]? = some .scanQueue := by
  rw [scanning]
  split <;> simp_all

theorem ManagerStep.queue_of_not_holding (h : ManagerStep s t) (hm : s.manager.holding = 0) :
    t.shared.prefixQueue = s.shared.prefixQueue := by
  cases h with
  | drop before after top hm' | drain before after top hm' =>
      rw [hm'] at hm
      cases hm
  | _ => rfl

theorem ManagerStep.queue_sublist (h : ManagerStep s t) :
    t.shared.prefixQueue.Sublist s.shared.prefixQueue := by
  cases h with
  | drop before after top hm htop | drain before after top hm htop =>
      rw [htop.split]
      exact (List.Sublist.refl _).append (List.sublist_cons_self _ _)
  | _ => exact List.Sublist.refl _

theorem ManagerStep.histories (h : ManagerStep s t) :
    t.shared.taken = s.shared.taken ∧ t.shared.ended = s.shared.ended := by
  cases h <;> exact ⟨rfl, rfl⟩

theorem ManagerStep.workers_eq (h : ManagerStep s t) : t.workers = s.workers := by
  cases h <;> rfl

theorem FrameStep.keeps (h : FrameStep s t) (hscan : s.workers[index]? = some .scanQueue) :
    t.workers[index]? = some .scanQueue ∧ t.shared.prefixQueue = s.shared.prefixQueue := by
  cases h with
  | touch _ _ _ _ hworkers _ hshared =>
      rw [hworkers, hshared]
      exact ⟨hscan, rfl⟩
  | spawn _ hworkers hshared =>
      rw [hworkers, hshared]
      have hlt := (List.getElem?_eq_some_iff.mp hscan).1
      exact ⟨by rw [List.getElem?_append_left hlt, hscan], rfl⟩

-- While a call scans the queue nobody else moves it.
theorem step_of_other (ha : Accounted s) (hscan : s.workers[index]? = some .scanQueue)
    (h : step config s action = some t) (hother : action.ofWorker index = false) :
    t.workers[index]? = some .scanQueue ∧ t.shared.prefixQueue = s.shared.prefixQueue := by
  have hbit : mutexBit s.shared ≤ 1 := Bool.toNat_le _
  have hmutex := ha.mutex
  have hone : WorkerState.scanQueue.holding = 1 := rfl
  cases step_inv h with
  | worker own choice response w w' sh' hw hstep =>
      have hne : own ≠ index := by simpa [Action.ofWorker] using hother
      have hboth := add_le_total WorkerState.holding hscan hw hne
      have hholding : w.holding = 0 := by omega
      refine ⟨?_, (hstep.queue_of_not_holding hholding).1⟩
      rw [List.getElem?_set_ne hne]
      exact hscan
  | manager choice hstep =>
      have hown := le_total WorkerState.holding (List.mem_of_getElem? hscan)
      have hholding : s.manager.holding = 0 := by omega
      exact ⟨by rw [hstep.workers_eq]; exact hscan, hstep.queue_of_not_holding hholding⟩
  | scaling hstep => exact hstep.frame.keeps hscan
  | writer failure hstep => exact hstep.frame.keeps hscan
  | scalingTimer | writerTimer => exact ⟨hscan, rfl⟩

theorem step_nextPrefix (ha : Accounted s) (hscan : s.workers[index]? = some .scanQueue)
    (h : step config s action = some t) :
    ∃ w, t.workers[index]? = some w ∧
      NextPrefix s.shared.prefixQueue w t.shared.prefixQueue ([action].countP (Action.ofWorker index)) := by
  cases hown : action.ofWorker index with
  | false =>
      obtain ⟨hsame, hqueue⟩ := step_of_other ha hscan h hown
      refine ⟨_, hsame, .scanning rfl (by rw [hqueue]) ?_⟩
      simp [hown, hqueue]
  | true =>
      have hone : [action].countP (Action.ofWorker index) = 1 := by simp [hown]
      rw [hone]
      cases step_inv h with
      | worker own choice response w w' sh' hw hstep =>
          obtain rfl : own = index := by simpa [Action.ofWorker] using hown
          obtain rfl : w = .scanQueue := Option.some.inj (hw.symm.trans hscan)
          have hlt := (List.getElem?_eq_some_iff.mp hscan).1
          exact ⟨w', List.getElem?_set_self hlt, hstep.nextPrefix⟩
      | manager | scaling | writer | scalingTimer | writerTimer => cases hown

-- Whatever the others do meanwhile.
theorem run_nextPrefix {actions : List Action} (ha : Accounted s)
    (hscan : s.workers[index]? = some .scanQueue)
    (h : run (guarded (step config) (scanning index)) s actions = some t) :
    ∃ w, t.workers[index]? = some w ∧
      NextPrefix s.shared.prefixQueue w t.shared.prefixQueue (actions.countP (Action.ofWorker index)) := by
  induction actions generalizing s with
  | nil =>
      obtain rfl := Option.some.inj h
      exact ⟨_, hscan, .scanning rfl rfl (Nat.zero_add _)⟩
  | cons action rest ih =>
      obtain ⟨u, hu, ht⟩ := Option.bind_eq_some_iff.mp h
      have hstep : step config s action = some u := by
        unfold guarded at hu
        rwa [if_pos (scanning_iff.mpr hscan)] at hu
      obtain ⟨w, hw, hfirst⟩ := step_nextPrefix ha hscan hstep
      by_cases hmore : w = .scanQueue
      · subst hmore
        obtain ⟨w', hw', hrest⟩ := ih (accounted_step ha hstep) hw ht
        refine ⟨w', hw', ?_⟩
        have htrans := hfirst.trans hrest
        rwa [← List.countP_append] at htrans
      · cases rest with
        | nil =>
            obtain rfl := Option.some.inj ht
            exact ⟨w, hw, hfirst⟩
        | cons next rest =>
            -- the call has ended, so no further step passes the check
            obtain ⟨v, hv, -⟩ := Option.bind_eq_some_iff.mp ht
            have hended : ¬ scanning index u next = true := by
              rw [scanning_iff, hw]
              exact fun h => hmore (Option.some.inj h)
            unfold guarded at hv
            rw [if_neg hended] at hv
            cases hv

end Others

-- The length counts what is queued whenever the mutex is free, and a call finds
-- something exactly when something is queued.
theorem queue_accounting (config : Config) (s : Crawl) (h : ReachableCrawl config s) :
    (s.shared.queueMutex = false →
      s.shared.metrics.totalQueueLength =
        total (fun entry => entry.paths.length) s.shared.prefixQueue) ∧
    (∀ path depth, .taken path depth ∈ s.workers →
      decrement s.shared.metrics.totalQueueLength + 1 = s.shared.metrics.totalQueueLength) ∧
    ∀ index, s.workers[index]? = some .scanQueue →
      (∀ response, ∃ choice t, step config s (.worker index choice response) = some t) ∧
      ∀ actions t, run (guarded (step config) (scanning index)) s actions = some t →
        ∃ w, t.workers[index]? = some w ∧
          NextPrefix s.shared.prefixQueue w t.shared.prefixQueue
            (actions.countP (Action.ofWorker index)) ∧
          (w ≠ .scanQueue → (w = .isDone ↔ PrefixQueue.paths s.shared.prefixQueue = [])) := by
  have ha := h.accounted
  have hlength := ha.length
  refine ⟨fun hfree => ?_, fun path depth hw => ?_, fun index hscan => ⟨fun response => ?_, ?_⟩⟩
  · rw [hlength, ha.removing_eq_zero hfree, Nat.add_zero, length_paths]
  · have hone : (WorkerState.taken path depth).removing ≤ total WorkerState.removing s.workers :=
      le_total WorkerState.removing hw
    have hpos : s.shared.metrics.totalQueueLength ≠ 0 := by
      simp only [WorkerState.removing] at hone
      omega
    rw [decrement, if_neg hpos]
    omega
  · obtain ⟨choice, next, hnext⟩ := workerStep_scanQueue config response s.shared
    exact ⟨choice, _, by rw [step, hscan, Option.bind_some, hnext, Option.map_some]⟩
  · intro actions t hrun
    obtain ⟨w, hw, hnext⟩ := run_nextPrefix ha hscan hrun
    refine ⟨w, hw, hnext, fun hended => ?_⟩
    rw [← items_eq_nil_iff]
    cases hnext with
    | scanning hw => exact absurd hw hended
    | nothing hw hnone => exact iff_of_true hw hnone
    | found path depth before after hw hitems => simp [hw, hitems]

-- A worker lists the root, which has a prefix, and asks for the next path.
def secondCallRun : List Action :=
  firstTick ++ workerSteps 0 4 ++
    [.worker 0 0 (listingResponse [prefixElement "a/", textElement "IsTruncated" "false"])] ++
    workerSteps 0 9

-- The emptied entry of the root is popped, then the prefix is taken.
def popAndTake : List Action := [.worker 0 1 (.failed []), .worker 0 0 (.failed [])]

theorem queue_accounting_secondCall :
    ∃ (s t : Crawl) (w : WorkerState), ReachableCrawl defaultConfig s ∧ t.workers[0]? = some w ∧
      NextPrefix s.shared.prefixQueue w t.shared.prefixQueue 2 := by
  obtain ⟨s, hs, hfacts⟩ := @ReachableCrawl.of_run defaultConfig secondCallRun
    (fun s => scanning 0 s .scaling &&
      (run (guarded (step defaultConfig) (scanning 0)) s popAndTake).isSome) (by decide +kernel)
  obtain ⟨hscan, hrun⟩ := Bool.and_eq_true_iff.mp hfacts
  obtain ⟨t, ht⟩ := Option.isSome_iff_exists.mp hrun
  obtain ⟨-, -, hcalls⟩ := queue_accounting defaultConfig s hs
  obtain ⟨w, hw, hnext, -⟩ := (hcalls 0 (scanning_iff.mp hscan)).2 popAndTake t ht
  exact ⟨s, t, w, hs, hw, hnext⟩

end S3Cpp.Tools.ListAllObjects
