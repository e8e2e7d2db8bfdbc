import S3Cpp.Tools.ListAllObjects.WorkerManager.Provenance

namespace S3Cpp.Tools.ListAllObjects

open Aws.S3 Aws.S3.Client Library.Population Library.Transition

-- A crawl with all that its get_next_prefix calls have returned.
structure Recorded where
  crawl : Crawl
  returned : List (CommonPrefix × Nat)

-- What a step that has led to `s` has returned.
def returnedAt (s : Crawl) : Action → List (CommonPrefix × Nat)
  | .worker index _ _ =>
      match s.workers[index]? with
      | some (.taken path depth) => [(path, depth)]
      | _ => []
  | _ => []

def recordedStep (config : Config) (s : Recorded) (action : Action) : Option Recorded :=
  (step config s.crawl action).map fun t => ⟨t, s.returned ++ returnedAt t action⟩

namespace Recorded

variable (s : Recorded)

def construct : Recorded := ⟨ListAllObjects.construct, []⟩

def depths : List Nat := s.returned.map Prod.snd

-- The depth that was returned last.
def level : Nat := s.depths.getLast?.getD 0

-- A second worker may start only after the first has left.
def SingleWorker : Prop := s.crawl.shared.metrics.activeWorkers ≤ 1

instance : Decidable s.SingleWorker := Nat.decLe _ _

-- The depths returned have never decreased, and as long as paths of one depth are
-- listed there is none above them and nothing of two levels below.
structure BreadthFirst : Prop where
  returned : s.returned.map Prod.fst = s.crawl.shared.taken
  sorted : s.depths.Pairwise (· ≤ ·)
  passed : ∀ depth ∈ s.depths, depth ≤ s.level
  queued : ∀ entry ∈ s.crawl.shared.prefixQueue, s.level ≤ entry.depth ∧ entry.depth ≤ s.level + 1
  listing : ∀ w ∈ s.crawl.workers, ∀ item ∈ w.item?, item.2 = s.level

end Recorded

-- What a step of a worker does to the depths: it takes a path that none is above,
-- or it goes on with its own and queues what is one below.
inductive DepthStep (sh : Shared) (w : WorkerState) (sh' : Shared) (w' : WorkerState) : Prop
  | take (path : CommonPrefix) (depth : Nat) (hw : w = .scanQueue) (hw' : w' = .taken path depth)
      (htaken : sh'.taken = sh.taken ++ [path]) (htop : ∃ entry ∈ sh.prefixQueue, entry.depth = depth)
      (hleast : ∀ entry ∈ sh.prefixQueue, depth ≤ entry.depth)
      (hqueue : ∀ entry ∈ sh'.prefixQueue, ∃ other ∈ sh.prefixQueue, other.depth = entry.depth)
  | keep (hw' : ∀ path depth, w' ≠ .taken path depth) (htaken : sh'.taken = sh.taken)
      (hitem : ∀ item ∈ w'.item?, item ∈ w.item?)
      (hqueue : ∀ entry ∈ sh'.prefixQueue, (∃ other ∈ sh.prefixQueue, other.depth = entry.depth) ∨
        ∃ item ∈ w.item?, entry.depth = item.2 + 1)

section Worker

variable {config : Config} {response : Response} {sh sh' : Shared} {w w' : WorkerState}

theorem WorkerStep.depthStep (h : WorkerStep config response sh w sh' w') : DepthStep sh w sh' w' := by
  have hsame (hqueue : sh'.prefixQueue = sh.prefixQueue) : ∀ entry ∈ sh'.prefixQueue,
      (∃ other ∈ sh.prefixQueue, other.depth = entry.depth) ∨ ∃ item ∈ w.item?, entry.depth = item.2 + 1 :=
    fun entry hentry => .inl ⟨entry, hqueue ▸ hentry, rfl⟩
  have hnone {item : CommonPrefix × Nat} (hitem : item ∈ (none : Option (CommonPrefix × Nat))) :
      item ∈ w.item? := by cases hitem
  cases h with
  | list call token retries h =>
      cases h with
      | throws | repeated => exact .keep (by simp) rfl (fun _ => hnone) (hsame rfl)
      | retry | giveUp | accept => exact .keep (by simp) rfl (fun _ h => h) (hsame rfl)
  | drop before after top htop hnil =>
      refine .keep (by simp) rfl (fun _ h => h) fun entry hentry => .inl ⟨entry, ?_, rfl⟩
      rw [htop.split]
      exact List.mem_append.mpr ((List.mem_append.mp hentry).imp_right (List.mem_cons_of_mem _))
  | take before after depth paths path htop =>
      have hmem : ⟨depth, paths ++ [path]⟩ ∈ sh.prefixQueue := by simp [htop.split]
      refine .take path depth rfl rfl rfl ⟨_, hmem, rfl⟩ htop.least fun entry hentry => ?_
      rcases List.mem_append.mp hentry with hentry | hentry
      · exact ⟨entry, by simp [htop.split, hentry], rfl⟩
      · rcases List.mem_cons.mp hentry with rfl | hentry
        · exact ⟨_, hmem, rfl⟩
        · exact ⟨entry, by simp [htop.split, hentry], rfl⟩
  | push call page =>
      refine .keep (by simp) (by simp) (fun _ h => h) fun entry hentry => ?_
      unfold Shared.pushPrefixes at hentry
      split at hentry
      · exact .inl ⟨entry, hentry, rfl⟩
      · rcases List.mem_cons.mp hentry with rfl | hentry
        · exact .inr ⟨_, rfl, rfl⟩
        · exact .inl ⟨entry, hentry, rfl⟩
  | lastPage call page hlast => exact .keep (by simp) rfl (fun _ => hnone) (hsame rfl)
  | _ => exact .keep (by simp) rfl (fun _ h => h) (hsame rfl)

-- What get_next_prefix returns was queued, and nothing queued was above it.
theorem WorkerStep.taken_least {path : CommonPrefix} {depth : Nat}
    (h : WorkerStep config response sh .scanQueue sh' (.taken path depth)) :
    (path, depth) ∈ sh.prefixQueue.items ∧ ∀ other ∈ sh.prefixQueue.items, depth ≤ other.2 := by
  cases h with
  | take before after depth paths path htop =>
      refine ⟨by simp [htop.split, items_append, items_cons], fun other hother => ?_⟩
      obtain ⟨entry, hentry, hother⟩ := List.mem_flatMap.mp hother
      obtain ⟨_, -, rfl⟩ := List.mem_map.mp hother
      exact htop.least entry hentry

theorem item?_of_not_started (hw : w.started = 0) : w.item? = none := by
  cases w with
  | pending | finished => rfl
  | _ => cases hw

end Worker

namespace Recorded

variable {config : Config} {s : Recorded} {t : Crawl}

theorem breadthFirst_construct : BreadthFirst construct := by
  refine ⟨rfl, List.Pairwise.nil, by simp [construct, depths], fun entry hentry => ?_, ?_⟩
  · obtain rfl := List.mem_singleton.mp hentry
    simp [construct, level, depths]
  · simp [construct, ListAllObjects.construct]

theorem BreadthFirst.keep (hs : s.BreadthFirst) (htaken : t.shared.taken = s.crawl.shared.taken)
    (hqueue : ∀ entry ∈ t.shared.prefixQueue, s.level ≤ entry.depth ∧ entry.depth ≤ s.level + 1)
    (hlisting : ∀ w ∈ t.workers, ∀ item ∈ w.item?, item.2 = s.level) :
    BreadthFirst ⟨t, s.returned⟩ :=
  ⟨hs.returned.trans htaken.symm, hs.sorted, hs.passed, hqueue, hlisting⟩

theorem BreadthFirst.take (hs : s.BreadthFirst) {path : CommonPrefix} {depth : Nat}
    (htaken : t.shared.taken = s.crawl.shared.taken ++ [path])
    (htop : ∃ entry ∈ s.crawl.shared.prefixQueue, entry.depth = depth)
    (hqueue : ∀ entry ∈ t.shared.prefixQueue, depth ≤ entry.depth ∧
      ∃ other ∈ s.crawl.shared.prefixQueue, other.depth = entry.depth)
    (hlisting : ∀ w ∈ t.workers, ∀ item ∈ w.item?, item.2 = depth) :
    BreadthFirst ⟨t, s.returned ++ [(path, depth)]⟩ := by
  have hdepths : depths ⟨t, s.returned ++ [(path, depth)]⟩ = s.depths ++ [depth] := by simp [depths]
  have hlevel : level ⟨t, s.returned ++ [(path, depth)]⟩ = depth := by simp [level, hdepths]
  have hle : s.level ≤ depth := by
    obtain ⟨entry, hentry, rfl⟩ := htop
    exact (hs.queued entry hentry).1
  have hbefore : ∀ earlier ∈ s.depths, earlier ≤ depth := fun earlier h => (hs.passed earlier h).trans hle
  refine ⟨?_, ?_, ?_, ?_, ?_⟩
  · rw [List.map_append, hs.returned, htaken]
    rfl
  · rw [hdepths, List.pairwise_append]
    refine ⟨hs.sorted, List.pairwise_singleton _ _, fun earlier hearlier last hlast => ?_⟩
    obtain rfl := List.mem_singleton.mp hlast
    exact hbefore earlier hearlier
  · rw [hdepths, hlevel]
    intro earlier hearlier
    rcases List.mem_append.mp hearlier with hearlier | hlast
    · exact hbefore earlier hearlier
    · exact (List.mem_singleton.mp hlast).le
  · rw [hlevel]
    intro entry hentry
    obtain ⟨hleast, other, hother, hdepth⟩ := hqueue entry hentry
    have := (hs.queued other hother).2
    exact ⟨hleast, by omega⟩
  · rw [hlevel]
    exact hlisting

theorem breadthFirst_worker (ha : Accounted s.crawl) (hsingle : s.SingleWorker) (hs : s.BreadthFirst)
    {response : Response} {before after : List WorkerState} {w w' : WorkerState} {sh' : Shared}
    (hworkers : s.crawl.workers = before ++ w :: after)
    (h : WorkerStep config response s.crawl.shared w sh' w') (choice : Nat)
    (ht : t = { s.crawl with shared := sh', workers := before ++ w' :: after }) :
    BreadthFirst ⟨t, s.returned ++ returnedAt t (.worker before.length choice response)⟩ := by
  have hat : t.workers[before.length]? = some w' := by simp [ht]
  have hmem : w ∈ s.crawl.workers := by simp [hworkers]
  have hmoved {v : WorkerState} (hv : v ∈ t.workers) : v = w' ∨ v ∈ before ++ after :=
    mem_move.mp (by rwa [ht] at hv)
  cases h.depthStep with
  | take path depth hw hw' htaken htop hleast hqueue =>
      have hreturned : returnedAt t (.worker before.length choice response) = [(path, depth)] := by
        simp [returnedAt, hat, hw']
      -- the one active worker is the one that takes the path
      have hothers : ∀ v ∈ before ++ after, v.item? = none := by
        have hone : w.started = 1 := by rw [hw]; rfl
        have hactive : total WorkerState.started s.crawl.workers ≤ 1 := ha.active ▸ hsingle
        rw [hworkers, total_append, total_cons, hone] at hactive
        have hzero : total WorkerState.started (before ++ after) = 0 := by
          rw [total_append]
          omega
        exact fun v hv => item?_of_not_started ((total_eq_zero_iff _ _).mp hzero v hv)
      rw [hreturned]
      refine hs.take (by rw [ht, htaken]) htop (fun entry hentry => ?_) fun v hv item hitem => ?_
      · rw [ht] at hentry
        obtain ⟨other, hother, heq⟩ := hqueue entry hentry
        exact ⟨heq ▸ hleast other hother, other, hother, heq⟩
      · rcases hmoved hv with rfl | hv
        · rw [hw'] at hitem
          obtain rfl := Option.some.inj hitem
          rfl
        · rw [hothers v hv] at hitem
          cases hitem
  | keep hw' htaken hitem hqueue =>
      have hreturned : returnedAt t (.worker before.length choice response) = [] := by
        simp only [returnedAt, hat]
        split
        · rename_i path depth heq
          exact absurd (Option.some.inj heq) (hw' path depth)
        · rfl
      rw [hreturned, List.append_nil]
      refine hs.keep (by rw [ht, htaken]) (fun entry hentry => ?_) fun v hv item hlisting => ?_
      · rw [ht] at hentry
        rcases hqueue entry hentry with ⟨other, hother, heq⟩ | ⟨item, hown, heq⟩
        · exact heq ▸ hs.queued other hother
        · have := hs.listing w hmem item hown
          omega
      · rcases hmoved hv with rfl | hv
        · exact hs.listing w hmem item (hitem item hlisting)
        · refine hs.listing v ?_ item hlisting
          rw [hworkers]
          exact mem_move.mpr (.inr hv)

theorem breadthFirst_step {action : Action} {t : Recorded} (ha : Accounted s.crawl)
    (hsingle : s.SingleWorker) (hs : s.BreadthFirst) (h : recordedStep config s action = some t) :
    t.BreadthFirst := by
  obtain ⟨t, hstep, rfl⟩ := Option.map_eq_some_iff.mp h
  cases step_sound hstep with
  | worker index choice response before after w w' sh' hworkers hindex hw =>
      subst hindex
      exact breadthFirst_worker ha hsingle hs hworkers hw choice rfl
  | manager choice hm =>
      have hreturned : returnedAt t (.manager choice) = [] := rfl
      rw [hreturned, List.append_nil]
      refine hs.keep hm.histories.1 (fun entry hentry => ?_) ?_
      · exact hs.queued entry (hm.queue_sublist.subset hentry)
      · rw [hm.workers_eq]
        exact hs.listing
  | frame _ haction hframe =>
      have hreturned : returnedAt t action = [] := by
        cases action with
        | worker index choice response => exact absurd rfl (haction index choice response)
        | _ => rfl
      rw [hreturned, List.append_nil]
      cases hframe with
      | touch target stack lines hmanager hworkers hlines hshared =>
          refine hs.keep (by rw [hshared]) ?_ ?_
          · rw [hshared]
            exact hs.queued
          · rw [hworkers]
            exact hs.listing
      | spawn hmanager hworkers hshared =>
          refine hs.keep (by rw [hshared]) ?_ ?_
          · rw [hshared]
            exact hs.queued
          · rw [hworkers]
            exact forall_concat hs.listing fun item hitem => by cases hitem

end Recorded

theorem reachableCrawl_of_recorded {config : Config} {allowed : Recorded → Action → Prop} {s : Recorded}
    (h : Reach (recordedStep config) allowed Recorded.construct s) : ReachableCrawl config s.crawl := by
  induction h with
  | refl => exact .refl
  | tail _ _ hs ih =>
      obtain ⟨t, hstep, rfl⟩ := Option.map_eq_some_iff.mp hs
      exact ih.tail trivial hstep

-- Paths come back in the order of their depths. With one worker this holds of
-- the whole run, and with any number of each single call.
theorem breadth_first (config : Config) :
    (∀ s, ReachableCrawl config s →
      (∀ index choice response t path depth,
        step config s (.worker index choice response) = some t →
        s.workers[index]? = some .scanQueue → t.workers[index]? = some (.taken path depth) →
        (path, depth) ∈ s.shared.prefixQueue.items ∧
          ∀ other ∈ s.shared.prefixQueue.items, depth ≤ other.2) ∧
      ∀ item ∈ s.shared.prefixQueue.items, Below config s.calls item.2 item.1) ∧
    ∀ s, Reach (recordedStep config) (fun s _ => s.SingleWorker) Recorded.construct s →
      s.BreadthFirst := by
  refine ⟨fun s h => ⟨?_, fun item hitem => ?_⟩, fun s h => ?_⟩
  · intro index choice response t path depth hstep hscan htaken
    cases step_inv hstep with
    | worker _ _ _ w w' sh' hw hworker =>
        have hlt := (List.getElem?_eq_some_iff.mp hw).1
        obtain rfl : w' = .taken path depth :=
          Option.some.inj ((List.getElem?_set_self hlt).symm.trans htaken)
        obtain rfl : w = .scanQueue := Option.some.inj (hw.symm.trans hscan)
        exact hworker.taken_least
  · exact h.provenance.below item (Crawl.mem_items.mpr (.inl hitem))
  · exact h.invariant_of (fun s hs => (reachableCrawl_of_recorded hs).accounted) Recorded.breadthFirst_construct
      fun _ _ _ hsingle ha hs hstep => Recorded.breadthFirst_step ha hsingle hs hstep

-- A single worker lists the root, then the prefix that it has.
def rootThenPrefixRun : List Action := secondCallRun ++ popAndTake

theorem breadth_first_single :
    ∃ s : Recorded, s.depths = [0, 1] ∧ s.BreadthFirst ∧ ReachableCrawl defaultConfig s.crawl ∧
      ∀ item ∈ s.crawl.shared.prefixQueue.items, Below defaultConfig s.crawl.calls item.2 item.1 := by
  have hrun : (run (guarded (recordedStep defaultConfig) fun s _ => decide s.SingleWorker)
      Recorded.construct rootThenPrefixRun).map Recorded.depths = some [0, 1] := by decide +kernel
  obtain ⟨s, hs, hdepths⟩ := Option.map_eq_some_iff.mp hrun
  have hreach := (Reach.of_run hs).mono fun _ _ hsingle => of_decide_eq_true hsingle
  have hcrawl := reachableCrawl_of_recorded hreach
  exact ⟨s, hdepths, (breadth_first defaultConfig).2 s hreach, hcrawl,
    ((breadth_first defaultConfig).1 s.crawl hcrawl).2⟩

end S3Cpp.Tools.ListAllObjects
