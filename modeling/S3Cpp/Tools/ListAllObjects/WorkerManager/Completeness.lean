import S3Cpp.Tools.ListAllObjects.Server
import S3Cpp.Tools.ListAllObjects.WorkerManager.Completion

namespace S3Cpp.Tools.ListAllObjects

open Aws.S3 Aws.S3.Client Library.Population Library.Delimited Library.Transition Library.Xml

-- The crawl with workers that anybody spawns or asks to leave at any time.
inductive FreeAction
  | crawl (action : Action)
  | spawn
  | retarget (target : Nat)

def freeStep (config : Config) (s : Crawl) : FreeAction → Option Crawl
  | .crawl action => step config s action
  | .spawn => some { s with workers := s.workers ++ [.pending] }
  | .retarget target => some { s with shared.metrics.targetWorkers := target }

-- Among its runs are those of the program, whose scaling worker alone spawns.
theorem reach_free {config : Config} {allowed : Crawl → FreeAction → Prop} {s t : Crawl}
    (h : Reach (step config) (fun s action => allowed s (.crawl action)) s t) :
    Reach (freeStep config) allowed s t := by
  induction h with
  | refl => exact .refl
  | tail _ hallowed hstep ih => exact .tail (a := FreeAction.crawl _) ih hallowed hstep

-- A step in which the server, if it is asked, answers.
def Server.serves (server : Server) (config : Config) (s : Crawl) : FreeAction → Bool
  | .crawl (.worker index _ response) =>
      match s.workers[index]? with
      | some (.listOne call token retries) => server.answers config call.path token retries response
      | _ => true
  | _ => true

def Fresh (pages : List Page) : Prop := ∀ page ∈ pages, page.repeatsToken = false

namespace Server

variable (server : Server)

-- The pages from a token on, where there are any.
noncomputable def pagesFrom (path : CommonPrefix) (token : Option Str) : List Page :=
  open Classical in
  if h : ∃ pages, Chain (server.answer (path.Prefix.getD [])) token pages then h.choose else []

theorem pagesFrom_eq {path : CommonPrefix} {token : Option Str} {pages : List Page}
    (h : Chain (server.answer (path.Prefix.getD [])) token pages) :
    server.pagesFrom path token = pages := by
  have hexists : ∃ pages, Chain (server.answer (path.Prefix.getD [])) token pages := ⟨pages, h⟩
  rw [pagesFrom, dif_pos hexists]
  exact hexists.choose_spec.unique h

-- The pages that can still come for a prefix are some and have no repeated token.
def Going (path : CommonPrefix) (token : Option Str) : Prop :=
  Chain (server.answer (path.Prefix.getD [])) token (server.pagesFrom path token) ∧
    Fresh (server.pagesFrom path token)

theorem going_none (path : CommonPrefix) : server.Going path none ∧
    Listing server.keys (path.Prefix.getD []) (server.pagesFrom path none) := by
  obtain ⟨pages, hchain, hlisting⟩ := server.faithful (path.Prefix.getD [])
  rw [Going, server.pagesFrom_eq hchain]
  exact ⟨⟨hchain, fun page hpage => repeatsToken_eq_false (hlisting.fresh page hpage)⟩, hlisting⟩

-- A page and what comes after it.
theorem Going.page {path : CommonPrefix} {token : Option Str} (h : server.Going path token) :
    (server.answer (path.Prefix.getD []) token).repeatsToken = false ∧
      match (server.answer (path.Prefix.getD []) token).nextToken with
      | none => server.pagesFrom path token = [server.answer (path.Prefix.getD []) token]
      | some next => server.Going path (some next) ∧
          server.pagesFrom path token =
            server.answer (path.Prefix.getD []) token :: server.pagesFrom path (some next) := by
  obtain ⟨hchain, hfresh⟩ := h
  generalize server.pagesFrom path token = pages at hchain hfresh
  cases hchain with
  | last hlast =>
      rw [hlast]
      exact ⟨hfresh _ (by simp), rfl⟩
  | more hnext hrest =>
      rw [hnext]
      refine ⟨hfresh _ (by simp), ?_, ?_⟩
      · rw [Going, server.pagesFrom_eq hrest]
        exact ⟨hrest, fun page hpage => hfresh page (List.mem_cons_of_mem _ hpage)⟩
      · rw [server.pagesFrom_eq hrest]

-- Where the listing of a worker can go on.
def OnCourse : WorkerState → Prop
  | .listOne call token _ => server.Going call.path token
  | .writeObjects call page | .lockQueue call page | .countObjects call page | .pushPrefixes call page
  | .countOp call page => ∀ next, page.nextToken = some next → server.Going call.path (some next)
  | _ => True

end Server

-- What a worker has counted no share of yet.
section Debts

variable (server : Server) (ledger : Ledger server.keys)

noncomputable def Server.laterDebt (path : CommonPrefix) (page : Page) : Nat :=
  match page.nextToken with
  | none => 0
  | some next => total ledger.pageDebt (server.pagesFrom path (some next))

noncomputable def Server.debt : WorkerState → Nat
  | .taken path _ => total ledger.pageDebt (server.pagesFrom path none)
  | .listOne call token _ => total ledger.pageDebt (server.pagesFrom call.path token)
  | .writeObjects call page => ledger.pageDebt page + server.laterDebt ledger call.path page
  | .lockQueue call page | .countObjects call page | .pushPrefixes call page =>
      ledger.prefixDebt page + server.laterDebt ledger call.path page
  | .countOp call page => server.laterDebt ledger call.path page
  | _ => 0

end Debts

namespace Ledger

variable {keys : List Str} (ledger : Ledger keys)

def spent (sh : Shared) : Nat :=
  total ledger.call (sh.taken.map CommonPrefix.Prefix) + total ledger.key (sh.handed.map Object.Key)

def queued (sh : Shared) : Nat :=
  total ledger.share ((PrefixQueue.paths sh.prefixQueue).map CommonPrefix.Prefix)

end Ledger

-- The objects of a page that is written and not yet counted.
def WorkerState.uncounted : WorkerState → Nat
  | .lockQueue _ page | .countObjects _ page => page.contents.length
  | _ => 0

section Worker

variable {config : Config} {server : Server} {response : Response} {sh sh' : Shared}
  {w w' : WorkerState}

theorem WorkerStep.found_eq (h : WorkerStep config response sh w sh' w') :
    sh'.metrics.totalObjectsFound + w'.uncounted + sh.handed.length =
      sh.metrics.totalObjectsFound + w.uncounted + sh'.handed.length := by
  cases h with
  | list call token retries h => cases h <;> rfl
  | write call page =>
      simp [WorkerState.uncounted, Shared.writeObjects]
      omega
  | count call page => simp [WorkerState.uncounted]
  | push call page => simp [WorkerState.uncounted]
  | _ => rfl

-- A faithful server is asked again or sends the next page.
theorem ListStep.served {call : Call} {token : Option Str} {retries : Nat}
    (h : ListStep config response sh call token retries sh' w')
    (hserved : server.answers config call.path token retries response = true)
    (hgoing : server.Going call.path token) :
    (∃ lines call', sh' = sh.print lines ∧ w' = .listOne call' token (retries + 1) ∧ call'.path = call.path) ∨
      sh' = sh ∧ w' = .writeObjects (call.receive token response)
        (server.answer (call.path.Prefix.getD []) token) := by
  unfold Server.answers at hserved
  cases h with
  | throws what hr => simp [hr] at hserved
  | retry error hr hmore => exact .inl ⟨_, _, rfl, rfl, rfl⟩
  | giveUp error hr hlast =>
      simp only [hr, decide_eq_true_eq] at hserved
      omega
  | repeated page hr hrepeats =>
      simp only [hr, decide_eq_true_eq] at hserved
      have := hgoing.page.1
      rw [← hserved, hrepeats] at this
      cases this
  | accept page hr hrepeats =>
      simp only [hr, decide_eq_true_eq] at hserved
      exact .inr ⟨rfl, by rw [hserved]⟩

theorem WorkerStep.onCourse (h : WorkerStep config response sh w sh' w')
    (hserved : ∀ call token retries, w = .listOne call token retries →
      server.answers config call.path token retries response = true)
    (hw : server.OnCourse w) : server.OnCourse w' := by
  cases h with
  | release path depth => exact (server.going_none path).1
  | list call token retries h =>
      rcases h.served (hserved call token retries rfl) hw with ⟨lines, call', -, rfl, hpath⟩ | ⟨-, rfl⟩
      · rw [Server.OnCourse, hpath]
        exact hw
      · intro next hnext
        have hpage := (Server.Going.page server hw).2
        rw [hnext] at hpage
        exact hpage.1
  | write | lockAgain | count | push => exact hw
  | nextPage call page token htoken => exact hw token htoken
  | _ => trivial

theorem laterDebt_of_going (ledger : Ledger server.keys) {path : CommonPrefix} {token : Option Str}
    (h : server.Going path token) :
    total ledger.pageDebt (server.pagesFrom path token) =
      ledger.pageDebt (server.answer (path.Prefix.getD []) token) +
        server.laterDebt ledger path (server.answer (path.Prefix.getD []) token) := by
  have hpage := (Server.Going.page server h).2
  unfold Server.laterDebt
  split at hpage
  · rename_i hlast
    simp only [hpage, total_cons, total_nil]
  · rename_i next hnext
    simp only [hpage.2, total_cons]

-- What a call owes at its start is what it takes out of the queue.
theorem share_eq (ledger : Ledger server.keys) (path : CommonPrefix) :
    ledger.share path.Prefix =
      ledger.call path.Prefix + total ledger.pageDebt (server.pagesFrom path none) := by
  rw [ledger.balance, ledger.pages_debt (server.going_none path).2]

theorem WorkerStep.balance (ledger : Ledger server.keys) (h : WorkerStep config response sh w sh' w')
    (hserved : ∀ call token retries, w = .listOne call token retries →
      server.answers config call.path token retries response = true)
    (hw : server.OnCourse w) :
    ledger.spent sh' + ledger.queued sh' + server.debt ledger w' =
      ledger.spent sh + ledger.queued sh + server.debt ledger w := by
  cases h with
  | drop before after top htop hnone =>
      simp [Ledger.queued, Ledger.spent, htop.split, PrefixQueue.paths, hnone, Server.debt]
  | take before after depth paths path htop =>
      have hshare := share_eq ledger path
      simp [Ledger.queued, Ledger.spent, htop.split, PrefixQueue.paths, Server.debt]
      omega
  | list call token retries h =>
      rcases h.served (hserved call token retries rfl) hw with ⟨lines, call', rfl, rfl, hpath⟩ | ⟨rfl, rfl⟩
      · simp only [Server.debt, hpath]
        rfl
      · simp only [Server.debt, Call.receive]
        rw [laterDebt_of_going ledger hw]
  | write call page =>
      simp [Ledger.queued, Ledger.spent, Server.debt, Ledger.pageDebt, Shared.writeObjects, Call.hand]
      omega
  | push call page =>
      simp [Ledger.queued, Ledger.spent, Server.debt, Ledger.prefixDebt, Call.queue]
      omega
  | nextPage call page token htoken =>
      simp only [Server.debt, Server.laterDebt, htoken]
      rfl
  | lastPage call page hlast =>
      simp only [Server.debt, Server.laterDebt, hlast]
      rfl
  | _ => rfl

end Worker

-- What holds of every run against a faithful server.
structure OnAccount (server : Server) (ledger : Ledger server.keys) (s : Crawl) : Prop where
  accounted : Accounted s
  course : ∀ w ∈ s.workers, server.OnCourse w
  found : s.shared.metrics.totalObjectsFound + total WorkerState.uncounted s.workers =
    s.shared.handed.length
  balance : ledger.spent s.shared + ledger.queued s.shared + total (server.debt ledger) s.workers =
    ledger.share none

section Runs

variable {config : Config} {server : Server} {ledger : Ledger server.keys} {s t : Crawl}

theorem onAccount_construct : OnAccount server ledger construct where
  accounted := accounted_construct
  course := by simp [construct]
  found := rfl
  balance := by simp [construct, Ledger.spent, Ledger.queued, PrefixQueue.paths]

theorem onAccount_worker {index choice : Nat} {response : Response} (hs : OnAccount server ledger s)
    (hserves : server.serves config s (.crawl (.worker index choice response)) = true)
    (h : step config s (.worker index choice response) = some t) : OnAccount server ledger t := by
  have haccounted := accounted_step hs.accounted h
  cases step_sound h with
  | frame _ haction => exact absurd rfl (haction index choice response)
  | worker _ _ _ before after w w' sh' hworkers hindex hstep =>
      have hget : s.workers[index]? = some w := by simp [hworkers, ← hindex]
      have hserved : ∀ call token retries, w = .listOne call token retries →
          server.answers config call.path token retries response = true := by
        rintro call token retries rfl
        simpa only [Server.serves, hget] using hserves
      have hw := hs.course w (by simp [hworkers])
      have hbalance := hstep.balance ledger hserved hw
      have hfound := hstep.found_eq
      have hmove (f : WorkerState → Nat) : total f (before ++ w' :: after) + f w = total f s.workers + f w' := by
        rw [hworkers]
        exact total_move f before after w w'
      have hothers := hs.course
      rw [hworkers] at hothers
      refine ⟨haccounted, forall_move hothers (hstep.onCourse hserved hw), ?_, ?_⟩
      · have := hs.found
        have := hmove WorkerState.uncounted
        dsimp only
        omega
      · have := hs.balance
        have := hmove (server.debt ledger)
        dsimp only
        omega

theorem onAccount_manager {choice : Nat} (hs : OnAccount server ledger s)
    (h : step config s (.manager choice) = some t) : OnAccount server ledger t := by
  have haccounted := accounted_step hs.accounted h
  cases managerStep_sound h with
  | drain before after top hm htop =>
      have hknows := hs.accounted.manager
      rw [ManagerKnows, hm] at hknows
      exact hknows.elim
  | drop before after top hm htop hnone =>
      have hpaths : PrefixQueue.paths s.shared.prefixQueue = PrefixQueue.paths (before ++ after) := by
        simp [htop.split, PrefixQueue.paths, hnone]
      have hbalance := hs.balance
      rw [Ledger.queued, hpaths] at hbalance
      exact ⟨haccounted, hs.course, hs.found, hbalance⟩
  | _ => exact ⟨haccounted, hs.course, hs.found, hs.balance⟩

theorem onAccount_frame (hs : OnAccount server ledger s) (h : FrameStep s t) : OnAccount server ledger t := by
  have haccounted := accounted_frame hs.accounted h
  cases h with
  | touch target stack lines hmanager hworkers hlines hshared =>
      refine ⟨haccounted, hworkers ▸ hs.course, ?_, ?_⟩
      · rw [hworkers, hshared]
        exact hs.found
      · rw [hworkers, hshared]
        exact hs.balance
  | spawn hmanager hworkers hshared =>
      refine ⟨haccounted, ?_, ?_, ?_⟩
      · rw [hworkers]
        exact forall_concat hs.course trivial
      · rw [hworkers, hshared, total_append]
        exact hs.found
      · rw [hworkers, hshared, total_append]
        exact hs.balance

theorem onAccount_step {action : FreeAction} (hserves : server.serves config s action = true)
    (hs : OnAccount server ledger s) (h : freeStep config s action = some t) :
    OnAccount server ledger t := by
  cases action with
  | spawn =>
      obtain rfl := Option.some.inj h
      exact onAccount_frame hs (.spawn rfl rfl rfl)
  | retarget target =>
      obtain rfl := Option.some.inj h
      exact onAccount_frame hs (.touch _ _ _ rfl rfl List.prefix_rfl rfl)
  | crawl action =>
      have h : step config s action = some t := h
      cases action with
      | worker index choice response => exact onAccount_worker hs hserves h
      | manager choice => exact onAccount_manager hs h
      | scaling => exact onAccount_frame hs (scalingStep_sound h).frame
      | writer failure => exact onAccount_frame hs (writerStep_sound h).frame
      | scalingTimer | writerTimer =>
          cases step_sound h with
          | frame _ _ hframe => exact onAccount_frame hs hframe

end Runs

-- The states of a crawl against the server.
abbrev Server.Crawled (server : Server) (config : Config) (s : Crawl) : Prop :=
  Reach (freeStep config) (fun s action => server.serves config s action = true) construct s

section Exit

variable {config : Config} {server : Server} {s : Crawl}

theorem Server.Crawled.onAccount (h : server.Crawled config s) (ledger : Ledger server.keys) :
    OnAccount server ledger s :=
  h.invariant onAccount_construct fun _ _ _ hserves hs ht => onAccount_step hserves hs ht

theorem debt_of_idle (ledger : Ledger server.keys) {w : WorkerState} (h : w.Idle) :
    server.debt ledger w = 0 := by
  cases w with
  | pending | getNextPrefix | scanQueue | isDone | leaving | finished => rfl
  | _ => exact h.elim

theorem uncounted_of_idle {w : WorkerState} (h : w.Idle) : w.uncounted = 0 := by
  cases w with
  | pending | getNextPrefix | scanQueue | isDone | leaving | finished => rfl
  | _ => exact h.elim

theorem OnAccount.spent_eq {ledger : Ledger server.keys} (h : OnAccount server ledger s)
    (hexit : s.manager.Exited) : ledger.spent s.shared = ledger.share none := by
  have hq := h.accounted.quiet hexit
  have hdebt : total (server.debt ledger) s.workers = 0 :=
    (total_eq_zero_iff _ _).mpr fun w hw => debt_of_idle ledger (hq.workers w hw)
  have hbalance := h.balance
  rw [hdebt, Ledger.queued, hq.queue] at hbalance
  exact hbalance

theorem Server.handed_perm_of_spent (hspent : ∀ ledger : Ledger server.keys, ledger.spent s.shared = ledger.share none) :
    (s.shared.handed.map Object.Key).Perm (server.keys.map some) := by
  apply List.perm_iff_count.mpr
  intro y
  by_cases hy : ∃ x ∈ server.keys, y = some x
  · obtain ⟨x, hx, rfl⟩ := hy
    have hspent := hspent (keyLedger server.nodup x hx)
    simp only [Ledger.spent, keyLedger, total_zero, Nat.zero_add, total_count, Option.getD_none,
      List.nil_prefix, if_true] at hspent
    rw [hspent, List.count_eq_one_of_mem (server.nodup.map (Option.some_injective _))
      (List.mem_map_of_mem hx)]
  · have hother : ∀ x ∈ server.keys, y ≠ some x := fun x hx h => hy ⟨x, hx, h⟩
    have hspent := hspent (otherLedger y hother)
    simp only [Ledger.spent, otherLedger, total_zero, Nat.zero_add, total_count] at hspent
    rw [hspent, List.count_eq_zero_of_not_mem]
    simpa [eq_comm] using hother

theorem Server.Crawled.handed_perm (h : server.Crawled config s) (hexit : s.manager.Exited) :
    (s.shared.handed.map Object.Key).Perm (server.keys.map some) :=
  server.handed_perm_of_spent fun ledger => (h.onAccount ledger).spent_eq hexit

theorem Server.Crawled.taken_perm (h : server.Crawled config s) (hexit : s.manager.Exited) :
    (s.shared.taken.map CommonPrefix.Prefix).Perm (none :: (prefixes slash server.keys).map some) := by
  apply List.perm_iff_count.mpr
  intro y
  by_cases hy : ∃ q ∈ prefixes slash server.keys, y = some q
  · obtain ⟨q, hq, rfl⟩ := hy
    have hspent := (h.onAccount (prefixLedger q hq)).spent_eq hexit
    simp only [Ledger.spent, prefixLedger, total_zero, Nat.add_zero, total_count, Option.getD_none,
      List.nil_prefix, if_true] at hspent
    rw [hspent, List.count_cons_of_ne (by simp),
      List.count_eq_one_of_mem ((nodup_prefixes _).map (Option.some_injective _)) (List.mem_map_of_mem hq)]
  · have hother : ∀ q ∈ prefixes slash server.keys, y ≠ some q := fun q hq h => hy ⟨q, hq, h⟩
    have hspent := (h.onAccount (otherCallLedger y hother)).spent_eq hexit
    simp only [Ledger.spent, otherCallLedger, total_zero, Nat.add_zero, total_count] at hspent
    have hnone : ((prefixes slash server.keys).map some).count y = 0 :=
      List.count_eq_zero_of_not_mem (by simpa [eq_comm] using hother)
    rw [hspent, List.count_cons, hnone, Nat.zero_add]
    simp

end Exit

-- When ~WorkerManager leaves its loop every key has been handed to the write
-- stack and counted once, and every prefix has been listed once.
theorem crawl_complete (server : Server) (config : Config) (s : Crawl) (h : server.Crawled config s)
    (hexit : s.manager.Exited) :
    (s.shared.handed.map Object.Key).Perm (server.keys.map some) ∧
      s.shared.metrics.totalObjectsFound = server.keys.length ∧
      (s.shared.ended.map fun entry => entry.1.path.Prefix).Perm
        (none :: (prefixes slash server.keys).map some) := by
  have hhanded := h.handed_perm hexit
  have haccount := h.onAccount (otherLedger none (by simp))
  refine ⟨hhanded, ?_, ?_⟩
  · have huncounted : total WorkerState.uncounted s.workers = 0 :=
      (total_eq_zero_iff _ _).mpr fun w hw =>
        uncounted_of_idle ((haccount.accounted.quiet hexit).workers w hw)
    have hlength := hhanded.length_eq
    rw [List.length_map, List.length_map] at hlength
    have := haccount.found
    omega
  · have hended := (haccount.accounted.ended_perm hexit).map CommonPrefix.Prefix
    rw [Shared.endedPaths, List.map_map] at hended
    exact hended.trans (h.taken_perm hexit)

-- A server that sends the keys on a first page and the prefixes on a second.
def twoPages (keys : List Str) (nodup : keys.Nodup) : Server where
  keys := keys
  nodup := nodup
  answer
    | p, none => {
        token := none
        nextToken := some (ascii "next")
        contents := (direct slash keys p).map fun key => ⟨none, none, some [], some key, some 1⟩
        commonPrefixes := [] }
    | p, some token => {
        token := some token
        nextToken := none
        contents := []
        commonPrefixes := (below slash keys p).map fun q => ⟨some q⟩ }
  faithful p := by
    refine ⟨_, .more rfl (.last rfl), ?_, ?_, ?_⟩
    · simp [Function.comp_def]
    · simp [Function.comp_def]
    · simp

def twoKeys : Server := twoPages [ascii "a", ascii "b/c"] (by decide)

def keyElement (key : String) : Node :=
  .element (ascii "Contents") [textElement "Key" key, textElement "Size" "1"]

-- One of ten workers lists the root and what it finds below it.
def twoKeysRun : List Action :=
  let first (keys : List Node) : Action := .worker 0 0 (listingResponse
    (keys ++ [textElement "IsTruncated" "true", textElement "NextContinuationToken" "next"]))
  let second (prefixes : List Node) : Action := .worker 0 0 (listingResponse
    (prefixes ++ [textElement "IsTruncated" "false", textElement "ContinuationToken" "next"]))
  firstTick ++ workerSteps 0 4 ++ [first [keyElement "a"]] ++ workerSteps 0 5 ++
    [second [prefixElement "b/"]] ++ workerSteps 0 9 ++ [.worker 0 1 (.failed [])] ++ workerSteps 0 2 ++
    [first [keyElement "b/c"]] ++ workerSteps 0 5 ++ [second []] ++ workerSteps 0 7 ++
    List.replicate 6 (.manager 0)

theorem crawl_complete_twoKeys :
    ∃ s, twoKeys.Crawled defaultConfig s ∧ s.manager.Exited ∧
      (s.shared.handed.map Object.Key).Perm [some (ascii "a"), some (ascii "b/c")] ∧
      s.shared.metrics.totalObjectsFound = 2 ∧
      (s.shared.ended.map fun entry => entry.1.path.Prefix).Perm [none, some (ascii "b/")] := by
  let check (s : Crawl) (action : Action) := twoKeys.serves defaultConfig s (.crawl action)
  have hrun : (run (guarded (step defaultConfig) check) construct twoKeysRun).map
      (fun s => decide s.manager.Exited) = some true := by decide +kernel
  obtain ⟨s, hs, hexit⟩ := Option.map_eq_some_iff.mp hrun
  have hexit := of_decide_eq_true hexit
  have hcrawled : twoKeys.Crawled defaultConfig s := reach_free (Reach.of_run hs)
  have hprefixes : prefixes slash twoKeys.keys = [ascii "b/"] := by decide +kernel
  obtain ⟨hhanded, hfound, hended⟩ := crawl_complete twoKeys defaultConfig s hcrawled hexit
  rw [hprefixes] at hended
  exact ⟨s, hcrawled, hexit, hhanded, hfound, hended⟩

end S3Cpp.Tools.ListAllObjects
