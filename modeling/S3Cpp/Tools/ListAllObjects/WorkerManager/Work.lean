import S3Cpp.Tools.ListAllObjects.WorkerManager.Delivery
import S3Cpp.Tools.ListAllObjects.WorkerManager.QueueAccounting

namespace S3Cpp.Tools.ListAllObjects

open Aws.S3 Aws.S3.Client Aws.Iam Library Library.Delimited Library.Population Library.Transition

section Weights

variable {keys : List Str}

-- Whether a prefix lies below one that is directly below a path.
def above (keys : List Str) (path : Option Str) (q : Str) : Nat :=
  total (fun x => if x <+: q then 1 else 0) (below slash keys (path.getD []))

theorem above_split {q : Str} (hq : q ∈ prefixes slash keys) (x : Str) :
    (if x <+: q then 1 else 0) = (if q = x then 1 else 0) + above keys (some x) q := by
  have hbalance := (prefixLedger q hq).balance (some x)
  simp only [prefixLedger, total_zero, Nat.zero_add, total_map_some, Option.getD_some, Option.some.injEq]
    at hbalance
  rw [hbalance, above, Option.getD_some]
  simp only [eq_comm]

theorem total_above (weight : Option Str → Nat) {found : List Str}
    (hfound : ∀ x ∈ found, x ∈ prefixes slash keys) :
    total (fun q => weight (some q) * total (fun x => if x <+: q then 1 else 0) found) (prefixes slash keys) =
      total (fun x => weight (some x) +
        total (fun q => weight (some q) * above keys (some x) q) (prefixes slash keys)) found := by
  induction found with
  | nil => simp
  | cons x found ih =>
      rw [List.forall_mem_cons] at hfound
      have hown : total (fun q => weight (some q) * if q = x then 1 else 0) (prefixes slash keys) =
          weight (some x) := by
        have hsame : total (fun q => weight (some q) * if q = x then 1 else 0) (prefixes slash keys) =
            total (fun q => weight (some x) * if q = x then 1 else 0) (prefixes slash keys) := by
          refine total_congr fun q _ => ?_
          by_cases hq : q = x
          · rw [hq]
          · simp [hq]
        rw [hsame, total_mul, total_count, List.count_eq_one_of_mem (nodup_prefixes _) hfound.1, Nat.mul_one]
      have hsplit : total (fun q => weight (some q) * if x <+: q then 1 else 0) (prefixes slash keys) =
          weight (some x) +
            total (fun q => weight (some q) * above keys (some x) q) (prefixes slash keys) := by
        rw [← hown, ← total_add]
        refine total_congr fun q hq => ?_
        rw [above_split hq x, Nat.mul_add]
      rw [total_cons, ← hsplit, ← ih hfound.2, ← total_add]
      refine total_congr fun q _ => ?_
      rw [total_cons, Nat.mul_add]

-- A weight for each path, counted with those of all the prefixes below it.
def weightLedger (keys : List Str) (weight : Option Str → Nat) : Ledger keys where
  call := weight
  key _ := 0
  share path := weight path + total (fun q => weight (some q) * above keys path q) (prefixes slash keys)
  balance path := by
    rw [total_zero, Nat.zero_add, total_map_some, ← total_above weight fun _ => mem_prefixes_of_mem_below]
    rfl

end Weights

section Measure

variable (server : Server)

-- The pages that come after a page.
noncomputable def Server.later (path : CommonPrefix) (page : Page) : Nat :=
  match page.nextToken with
  | none => 0
  | some next => (server.pagesFrom path (some next)).length

-- Enough for the steps of any number of workers between two requests.
def pageCost (width : Nat) : Nat := 5 * width + 14

noncomputable def Server.callCost (width : Nat) (path : Option Str) : Nat :=
  pageCost width * (server.pagesFrom ⟨path⟩ none).length + 3

-- What a worker has ahead of it before it takes the next path. One that is about
-- to look whether it is done has more ahead when there is something queued.
noncomputable def Server.ahead (width length : Nat) : WorkerState → Nat
  | .pending => 5
  | .getNextPrefix => 4
  | .scanQueue => 3
  | .taken path _ => pageCost width * (server.pagesFrom path none).length + 5
  | .listOne call token retries =>
      pageCost width * (server.pagesFrom call.path token).length + (maxRetries - retries)
  | .writeObjects call page => pageCost width * server.later call.path page + 5 * width + 13
  | .lockQueue call page => pageCost width * server.later call.path page + 5 * width + 12
  | .countObjects call page => pageCost width * server.later call.path page + 5 * width + 11
  | .pushPrefixes call page => pageCost width * server.later call.path page + 5 * width + 10
  | .countOp call page => pageCost width * server.later call.path page + 8
  | .isDone => if length = 0 then 2 else 7
  | .readActive => 6
  | .readTarget _ => 5
  | .leaving => 1
  | .finished => 0

-- What a step that queues something adds to each of the other workers.
def stirred (length length' : Nat) : Nat := if length < length' then 5 else 0

theorem ahead_le (width : Nat) {length length' : Nat} (w : WorkerState) :
    server.ahead width length' w ≤ server.ahead width length w + stirred length length' := by
  cases w with
  | isDone =>
      simp only [Server.ahead, stirred]
      split <;> split <;> split <;> omega
  | _ => exact Nat.le_add_right _ _

theorem ahead_isDone_le (width length : Nat) : server.ahead width length .isDone ≤ 7 := by
  simp only [Server.ahead]
  split <;> omega

-- The pages from a token on, told by the page that comes first.
theorem length_pagesFrom {path : CommonPrefix} {token : Option Str} (h : server.Going path token) :
    (server.pagesFrom path token).length =
      server.later path (server.answer (path.Prefix.getD []) token) + 1 := by
  have hpage := (Server.Going.page server h).2
  simp only [Server.later]
  cases hnext : (server.answer (path.Prefix.getD []) token).nextToken with
  | none =>
      simp only [hnext] at hpage
      rw [hpage, List.length_singleton]
  | some next =>
      simp only [hnext] at hpage
      rw [hpage.2, List.length_cons]

variable {server} {config : Config} {response : Response} {sh sh' : Shared} {w w' : WorkerState}

-- A step of a worker takes something off what it has ahead, but for one that
-- takes a path, which is paid for.
theorem WorkerStep.ahead_lt {width : Nat} (h : WorkerStep config response sh w sh' w')
    (hserved : ∀ call token retries, w = .listOne call token retries →
      server.answers config call.path token retries response = true)
    (hw : server.OnCourse w) (hremoving : w.removing ≤ sh.metrics.totalQueueLength)
    (hempty : w = .scanQueue → sh.prefixQueue = [] → sh.metrics.totalQueueLength = 0) :
    let cost := total (server.callCost width)
    server.ahead width sh'.metrics.totalQueueLength w' + sh'.prefixQueue.length +
        width * stirred sh.metrics.totalQueueLength sh'.metrics.totalQueueLength +
        cost (sh.taken.map CommonPrefix.Prefix) <
      server.ahead width sh.metrics.totalQueueLength w + sh.prefixQueue.length +
        cost (sh'.taken.map CommonPrefix.Prefix) := by
  intro cost
  cases h with
  | start | lock | goOn | leave | tooMany | readActive | lockAgain | count =>
      simp only [Server.ahead, stirred, Nat.lt_irrefl, if_false, Shared.lock]
      omega
  | done hlength | notDone hlength =>
      simp only [Server.ahead, stirred, Nat.lt_irrefl, if_false, hlength, if_true]
      omega
  | empty hqueue =>
      have hlength := hempty rfl hqueue
      simp only [Server.ahead, stirred, Nat.lt_irrefl, if_false, Shared.unlock, hlength, if_true]
      omega
  | drop before after top htop hnone =>
      simp only [Server.ahead, stirred, Nat.lt_irrefl, if_false, htop.split, List.length_append,
        List.length_cons]
      omega
  | take before after depth paths path htop =>
      have hcost : cost ((sh.taken ++ [path]).map CommonPrefix.Prefix) =
          cost (sh.taken.map CommonPrefix.Prefix) +
            (pageCost width * (server.pagesFrom path none).length + 3) := by
        simp [cost, Server.callCost]
      simp only [Server.ahead, stirred, Nat.lt_irrefl, if_false, htop.split, List.length_append,
        List.length_cons, hcost]
      omega
  | release path depth =>
      have hless : decrement sh.metrics.totalQueueLength < sh.metrics.totalQueueLength := by
        simp only [WorkerState.removing] at hremoving
        rw [decrement, if_neg (by omega)]
        omega
      simp only [Server.ahead, stirred, Nat.lt_asymm hless, if_false, Shared.unlock, maxRetries, Call.start]
      omega
  | list call token retries h =>
      have hpages := length_pagesFrom server hw
      have hmore : ∀ call', w' = .listOne call' token (retries + 1) → retries < maxRetries := by
        rintro call' rfl
        cases h
        assumption
      rcases h.served (hserved call token retries rfl) hw with ⟨lines, call', rfl, rfl, hpath⟩ | ⟨rfl, rfl⟩
      · have hmore := hmore call' rfl
        simp only [Server.ahead, stirred, Nat.lt_irrefl, if_false, Shared.print, hpath]
        omega
      · have hcost : pageCost width * (server.pagesFrom call.path token).length =
            pageCost width * server.later call.path (server.answer (call.path.Prefix.getD []) token) +
              (5 * width + 14) := by
          rw [hpages, Nat.mul_succ, pageCost]
        simp only [Server.ahead, stirred, Nat.lt_irrefl, if_false, hcost, Call.receive]
        omega
  | write call page =>
      have hmetrics : (sh.writeObjects config page.contents).metrics = sh.metrics := rfl
      have hqueue : (sh.writeObjects config page.contents).prefixQueue = sh.prefixQueue := rfl
      have htaken : (sh.writeObjects config page.contents).taken = sh.taken := rfl
      simp only [Server.ahead, stirred, Nat.lt_irrefl, if_false, hmetrics, hqueue, htaken, Call.hand]
      omega
  | push call page =>
      have hentries : (sh.pushPrefixes call.depth page.commonPrefixes).prefixQueue.length ≤
          sh.prefixQueue.length + 1 := by
        unfold Shared.pushPrefixes
        split <;> simp
      have hstirred : width * stirred sh.metrics.totalQueueLength
          (sh.metrics.totalQueueLength + page.commonPrefixes.length) ≤ width * 5 := by
        refine Nat.mul_le_mul_left _ ?_
        unfold stirred
        split <;> omega
      simp only [Server.ahead, Shared.pushPrefixes_metrics, Shared.pushPrefixes_taken, Call.queue]
      omega
  | nextPage call page token htoken =>
      simp only [Server.ahead, stirred, Nat.lt_irrefl, if_false, Shared.unlock, maxRetries, Server.later,
        htoken]
      omega
  | lastPage call page hlast =>
      have hdone := ahead_isDone_le server width sh.metrics.totalQueueLength
      have hcount : 8 ≤ server.ahead width sh.metrics.totalQueueLength (.countOp call page) :=
        Nat.le_add_left _ _
      simp only [stirred, Nat.lt_irrefl, if_false, Shared.unlock, Shared.finish]
      omega

-- The weight of each call is what its worker has ahead of it at the start.
noncomputable def Server.calls (server : Server) (width : Nat) : Ledger server.keys :=
  weightLedger server.keys (server.callCost width)

-- All that lies ahead of the workers while there are no more of them than `width`.
noncomputable def Server.workLeft (server : Server) (width : Nat) (s : Crawl) : Nat :=
  total (server.ahead width s.shared.metrics.totalQueueLength) s.workers + s.shared.prefixQueue.length +
    (server.calls width).queued s.shared + total (server.debt (server.calls width)) s.workers

end Measure

def Action.isWorker : Action → Bool
  | .worker _ _ _ => true
  | _ => false

section Steps

variable {server : Server} {config : Config} {width : Nat} {s t : Crawl} {action : Action}

theorem removing_of_scanQueue (ha : Accounted s) (h : .scanQueue ∈ s.workers) :
    total WorkerState.removing s.workers = 0 := by
  have hbit : mutexBit s.shared ≤ 1 := Bool.toNat_le _
  have hmutex := ha.mutex
  obtain ⟨before, after, hsplit⟩ := List.append_of_mem h
  have hless (l : List WorkerState) : total WorkerState.removing l ≤ total WorkerState.holding l := by
    have hle := @total_le_add _ WorkerState.removing WorkerState.holding l 0 fun w _ => by
      cases w <;> simp [WorkerState.removing, WorkerState.holding]
    simpa using hle
  have hbefore := hless before
  have hafter := hless after
  have hone : WorkerState.scanQueue.holding = 1 := rfl
  have hzero : WorkerState.scanQueue.removing = 0 := rfl
  simp only [hsplit, total_append, total_cons] at hmutex ⊢
  omega

theorem Server.workLeft_worker {index choice : Nat} {response : Response}
    (hs : OnAccount server (server.calls width) s)
    (hserves : server.serves config s (.crawl (.worker index choice response)) = true)
    (h : step config s (.worker index choice response) = some t) (hwidth : s.workers.length ≤ width) :
    server.workLeft width t < server.workLeft width s ∧ t.workers.length = s.workers.length := by
  cases step_sound h with
  | frame _ haction => exact absurd rfl (haction index choice response)
  | worker _ _ _ before after w w' sh' hworkers hindex hstep =>
      have hget : s.workers[index]? = some w := by simp [hworkers, ← hindex]
      have hmem : w ∈ s.workers := List.mem_of_getElem? hget
      have hserved : ∀ call token retries, w = .listOne call token retries →
          server.answers config call.path token retries response = true := by
        rintro call token retries rfl
        simpa only [Server.serves, hget] using hserves
      have hlength := hs.accounted.length
      have hw := hs.course w hmem
      have hbalance := hstep.balance (server.calls width) hserved hw
      have hless := @WorkerStep.ahead_lt server config response s.shared sh' w w' width hstep hserved hw
        (by have := le_total WorkerState.removing hmem; omega) (by
          rintro rfl hqueue
          rw [hlength, hqueue, removing_of_scanQueue hs.accounted hmem]
          rfl)
      -- the others have more ahead of them when the step has queued something
      have hothers (l : List WorkerState) := @total_le_add _
        (server.ahead width sh'.metrics.totalQueueLength)
        (server.ahead width s.shared.metrics.totalQueueLength) l
        (stirred s.shared.metrics.totalQueueLength sh'.metrics.totalQueueLength)
        fun v _ => ahead_le server width v
      have hbefore := hothers before
      have hafter := hothers after
      have hfew : stirred s.shared.metrics.totalQueueLength sh'.metrics.totalQueueLength *
          before.length + stirred s.shared.metrics.totalQueueLength sh'.metrics.totalQueueLength *
          after.length ≤
          width * stirred s.shared.metrics.totalQueueLength sh'.metrics.totalQueueLength := by
        rw [← Nat.mul_add, Nat.mul_comm]
        refine Nat.mul_le_mul_right _ ?_
        rw [hworkers, List.length_append, List.length_cons] at hwidth
        omega
      have hspent (sh : Shared) : (server.calls width).spent sh =
          total (server.callCost width) (sh.taken.map CommonPrefix.Prefix) := by
        simp [Ledger.spent, Server.calls, weightLedger]
      rw [hspent, hspent] at hbalance
      refine ⟨?_, by simp [hworkers]⟩
      simp only [Server.workLeft, hworkers, total_append, total_cons]
      dsimp only at hless
      omega

theorem ManagerStep.queue_le (h : ManagerStep s t) :
    t.shared.metrics = s.shared.metrics ∧ t.shared.prefixQueue.length ≤ s.shared.prefixQueue.length := by
  refine ⟨?_, h.queue_sublist.length_le⟩
  cases h <;> rfl

theorem Server.workLeft_other (ha : Accounted s) (h : step config s action = some t)
    (hother : action.isWorker = false) :
    server.workLeft width t + 5 * s.workers.length ≤ server.workLeft width s + 5 * t.workers.length := by
  cases step_sound h with
  | worker => cases hother
  | manager choice hstep =>
      obtain ⟨hmetrics, hqueue⟩ := hstep.queue_le
      have hpaths : PrefixQueue.paths t.shared.prefixQueue = PrefixQueue.paths s.shared.prefixQueue := by
        cases hstep with
        | drop before after top hm htop hnone => simp [htop.split, PrefixQueue.paths, hnone]
        | drain before after top hm htop =>
            have hknows := ha.manager
            rw [ManagerKnows, hm] at hknows
            exact hknows.elim
        | _ => rfl
      simp only [Server.workLeft, hmetrics, hstep.workers_eq, Ledger.queued, hpaths]
      omega
  | frame _ _ hframe =>
      cases hframe with
      | touch target stack lines hmanager hworkers hlines hshared =>
          simp only [Server.workLeft, hworkers, hshared, Ledger.queued]
          omega
      | spawn hmanager hworkers hshared =>
          have hpending : server.debt (server.calls width) .pending = 0 := rfl
          have hfive : server.ahead width s.shared.metrics.totalQueueLength .pending = 5 := rfl
          simp only [Server.workLeft, hworkers, hshared, total_append, total_cons, total_nil, hpending, hfive,
            List.length_append, List.length_singleton]
          omega

theorem length_workers_le (h : step config s action = some t) : s.workers.length ≤ t.workers.length := by
  cases step_sound h with
  | worker _ _ _ before after w w' sh' hworkers => simp [hworkers]
  | manager choice hstep => rw [hstep.workers_eq]
  | frame _ _ hframe =>
      cases hframe with
      | touch _ _ _ _ hworkers => rw [hworkers]
      | spawn _ hworkers => simp [hworkers]

end Steps

-- The pages that the server has for all the calls of a crawl.
noncomputable def Server.pageCount (server : Server) : Nat :=
  total (fun path => (server.pagesFrom ⟨path⟩ none).length) (none :: (prefixes slash server.keys).map some)

theorem Server.share_calls (server : Server) (width : Nat) :
    (server.calls width).share none =
      pageCost width * server.pageCount + 3 * ((prefixes slash server.keys).length + 1) := by
  have hall : ∀ q ∈ prefixes slash server.keys, above server.keys none q = 1 := by
    intro q hq
    have hbalance := (prefixLedger q hq).balance none
    simp only [prefixLedger, total_zero, Nat.zero_add, total_map_some, Option.getD_some, Option.getD_none,
      List.nil_prefix, if_true, reduceCtorEq, if_false] at hbalance
    exact hbalance.symm
  have hbelow : total (fun q => server.callCost width (some q) * above server.keys none q)
      (prefixes slash server.keys) =
        total (fun q => server.callCost width (some q)) (prefixes slash server.keys) :=
    total_congr fun q hq => by rw [hall q hq, Nat.mul_one]
  have hcost (path : Option Str) : server.callCost width path =
      pageCost width * (server.pagesFrom ⟨path⟩ none).length + 3 := rfl
  have hthree : total (fun _ : Str => 3) (prefixes slash server.keys) = 3 * (prefixes slash server.keys).length := by
    rw [← total_one, ← total_mul]
  rw [Server.calls, weightLedger]
  dsimp only
  rw [hbelow, Server.pageCount, total_cons, total_map_some, Nat.mul_add, Nat.mul_add]
  simp only [hcost, total_add, total_mul, hthree]
  omega

-- No worker spins: in every run of the program the workers take, all together, no
-- more steps than the pages of the bucket, its prefixes and the number of
-- workers spawned allow.
theorem worker_steps_bounded (ext : Externals) (hsha : ∀ message, ext.sha256 message ≠ [])
    (hgrammar : ∀ target, Target.originForm target → ext.originForm target) (session : Session)
    (service : Service) (config : Config) (actions : List Action) (s : Crawl)
    (h : Steps (step config) (service.Connected ext session config) construct actions s) :
    actions.countP Action.isWorker ≤
      (5 * s.workers.length + 14) * service.server.pageCount +
        3 * ((prefixes slash service.keys).length + 1) + 5 * s.workers.length + 1 := by
  obtain ⟨width, hwidth⟩ : ∃ width, width = s.workers.length := ⟨_, rfl⟩
  have hwork := h.countP_le (P := fun t => t.workers.length ≤ width) Action.isWorker
    (service.server.workLeft width) (fun t => 5 * t.workers.length)
    (fun _ _ _ ht hfew => (length_workers_le ht).trans hfew)
    (fun t action u ht hconnected hfew hstep => ?_) hwidth.ge
  · have hstart : service.server.workLeft width construct = 1 + (service.server.calls width).share none := by
      simp [Server.workLeft, construct, Ledger.queued, PrefixQueue.paths]
    have hnobody : construct.workers.length = 0 := rfl
    have hshare : (service.server.calls width).share none =
        (5 * width + 14) * service.server.pageCount + 3 * ((prefixes slash service.keys).length + 1) :=
      service.server.share_calls width
    rw [hstart, hshare, hnobody, ← hwidth] at hwork
    rw [← hwidth]
    omega
  · have haccount := (crawled_of_connected hsha hgrammar ht).onAccount (service.server.calls width)
    cases hworker : action.isWorker with
    | false =>
        have hother := @Server.workLeft_other service.server config width t u action haccount.accounted hstep hworker
        rw [Bool.toNat_false]
        omega
    | true =>
        cases action with
        | worker index choice response =>
            obtain ⟨hless, hsame⟩ := Server.workLeft_worker haccount (hconnected.serves hsha hgrammar) hstep hfew
            rw [Bool.toNat_true, hsame]
            omega
        | _ => cases hworker

theorem worker_steps_bounded_twoKeys :
    ∃ s actions, Steps (step defaultConfig)
        (twoKeysService.Connected targetExternals uploadSession defaultConfig) construct actions s ∧
      s.workers.length = 10 ∧ actions.countP Action.isWorker ≤ (5 * 10 + 14) * 2 + 3 * 2 + 5 * 10 + 1 := by
  have hrun : (run (guarded (step defaultConfig) connects) construct deliveringRun).map
      (fun s => decide (s.workers.length = 10)) = some true := by decide +kernel
  obtain ⟨s, hs, hlength⟩ := Option.map_eq_some_iff.mp hrun
  have hlength := of_decide_eq_true hlength
  have hconnected := (Steps.of_run hs).mono fun _ _ h => connected_of_connects h
  have hprefixes : prefixes slash twoKeysService.keys = [ascii "b/"] := by decide +kernel
  have hone (path : Option Str) : (twoKeysService.server.pagesFrom ⟨path⟩ none).length = 1 := by
    rw [Server.pagesFrom_eq _ (.last rfl), List.length_singleton]
  have hpages : twoKeysService.server.pageCount = 2 := by
    have hkeys : prefixes slash twoKeysService.server.keys = [ascii "b/"] := hprefixes
    simp [Server.pageCount, hkeys, hone]
  have hbound := worker_steps_bounded targetExternals (fun _ => by simp [targetExternals, uploadExternals])
    (fun _ h => h) uploadSession twoKeysService defaultConfig deliveringRun s hconnected
  rw [hlength, hpages, hprefixes] at hbound
  exact ⟨s, deliveringRun, hconnected, hlength, hbound⟩

end S3Cpp.Tools.ListAllObjects
