import S3Cpp.Tools.ListAllObjects.WorkerManager.Calls
import S3Cpp.Tools.ListAllObjects.WorkerManager.Tallies

namespace S3Cpp.Tools.ListAllObjects

open Aws.S3 Aws.S3.Client Library.Population

namespace Call

variable (call : Call) (token : Option Str) (response : Response) (lines : List Str)

def attempts : Nat := call.exchanges.length

def dealt : Nat := call.queued.length

def printed : Nat := call.lines.length

@[simp] theorem attempts_start (path : CommonPrefix) (depth : Nat) : (start path depth).attempts = 0 := rfl

@[simp] theorem attempts_receive : (call.receive token response).attempts = call.attempts + 1 :=
  List.length_append

@[simp] theorem attempts_print : (call.print lines).attempts = call.attempts := rfl

@[simp] theorem attempts_hand (objects : List Object) : (call.hand objects).attempts = call.attempts := rfl

@[simp] theorem attempts_queue (prefixes : List CommonPrefix) :
    (call.queue prefixes).attempts = call.attempts := rfl

@[simp] theorem dealt_start (path : CommonPrefix) (depth : Nat) : (start path depth).dealt = 0 := rfl

@[simp] theorem dealt_receive : (call.receive token response).dealt = call.dealt := rfl

@[simp] theorem dealt_print : (call.print lines).dealt = call.dealt := rfl

@[simp] theorem dealt_hand (objects : List Object) : (call.hand objects).dealt = call.dealt := rfl

@[simp] theorem dealt_queue (prefixes : List CommonPrefix) : (call.queue prefixes).dealt = call.dealt + 1 :=
  List.length_append

@[simp] theorem printed_receive : (call.receive token response).printed = call.printed := rfl

@[simp] theorem printed_print : (call.print lines).printed = call.printed + lines.length := List.length_append

@[simp] theorem printed_hand (objects : List Object) : (call.hand objects).printed = call.printed := rfl

@[simp] theorem printed_queue (prefixes : List CommonPrefix) :
    (call.queue prefixes).printed = call.printed := rfl

-- No page of these was asked for more often than it may be, or more than once
-- without a line about it.
structure Frugal (upper lower : Nat) : Prop where
  most : call.attempts ≤ maxRetries * upper
  least : lower ≤ call.attempts
  lines : call.attempts ≤ upper + call.printed

end Call

-- The attempts of a call by where its worker stands. The page in its hands has
-- been asked for and is not dealt with yet.
def Attempted : WorkerState → Prop
  | .listOne call _ retries =>
      1 ≤ retries ∧ retries ≤ maxRetries ∧ call.attempts + 1 ≤ maxRetries * call.dealt + retries ∧
        call.dealt ≤ call.attempts ∧ call.attempts ≤ call.dealt + call.printed
  | .writeObjects call _ | .lockQueue call _ | .countObjects call _ | .pushPrefixes call _ =>
      call.Frugal (call.dealt + 1) (call.dealt + 1)
  | .countOp call _ => call.Frugal call.dealt call.dealt
  | _ => True

def AttemptsEnded (ended : List (Call × Ending)) : Prop :=
  ∀ entry ∈ ended, entry.1.Frugal (entry.1.dealt + 1) entry.1.dealt

section Worker

variable {config : Config} {response : Response} {sh sh' : Shared} {w w' : WorkerState}

theorem ListStep.attempted {call : Call} {token : Option Str} {retries : Nat}
    (h : ListStep config response sh call token retries sh' w') (hended : AttemptsEnded sh.ended)
    (hcall : Attempted (.listOne call token retries)) : Attempted w' ∧ AttemptsEnded sh'.ended := by
  obtain ⟨hfirst, hlast, hmost, hleast, hlines⟩ := hcall
  simp only [maxRetries] at hlast hmost
  cases h with
  | throws what hr =>
      refine ⟨trivial, forall_concat hended ⟨?_, ?_, ?_⟩⟩
      all_goals simp [maxRetries]
      all_goals omega
  | retry error hr hmore =>
      simp only [maxRetries] at hmore
      refine ⟨⟨?_, ?_, ?_, ?_, ?_⟩, hended⟩
      all_goals simp [maxRetries]
      all_goals omega
  | giveUp error hr hgone =>
      refine ⟨⟨?_, ?_, ?_⟩, hended⟩
      all_goals simp [maxRetries]
      all_goals omega
  | repeated page hr hrepeats =>
      refine ⟨trivial, forall_concat hended ⟨?_, ?_, ?_⟩⟩
      all_goals simp [maxRetries]
      all_goals omega
  | accept page hr hrepeats =>
      refine ⟨⟨?_, ?_, ?_⟩, hended⟩
      all_goals simp [maxRetries]
      all_goals omega

theorem Call.Frugal.ended {call : Call} (h : call.Frugal call.dealt call.dealt) :
    call.Frugal (call.dealt + 1) call.dealt where
  most := h.most.trans (Nat.mul_le_mul_left _ (Nat.le_succ _))
  least := h.least
  lines := h.lines.trans (Nat.add_le_add_right (Nat.le_succ _) _)

theorem WorkerStep.attempted (h : WorkerStep config response sh w sh' w') (hended : AttemptsEnded sh.ended)
    (hw : Attempted w) : Attempted w' ∧ AttemptsEnded sh'.ended := by
  cases h with
  | list call token retries h => exact h.attempted hended hw
  | release path depth => exact ⟨by simp [Attempted, maxRetries], hended⟩
  | write call page | lockAgain call page | count call page => exact ⟨⟨hw.most, hw.least, hw.lines⟩, hended⟩
  | push call page =>
      rw [Shared.pushPrefixes_ended]
      refine ⟨⟨?_, ?_, ?_⟩, hended⟩
      · simpa using hw.most
      · simpa using hw.least
      · simpa using hw.lines
  | nextPage call page token htoken =>
      have hmost := hw.most
      have hleast := hw.least
      have hlines := hw.lines
      refine ⟨⟨Nat.le_refl 1, by decide, ?_, hleast, hlines⟩, hended⟩
      omega
  | lastPage call page hlast => exact ⟨trivial, forall_concat hended hw.ended⟩
  | _ => exact ⟨trivial, hended⟩

end Worker

-- What the calls in some hands count for, against the pages in them that are
-- dealt with but not yet counted.
structure WithinBudget (calls : List Call) (uncounted : Nat) : Prop where
  most : total Call.attempts calls + maxRetries * uncounted ≤
    maxRetries * (total Call.dealt calls + calls.length)
  least : total Call.dealt calls ≤ total Call.attempts calls
  lines : total Call.attempts calls + uncounted ≤
    total Call.dealt calls + total Call.printed calls + calls.length

theorem WithinBudget.append {calls others : List Call} {n m : Nat} (h : WithinBudget calls n)
    (h' : WithinBudget others m) : WithinBudget (calls ++ others) (n + m) := by
  obtain ⟨hmost, hleast, hlines⟩ := h
  obtain ⟨hmost', hleast', hlines'⟩ := h'
  simp only [maxRetries] at hmost hmost'
  refine ⟨?_, ?_, ?_⟩
  all_goals simp only [total_append, List.length_append, maxRetries]
  all_goals omega

theorem WithinBudget.flatMap {α : Type*} {calls : α → List Call} {uncounted : α → Nat} {l : List α}
    (h : ∀ a ∈ l, WithinBudget (calls a) (uncounted a)) : WithinBudget (l.flatMap calls) (total uncounted l) := by
  induction l with
  | nil => exact ⟨Nat.le_refl 0, Nat.le_refl 0, Nat.le_refl 0⟩
  | cons a rest ih =>
      rw [List.forall_mem_cons] at h
      exact h.1.append (ih h.2)

theorem Attempted.withinBudget {w : WorkerState} (h : Attempted w) :
    WithinBudget w.call?.toList w.uncountedOp := by
  cases w with
  | listOne call token retries =>
      obtain ⟨hfirst, hlast, hmost, hleast, hlines⟩ := h
      simp only [maxRetries] at hlast hmost
      refine ⟨?_, hleast, ?_⟩
      all_goals simp [WorkerState.call?, WorkerState.uncountedOp, maxRetries]
      all_goals omega
  | writeObjects call page | lockQueue call page | countObjects call page | pushPrefixes call page
  | countOp call page =>
      have hmost := h.most
      have hleast := h.least
      have hlines := h.lines
      simp only [maxRetries] at hmost
      refine ⟨?_, ?_, ?_⟩
      all_goals simp [WorkerState.call?, WorkerState.uncountedOp, maxRetries]
      all_goals omega
  | _ => exact ⟨Nat.le_refl 0, Nat.le_refl 0, Nat.le_refl 0⟩

theorem Call.Frugal.withinBudget {call : Call} (h : call.Frugal (call.dealt + 1) call.dealt) :
    WithinBudget [call] 0 := by
  refine ⟨?_, ?_, ?_⟩
  · simpa using h.most
  · simpa using h.least
  · have hlines := h.lines
    simp
    omega

-- All the requests of a crawl: at least one for each operation counted, at most
-- five for each operation and each call, and none beyond one for each of these
-- that has not left a line.
theorem attempts_bounded (config : Config) (s : Crawl) (h : ReachableCrawl config s) :
    s.shared.metrics.totalOps ≤ total Call.attempts s.calls ∧
      total Call.attempts s.calls ≤ maxRetries * (s.shared.metrics.totalOps + s.calls.length) ∧
      total Call.attempts s.calls ≤
        s.shared.metrics.totalOps + s.calls.length + total Call.printed s.calls := by
  obtain ⟨hworkers, hended⟩ := @calls_invariant config Attempted
    (fun entry => entry.1.Frugal (entry.1.dealt + 1) entry.1.dealt) trivial
    (fun hstep hended hw => hstep.attempted hended hw) s h
  have hops : s.shared.metrics.totalOps + total WorkerState.uncountedOp s.workers =
      total Call.dealt s.calls := ops_eq_calls h
  have hcalls : s.calls = (s.shared.ended.flatMap fun entry => [entry.1]) ++
      s.workers.flatMap fun w => w.call?.toList := by
    rw [Crawl.calls, List.filterMap_eq_flatMap_toList, List.map_eq_flatMap]
  have hbudget : WithinBudget s.calls (0 + total WorkerState.uncountedOp s.workers) := by
    have hfirst := @WithinBudget.flatMap _ (fun entry : Call × Ending => [entry.1]) (fun _ => 0) s.shared.ended
      fun entry hentry => (hended entry hentry).withinBudget
    rw [total_zero] at hfirst
    rw [hcalls]
    exact hfirst.append (WithinBudget.flatMap fun w hw => (hworkers w hw).withinBudget)
  obtain ⟨hmost, hleast, hlines⟩ := hbudget
  simp only [maxRetries] at hmost ⊢
  omega

theorem attempts_bounded_twoKeys :
    ∃ s, ReachableCrawl defaultConfig s ∧ s.calls.length = 2 ∧
      4 ≤ total Call.attempts s.calls ∧ total Call.attempts s.calls ≤ maxRetries * (4 + 2) := by
  obtain ⟨s, hs, hcounts⟩ := @ReachableCrawl.of_run defaultConfig twoKeysRun
    (fun s => s.shared.metrics.totalOps = 4 ∧ s.calls.length = 2) (by decide +kernel)
  obtain ⟨hops, hlength⟩ := of_decide_eq_true hcounts
  obtain ⟨hleast, hmost, -⟩ := attempts_bounded defaultConfig s hs
  rw [hops] at hleast hmost
  rw [hlength] at hmost
  exact ⟨s, hs, hlength, hleast, hmost⟩

end S3Cpp.Tools.ListAllObjects
