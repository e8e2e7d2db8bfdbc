import S3Cpp.Tools.ListAllObjects.WorkerManager.Accounting
import S3Cpp.Tools.ListAllObjects.WorkerManager.Scaling

namespace S3Cpp.Tools.ListAllObjects

open Aws.S3 Aws.S3.Client Library.Transition Library.Xml

-- ~WorkerManager has left its waiting loop.
def ManagerState.Exited : ManagerState → Prop
  | .emitScaling | .emitWriter | .joining | .joined => True
  | _ => False

instance (manager : ManagerState) : Decidable manager.Exited := by
  cases manager <;> first | exact isTrue trivial | exact isFalse id

theorem Accounted.quiet {s : Crawl} (ha : Accounted s) (hexit : s.manager.Exited) :
    Quiet s.shared s.workers := by
  have hknows := ha.manager
  unfold ManagerKnows at hknows
  cases hm : s.manager <;> rw [hm] at hknows hexit <;>
    first | exact hknows | exact hexit.elim

theorem listing_of_idle {w : WorkerState} (h : w.Idle) (path : CommonPrefix) : w.listing path = 0 := by
  cases w with
  | pending | getNextPrefix | scanQueue | isDone | leaving | finished => rfl
  | _ => exact h.elim

-- Once the manager has left its loop it stays out of it and nothing moves.
structure AfterExit (s t : Crawl) : Prop where
  accounted : Accounted t
  exited : t.manager.Exited
  taken : t.shared.taken = s.shared.taken
  written : t.shared.written = s.shared.written

theorem afterExit_step {config : Config} {s t u : Crawl} {action : Action} (h : AfterExit s t)
    (hstep : step config t action = some u) : AfterExit s u := by
  have haccounted := accounted_step h.accounted hstep
  have hexited := h.exited
  cases step_sound hstep with
  | worker index choice response before after w w' sh' hworkers hindex hw =>
      have hquiet := h.accounted.quiet h.exited
      rw [hworkers] at hquiet
      obtain ⟨-, htaken, hwritten⟩ := hw.quiet hquiet
      exact ⟨haccounted, h.exited, htaken.trans h.taken, hwritten.trans h.written⟩
  | manager choice hm =>
      cases hm with
      | emitScaling | emitWriter | join => exact ⟨haccounted, trivial, h.taken, h.written⟩
      | lock hm | clean hm | noLength hm | length hm | noWorker hm | worker hm | finish hm
      | report hm | drained hm | drop _ _ _ hm | found _ _ _ hm | drain _ _ _ hm =>
          rw [hm] at hexited
          exact False.elim hexited
  | frame _ _ hf =>
      cases hf with
      | touch target stack lines hmanager hworkers hlines hshared =>
          exact ⟨haccounted, hmanager ▸ h.exited, by rw [hshared]; exact h.taken,
            by rw [hshared]; exact h.written⟩
      | spawn hmanager hworkers hshared =>
          exact ⟨haccounted, hmanager ▸ h.exited, by rw [hshared]; exact h.taken,
            by rw [hshared]; exact h.written⟩

theorem Accounted.taken_perm {s : Crawl} (ha : Accounted s) (hexit : s.manager.Exited) :
    s.shared.taken.Perm s.shared.pushed := by
  apply List.perm_iff_count.mpr
  intro path
  have := ha.queued path
  rw [(ha.quiet hexit).queue] at this
  exact this.symm

theorem Accounted.ended_perm {s : Crawl} (ha : Accounted s) (hexit : s.manager.Exited) :
    s.shared.endedPaths.Perm s.shared.taken := by
  apply List.perm_iff_count.mpr
  intro path
  have hidle := (Library.Population.total_eq_zero_iff (WorkerState.listing path) s.workers).mpr
    fun w hw => listing_of_idle ((ha.quiet hexit).workers w hw) path
  have := ha.calls path
  omega

-- When ~WorkerManager leaves its loop, every path has been taken once and its
-- call has ended, the queue is empty, and workers that start later do nothing.
theorem completion_sound (config : Config) (s : Crawl) (h : ReachableCrawl config s) :
    s.manager ≠ .draining ∧
      (s.manager.Exited →
        s.shared.taken.Perm s.shared.pushed ∧ s.shared.endedPaths.Perm s.shared.taken ∧
        s.shared.prefixQueue = [] ∧
        ∀ t, Reachable (step config) s t →
          t.shared.taken = s.shared.taken ∧ t.shared.written = s.shared.written) := by
  have ha := h.accounted
  constructor
  · intro hm
    have hknows := ha.manager
    rw [ManagerKnows, hm] at hknows
    exact hknows
  · intro hexit
    refine ⟨ha.taken_perm hexit, ha.ended_perm hexit, (ha.quiet hexit).queue, fun t ht => ?_⟩
    have hafter : AfterExit s t :=
      ht.invariant ⟨ha, hexit, rfl, rfl⟩ fun _ _ _ _ hu hstep => afterExit_step hu hstep
    exact ⟨hafter.taken, hafter.written⟩

def textElement (name text : String) : Node := .element (ascii name) [.pcdata (ascii text)]

def prefixElement (text : String) : Node :=
  .element (ascii "CommonPrefixes") [textElement "Prefix" text]

def listingResponse (children : List Node) : Response :=
  .received (.document (.element [] [.element (ascii "ListBucketResult") children]))

-- One worker step after another, none of which depends on a response.
def workerSteps (index count : Nat) : List Action :=
  List.replicate count (.worker index 0 (.failed []))

-- The first tick of the scaling worker, which asks for ten workers.
def firstTick : List Action :=
  .scaling :: .scalingTimer :: List.replicate 18 .scaling

-- A worker finds an empty bucket and leaves before another one starts.
def emptyBucketRun : List Action :=
  firstTick ++ workerSteps 0 4 ++ [.worker 0 0 (listingResponse [textElement "IsTruncated" "false"])] ++
    workerSteps 0 7 ++ List.replicate 6 (.manager 0)

theorem completion_sound_emptyBucket :
    ∃ s, ReachableCrawl defaultConfig s ∧ s.manager.Exited ∧
      s.shared.endedPaths.Perm s.shared.pushed ∧ s.shared.prefixQueue = [] := by
  obtain ⟨s, hs, hexit⟩ := @ReachableCrawl.of_run defaultConfig emptyBucketRun
    (fun s => decide s.manager.Exited) (by decide +kernel)
  have hexit := of_decide_eq_true hexit
  obtain ⟨htaken, hended, hqueue, -⟩ := (completion_sound defaultConfig s hs).2 hexit
  exact ⟨s, hs, hexit, hended.trans htaken, hqueue⟩

end S3Cpp.Tools.ListAllObjects
