import S3Cpp.Tools.ListAllObjects.Worker.Sequential
import S3Cpp.Tools.ListAllObjects.WorkerManager.Completeness
import S3Cpp.Tools.ListAllObjects.WorkerManager.Provenance

namespace S3Cpp.Tools.ListAllObjects

open Aws.S3 Aws.S3.Client Library.Population Library.Transition

-- The call made over again by itself, with the responses it has received.
def Call.replay (config : Config) (call : Call) : Progress :=
  processPrefix config call.path call.depth (call.exchanges.map Prod.snd)

-- A worker's call stands where the call by itself does, once the worker has
-- dealt with the page in its hands.
def Follows (config : Config) : WorkerState → Prop
  | .listOne call token retries => call.replay config = .waiting call token retries
  | .writeObjects call page =>
      call.replay config = ((call.hand page.contents).queue page.commonPrefixes).afterPage page
  | .lockQueue call page | .countObjects call page | .pushPrefixes call page =>
      call.replay config = (call.queue page.commonPrefixes).afterPage page
  | .countOp call page => call.replay config = call.afterPage page
  | _ => True

def Ended (config : Config) (ended : List (Call × Ending)) : Prop :=
  ∀ entry ∈ ended, entry.1.replay config = .ended entry.1 entry.2

section Worker

variable {config : Config} {response : Response} {sh sh' : Shared} {w w' : WorkerState}

theorem Call.replay_receive (call : Call) (token : Option Str) (response : Response) :
    (call.receive token response).replay config = (call.replay config).resume config [response] := by
  simp only [replay, processPrefix, receive, List.map_append, List.map_cons, List.map_nil]
  exact processPages_append _ _ _ _

theorem Call.print_print (call : Call) (lines more : List Str) :
    (call.print lines).print more = call.print (lines ++ more) := by
  simp only [print, List.append_assoc]

theorem repeatsToken_default (version : ListObjectsApiVersion) :
    (Page.default version).repeatsToken = false := by
  cases version <;> rfl

theorem Ended.finish {call : Call} {ending : Ending} (h : Ended config sh.ended)
    (hcall : call.replay config = .ended call ending) : Ended config (sh.finish call ending).ended :=
  forall_concat h hcall

theorem ListStep.follows {call : Call} {token : Option Str} {retries : Nat}
    (h : ListStep config response sh call token retries sh' w') (hended : Ended config sh.ended)
    (hcall : call.replay config = .waiting call token retries) :
    Follows config w' ∧ Ended config sh'.ended := by
  have hreplay : (call.receive token response).replay config =
      processPages config call token retries [response] := by
    rw [Call.replay_receive, hcall]
    rfl
  rw [processPages_eq] at hreplay
  cases h with
  | throws what hr =>
      simp only [listOneImpl, hr] at hreplay
      exact ⟨trivial, hended.finish hreplay⟩
  | retry error hr hmore =>
      simp only [listOneImpl, hr, if_pos hmore] at hreplay
      exact ⟨hreplay, hended⟩
  | giveUp error hr hlast =>
      simp only [listOneImpl, hr, if_neg (Nat.not_lt.mpr hlast), repeatsToken_default, Bool.false_eq_true,
        if_false, resume_nil, Call.print_print] at hreplay
      exact ⟨hreplay, hended⟩
  | repeated page hr hrepeats =>
      simp only [listOneImpl, hr, if_pos hrepeats] at hreplay
      exact ⟨trivial, hended.finish hreplay⟩
  | accept page hr hrepeats =>
      simp only [listOneImpl, hr, hrepeats, Bool.false_eq_true, if_false, resume_nil] at hreplay
      exact ⟨hreplay, hended⟩

theorem WorkerStep.follows (h : WorkerStep config response sh w sh' w') (hended : Ended config sh.ended)
    (hw : Follows config w) : Follows config w' ∧ Ended config sh'.ended := by
  cases h with
  | list call token retries h => exact h.follows hended hw
  | release path depth => exact ⟨processPages_nil _ _, hended⟩
  | write call page => exact ⟨hw, hended⟩
  | lockAgain call page | count call page => exact ⟨hw, hended⟩
  | push call page =>
      rw [Shared.pushPrefixes_ended]
      exact ⟨hw, hended⟩
  | nextPage call page token htoken =>
      have hcall : call.replay config = call.afterPage page := hw
      rw [Call.afterPage, htoken] at hcall
      exact ⟨hcall, hended⟩
  | lastPage call page hlast =>
      have hcall : call.replay config = call.afterPage page := hw
      rw [Call.afterPage, hlast] at hcall
      exact ⟨trivial, Ended.finish hended hcall⟩
  | _ => exact ⟨trivial, hended⟩

end Worker

-- What each step of a worker keeps of its call, and leaves of a call that ends,
-- holds of all the calls of a crawl.
theorem calls_invariant {config : Config} {P : WorkerState → Prop} {Q : Call × Ending → Prop}
    (hpending : P .pending)
    (hwork : ∀ {response sh sh' w w'}, WorkerStep config response sh w sh' w' →
      (∀ entry ∈ sh.ended, Q entry) → P w → P w' ∧ ∀ entry ∈ sh'.ended, Q entry)
    {s : Crawl} (h : ReachableCrawl config s) :
    (∀ w ∈ s.workers, P w) ∧ ∀ entry ∈ s.shared.ended, Q entry := by
  refine Reach.invariant (I := fun s => (∀ w ∈ s.workers, P w) ∧ ∀ entry ∈ s.shared.ended, Q entry)
    ⟨by simp [construct], by simp [construct]⟩ (fun s action t _ hs hstep => ?_) h
  obtain ⟨hrunning, hended⟩ := hs
  cases step_sound hstep with
  | worker index choice response before after w w' sh' hworkers hindex hw =>
      obtain ⟨hw', hended'⟩ := hwork hw hended (hrunning w (by simp [hworkers]))
      rw [hworkers] at hrunning
      exact ⟨forall_move hrunning hw', hended'⟩
  | manager choice hm =>
      rw [hm.workers_eq, hm.histories.2]
      exact ⟨hrunning, hended⟩
  | frame _ _ hf =>
      cases hf with
      | touch target stack lines hmanager hworkers hlines hshared =>
          rw [hworkers, hshared]
          exact ⟨hrunning, hended⟩
      | spawn hmanager hworkers hshared =>
          rw [hworkers, hshared]
          exact ⟨forall_concat hrunning hpending, hended⟩

-- Every call that has ended is what the call by itself makes of the responses it
-- has received, and every other call stands where that does.
structure Sequential (config : Config) (s : Crawl) : Prop where
  ended : Ended config s.shared.ended
  running : ∀ w ∈ s.workers, Follows config w

theorem ended_of_reachable {config : Config} {s : Crawl} (h : ReachableCrawl config s) :
    Ended config s.shared.ended :=
  (calls_invariant trivial (fun hstep hended hw => hstep.follows hended hw) h).2

-- Whatever the workers do at the same time, their calls go as if each were alone.
theorem calls_sequential (config : Config) (s : Crawl) (h : ReachableCrawl config s) :
    Sequential config s := by
  have hrunning : ∀ w ∈ s.workers, Follows config w :=
    (calls_invariant trivial (fun hstep hended hw => hstep.follows hended hw) h).1
  exact ⟨ended_of_reachable h, hrunning⟩

theorem calls_sequential_twoKeys :
    ∃ s, ReachableCrawl defaultConfig s ∧ s.shared.ended.length = 2 ∧ Sequential defaultConfig s := by
  obtain ⟨s, hs, hended⟩ := @ReachableCrawl.of_run defaultConfig twoKeysRun
    (fun s => s.shared.ended.length == 2) (by decide +kernel)
  exact ⟨s, hs, eq_of_beq hended, calls_sequential defaultConfig s hs⟩

end S3Cpp.Tools.ListAllObjects
