import S3Cpp.Library.Outbox
import S3Cpp.Tools.ListAllObjects.WorkerManager.Completeness
import S3Cpp.Tools.ListAllObjects.WorkerManager.Coroutines

namespace S3Cpp.Tools.ListAllObjects

open Aws.S3 Aws.S3.Client Library Library.Transition

def WriterState.inHand : WriterState → Option Str
  | .writing _ text => some text
  | _ => none

-- The write stack, what went through it and what has come out.
def Crawl.outbox (s : Crawl) : Outbox UInt8 where
  pushed := s.shared.written
  stack := s.shared.writeStack
  inHand := s.writer.state.inHand
  output := s.writer.output

def writesSucceed : FreeAction → Bool
  | .crawl (.writer (some _)) => false
  | _ => true

theorem WriterState.inHand_emit (state : WriterState) : state.emit.inHand = state.inHand := by
  cases state <;> rfl

section Steps

variable {config : Config} {s t : Crawl}

theorem WorkerStep.writes {response : Response} {sh sh' : Shared} {w w' : WorkerState}
    (h : WorkerStep config response sh w sh' w') :
    (sh'.written = sh.written ∧ sh'.writeStack = sh.writeStack) ∨
      ∃ call page, w = .writeObjects call page ∧ sh' = sh.writeObjects config page.contents := by
  cases h with
  | list call token retries h => cases h <;> exact .inl ⟨rfl, rfl⟩
  | push call page => exact .inl ⟨by simp, by simp⟩
  | write call page => exact .inr ⟨call, page, rfl, rfl⟩
  | _ => exact .inl ⟨rfl, rfl⟩

theorem ManagerStep.writes (h : ManagerStep s t) :
    t.shared.written = s.shared.written ∧ t.shared.writeStack = s.shared.writeStack ∧
      t.writer.output = s.writer.output ∧
      (t.writer.state = s.writer.state ∨ t.writer.state = s.writer.state.emit) := by
  cases h with
  | emitWriter => exact ⟨rfl, rfl, rfl, .inr rfl⟩
  | _ => exact ⟨rfl, rfl, rfl, .inl rfl⟩

theorem outbox_stay (hwritten : t.shared.written = s.shared.written)
    (hstack : t.shared.writeStack = s.shared.writeStack) (houtput : t.writer.output = s.writer.output)
    (hhand : t.writer.state.inHand = s.writer.state.inHand) : Outbox.Step s.outbox t.outbox := by
  unfold Crawl.outbox
  rw [hwritten, hstack, houtput, hhand]
  exact .stay

theorem outbox_writeObjects (objects : List Object) (workers : List WorkerState) :
    Outbox.Step s.outbox
      { s with shared := s.shared.writeObjects config objects, workers := workers }.outbox := by
  by_cases hempty : objectsText config objects = []
  · simp only [Crawl.outbox, Shared.writeObjects, if_pos hempty]
    exact .stay
  · simp only [Crawl.outbox, Shared.writeObjects, if_neg hempty]
    exact .push _

theorem writerStep_outbox (h : writerStep none s = some t) : Outbox.Step s.outbox t.outbox := by
  cases writerStep_sound h with
  | pop aborted text rest hstate hstack =>
      exact .take text rest (by simp [Crawl.outbox, hstate, WriterState.inHand]) hstack
  | write aborted text hstate => exact .put text (by simp [Crawl.outbox, hstate, WriterState.inHand])
  | writeFailed aborted text line count hstate =>
      -- a write that succeeds writes the whole text
      simp only [writerStep, hstate] at h
      rw [← Option.some.inj h]
      exact .put text (by simp [Crawl.outbox, hstate, WriterState.inHand])
  | arm hstate | aborted hstate | expired hstate | failed hstate | finish hstate | rearm hstate =>
      exact outbox_stay rfl rfl rfl (by rw [hstate]; rfl)

-- The program's stack and file go through the steps of an outbox.
theorem step_outbox {action : Action} (hsucceed : writesSucceed (.crawl action) = true)
    (h : step config s action = some t) : Outbox.Step s.outbox t.outbox := by
  cases step_inv h with
  | worker index choice response w w' sh' hw hstep =>
      rcases hstep.writes with ⟨hwritten, hstack⟩ | ⟨call, page, -, rfl⟩
      · exact outbox_stay hwritten hstack rfl rfl
      · exact outbox_writeObjects page.contents _
  | manager choice hstep =>
      obtain ⟨hwritten, hstack, houtput, hstate⟩ := hstep.writes
      apply outbox_stay hwritten hstack houtput
      rcases hstate with hstate | hstate
      · rw [hstate]
      · rw [hstate, WriterState.inHand_emit]
  | scaling hstep =>
      obtain ⟨-, hwriter, hstack⟩ := hstep.others
      exact outbox_stay hstep.written hstack (by rw [hwriter]) (by rw [hwriter])
  | writer failure =>
      cases failure with
      | none => exact writerStep_outbox h
      | some failure => cases hsucceed
  | scalingTimer => exact outbox_stay rfl rfl rfl rfl
  | writerTimer hpending => exact outbox_stay rfl rfl rfl (by rw [hpending]; rfl)

-- After the signal there is nobody left to push.
structure Collected (s : Crawl) : Prop where
  accounted : Accounted s
  unsignalled : Unsignalled s
  intact : s.outbox.Intact
  emptied : s.writer.state = .returned → s.shared.writeStack = []

theorem Unsignalled.exited (hs : Unsignalled s) (hreturned : s.writer.state = .returned) :
    s.manager.Exited := by
  by_contra hexit
  have hrunning : s.writer.state.Running := by
    apply hs.writer
    cases hm : s.manager <;> rw [hm] at hexit <;> first | rfl | exact absurd trivial hexit
  rw [hreturned] at hrunning
  exact hrunning

theorem step_emptied {action : Action} (haccounted : Accounted s) (hunsignalled : Unsignalled s)
    (hemptied : s.writer.state = .returned → s.shared.writeStack = []) (h : step config s action = some t)
    (hreturned : t.writer.state = .returned) : t.shared.writeStack = [] := by
  cases step_inv h with
  | worker index choice response w w' sh' hw hstep =>
      rcases hstep.writes with ⟨-, hstack⟩ | ⟨call, page, rfl, -⟩
      · exact hstack.trans (hemptied hreturned)
      · have hquiet := haccounted.quiet (hunsignalled.exited hreturned)
        exact (hquiet.workers _ (List.mem_of_getElem? hw)).elim
  | manager choice hstep =>
      obtain ⟨-, hstack, -, hstate⟩ := hstep.writes
      apply hstack.trans
      apply hemptied
      rcases hstate with hstate | hstate
      · exact hstate.symm.trans hreturned
      · cases hw : s.writer.state with
        | returned => rfl
        | _ => simp [hw, hreturned, WriterState.emit] at hstate
  | scaling hstep =>
      obtain ⟨-, hwriter, hstack⟩ := hstep.others
      exact hstack.trans (hemptied (hwriter ▸ hreturned))
  | writer failure hstep =>
      cases hstep with
      | finish _ hempty => exact hempty
      | _ => cases hreturned
  | scalingTimer => exact hemptied hreturned
  | writerTimer => cases hreturned

theorem collected_construct : Collected construct where
  accounted := accounted_construct
  unsignalled := unsignalled_construct
  intact := Outbox.intact_empty
  emptied := nofun

theorem collected_step {action : FreeAction} (hsucceed : writesSucceed action = true) (hs : Collected s)
    (h : freeStep config s action = some t) : Collected t := by
  cases action with
  | crawl action =>
      have hstep : step config s action = some t := h
      exact ⟨accounted_step hs.accounted hstep, unsignalled_step hs.unsignalled hstep,
        (step_outbox hsucceed hstep).intact hs.intact,
        step_emptied hs.accounted hs.unsignalled hs.emptied hstep⟩
  | spawn =>
      obtain rfl := Option.some.inj h
      exact ⟨accounted_frame hs.accounted (.spawn rfl rfl rfl),
        ⟨hs.unsignalled.scaling, hs.unsignalled.writer⟩, hs.intact, hs.emptied⟩
  | retarget target =>
      obtain rfl := Option.some.inj h
      exact ⟨accounted_frame hs.accounted (.touch _ _ _ rfl rfl List.prefix_rfl rfl),
        ⟨hs.unsignalled.scaling, hs.unsignalled.writer⟩, hs.intact, hs.emptied⟩

end Steps

-- When the writer returns nothing is left on the stack, and the file holds the
-- pushed texts, each whole and once, in some order.
theorem output_complete (config : Config) (s : Crawl)
    (h : Reach (freeStep config) (fun _ action => writesSucceed action = true) construct s)
    (hreturned : s.writer.state = .returned) :
    s.shared.writeStack = [] ∧
      ∃ texts : List Str, texts.Perm s.shared.written ∧ s.writer.output = texts.flatten := by
  have hs : Collected s :=
    h.invariant collected_construct fun _ _ _ hsucceed hs ht => collected_step hsucceed hs ht
  have hstack := hs.emptied hreturned
  exact ⟨hstack, hs.intact.complete (by simp [Crawl.outbox, hreturned, WriterState.inHand]) hstack⟩

-- The writer writes what it finds when its wait expires, and waits again when
-- its signal comes.
def collectingRun : List Action :=
  twoKeysRun ++ [.writer none, .writerTimer] ++ List.replicate 7 (.writer none) ++
    List.replicate 2 (.manager 0) ++ List.replicate 2 (.writer none)

theorem output_complete_twoKeys :
    ∃ s : Crawl, s.writer.state = .returned ∧ s.shared.writeStack = [] ∧
      ∃ texts : List Str, texts.Perm [ascii "a\n", ascii "b/c\n"] ∧ s.writer.output = texts.flatten := by
  let check (_ : Crawl) (action : Action) := writesSucceed (.crawl action)
  let facts (s : Crawl) : Bool :=
    s.writer.state = .returned && s.shared.written = [ascii "a\n", ascii "b/c\n"]
  have hrun : (run (guarded (step defaultConfig) check) construct collectingRun).map facts =
      some true := by decide +kernel
  obtain ⟨s, hs, hfacts⟩ := Option.map_eq_some_iff.mp hrun
  simp only [facts, Bool.and_eq_true, decide_eq_true_eq] at hfacts
  obtain ⟨hreturned, hwritten⟩ := hfacts
  have hreach : Reach (freeStep defaultConfig) (fun _ action => writesSucceed action = true) construct s :=
    reach_free (Reach.of_run hs)
  obtain ⟨hstack, texts, hperm, houtput⟩ := output_complete defaultConfig s hreach hreturned
  exact ⟨s, hreturned, hstack, texts, hwritten ▸ hperm, houtput⟩

end S3Cpp.Tools.ListAllObjects
