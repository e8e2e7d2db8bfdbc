import S3Cpp.Tools.ListAllObjects.WorkerManager.Output

namespace S3Cpp.Tools.ListAllObjects

open Aws.S3 Aws.S3.Client Library Library.Transition

-- How many of the lines report a write to the output file that failed.
def writeErrors (lines : List Str) : Nat :=
  lines.countP fun line => (ascii "ERROR writing to output file: ").isPrefixOf line

theorem writeErrors_le {lines more : List Str} (h : lines <+: more) : writeErrors lines ≤ writeErrors more :=
  h.sublist.countP_le

section Steps

variable {config : Config} {s t : Crawl}

theorem WorkerStep.stderr_grows {response : Response} {sh sh' : Shared} {w w' : WorkerState}
    (h : WorkerStep config response sh w sh' w') : sh.stderr <+: sh'.stderr := by
  cases h with
  | list call token retries h => cases h <;> first | exact List.prefix_rfl | exact List.prefix_append _ _
  | write call page => exact List.prefix_append _ _
  | push call page =>
      unfold Shared.pushPrefixes
      split <;> exact List.prefix_rfl
  | _ => exact List.prefix_rfl

theorem ManagerStep.stderr_grows (h : ManagerStep s t) : s.shared.stderr <+: t.shared.stderr := by
  cases h <;> first | exact List.prefix_rfl | exact List.prefix_append _ _

theorem stderr_grows {action : Action} (h : step config s action = some t) :
    s.shared.stderr <+: t.shared.stderr := by
  cases step_sound h with
  | worker index choice response before after w w' sh' hworkers hindex hw => exact hw.stderr_grows
  | manager choice hm => exact hm.stderr_grows
  | frame _ _ hf =>
      cases hf with
      | touch target stack lines hmanager hworkers hlines hshared =>
          rw [hshared]
          exact hlines
      | spawn hmanager hworkers hshared => rw [hshared]

-- Only a write in progress can fail.
theorem writerStep_failure (failure : Nat × Str) (h : ∀ aborted text, s.writer.state ≠ .writing aborted text) :
    writerStep (some failure) s = writerStep none s := by
  cases hstate : s.writer.state with
  | writing aborted text => exact absurd hstate (h aborted text)
  | waiting wait =>
      cases wait with
      | pending => simp only [writerStep, hstate]
      | completed result => cases result <;> simp only [writerStep, hstate]
  | _ => simp only [writerStep, hstate]

theorem step_lossy {action : Action} (h : step config s action = some t) :
    ∃ more, Outbox.LossyStep s.outbox more t.outbox ∧
      writeErrors s.shared.stderr + more ≤ writeErrors t.shared.stderr := by
  have hwhole (hsucceed : ∃ action, writesSucceed (.crawl action) = true ∧ step config s action = some t) :
      ∃ more, Outbox.LossyStep s.outbox more t.outbox ∧
        writeErrors s.shared.stderr + more ≤ writeErrors t.shared.stderr := by
    obtain ⟨action, hsucceed, hstep⟩ := hsucceed
    exact ⟨0, .whole (step_outbox hsucceed hstep), writeErrors_le (stderr_grows hstep)⟩
  by_cases hsucceed : writesSucceed (.crawl action) = true
  · exact hwhole ⟨action, hsucceed, h⟩
  · obtain ⟨failure, rfl⟩ : ∃ failure, action = .writer (some failure) := by
      cases action with
      | writer failure =>
          cases failure with
          | none => exact absurd rfl hsucceed
          | some failure => exact ⟨failure, rfl⟩
      | _ => exact absurd rfl hsucceed
    by_cases hwriting : ∀ aborted text, s.writer.state ≠ .writing aborted text
    · have hnone : step config s (.writer none) = some t := by
        rw [← h, step, step, writerStep_failure failure hwriting]
      exact hwhole ⟨.writer none, rfl, hnone⟩
    · push Not at hwriting
      obtain ⟨aborted, text, hstate⟩ := hwriting
      simp only [step, writerStep, hstate] at h
      obtain rfl := Option.some.inj h
      refine ⟨1, ?_, ?_⟩
      · have hhand : s.outbox.inHand = some text := by simp [Crawl.outbox, hstate, WriterState.inHand]
        exact .cut text (text.take failure.1) hhand (List.take_prefix _ _)
      · have hline : (ascii "ERROR writing to output file: ").isPrefixOf
            (ascii "ERROR writing to output file: " ++ failure.2) := by
          rw [List.isPrefixOf_iff_prefix]
          exact List.prefix_append _ _
        simp [Shared.print, writeErrors, List.countP_append, hline]

-- What the writer has failed to write has been reported.
structure Reporting (s : Crawl) : Prop where
  accounted : Accounted s
  unsignalled : Unsignalled s
  reported : s.outbox.Reported (writeErrors s.shared.stderr)
  emptied : s.writer.state = .returned → s.shared.writeStack = []

theorem reporting_construct : Reporting construct where
  accounted := accounted_construct
  unsignalled := unsignalled_construct
  reported := Outbox.reported_empty.mono (Nat.zero_le _)
  emptied := nofun

theorem reporting_step {action : FreeAction} (hs : Reporting s) (h : freeStep config s action = some t) :
    Reporting t := by
  cases action with
  | crawl action =>
      have hstep : step config s action = some t := h
      obtain ⟨more, hlossy, hreports⟩ := step_lossy hstep
      exact ⟨accounted_step hs.accounted hstep, unsignalled_step hs.unsignalled hstep,
        (hlossy.reported hs.reported).mono hreports,
        step_emptied hs.accounted hs.unsignalled hs.emptied hstep⟩
  | spawn =>
      obtain rfl := Option.some.inj h
      exact ⟨accounted_frame hs.accounted (.spawn rfl rfl rfl),
        ⟨hs.unsignalled.scaling, hs.unsignalled.writer⟩, hs.reported, hs.emptied⟩
  | retarget target =>
      obtain rfl := Option.some.inj h
      exact ⟨accounted_frame hs.accounted (.touch _ _ _ rfl rfl List.prefix_rfl rfl),
        ⟨hs.unsignalled.scaling, hs.unsignalled.writer⟩, hs.reported, hs.emptied⟩

end Steps

-- However many writes fail, a text that the file does not hold whole is there up
-- to some byte, in its place, and for each there is a line on stderr.
theorem output_reported (config : Config) (s : Crawl)
    (h : Reach (freeStep config) (fun _ _ => True) construct s) (hreturned : s.writer.state = .returned) :
    s.shared.writeStack = [] ∧
      ∃ done : List (Str × Str), (done.map Prod.fst).Perm s.shared.written ∧
        s.writer.output = done.flatMap Prod.snd ∧ (∀ entry ∈ done, entry.2 <+: entry.1) ∧
        done.countP (fun entry => entry.2 ≠ entry.1) ≤ writeErrors s.shared.stderr := by
  have hs : Reporting s := h.invariant reporting_construct fun _ _ _ _ hs ht => reporting_step hs ht
  have hstack := hs.emptied hreturned
  have hhand : s.outbox.inHand = none := by simp [Crawl.outbox, hreturned, WriterState.inHand]
  exact ⟨hstack, hs.reported.complete hhand hstack⟩

-- The disk is full after three bytes of the second text.
def fullDiskRun : List Action :=
  twoKeysRun ++ [.writer none, .writerTimer] ++ List.replicate 2 (.writer none) ++
    [.writer (some (3, ascii "No space left on device"))] ++ List.replicate 4 (.writer none) ++
    List.replicate 2 (.manager 0) ++ List.replicate 2 (.writer none)

theorem output_reported_fullDisk :
    ∃ s : Crawl, s.writer.state = .returned ∧ s.shared.writeStack = [] ∧
      writeErrors s.shared.stderr = 1 ∧
      ∃ done : List (Str × Str), (done.map Prod.fst).Perm [ascii "a\n", ascii "b/c\n"] ∧
        s.writer.output = done.flatMap Prod.snd ∧ done.countP (fun entry => entry.2 ≠ entry.1) ≤ 1 := by
  let facts (s : Crawl) : Bool :=
    s.writer.state = .returned && s.shared.written = [ascii "a\n", ascii "b/c\n"] &&
      writeErrors s.shared.stderr = 1
  obtain ⟨s, hs, hfacts⟩ := @ReachableCrawl.of_run defaultConfig fullDiskRun facts (by decide +kernel)
  simp only [facts, Bool.and_eq_true, decide_eq_true_eq] at hfacts
  obtain ⟨⟨hreturned, hwritten⟩, herrors⟩ := hfacts
  have hreach : Reach (freeStep defaultConfig) (fun _ _ => True) construct s := reach_free hs
  obtain ⟨hstack, done, hperm, houtput, -, hcount⟩ := output_reported defaultConfig s hreach hreturned
  exact ⟨s, hreturned, hstack, herrors, done, hwritten ▸ hperm, houtput, herrors ▸ hcount⟩

end S3Cpp.Tools.ListAllObjects
