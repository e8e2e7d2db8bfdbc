import Mathlib.Data.List.Perm.Basic

-- Pieces that anybody pushes on a stack and one reader takes off it, to append
-- each to its output.
namespace S3Cpp.Library

structure Outbox (α : Type*) where
  pushed : List (List α)
  stack : List (List α)
  inHand : Option (List α)
  output : List α

namespace Outbox

variable {α : Type*} {b c : Outbox α}

inductive Step (b : Outbox α) : Outbox α → Prop
  | stay : Step b b
  | push (piece : List α) :
      Step b { b with pushed := b.pushed ++ [piece], stack := piece :: b.stack }
  | take (piece : List α) (rest : List (List α)) (hhand : b.inHand = none)
      (hstack : b.stack = piece :: rest) : Step b { b with stack := rest, inHand := some piece }
  | put (piece : List α) (hhand : b.inHand = some piece) :
      Step b { b with inHand := none, output := b.output ++ piece }

-- Every piece pushed is in one place, and the output is made of whole ones.
def Intact (b : Outbox α) : Prop :=
  ∃ done : List (List α), b.output = done.flatten ∧
    b.pushed.Perm (done ++ (b.inHand.toList ++ b.stack))

theorem intact_empty : Intact (⟨[], [], none, []⟩ : Outbox α) := ⟨[], rfl, .refl _⟩

theorem Step.intact (h : Step b c) (hb : b.Intact) : c.Intact := by
  obtain ⟨done, houtput, hpushed⟩ := hb
  cases h with
  | stay => exact ⟨done, houtput, hpushed⟩
  | push piece =>
      refine ⟨done, houtput, ?_⟩
      have hfront : (b.pushed ++ [piece]).Perm (piece :: b.pushed) := List.perm_append_singleton _ _
      have hback : (piece :: (done ++ b.inHand.toList ++ b.stack)).Perm
          (done ++ b.inHand.toList ++ piece :: b.stack) := List.perm_middle.symm
      simp only [List.append_assoc] at hback
      exact hfront.trans ((hpushed.cons piece).trans hback)
  | take piece rest hhand hstack =>
      refine ⟨done, houtput, ?_⟩
      rw [hhand, hstack] at hpushed
      exact hpushed
  | put piece hhand =>
      refine ⟨done ++ [piece], by simp [houtput], ?_⟩
      rw [hhand] at hpushed
      simpa using hpushed

theorem Intact.complete (h : b.Intact) (hhand : b.inHand = none) (hstack : b.stack = []) :
    ∃ pieces : List (List α), pieces.Perm b.pushed ∧ b.output = pieces.flatten := by
  obtain ⟨done, houtput, hpushed⟩ := h
  rw [hhand, hstack] at hpushed
  exact ⟨done, by simpa using hpushed.symm, houtput⟩

-- A reader that may keep only the beginning of a piece, and reports it.
inductive LossyStep (b : Outbox α) : Nat → Outbox α → Prop
  | whole {c : Outbox α} (h : Step b c) : LossyStep b 0 c
  | cut (piece kept : List α) (hhand : b.inHand = some piece) (hkept : kept <+: piece) :
      LossyStep b 1 { b with inHand := none, output := b.output ++ kept }

-- Every piece pushed is in one place, the output is made of beginnings of pieces,
-- and there is a report for each that is not whole.
def Reported [DecidableEq α] (b : Outbox α) (reports : Nat) : Prop :=
  ∃ done : List (List α × List α), b.output = done.flatMap Prod.snd ∧
    b.pushed.Perm (done.map Prod.fst ++ (b.inHand.toList ++ b.stack)) ∧
    (∀ entry ∈ done, entry.2 <+: entry.1) ∧
    done.countP (fun entry => entry.2 ≠ entry.1) ≤ reports

section Reported

variable [DecidableEq α] {reports more : Nat}

theorem reported_empty : Reported (⟨[], [], none, []⟩ : Outbox α) 0 :=
  ⟨[], rfl, .refl _, by simp, Nat.le_refl _⟩

theorem Reported.mono (h : b.Reported reports) (hle : reports ≤ more) : b.Reported more := by
  obtain ⟨done, houtput, hpushed, hkept, hcount⟩ := h
  exact ⟨done, houtput, hpushed, hkept, Nat.le_trans hcount hle⟩

-- What a whole piece is appended to may have lost something before.
theorem Step.reported (h : Step b c) (hb : b.Reported reports) : c.Reported reports := by
  obtain ⟨done, houtput, hpushed, hkept, hcount⟩ := hb
  cases h with
  | stay => exact ⟨done, houtput, hpushed, hkept, hcount⟩
  | push piece =>
      refine ⟨done, houtput, ?_, hkept, hcount⟩
      have hfront : (b.pushed ++ [piece]).Perm (piece :: b.pushed) := List.perm_append_singleton _ _
      have hback : (piece :: (done.map Prod.fst ++ b.inHand.toList ++ b.stack)).Perm
          (done.map Prod.fst ++ b.inHand.toList ++ piece :: b.stack) := List.perm_middle.symm
      simp only [List.append_assoc] at hback
      exact hfront.trans ((hpushed.cons piece).trans hback)
  | take piece rest hhand hstack =>
      refine ⟨done, houtput, ?_, hkept, hcount⟩
      rw [hhand, hstack] at hpushed
      exact hpushed
  | put piece hhand =>
      rw [hhand] at hpushed
      refine ⟨done ++ [(piece, piece)], by simp [houtput], by simpa using hpushed, ?_, by simpa using hcount⟩
      intro entry hentry
      rcases List.mem_append.mp hentry with hentry | hentry
      · exact hkept entry hentry
      · obtain rfl := List.mem_singleton.mp hentry
        exact List.prefix_rfl

theorem LossyStep.reported (h : LossyStep b more c) (hb : b.Reported reports) :
    c.Reported (reports + more) := by
  cases h with
  | whole h => exact h.reported hb
  | cut piece kept hhand hprefix =>
      obtain ⟨done, houtput, hpushed, hkept, hcount⟩ := hb
      rw [hhand] at hpushed
      refine ⟨done ++ [(piece, kept)], by simp [houtput], by simpa using hpushed, ?_, ?_⟩
      · intro entry hentry
        rcases List.mem_append.mp hentry with hentry | hentry
        · exact hkept entry hentry
        · rw [List.mem_singleton.mp hentry]
          exact hprefix
      · rw [List.countP_append]
        have hone : [(piece, kept)].countP (fun entry => entry.2 ≠ entry.1) ≤ 1 := List.countP_le_length
        omega

theorem Reported.complete (h : b.Reported reports) (hhand : b.inHand = none) (hstack : b.stack = []) :
    ∃ done : List (List α × List α), (done.map Prod.fst).Perm b.pushed ∧
      b.output = done.flatMap Prod.snd ∧ (∀ entry ∈ done, entry.2 <+: entry.1) ∧
      done.countP (fun entry => entry.2 ≠ entry.1) ≤ reports := by
  obtain ⟨done, houtput, hpushed, hkept, hcount⟩ := h
  rw [hhand, hstack] at hpushed
  exact ⟨done, by simpa using hpushed.symm, houtput, hkept, hcount⟩

end Reported

-- Pieces that are the texts of some batches, in any order and without the empty
-- ones, are together the texts of all of the batches in some order.
theorem flatten_of_perm {β : Type*} [DecidableEq α] {text : β → List α} {batches : List β}
    {pieces : List (List α)} (h : pieces.Perm ((batches.map text).filter (· ≠ []))) :
    ∃ order : List β, order.Perm batches ∧ pieces.flatten = order.flatMap text := by
  have hmap : (batches.map text).filter (· ≠ []) = (batches.filter fun batch => text batch ≠ []).map text :=
    List.filter_map
  rw [hmap] at h
  have hsame : List.Forall₂ (fun piece batch => piece = text batch)
      ((batches.filter fun batch => text batch ≠ []).map text) (batches.filter fun batch => text batch ≠ []) :=
    List.forall₂_map_left_iff.mpr (List.forall₂_same.mpr fun _ _ => rfl)
  obtain ⟨kept, hpieces, hkept⟩ := List.perm_comp_forall₂ h hsame
  have hpieces : pieces = kept.map text :=
    List.forall₂_eq_eq_eq ▸ List.forall₂_map_right_iff.mpr hpieces
  -- the batches without a text go to the end
  refine ⟨kept ++ batches.filter fun batch => ¬ text batch ≠ [], ?_, ?_⟩
  · have hsplit := List.filter_append_perm (fun batch => text batch ≠ []) batches
    simp only [decide_not] at hsplit hkept ⊢
    exact (hkept.append_right _).trans (by simpa using hsplit)
  · have hnone : (batches.filter fun batch => ¬ text batch ≠ []).flatMap text = [] := by
      rw [List.flatMap_eq_nil_iff]
      intro batch hbatch
      simpa using (List.mem_filter.mp hbatch).2
    rw [List.flatMap_append, hnone, List.append_nil, hpieces, List.flatMap_def]

end Outbox

end S3Cpp.Library
