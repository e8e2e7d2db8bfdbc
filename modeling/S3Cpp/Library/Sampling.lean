import Mathlib.Algebra.BigOperators.Group.List.Basic
import Mathlib.Data.List.Basic
import Mathlib.Tactic.Ring

-- Readings of counters and clocks that never go back. A counter is read twice for
-- each sample, which is what it gains between the two readings.
namespace S3Cpp.Library.Sampling

def gain (interval : Nat × Nat) : Nat := interval.2 - interval.1

-- Readings in the order in which they were made, between two values.
inductive Ascending : Nat → List (Nat × Nat) → Nat → Prop
  | nil {low high : Nat} (h : low ≤ high) : Ascending low [] high
  | cons {low first last high : Nat} {rest : List (Nat × Nat)} (hfirst : low ≤ first)
      (hgain : first ≤ last) (h : Ascending last rest high) :
      Ascending low ((first, last) :: rest) high

namespace Ascending

variable {low low' high high' : Nat} {intervals : List (Nat × Nat)}

theorem widen (h : Ascending low intervals high) (hlow : low' ≤ low) (hhigh : high ≤ high') :
    Ascending low' intervals high' := by
  induction h generalizing low' with
  | nil h => exact .nil (by omega)
  | cons hfirst hgain _ ih => exact .cons (by omega) hgain (ih (Nat.le_refl _) hhigh)

-- A window on the last samples.
theorem drop (h : Ascending low intervals high) (n : Nat) : Ascending low (intervals.drop n) high := by
  induction h generalizing n with
  | nil h =>
      rw [List.drop_nil]
      exact .nil h
  | cons hfirst hgain h ih =>
      cases n with
      | zero => exact .cons hfirst hgain h
      | succ n => exact (ih n).widen (by omega) (Nat.le_refl _)

-- No two samples count the same, so together they count no more than there was.
theorem sum_gain_le (h : Ascending low intervals high) : low + (intervals.map gain).sum ≤ high := by
  induction h with
  | nil h => simpa using h
  | cons hfirst hgain _ ih =>
      rw [List.map_cons, List.sum_cons, gain]
      dsimp only
      omega

end Ascending

-- Values that do not go down, taken two by two.
theorem ascending_of_pairwise {α : Type*} (value : α → Nat) {low high : Nat} {intervals : List (α × α)}
    (hordered : ((intervals.flatMap fun i => [i.1, i.2]).map value).Pairwise (· ≤ ·))
    (hrange : ∀ a ∈ intervals.flatMap fun i => [i.1, i.2], low ≤ value a ∧ value a ≤ high) (hle : low ≤ high) :
    Ascending low (intervals.map fun i => (value i.1, value i.2)) high := by
  induction intervals generalizing low with
  | nil => exact .nil hle
  | cons interval rest ih =>
      simp only [List.flatMap_cons, List.cons_append, List.nil_append, List.map_cons, List.pairwise_cons] at hordered
      obtain ⟨hfirst, hlast, hrest⟩ := hordered
      have hinside := hrange interval.1 (by simp)
      have houtside := hrange interval.2 (by simp)
      refine .cons hinside.1 (hfirst _ (by simp)) (ih hrest (fun a ha => ⟨?_, ?_⟩) houtside.2)
      · exact hlast _ (List.mem_map_of_mem ha)
      · exact (hrange a (List.mem_append_right _ ha)).2

-- The last samples, as many as a window holds.
def lastOf {α : Type*} (window : Nat) (l : List α) : List α := l.drop (l.length - window)

theorem lastOf_concat {α : Type*} (window : Nat) (l : List α) (a : α) :
    (lastOf window l ++ [a]).drop ((lastOf window l).length + 1 - window) = lastOf window (l ++ [a]) := by
  have hdrop : lastOf window l ++ [a] = (l ++ [a]).drop (l.length - window) :=
    (List.drop_append_of_le_length (by omega)).symm
  rw [hdrop, List.drop_drop, lastOf, lastOf, List.length_drop, List.length_append, List.length_singleton]
  congr 1
  omega

-- What a value that is read again and again gains from one time to the next.
def gainsFrom : Nat → List Nat → List Nat
  | _, [] => []
  | low, value :: rest => (value - low) :: gainsFrom value rest

theorem length_gainsFrom (low : Nat) (values : List Nat) : (gainsFrom low values).length = values.length := by
  induction values generalizing low with
  | nil => rfl
  | cons value rest ih => rw [gainsFrom, List.length_cons, List.length_cons, ih]

theorem gainsFrom_concat (low value : Nat) (values : List Nat) :
    gainsFrom low (values ++ [value]) = gainsFrom low values ++ [value - values.getLastD low] := by
  induction values generalizing low with
  | nil => rfl
  | cons first rest ih =>
      rw [List.cons_append, gainsFrom, gainsFrom, ih, List.cons_append]
      cases rest <;> rfl

-- The gains from some reading on are what has come in since.
theorem sum_drop_gainsFrom {low : Nat} {values : List Nat} (hordered : (low :: values).Pairwise (· ≤ ·)) (n : Nat)
    (hn : n ≤ values.length) :
    (low :: values).getD n 0 + ((gainsFrom low values).drop n).sum = values.getLastD low := by
  induction values generalizing low n with
  | nil =>
      obtain rfl : n = 0 := by simpa using hn
      rfl
  | cons value rest ih =>
      obtain ⟨hlow, hrest⟩ := List.pairwise_cons.mp hordered
      have hlast : (value :: rest).getLastD low = rest.getLastD value := by cases rest <;> rfl
      cases n with
      | zero =>
          have hsum := ih hrest 0 (Nat.zero_le _)
          have hvalue := hlow value (by simp)
          simp only [gainsFrom, List.drop_zero, List.sum_cons, List.getD_cons_zero] at hsum ⊢
          omega
      | succ n =>
          rw [hlast, ← ih hrest n (by simpa using hn)]
          rfl

-- Times that are more than some distance apart are as many as fit in between.
theorem length_of_spaced {times : List Int} {distance low high : Int} (hdistance : 0 < distance)
    (hspaced : times.Pairwise fun earlier later => earlier + distance < later)
    (hrange : ∀ time ∈ times, low ≤ time ∧ time ≤ high) (hle : low ≤ high) :
    (times.length : Int) ≤ (high - low) / distance + 1 := by
  induction times generalizing low with
  | nil =>
      have hzero : 0 ≤ (high - low) / distance := Int.ediv_nonneg (by omega) (le_of_lt hdistance)
      rw [List.length_nil]
      omega
  | cons time times ih =>
      obtain ⟨hfirst, hspaced⟩ := List.pairwise_cons.mp hspaced
      obtain ⟨hlow, hhigh⟩ := hrange time (by simp)
      cases times with
      | nil =>
          have hzero : 0 ≤ (high - low) / distance := Int.ediv_nonneg (by omega) (le_of_lt hdistance)
          simp only [List.length_cons, List.length_nil]
          omega
      | cons second times =>
          have hsecond := hfirst second (by simp)
          have hrest := @ih (time + distance) hspaced (fun later hlater => by
            have hlater' := hfirst later hlater
            exact ⟨le_of_lt hlater', (hrange later (List.mem_cons_of_mem _ hlater)).2⟩) (by
              have := (hrange second (by simp)).2
              omega)
          have hshift : (high - (time + distance)) / distance = (high - time) / distance - 1 := by
            rw [show high - (time + distance) = high - time + (-1) * distance by ring,
              Int.add_mul_ediv_right _ _ (ne_of_gt hdistance)]
            omega
          have hmono : (high - time) / distance ≤ (high - low) / distance :=
            Int.ediv_le_ediv hdistance (by omega)
          rw [List.length_cons]
          push_cast at hrest ⊢
          omega

end S3Cpp.Library.Sampling
