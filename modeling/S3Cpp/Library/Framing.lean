import Mathlib.Algebra.BigOperators.Group.List.Basic
import Mathlib.Algebra.Order.Ring.Nat
import Mathlib.Data.List.Basic

-- Text put together from parts with a separator between or after them, and what
-- two equal texts say about their parts.
namespace S3Cpp.Library.Framing

variable {α : Type*}

-- Each piece followed by the separator.
def lines (separator : α) (pieces : List (List α)) : List α := pieces.flatMap (· ++ [separator])

theorem dropLast_lines (separator : α) (pieces : List (List α)) :
    (lines separator pieces).dropLast = [separator].intercalate pieces := by
  induction pieces with
  | nil => rfl
  | cons first rest ih =>
      cases rest with
      | nil => simp [lines]
      | cons second rest =>
          have hne : lines separator (second :: rest) ≠ [] := by simp [lines]
          have hcons : lines separator (first :: second :: rest) =
              (first ++ [separator]) ++ lines separator (second :: rest) := rfl
          rw [hcons, List.dropLast_append_of_ne_nil hne, ih]
          simp [List.intercalate]

theorem length_intercalate (separator : α) (pieces : List (List α)) :
    ([separator].intercalate pieces).length = (pieces.map (·.length + 1)).sum - 1 := by
  rw [← dropLast_lines, lines, List.length_dropLast, List.length_flatMap]
  simp

section Count

variable [DecidableEq α]

theorem length_splitOn (a : α) (l : List α) : (l.splitOn a).length = l.count a + 1 := by
  induction l with
  | nil => rfl
  | cons b l ih =>
      rw [List.splitOn_cons_eq_if_modifyHead]
      by_cases hb : b = a <;> simp [hb, ih]

theorem count_intercalate (a : α) (pieces : List (List α)) (hne : pieces ≠ []) :
    ([a].intercalate pieces).count a + 1 = (pieces.map (List.count a)).sum + pieces.length := by
  induction pieces with
  | nil => exact absurd rfl hne
  | cons first rest ih =>
      cases rest with
      | nil => simp [List.intercalate]
      | cons second rest =>
          have ih := ih (by simp)
          have hi : [a].intercalate (first :: second :: rest) =
              first ++ a :: [a].intercalate (second :: rest) := by
            simp [List.intercalate, List.intersperse]
          rw [hi, List.count_append, List.count_cons_self]
          simp only [List.map_cons, List.sum_cons, List.length_cons] at ih ⊢
          omega

theorem count_lines (a : α) (pieces : List (List α)) :
    (lines a pieces).count a = (pieces.map (List.count a)).sum + pieces.length := by
  induction pieces with
  | nil => rfl
  | cons piece pieces ih =>
      have hcons : lines a (piece :: pieces) = piece ++ a :: lines a pieces := by simp [lines]
      rw [hcons, List.count_append, List.count_cons_self, ih]
      simp only [List.map_cons, List.sum_cons, List.length_cons]
      omega

end Count

variable [DecidableEq α] {separator : α}

theorem splitOn_lines {pieces : List (List α)} (h : ∀ piece ∈ pieces, separator ∉ piece) :
    (lines separator pieces).splitOn separator = pieces ++ [[]] := by
  induction pieces with
  | nil => simp [lines]
  | cons piece pieces ih =>
      have hcons : lines separator (piece :: pieces) = piece ++ separator :: lines separator pieces := by
        simp [lines]
      rw [hcons, List.splitOn_append_cons_self_of_not_mem (h piece List.mem_cons_self),
        ih fun p hp => h p (List.mem_cons_of_mem _ hp)]
      rfl

-- Pieces with the separator in them come apart into more pieces than there were.
theorem length_splitOn_lines_iff (pieces : List (List α)) :
    ((lines separator pieces).splitOn separator).length = pieces.length + 1 ↔
      ∀ piece ∈ pieces, separator ∉ piece := by
  have hzero : (∀ piece ∈ pieces, separator ∉ piece) ↔ (pieces.map (List.count separator)).sum = 0 := by
    simp [List.sum_eq_zero_iff_forall_eq_nat, List.count_eq_zero]
  rw [length_splitOn, count_lines, hzero]
  omega

theorem splitOn_injective {a b : List α} (h : a.splitOn separator = b.splitOn separator) : a = b :=
  calc a = [separator].intercalate (a.splitOn separator) := (List.intercalate_splitOn separator).symm
    _ = [separator].intercalate (b.splitOn separator) := by rw [h]
    _ = b := List.intercalate_splitOn separator

section Equal

variable {a b c d : List α}

theorem append_first_inj (ha : separator ∉ a) (hc : separator ∉ c)
    (h : a ++ separator :: b = c ++ separator :: d) : a = c ∧ b = d := by
  have hsplit := congrArg (List.splitOn separator) h
  rw [List.splitOn_append_cons_self_of_not_mem ha, List.splitOn_append_cons_self_of_not_mem hc] at hsplit
  obtain ⟨hfirst, hrest⟩ := List.cons.inj hsplit
  exact ⟨hfirst, splitOn_injective hrest⟩

theorem append_last_inj (hb : separator ∉ b) (hd : separator ∉ d)
    (h : a ++ separator :: b = c ++ separator :: d) : a = c ∧ b = d := by
  have hsplit := congrArg (List.splitOn separator) h
  rw [List.splitOn_append_cons_self, List.splitOn_append_cons_self, List.splitOn_eq_singleton hb,
    List.splitOn_eq_singleton hd] at hsplit
  obtain ⟨hrest, hlast⟩ := List.append_inj' hsplit rfl
  exact ⟨splitOn_injective hrest, List.singleton_inj.mp hlast⟩

-- As many last lines of two equal texts are equal one by one.
theorem append_lines_inj {pieces others : List (List α)}
    (hpieces : ∀ piece ∈ pieces, separator ∉ piece) (hothers : ∀ piece ∈ others, separator ∉ piece)
    (hlength : pieces.length = others.length)
    (h : a ++ separator :: lines separator pieces = b ++ separator :: lines separator others) :
    a = b ∧ pieces = others := by
  have hsplit := congrArg (List.splitOn separator) h
  rw [List.splitOn_append_cons_self, List.splitOn_append_cons_self, splitOn_lines hpieces,
    splitOn_lines hothers] at hsplit
  obtain ⟨hrest, hlast⟩ := List.append_inj' hsplit (by simpa using hlength)
  exact ⟨splitOn_injective hrest, (List.append_inj' hlast rfl).1⟩

-- The pieces of a text are those it was put together from. Only no piece at all
-- gives the empty text.
theorem intercalate_inj {pieces others : List (List α)}
    (hpieces : ∀ piece ∈ pieces, piece ≠ [] ∧ separator ∉ piece)
    (hothers : ∀ piece ∈ others, piece ≠ [] ∧ separator ∉ piece)
    (h : [separator].intercalate pieces = [separator].intercalate others) : pieces = others := by
  have hnil {l : List (List α)} (hl : ∀ piece ∈ l, piece ≠ [] ∧ separator ∉ piece)
      (h : [separator].intercalate l = []) : l = [] := by
    cases l with
    | nil => rfl
    | cons first rest =>
        cases rest with
        | nil => exact absurd (by simpa using h) (hl first (by simp)).1
        | cons second rest => simp [List.intercalate, List.intersperse] at h
  by_cases hne : pieces = []
  · subst hne
    exact (hnil hothers h.symm).symm
  · have hne' : others ≠ [] := by
      rintro rfl
      exact hne (hnil hpieces h)
    have hsplit := congrArg (List.splitOn separator) h
    rwa [List.splitOn_intercalate _ (fun p hp => (hpieces p hp).2) hne,
      List.splitOn_intercalate _ (fun p hp => (hothers p hp).2) hne'] at hsplit

end Equal

-- What two parts agree on when they are written alike, two lists of them agree on.
theorem map_eq_of_map_eq {β γ δ : Type*} {f : β → γ} {g : β → δ} {l other : List β}
    (hfg : ∀ a ∈ l, ∀ b ∈ other, f a = f b → g a = g b) (h : l.map f = other.map f) :
    l.map g = other.map g := by
  induction l generalizing other with
  | nil =>
      obtain rfl := List.map_eq_nil_iff.mp h.symm
      rfl
  | cons a l ih =>
      cases other with
      | nil => simp at h
      | cons b other =>
          obtain ⟨hhead, htail⟩ := List.cons.inj h
          have hrest := ih (fun x hx y hy =>
            hfg x (List.mem_cons_of_mem _ hx) y (List.mem_cons_of_mem _ hy)) htail
          rw [List.map_cons, List.map_cons, hfg a (by simp) b (by simp) hhead, hrest]

theorem mem_splitOn {text piece : List α} (h : piece ∈ text.splitOn separator) :
    separator ∉ piece ∧ piece ⊆ text := by
  induction text generalizing piece with
  | nil =>
      obtain rfl : piece = [] := by simpa using h
      exact ⟨by simp, by simp⟩
  | cons b text ih =>
      rw [List.splitOn_cons_eq_if_modifyHead] at h
      split at h
      · rcases List.mem_cons.mp h with rfl | h
        · exact ⟨by simp, by simp⟩
        · exact ⟨(ih h).1, List.subset_cons_of_subset _ (ih h).2⟩
      · rename_i hb
        have hb : b ≠ separator := by simpa using hb
        cases hrest : text.splitOn separator with
        | nil => exact absurd hrest (List.splitOn_ne_nil _ _)
        | cons first rest =>
            rw [hrest] at ih h
            rcases List.mem_cons.mp h with rfl | h
            · obtain ⟨hfirst, hsub⟩ := @ih first (by simp)
              refine ⟨?_, List.cons_subset_cons _ hsub⟩
              simp [hfirst, Ne.symm hb]
            · obtain ⟨hpiece, hsub⟩ := @ih piece (List.mem_cons_of_mem _ h)
              exact ⟨hpiece, List.subset_cons_of_subset _ hsub⟩

end S3Cpp.Library.Framing
