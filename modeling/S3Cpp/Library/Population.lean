import Mathlib.Algebra.BigOperators.Group.List.Basic
import Mathlib.Algebra.Order.Ring.Nat

-- Sums over a population of processes of which one moves at a time. A quantity
-- that each move only shifts between the process and the shared state is kept.
namespace S3Cpp.Library.Population

variable {α : Type*}

def total (f : α → Nat) (population : List α) : Nat := (population.map f).sum

variable (f : α → Nat)

@[simp] theorem total_nil : total f [] = 0 := rfl

@[simp] theorem total_cons (a : α) (rest : List α) : total f (a :: rest) = f a + total f rest := by
  simp [total]

@[simp] theorem total_append (l₁ l₂ : List α) : total f (l₁ ++ l₂) = total f l₁ + total f l₂ := by
  simp [total]

theorem total_move (before after : List α) (a a' : α) :
    total f (before ++ a' :: after) + f a = total f (before ++ a :: after) + f a' := by
  simp only [total_append, total_cons]
  omega

theorem mem_move {before after : List α} {a b : α} :
    b ∈ before ++ a :: after ↔ b = a ∨ b ∈ before ++ after := by
  rw [List.mem_append, List.mem_cons, List.mem_append, or_left_comm]

-- What holds of every process goes on to hold of every one when one of them has
-- moved, or when there is one more.
theorem forall_move {P : α → Prop} {before after : List α} {a a' : α}
    (h : ∀ b ∈ before ++ a :: after, P b) (ha' : P a') : ∀ b ∈ before ++ a' :: after, P b := by
  rw [List.forall_mem_append, List.forall_mem_cons] at h ⊢
  exact ⟨h.1, ha', h.2.2⟩

theorem forall_concat {P : α → Prop} {population : List α} {a : α} (h : ∀ b ∈ population, P b)
    (ha : P a) : ∀ b ∈ population ++ [a], P b := by
  rw [List.forall_mem_append, List.forall_mem_singleton]
  exact ⟨h, ha⟩

theorem le_total {population : List α} {a : α} (h : a ∈ population) : f a ≤ total f population := by
  obtain ⟨before, after, rfl⟩ := List.append_of_mem h
  simp only [total_append, total_cons]
  omega

theorem total_eq_zero_iff (population : List α) : total f population = 0 ↔ ∀ a ∈ population, f a = 0 := by
  induction population with
  | nil => simp
  | cons a rest ih => simp [ih]

theorem exists_of_total_pos {population : List α} (h : 0 < total f population) :
    ∃ a ∈ population, 0 < f a := by
  by_contra hnone
  push Not at hnone
  have := (total_eq_zero_iff f population).mpr fun a ha => Nat.le_zero.mp (hnone a ha)
  omega

@[simp] theorem total_zero (population : List α) : total (fun _ => 0) population = 0 :=
  (total_eq_zero_iff _ population).mpr fun _ _ => rfl

theorem total_count [BEq α] [LawfulBEq α] [DecidableEq α] (a : α) (population : List α) :
    total (fun b => if b = a then 1 else 0) population = population.count a := by
  induction population with
  | nil => rfl
  | cons b rest ih => simp [ih, List.count_cons, Nat.add_comm]

theorem total_congr {f g : α → Nat} {population : List α} (h : ∀ a ∈ population, f a = g a) :
    total f population = total g population := by
  simp only [total, List.map_congr_left h]

theorem total_one (population : List α) : total (fun _ => 1) population = population.length := by
  simp [total]

theorem total_map {β : Type*} (g : β → α) (population : List β) :
    total f (population.map g) = total (fun b => f (g b)) population := by
  simp [total, Function.comp_def]

theorem total_flatMap {β : Type*} (g : β → List α) (population : List β) :
    total f (population.flatMap g) = total (fun b => total f (g b)) population := by
  induction population with
  | nil => rfl
  | cons b rest ih => simp [ih]

theorem total_perm {population other : List α} (h : population.Perm other) :
    total f population = total f other :=
  (h.map f).sum_eq

theorem total_add (g : α → Nat) (population : List α) :
    total (fun a => f a + g a) population = total f population + total g population := by
  induction population with
  | nil => rfl
  | cons a rest ih =>
      simp only [total_cons, ih]
      omega

theorem total_mul (k : Nat) (population : List α) :
    total (fun a => k * f a) population = k * total f population := by
  induction population with
  | nil => rfl
  | cons a rest ih => rw [total_cons, total_cons, ih, Nat.mul_add]

theorem total_le_add {f g : α → Nat} {population : List α} (k : Nat) (h : ∀ a ∈ population, f a ≤ g a + k) :
    total f population ≤ total g population + k * population.length := by
  induction population with
  | nil => exact Nat.le_refl _
  | cons a rest ih =>
      rw [List.forall_mem_cons] at h
      have hrest := ih h.2
      have hfirst := h.1
      rw [total_cons, total_cons, List.length_cons, Nat.mul_succ]
      omega

-- The move of one process among the others.
theorem split_of_getElem? {population : List α} {index : Nat} {a : α} (h : population[index]? = some a) :
    ∃ before after, population = before ++ a :: after ∧ before.length = index ∧
      (∀ a', population.set index a' = before ++ a' :: after) ∧
      population.eraseIdx index = before ++ after := by
  obtain ⟨hlt, rfl⟩ := List.getElem?_eq_some_iff.mp h
  refine ⟨population.take index, population.drop (index + 1), ?_, ?_, fun a' => ?_, ?_⟩
  · rw [List.getElem_cons_drop, List.take_append_drop]
  · exact List.length_take_of_le hlt.le
  · rw [List.set_eq_take_append_cons_drop, if_pos hlt]
  · exact List.eraseIdx_eq_take_drop_succ population index

theorem add_le_total {population : List α} {i j : Nat} {a b : α} (ha : population[i]? = some a)
    (hb : population[j]? = some b) (hne : j ≠ i) : f a + f b ≤ total f population := by
  obtain ⟨before, after, rfl, rfl, -, -⟩ := split_of_getElem? ha
  have hmem : b ∈ before ++ after := by
    by_cases hlt : j < before.length
    · rw [List.getElem?_append_left hlt] at hb
      exact List.mem_append_left _ (List.mem_of_getElem? hb)
    · obtain ⟨k, hk⟩ := Nat.exists_eq_add_of_lt (show before.length < j by omega)
      rw [List.getElem?_append_right (by omega), hk, Nat.add_assoc, Nat.add_sub_cancel_left,
        List.getElem?_cons_succ] at hb
      exact List.mem_append_right _ (List.mem_of_getElem? hb)
  have hrest := le_total f hmem
  simp only [total_append, total_cons] at hrest ⊢
  omega

theorem countP_set {p : α → Bool} {population : List α} {index : Nat} {a : α} (a' : α)
    (h : population[index]? = some a) :
    (population.set index a').countP p + (p a).toNat = population.countP p + (p a').toNat := by
  obtain ⟨before, after, rfl, -, hset, -⟩ := split_of_getElem? h
  rw [hset, List.countP_append, List.countP_append, List.countP_cons, List.countP_cons]
  cases p a <;> cases p a' <;> simp <;> omega

end S3Cpp.Library.Population
