import Mathlib.Data.List.Perm.Basic

-- Traversals that visit a root and all that they find, in whatever order.
namespace S3Cpp.Library.Exploration

variable {α : Type*} {root : α} {children : α → List α} {rank : α → Nat} {visited other : List α}

-- The root and every child of what is visited are visited, each as often as it
-- is found, and nothing else is.
def Explores (root : α) (children : α → List α) (visited : List α) : Prop :=
  visited.Perm (root :: visited.flatMap children)

-- The children of an element stand one step further from the root.
structure Ranked (root : α) (children : α → List α) (rank : α → Nat) : Prop where
  root : rank root = 0
  child : ∀ a, ∀ b ∈ children a, rank b = rank a + 1

def layer (rank : α → Nat) (visited : List α) (n : Nat) : List α := visited.filter fun a => rank a = n

theorem filter_children (hrank : Ranked root children rank) (a : α) (n : Nat) :
    (children a).filter (fun b => rank b = n) = if rank a + 1 = n then children a else [] := by
  by_cases h : rank a + 1 = n
  · rw [if_pos h, List.filter_eq_self]
    intro b hb
    simpa [hrank.child a b hb] using h
  · rw [if_neg h, List.filter_eq_nil_iff]
    intro b hb
    simpa [hrank.child a b hb] using h

theorem flatMap_layer (visited : List α) (n : Nat) :
    (layer rank visited n).flatMap children =
      visited.flatMap fun a => if rank a = n then children a else [] := by
  induction visited with
  | nil => rfl
  | cons a visited ih =>
      by_cases h : rank a = n <;> simp_all [layer]

theorem Explores.layer_zero (h : Explores root children visited) (hrank : Ranked root children rank) :
    (layer rank visited 0).Perm [root] := by
  have hfilter := h.filter fun a => rank a = 0
  have hnone : (visited.flatMap children).filter (fun a => rank a = 0) = [] := by
    rw [List.filter_flatMap]
    simp [filter_children hrank]
  rwa [List.filter_cons_of_pos (by simpa using hrank.root), hnone] at hfilter

theorem Explores.layer_succ (h : Explores root children visited) (hrank : Ranked root children rank) (n : Nat) :
    (layer rank visited (n + 1)).Perm ((layer rank visited n).flatMap children) := by
  have hfilter := h.filter fun a => rank a = n + 1
  rw [List.filter_cons_of_neg (by simp [hrank.root]), List.filter_flatMap] at hfilter
  rw [flatMap_layer]
  simpa only [layer, filter_children hrank, Nat.add_right_cancel_iff] using hfilter

theorem layer_perm (h : Explores root children visited) (hother : Explores root children other)
    (hrank : Ranked root children rank) (n : Nat) : (layer rank visited n).Perm (layer rank other n) := by
  induction n with
  | zero => exact (h.layer_zero hrank).trans (hother.layer_zero hrank).symm
  | succ n ih =>
      have hnext := ih.flatMap_right children
      exact (h.layer_succ hrank n).trans (hnext.trans (hother.layer_succ hrank n).symm)

-- What is visited does not depend on the order of the visits.
theorem Explores.unique (h : Explores root children visited) (hother : Explores root children other)
    (hrank : Ranked root children rank) : visited.Perm other := by
  classical
  apply List.perm_iff_count.mpr
  intro a
  have hcount := (layer_perm h hother hrank (rank a)).count_eq a
  have hlayer (l : List α) : (layer rank l (rank a)).count a = l.count a :=
    List.count_filter (by simp)
  rwa [hlayer, hlayer] at hcount

end S3Cpp.Library.Exploration
