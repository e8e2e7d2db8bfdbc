import Mathlib.Data.List.Nodup

-- Operations on one object that calls make side by side and that take effect one
-- after another.
namespace S3Cpp.Library.Linearizable

variable {σ ω α : Type*} (perform : ω → σ → σ × α) (start : σ)

-- What one client that waits for each answer could see.
inductive Sequential : List (ω × α) → σ → Prop
  | nil : Sequential [] start
  | concat {history : List (ω × α)} {state : σ} (h : Sequential history state) (operation : ω) :
      Sequential (history ++ [(operation, (perform operation state).2)]) (perform operation state).1

-- The operations are numbered by their calls. Those that have taken effect have
-- done so once each, in the order in which they were answered.
structure Linearization (operations : List ω) (served : List (Nat × α)) (state : σ) : Prop where
  once : (served.map Prod.fst).Nodup
  sequential : ∃ history : List (Nat × ω × α), history.map (fun entry => (entry.1, entry.2.2)) = served ∧
    (∀ entry ∈ history, operations[entry.1]? = some entry.2.1) ∧
    Sequential perform start (history.map Prod.snd) state

variable {perform start} {operations : List ω} {served : List (Nat × α)} {state : σ}

theorem Linearization.none : Linearization perform start operations [] start :=
  ⟨List.nodup_nil, [], rfl, by simp, .nil⟩

-- A call that is made changes nothing.
theorem Linearization.made (h : Linearization perform start operations served state) (more : List ω) :
    Linearization perform start (operations ++ more) served state := by
  obtain ⟨history, hserved, hown, hsequential⟩ := h.sequential
  refine ⟨h.once, history, hserved, fun entry hentry => ?_, hsequential⟩
  have hlt := (List.getElem?_eq_some_iff.mp (hown entry hentry)).1
  rw [List.getElem?_append_left hlt]
  exact hown entry hentry

theorem Linearization.took {i : Nat} {operation : ω} (h : Linearization perform start operations served state)
    (hoperation : operations[i]? = some operation) (hnew : i ∉ served.map Prod.fst) :
    Linearization perform start operations (served ++ [(i, (perform operation state).2)])
      (perform operation state).1 := by
  obtain ⟨history, hserved, hown, hsequential⟩ := h.sequential
  refine ⟨?_, history ++ [(i, operation, (perform operation state).2)], ?_, ?_, ?_⟩
  · rw [List.map_append, List.map_singleton, ← List.concat_eq_append]
    exact h.once.concat hnew
  · rw [List.map_append, hserved]
    rfl
  · intro entry hentry
    rcases List.mem_append.mp hentry with hentry | hentry
    · exact hown entry hentry
    · obtain rfl := List.mem_singleton.mp hentry
      exact hoperation
  · rw [List.map_append]
    exact hsequential.concat operation

theorem Linearization.lt (h : Linearization perform start operations served state) {i : Nat}
    (hi : i ∈ served.map Prod.fst) : i < operations.length := by
  obtain ⟨history, rfl, hown, -⟩ := h.sequential
  rw [List.map_map, List.mem_map] at hi
  obtain ⟨entry, hentry, rfl⟩ := hi
  exact (List.getElem?_eq_some_iff.mp (hown entry hentry)).1

-- The order is that of real time: what has taken effect comes before what has not
-- been asked for yet.
theorem Linearization.precedes (h : Linearization perform start operations served state)
    {later : List (Nat × α)} (hlater : served <+: later) {i j : Nat} (hi : i ∈ served.map Prod.fst)
    (hj : operations.length ≤ j) (hserved : j ∈ later.map Prod.fst) : [i, j].Sublist (later.map Prod.fst) := by
  obtain ⟨rest, rfl⟩ := hlater
  rw [List.map_append] at hserved ⊢
  have hrest : j ∈ rest.map Prod.fst := by
    rcases List.mem_append.mp hserved with hserved | hserved
    · exact absurd (h.lt hserved) (Nat.not_lt.mpr hj)
    · exact hserved
  exact (List.singleton_sublist.mpr hi).append (List.singleton_sublist.mpr hrest)

end S3Cpp.Library.Linearizable
