import Mathlib.Logic.Relation

namespace S3Cpp.Library.Transition

-- A labelled transition system is a partial step function: the action carries
-- every choice of the environment, so the step itself is deterministic.
variable {σ α : Type*} (step : σ → α → Option σ)

def run : σ → List α → Option σ
  | s, [] => some s
  | s, a :: as => (step s a).bind (run · as)

theorem run_cons {s t : σ} {a : α} {as : List α} (h : step s a = some t) :
    run step s (a :: as) = run step t as := by
  simp [run, h]

-- The states reached from `start` by steps that `allowed` admits.
inductive Reach (allowed : σ → α → Prop) (start : σ) : σ → Prop
  | refl : Reach allowed start start
  | tail {s t : σ} {a : α} (hr : Reach allowed start s) (ha : allowed s a)
      (hs : step s a = some t) : Reach allowed start t

-- The states reached by any steps at all.
def Reachable (start : σ) : σ → Prop := Reach step (fun _ _ => True) start

variable {step}

theorem Reach.mono {allowed wider : σ → α → Prop} (hw : ∀ s a, allowed s a → wider s a)
    {start s : σ} (h : Reach step allowed start s) : Reach step wider start s := by
  induction h with
  | refl => exact .refl
  | tail _ ha hs ih => exact .tail ih (hw _ _ ha) hs

theorem Reach.reachable {allowed : σ → α → Prop} {start s : σ}
    (h : Reach step allowed start s) : Reachable step start s :=
  h.mono fun _ _ _ => trivial

theorem Reach.trans {allowed : σ → α → Prop} {start s t : σ}
    (h : Reach step allowed start s) (h' : Reach step allowed s t) :
    Reach step allowed start t := by
  induction h' with
  | refl => exact h
  | tail _ ha hs ih => exact .tail ih ha hs

theorem Reach.single {allowed : σ → α → Prop} {s t : σ} {a : α} (ha : allowed s a)
    (hs : step s a = some t) : Reach step allowed s t :=
  .tail .refl ha hs

-- The rule of every safety proof here: what holds at the start and is kept by
-- every allowed step holds in every state reached.
theorem Reach.invariant {allowed : σ → α → Prop} {start s : σ} {I : σ → Prop}
    (hinit : I start) (hstep : ∀ s a t, allowed s a → I s → step s a = some t → I t)
    (h : Reach step allowed start s) : I s := by
  induction h with
  | refl => exact hinit
  | tail _ ha hs ih => exact hstep _ _ _ ha ih hs

-- An invariant already established may be used in the step of the next one.
theorem Reach.invariant_of {allowed : σ → α → Prop} {start s : σ} {I J : σ → Prop}
    (hJ : ∀ t, Reach step allowed start t → J t) (hinit : I start)
    (hstep : ∀ s a t, allowed s a → J s → I s → step s a = some t → I t)
    (h : Reach step allowed start s) : I s := by
  induction h with
  | refl => exact hinit
  | tail hr ha hs ih => exact hstep _ _ _ ha (hJ _ hr) ih hs

theorem Reachable.of_run {s t : σ} {as : List α} (h : run step s as = some t) :
    Reachable step s t := by
  induction as generalizing s with
  | nil =>
      obtain rfl := Option.some.inj h
      exact .refl
  | cons a as ih =>
      obtain ⟨u, hu, ht⟩ := Option.bind_eq_some_iff.mp h
      exact (Reach.single trivial hu).trans (ih ht)

-- A run whose every step passes a check.
def guarded (step : σ → α → Option σ) (check : σ → α → Bool) (s : σ) (a : α) : Option σ :=
  if check s a then step s a else none

theorem Reach.of_run {check : σ → α → Bool} {s t : σ} {as : List α}
    (h : run (guarded step check) s as = some t) :
    Reach step (fun s a => check s a = true) s t := by
  induction as generalizing s with
  | nil =>
      obtain rfl := Option.some.inj h
      exact .refl
  | cons a as ih =>
      obtain ⟨u, hu, ht⟩ := Option.bind_eq_some_iff.mp h
      unfold guarded at hu
      split at hu
      · rename_i hcheck
        have hfirst : Reach step (fun s a => check s a = true) s u := Reach.single hcheck hu
        exact hfirst.trans (ih ht)
      · cases hu

-- Whatever steps are taken a state with `P` comes, and until then some step can
-- always be taken.
inductive Inevitable (step : σ → α → Option σ) (P : σ → Prop) : σ → Prop
  | now {s : σ} (h : P s) : Inevitable step P s
  | later {s : σ} (henabled : ∃ a t, step s a = some t)
      (hnext : ∀ a t, step s a = some t → Inevitable step P t) : Inevitable step P s

theorem Inevitable.mono {P Q : σ → Prop} (hPQ : ∀ s, P s → Q s) {s : σ} (h : Inevitable step P s) :
    Inevitable step Q s := by
  induction h with
  | now h => exact .now (hPQ _ h)
  | later henabled _ ih => exact .later henabled ih

-- The rule for inevitability: until `P` holds no step is without a successor
-- and every step brings the measure down.
theorem Inevitable.of_measure {I P : σ → Prop} (measure : σ → Nat)
    (hstep : ∀ s a t, I s → ¬ P s → step s a = some t → I t ∧ measure t < measure s)
    (hprogress : ∀ s, I s → ¬ P s → ∃ a t, step s a = some t) {s : σ} (hs : I s) :
    Inevitable step P s := by
  induction hm : measure s using Nat.strongRecOn generalizing s with
  | _ m ih =>
      by_cases hP : P s
      · exact .now hP
      · refine .later (hprogress s hs hP) fun a t ht => ?_
        obtain ⟨hI, hlt⟩ := hstep s a t hs hP ht
        exact ih (measure t) (hm ▸ hlt) hI rfl

-- The system without the steps that are not allowed.
noncomputable def restrict (step : σ → α → Option σ) (allowed : σ → α → Prop) (s : σ) (a : α) : Option σ :=
  open Classical in if allowed s a then step s a else none

theorem restrict_eq_some_iff {allowed : σ → α → Prop} {s t : σ} {a : α} :
    restrict step allowed s a = some t ↔ allowed s a ∧ step s a = some t := by
  unfold restrict
  split
  · rename_i hallowed
    exact (and_iff_right hallowed).symm
  · rename_i hallowed
    exact iff_of_false (by simp) fun h => hallowed h.1

-- What is inevitable is reached by some run.
theorem Inevitable.exists_reach {allowed : σ → α → Prop} {P : σ → Prop} {s : σ}
    (h : Inevitable (restrict step allowed) P s) : ∃ t, Reach step allowed s t ∧ P t := by
  induction h with
  | now h => exact ⟨_, .refl, h⟩
  | later henabled _ ih =>
      obtain ⟨a, t, ht⟩ := henabled
      obtain ⟨u, hu, hP⟩ := ih a t ht
      obtain ⟨hallowed, hs⟩ := restrict_eq_some_iff.mp ht
      exact ⟨u, (Reach.single hallowed hs).trans hu, hP⟩

-- A run of allowed steps with the actions it takes.
inductive Steps (step : σ → α → Option σ) (allowed : σ → α → Prop) (start : σ) : List α → σ → Prop
  | nil : Steps step allowed start [] start
  | concat {s t : σ} {as : List α} {a : α} (h : Steps step allowed start as s) (ha : allowed s a)
      (hs : step s a = some t) : Steps step allowed start (as ++ [a]) t

theorem Steps.reach {allowed : σ → α → Prop} {start s : σ} {as : List α} (h : Steps step allowed start as s) :
    Reach step allowed start s := by
  induction h with
  | nil => exact .refl
  | concat _ ha hs ih => exact .tail ih ha hs

theorem Steps.mono {allowed wider : σ → α → Prop} (hw : ∀ s a, allowed s a → wider s a) {start s : σ}
    {as : List α} (h : Steps step allowed start as s) : Steps step wider start as s := by
  induction h with
  | nil => exact .nil
  | concat _ ha hs ih => exact .concat ih (hw _ _ ha) hs

theorem Steps.cons {allowed : σ → α → Prop} {start s t : σ} {a : α} {as : List α} (ha : allowed start a)
    (hs : step start a = some s) (h : Steps step allowed s as t) : Steps step allowed start (a :: as) t := by
  induction h with
  | nil => exact .concat .nil ha hs
  | concat _ ha' hs' ih => exact .concat ih ha' hs'

theorem Steps.of_run {check : σ → α → Bool} {s t : σ} {as : List α}
    (h : run (guarded step check) s as = some t) : Steps step (fun s a => check s a = true) s as t := by
  induction as generalizing s with
  | nil =>
      obtain rfl := Option.some.inj h
      exact .nil
  | cons a as ih =>
      obtain ⟨u, hu, ht⟩ := Option.bind_eq_some_iff.mp h
      unfold guarded at hu
      split at hu
      · rename_i hcheck
        exact .cons hcheck hu (ih ht)
      · cases hu

-- The rule for bounded work: where every counted step takes something off the
-- measure and the others add to it no more than they add to `gain`, a run has no
-- more counted steps than the two allow. `P` is what the end of a run says of
-- the states before.
theorem Steps.countP_le {allowed : σ → α → Prop} {start s : σ} {as : List α} {P : σ → Prop}
    (counted : α → Bool) (measure gain : σ → Nat)
    (hback : ∀ s a t, step s a = some t → P t → P s)
    (hstep : ∀ s a t, Reach step allowed start s → allowed s a → P s → step s a = some t →
      measure t + (counted a).toNat + gain s ≤ measure s + gain t)
    (h : Steps step allowed start as s) (hP : P s) :
    measure s + as.countP counted + gain start ≤ measure start + gain s := by
  induction h with
  | nil => exact Nat.le_refl _
  | @concat s t as a h ha hs ih =>
      have hbefore := hback s a t hs hP
      have hrun := ih hbefore
      have hlast := hstep s a t h.reach ha hbefore hs
      rw [List.countP_append, List.countP_singleton]
      cases hcounted : counted a with
      | false =>
          rw [hcounted, Bool.toNat_false] at hlast
          rw [if_neg Bool.false_ne_true]
          omega
      | true =>
          rw [hcounted, Bool.toNat_true] at hlast
          rw [if_pos rfl]
          omega

end S3Cpp.Library.Transition
