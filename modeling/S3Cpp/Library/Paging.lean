import S3Cpp.Library.Delimited

-- The listing of a set of keys by directories, read page by page while the set
-- changes. A token stands for the entries that it has passed, and a page shows
-- the entries that are there and lie between its token and the next one.
namespace S3Cpp.Library.Paging

open Delimited Population

variable {α τ : Type*} [DecidableEq α] (d : α) (passed : τ → List α → Prop)

def Passed (token : Option τ) (entry : List α) : Prop := ∃ t, token = some t ∧ passed t entry

def Between (token next : Option τ) (entry : List α) : Prop :=
  ¬ Passed passed token entry ∧ ∀ t, next = some t → passed t entry

structure Cut (keys : List (List α)) (p : List α) (token next : Option τ) (objects prefixes : List (List α)) :
    Prop where
  objects_nodup : objects.Nodup
  mem_objects : ∀ x, x ∈ objects ↔ x ∈ direct d keys p ∧ Between passed token next x
  prefixes_nodup : prefixes.Nodup
  mem_prefixes : ∀ c, c ∈ prefixes ↔ c ∈ below d keys p ∧ Between passed token next c
  further : ∀ t, next = some t → ∀ entry, Passed passed token entry → passed t entry

-- One for an entry that is still to come.
noncomputable def awaited (token : Option τ) (entry : List α) : Nat :=
  open Classical in if Passed passed token entry then 0 else 1

noncomputable def awaitedObject (p x : List α) (token : Option τ) : Nat :=
  if Direct d p x then awaited passed token x else 0

noncomputable def awaitedPrefix (p x : List α) (token : Option τ) : Nat :=
  if Deeper d p x then awaited passed token (child d p x) else 0

variable {d passed} {keys objects prefixes : List (List α)} {p x entry : List α} {token next : Option τ} {n : Nat}

omit [DecidableEq α] in
theorem awaited_eq_one (h : ¬ Passed passed token entry) : awaited passed token entry = 1 := if_neg h

omit [DecidableEq α] in
theorem awaited_eq_zero (h : Passed passed token entry) : awaited passed token entry = 0 := if_pos h

omit [DecidableEq α] in
theorem awaited_none (entry : List α) : awaited passed none entry = 1 := by
  apply awaited_eq_one
  rintro ⟨t, h, -⟩
  cases h

omit [DecidableEq α] in
theorem awaited_le_one (passed : τ → List α → Prop) (token : Option τ) (entry : List α) : awaited passed token entry ≤ 1 := by
  by_cases h : Passed passed token entry
  · rw [awaited_eq_zero h]
    omega
  · rw [awaited_eq_one h]

-- What has come down to a prefix is there or is still to come.
theorem awaited_split (passed : τ → List α → Prop) (p x : List α) :
    awaitedObject d passed p x none + awaitedPrefix d passed p x none = if p <+: x then 1 else 0 := by
  simp only [awaitedObject, awaitedPrefix, awaited_none]
  by_cases hp : p <+: x
  · by_cases hd : d ∈ x.drop p.length <;> simp [Direct, Deeper, hp, hd]
  · simp [Direct, Deeper, hp]

theorem awaited_bounded (passed : τ → List α → Prop) (p x : List α) (token : Option τ) :
    awaitedObject d passed p x token + awaitedPrefix d passed p x token ≤ if p <+: x then 1 else 0 := by
  have hx := awaited_le_one passed token x
  have hchild := awaited_le_one passed token (child d p x)
  simp only [awaitedObject, awaitedPrefix]
  by_cases hp : p <+: x
  · by_cases hd : d ∈ x.drop p.length
    · simpa [Direct, Deeper, hp, hd] using hchild
    · simpa [Direct, Deeper, hp, hd] using hx
  · simp [Direct, Deeper, hp]

namespace Cut

variable (h : Cut d passed keys p token next objects prefixes)

include h

-- An entry that is shown was still to come, and is not any more.
theorem shown_le (hone : n ≤ 1) (hshown : 0 < n → Between passed token next entry) :
    n + next.elim 0 (fun t => awaited passed (some t) entry) ≤ awaited passed token entry := by
  by_cases hn : 0 < n
  · obtain ⟨hawaited, hpassed⟩ := hshown hn
    have hlater : next.elim 0 (fun t => awaited passed (some t) entry) = 0 := by
      cases hnext : next with
      | none => rfl
      | some t => exact awaited_eq_zero ⟨t, rfl, hpassed t hnext⟩
    rw [awaited_eq_one hawaited]
    omega
  · cases hnext : next with
    | none =>
        simp only [Option.elim_none]
        omega
    | some t =>
        by_cases hpassed : Passed passed token entry
        · have hlater : awaited passed (some t) entry = 0 :=
            awaited_eq_zero ⟨t, rfl, h.further t hnext entry hpassed⟩
          simp only [Option.elim_some]
          omega
        · have hlater := awaited_le_one passed (some t) entry
          rw [awaited_eq_one hpassed, Option.elim_some]
          omega

omit [DecidableEq α] h in
-- An entry that is there is shown when its turn has come.
theorem le_shown (hshown : Between passed token next entry → 0 < n) :
    awaited passed token entry ≤ n + next.elim 0 fun t => awaited passed (some t) entry := by
  by_cases hpassed : Passed passed token entry
  · rw [awaited_eq_zero hpassed]
    exact Nat.zero_le _
  · rw [awaited_eq_one hpassed]
    by_cases hlater : ∀ t, next = some t → passed t entry
    · have hn := hshown ⟨hpassed, hlater⟩
      omega
    · push Not at hlater
      obtain ⟨t, rfl, ht⟩ := hlater
      have hnot : ¬ Passed passed (some t) entry := by
        rintro ⟨t', heq, ht'⟩
        obtain rfl := Option.some.inj heq
        exact ht ht'
      rw [Option.elim_some, awaited_eq_one hnot]
      omega

theorem objects_le (x : List α) :
    objects.count x + next.elim 0 (fun t => awaitedObject d passed p x (some t)) ≤
      awaitedObject d passed p x token := by
  by_cases hdirect : Direct d p x
  · simp only [awaitedObject, if_pos hdirect]
    exact h.shown_le (List.nodup_iff_count_le_one.mp h.objects_nodup x) fun hpos =>
      ((h.mem_objects x).mp (List.count_pos_iff.mp hpos)).2
  · have hnone : objects.count x = 0 := by
      apply List.count_eq_zero_of_not_mem
      intro hx
      exact hdirect (of_decide_eq_true (List.mem_filter.mp ((h.mem_objects x).mp hx).1).2)
    simp only [awaitedObject, if_neg hdirect, hnone]
    cases next <;> simp

theorem le_objects (hx : x ∈ keys) :
    awaitedObject d passed p x token ≤
      objects.count x + next.elim 0 fun t => awaitedObject d passed p x (some t) := by
  by_cases hdirect : Direct d p x
  · simp only [awaitedObject, if_pos hdirect]
    refine le_shown fun hbetween => List.count_pos_iff.mpr ((h.mem_objects x).mpr ⟨?_, hbetween⟩)
    exact List.mem_filter.mpr ⟨hx, decide_eq_true hdirect⟩
  · simp only [awaitedObject, if_neg hdirect]
    exact Nat.zero_le _

-- Only the child of a prefix on the way to a key counts for it.
theorem total_prefixes (x : List α) :
    total (fun c => if c <+: x then 1 else 0) prefixes =
      if Deeper d p x then prefixes.count (child d p x) else 0 := by
  have hchild : ∀ c ∈ prefixes, (if c <+: x then 1 else 0) =
      if Deeper d p x then if c = child d p x then 1 else 0 else 0 := by
    intro c hc
    obtain ⟨k, -, -, rfl⟩ := mem_below_iff.mp ((h.mem_prefixes c).mp hc).1
    simp only [child_prefix_iff]
    by_cases hx : Deeper d p x <;> simp [hx, eq_comm]
  rw [total_congr hchild]
  by_cases hx : Deeper d p x
  · simp only [if_pos hx, total_count]
  · simp only [if_neg hx, total_zero]

theorem prefixes_le (x : List α) :
    total (fun c => if c <+: x then 1 else 0) prefixes +
        next.elim 0 (fun t => awaitedPrefix d passed p x (some t)) ≤ awaitedPrefix d passed p x token := by
  rw [h.total_prefixes x]
  by_cases hdeeper : Deeper d p x
  · simp only [awaitedPrefix, if_pos hdeeper]
    exact h.shown_le (List.nodup_iff_count_le_one.mp h.prefixes_nodup _) fun hpos =>
      ((h.mem_prefixes _).mp (List.count_pos_iff.mp hpos)).2
  · simp only [awaitedPrefix, if_neg hdeeper]
    cases next <;> simp

theorem le_prefixes (hx : x ∈ keys) :
    awaitedPrefix d passed p x token ≤ total (fun c => if c <+: x then 1 else 0) prefixes +
      next.elim 0 fun t => awaitedPrefix d passed p x (some t) := by
  rw [h.total_prefixes x]
  by_cases hdeeper : Deeper d p x
  · simp only [awaitedPrefix, if_pos hdeeper]
    refine le_shown fun hbetween => List.count_pos_iff.mpr ((h.mem_prefixes _).mpr ⟨?_, hbetween⟩)
    exact mem_below_iff.mpr ⟨x, hx, hdeeper, rfl⟩
  · simp only [awaitedPrefix, if_neg hdeeper]
    exact Nat.zero_le _

end Cut

end S3Cpp.Library.Paging
