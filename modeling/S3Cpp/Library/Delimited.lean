import Mathlib.Data.List.Dedup
import Mathlib.Data.List.Infix
import S3Cpp.Library.Population

-- Keys grouped by a delimiter. What starts with a prefix lies directly below it,
-- or below exactly one longer prefix that ends at the next delimiter.
namespace S3Cpp.Library.Delimited

open Population

variable {α : Type*} [DecidableEq α] (d : α)

def Direct (p x : List α) : Prop := p <+: x ∧ d ∉ x.drop p.length

def Deeper (p x : List α) : Prop := p <+: x ∧ d ∈ x.drop p.length

instance (p x : List α) : Decidable (Direct d p x) := inferInstanceAs (Decidable (_ ∧ _))

instance (p x : List α) : Decidable (Deeper d p x) := inferInstanceAs (Decidable (_ ∧ _))

def child (p x : List α) : List α := p ++ (x.drop p.length).takeWhile (· ≠ d) ++ [d]

def direct (keys : List (List α)) (p : List α) : List (List α) := keys.filter (Direct d p ·)

def below (keys : List (List α)) (p : List α) : List (List α) :=
  ((keys.filter (Deeper d p ·)).map (child d p)).dedup

-- The prefixes of keys that end with a delimiter.
def prefixes (keys : List (List α)) : List (List α) :=
  ((keys.flatMap List.inits).filter (·.getLast? = some d)).dedup

variable {d} {keys : List (List α)} {p x k c : List α}

theorem child_append (rest : List α) (h : d ∈ rest) :
    child d p (p ++ rest) = p ++ rest.takeWhile (· ≠ d) ++ [d] ∧
      rest.takeWhile (· ≠ d) ++ [d] <+: rest := by
  constructor
  · simp [child]
  · induction rest with
    | nil => simp at h
    | cons a rest ih =>
        by_cases ha : a = d
        · simp [ha]
        · have hrest : d ∈ rest := (List.mem_cons.mp h).resolve_left (Ne.symm ha)
          simpa [ha] using ih hrest

theorem child_prefix_self (h : Deeper d p x) : child d p x <+: x := by
  obtain ⟨⟨rest, rfl⟩, hd⟩ := h
  rw [List.drop_left] at hd
  obtain ⟨hchild, hprefix⟩ := child_append (p := p) rest hd
  rw [hchild, List.append_assoc]
  exact (List.prefix_append_right_inj p).mpr hprefix

theorem prefix_child (p x : List α) : p <+: child d p x := by
  rw [child, List.append_assoc]
  exact List.prefix_append _ _

theorem child_getLast (p x : List α) : (child d p x).getLast? = some d := by simp [child]

-- Below a child lies what has that child itself.
theorem child_prefix_iff (p k x : List α) : child d p k <+: x ↔ Deeper d p x ∧ child d p x = child d p k := by
  constructor
  · rintro ⟨rest, rfl⟩
    have hdrop : (child d p k ++ rest).drop p.length =
        (k.drop p.length).takeWhile (· ≠ d) ++ d :: rest := by
      simp [child]
    refine ⟨⟨(prefix_child p k).trans (List.prefix_append _ _), by simp [hdrop]⟩, ?_⟩
    rw [child, hdrop, List.takeWhile_append_of_pos (List.all_eq_true.mp List.all_takeWhile)]
    simp [child]
  · rintro ⟨hx, hchild⟩
    exact hchild ▸ child_prefix_self hx

theorem count_direct (hkeys : keys.Nodup) (hx : x ∈ keys) (p : List α) :
    (direct d keys p).count x = if Direct d p x then 1 else 0 := by
  by_cases h : Direct d p x
  · rw [if_pos h]
    exact List.count_eq_one_of_mem (hkeys.filter _) (List.mem_filter.mpr ⟨hx, decide_eq_true h⟩)
  · rw [if_neg h]
    exact List.count_eq_zero_of_not_mem fun hmem => h (of_decide_eq_true (List.mem_filter.mp hmem).2)

theorem mem_below_iff : c ∈ below d keys p ↔ ∃ k ∈ keys, Deeper d p k ∧ child d p k = c := by
  simp [below, and_assoc]

theorem mem_prefixes_iff : c ∈ prefixes d keys ↔ (∃ k ∈ keys, c <+: k) ∧ c.getLast? = some d := by
  simp [prefixes]

theorem nodup_prefixes (keys : List (List α)) : (prefixes d keys).Nodup := List.nodup_dedup _

theorem mem_prefixes_of_mem_below (h : c ∈ below d keys p) : c ∈ prefixes d keys := by
  obtain ⟨k, hk, hdeeper, rfl⟩ := mem_below_iff.mp h
  exact mem_prefixes_iff.mpr ⟨⟨k, hk, child_prefix_self hdeeper⟩, child_getLast p k⟩

omit [DecidableEq α] in
-- What ends with a delimiter lies directly below itself only.
theorem direct_iff_eq (h : x.getLast? = some d) : Direct d p x ↔ p = x := by
  constructor
  · rintro ⟨⟨rest, rfl⟩, hd⟩
    rw [List.drop_left] at hd
    rw [List.getLast?_append] at h
    cases hrest : rest.getLast? with
    | none => simp [List.getLast?_eq_none_iff.mp hrest]
    | some a =>
        rw [hrest] at h
        obtain rfl := Option.some.inj h
        exact absurd (List.mem_of_getLast? hrest) hd
  · rintro rfl
    exact ⟨List.prefix_rfl, by simp⟩

-- The rule of every count over a tree of prefixes.
theorem prefix_split (hk : k ∈ keys) (hx : x <+: k) :
    (if p <+: x then 1 else 0) =
      (if Direct d p x then 1 else 0) + total (fun c => if c <+: x then 1 else 0) (below d keys p) := by
  have hbelow (c : List α) (hc : c ∈ below d keys p) :
      (if c <+: x then 1 else 0) = if Deeper d p x then if c = child d p x then 1 else 0 else 0 := by
    obtain ⟨k, -, hdeeper, rfl⟩ := mem_below_iff.mp hc
    simp only [child_prefix_iff]
    by_cases hx : Deeper d p x <;> simp [hx, eq_comm]
  rw [total_congr hbelow]
  by_cases hdeeper : Deeper d p x
  · have hmem : child d p x ∈ below d keys p := by
      have hkdeeper : Deeper d p k := by
        refine ⟨hdeeper.1.trans hx, ?_⟩
        obtain ⟨rest, rfl⟩ := hx
        rw [List.drop_append]
        exact List.mem_append_left _ hdeeper.2
      refine mem_below_iff.mpr ⟨k, hk, hkdeeper, ?_⟩
      exact ((child_prefix_iff p x k).mp ((child_prefix_self hdeeper).trans hx)).2
    have hnot : ¬ Direct d p x := fun h => h.2 hdeeper.2
    simp only [if_pos hdeeper, if_pos hdeeper.1, if_neg hnot, total_count, Nat.zero_add]
    exact (List.count_eq_one_of_mem (List.nodup_dedup _) hmem).symm
  · have hiff : p <+: x ↔ Direct d p x :=
      ⟨fun h => ⟨h, fun hd => hdeeper ⟨h, hd⟩⟩, fun h => h.1⟩
    simp [hdeeper, hiff, total]

end S3Cpp.Library.Delimited
