import Mathlib.Data.List.Nodup
import Mathlib.Data.List.Perm.Subperm
import Mathlib.Order.Lattice

-- Maps kept as a list of entries with strictly ascending keys. An entry whose
-- key is already there is not stored.
namespace S3Cpp.Library

structure OrderedMap (K V : Type*) [LinearOrder K] where
  entries : List (K × V)
  ordered : entries.Pairwise (·.1 < ·.1)

namespace OrderedMap

variable {K V : Type*} [LinearOrder K]

def insertEntry (key : K) (value : V) : List (K × V) → List (K × V)
  | [] => [(key, value)]
  | entry :: rest =>
      if key < entry.1 then (key, value) :: entry :: rest
      else if key = entry.1 then entry :: rest
      else entry :: insertEntry key value rest

def at? (entries : List (K × V)) (key : K) : Option (K × V) :=
  entries.find? (·.1 = key)

theorem mem_insertEntry {key : K} {value : V} {entries : List (K × V)} {entry : K × V}
    (h : entry ∈ insertEntry key value entries) : entry = (key, value) ∨ entry ∈ entries := by
  induction entries with
  | nil => exact .inl (List.mem_singleton.mp h)
  | cons first rest ih =>
      unfold insertEntry at h
      split at h
      · exact List.mem_cons.mp h
      · split at h
        · exact .inr h
        · rcases List.mem_cons.mp h with rfl | h
          · exact .inr (by simp)
          · exact (ih h).imp id (List.mem_cons_of_mem _)

theorem insertEntry_ordered (key : K) (value : V) {entries : List (K × V)}
    (h : entries.Pairwise (·.1 < ·.1)) : (insertEntry key value entries).Pairwise (·.1 < ·.1) := by
  induction entries with
  | nil => simp [insertEntry]
  | cons first rest ih =>
      obtain ⟨hfirst, hrest⟩ := List.pairwise_cons.mp h
      unfold insertEntry
      split
      · rename_i hlt
        refine List.pairwise_cons.mpr ⟨fun entry hm => ?_, h⟩
        rcases List.mem_cons.mp hm with rfl | hm
        · exact hlt
        · exact lt_trans hlt (hfirst entry hm)
      · split
        · exact h
        · rename_i hnlt hne
          refine List.pairwise_cons.mpr ⟨fun entry hm => ?_, ih hrest⟩
          rcases mem_insertEntry hm with rfl | hm
          · exact lt_of_le_of_ne (not_lt.mp hnlt) (Ne.symm hne)
          · exact hfirst entry hm

def empty : OrderedMap K V := ⟨[], List.Pairwise.nil⟩

def emplace (map : OrderedMap K V) (key : K) (value : V) : OrderedMap K V :=
  ⟨insertEntry key value map.entries, insertEntry_ordered key value map.ordered⟩

def emplaceAll (map : OrderedMap K V) (entries : List (K × V)) : OrderedMap K V :=
  entries.foldl (fun map entry => map.emplace entry.1 entry.2) map

def keys (map : OrderedMap K V) : List K := map.entries.map Prod.fst

theorem keys_ordered (map : OrderedMap K V) : map.keys.Pairwise (· < ·) :=
  List.pairwise_map.mpr map.ordered

theorem keys_nodup (map : OrderedMap K V) : map.keys.Nodup :=
  map.keys_ordered.imp ne_of_lt

-- The entry emplaced first under a key is the one that stays.
theorem at?_insertEntry (key : K) (value : V) {entries : List (K × V)}
    (h : entries.Pairwise (·.1 < ·.1)) (k : K) :
    at? (insertEntry key value entries) k = at? (entries ++ [(key, value)]) k := by
  induction entries with
  | nil => rfl
  | cons first rest ih =>
      obtain ⟨hfirst, hrest⟩ := List.pairwise_cons.mp h
      have ih := ih hrest
      simp only [at?, List.cons_append] at ih ⊢
      unfold insertEntry
      split
      · rename_i hlt
        by_cases hk : key = k
        · -- every key already there is greater than the new one
          have hnone : (first :: rest).find? (fun entry => decide (entry.1 = k)) = none := by
            apply List.find?_eq_none.mpr
            intro entry hm
            rcases List.mem_cons.mp hm with rfl | hm
            · simpa [← hk] using ne_of_gt hlt
            · simpa [← hk] using ne_of_gt (lt_trans hlt (hfirst entry hm))
          rw [← List.cons_append, List.find?_append, hnone]
          simp [hk]
        · rw [← List.cons_append, List.find?_append]
          simp [hk]
      · split
        · rename_i hnlt he
          by_cases hk : first.1 = k
          · simp [hk]
          · rw [← List.cons_append, List.find?_append]
            simp [he, hk]
        · rw [List.find?_cons, List.find?_cons, ih]

theorem at?_emplaceAll (map : OrderedMap K V) (entries : List (K × V)) (k : K) :
    at? (map.emplaceAll entries).entries k = at? (map.entries ++ entries) k := by
  induction entries generalizing map with
  | nil => simp [emplaceAll]
  | cons entry entries ih =>
      have hstep : map.emplaceAll (entry :: entries) =
          (map.emplace entry.1 entry.2).emplaceAll entries := rfl
      have hentry := at?_insertEntry entry.1 entry.2 map.ordered k
      rw [hstep, ih]
      simp only [at?, List.find?_append, List.find?_cons, List.find?_nil, emplace] at hentry ⊢
      rw [hentry]
      cases map.entries.find? (fun entry => decide (entry.1 = k)) <;>
        cases hk : decide (entry.1 = k) <;> simp

theorem at?_of_nodup {entries : List (K × V)} (hnodup : (entries.map Prod.fst).Nodup)
    {entry : K × V} (hm : entry ∈ entries) : at? entries entry.1 = some entry := by
  obtain ⟨found, hfound⟩ := Option.isSome_iff_exists.mp
    (List.find?_isSome.mpr ⟨entry, hm, by simp⟩ :
      (entries.find? (fun e => decide (e.1 = entry.1))).isSome)
  have hkey : found.1 = entry.1 := by simpa using List.find?_some hfound
  rw [at?, hfound, List.inj_on_of_nodup_map hnodup (List.mem_of_find?_eq_some hfound) hm hkey]

theorem at?_eq_some_iff (map : OrderedMap K V) (entry : K × V) :
    at? map.entries entry.1 = some entry ↔ entry ∈ map.entries :=
  ⟨List.mem_of_find?_eq_some, at?_of_nodup map.keys_nodup⟩

theorem mem_keys_iff (map : OrderedMap K V) (k : K) : k ∈ map.keys ↔ (at? map.entries k).isSome := by
  simp [keys, at?]

theorem mem_keys_emplaceAll (map : OrderedMap K V) (entries : List (K × V)) (k : K) :
    k ∈ (map.emplaceAll entries).keys ↔ k ∈ map.keys ∨ k ∈ entries.map Prod.fst := by
  rw [mem_keys_iff, at?_emplaceAll]
  simp only [at?, keys, List.find?_isSome, List.mem_append, List.mem_map, decide_eq_true_eq]
  constructor
  · rintro ⟨entry, hm | hm, he⟩
    · exact .inl ⟨entry, hm, he⟩
    · exact .inr ⟨entry, hm, he⟩
  · rintro (⟨entry, hm, he⟩ | ⟨entry, hm, he⟩)
    · exact ⟨entry, .inl hm, he⟩
    · exact ⟨entry, .inr hm, he⟩

theorem mem_emplaceAll_empty (entries : List (K × V)) (entry : K × V) :
    entry ∈ (empty.emplaceAll entries).entries ↔ at? entries entry.1 = some entry := by
  rw [← at?_eq_some_iff, at?_emplaceAll]
  rfl

-- Two maps show the same of their values under every key exactly when they show
-- the same in order.
theorem map_entries_eq_iff {W : Type*} (f : V → W) (map other : OrderedMap K V) :
    map.entries.map (fun entry => (entry.1, f entry.2)) =
        other.entries.map (fun entry => (entry.1, f entry.2)) ↔
      ∀ k, (at? map.entries k).map (fun entry => f entry.2) =
        (at? other.entries k).map fun entry => f entry.2 := by
  have hat (map : OrderedMap K V) (k : K) : (at? map.entries k).map (fun entry => f entry.2) =
      ((map.entries.map fun entry => (entry.1, f entry.2)).find? (·.1 = k)).map Prod.snd := by
    simp [at?, List.find?_map, Function.comp_def]
  have hmem (map : OrderedMap K V) (k : K) (w : W) :
      (k, w) ∈ map.entries.map (fun entry => (entry.1, f entry.2)) ↔
        (at? map.entries k).map (fun entry => f entry.2) = some w := by
    constructor
    · intro hm
      obtain ⟨entry, hentry, he⟩ := List.mem_map.mp hm
      obtain ⟨rfl, rfl⟩ := Prod.mk.inj he
      rw [(at?_eq_some_iff map entry).mpr hentry]
      rfl
    · intro hk
      obtain ⟨entry, hentry, rfl⟩ := Option.map_eq_some_iff.mp hk
      have hkey : entry.1 = k := by simpa using List.find?_some hentry
      exact List.mem_map.mpr ⟨entry, List.mem_of_find?_eq_some hentry, by rw [hkey]⟩
  have hordered (map : OrderedMap K V) :
      (map.entries.map fun entry => (entry.1, f entry.2)).Pairwise (·.1 < ·.1) :=
    List.pairwise_map.mpr map.ordered
  constructor
  · intro h k
    rw [hat, hat, h]
  · intro h
    have hnodup (map : OrderedMap K V) : (map.entries.map fun entry => (entry.1, f entry.2)).Nodup :=
      (hordered map).imp fun hlt he => absurd (congrArg Prod.fst he) (ne_of_lt hlt)
    have hperm : (map.entries.map fun entry => (entry.1, f entry.2)).Perm
        (other.entries.map fun entry => (entry.1, f entry.2)) := by
      apply (List.perm_ext_iff_of_nodup (hnodup map) (hnodup other)).mpr
      rintro ⟨k, w⟩
      rw [hmem, hmem, h]
    exact List.Perm.eq_of_pairwise (fun _ _ _ _ h h' => absurd h' (lt_asymm h)) (hordered map)
      (hordered other) hperm

-- What emplacing drops are entries whose key was there before, and nothing else.
theorem emplaceAll_perm (entries : List (K × V)) :
    ∃ dropped, entries.Perm ((empty.emplaceAll entries).entries ++ dropped) ∧
      (dropped = [] ↔ (entries.map Prod.fst).Nodup) := by
  have hkeys := (empty.emplaceAll entries).keys_nodup
  have hkept : (empty.emplaceAll entries).entries ⊆ entries := fun entry hm =>
    List.mem_of_find?_eq_some ((mem_emplaceAll_empty entries entry).mp hm)
  obtain ⟨kept, hperm, hsub⟩ := List.subperm_of_subset (List.Nodup.of_map _ hkeys) hkept
  obtain ⟨dropped, hdropped⟩ := hsub.exists_perm_append
  have hall := hdropped.trans (hperm.append_right dropped)
  refine ⟨dropped, hall, ?_, ?_⟩
  · rintro rfl
    rw [List.append_nil] at hall
    exact (hall.map Prod.fst).nodup_iff.mpr hkeys
  · intro hnodup
    have hback : entries ⊆ (empty.emplaceAll entries).entries := by
      intro entry hm
      rw [mem_emplaceAll_empty, at?_of_nodup hnodup hm]
    have hle := (List.subperm_of_subset (List.Nodup.of_map _ hnodup) hback).length_le
    have hlen := hall.length_eq
    rw [List.length_append] at hlen
    exact List.length_eq_zero_iff.mp (by omega)

end OrderedMap

end S3Cpp.Library
