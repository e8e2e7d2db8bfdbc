import Mathlib.Data.List.DropRight
import Mathlib.Data.List.Basic

-- Header fields in the order they were inserted. Names are compared without
-- regard to letter case and may repeat.
namespace S3Cpp.Library.Http

def lowerByte (b : UInt8) : UInt8 := if 65 ≤ b ∧ b ≤ 90 then b + 32 else b

def lower (s : List UInt8) : List UInt8 := s.map lowerByte

def blank (b : UInt8) : Bool := b == 32 || b == 9

def trim (s : List UInt8) : List UInt8 := (s.dropWhile blank).rdropWhile blank

-- The bytes of RFC 9110's tokens.
def tokenByte (b : UInt8) : Bool :=
  (48 ≤ b && b ≤ 57) || (65 ≤ b && b ≤ 90) || (97 ≤ b && b ≤ 122) ||
    [33, 35, 36, 37, 38, 39, 42, 43, 45, 46, 94, 95, 96, 124, 126].contains b

def Token (name : List UInt8) : Prop := name ≠ [] ∧ ∀ b ∈ name, tokenByte b

instance (name : List UInt8) : Decidable (Token name) := inferInstanceAs (Decidable (_ ∧ _))

-- A stored value has no blanks around it.
structure Field where
  name : List UInt8
  value : List UInt8
  trimmed : trim value = value
deriving DecidableEq

abbrev Fields := List Field

namespace Field

def Named (f : Field) (name : List UInt8) : Prop := lower f.name = lower name

instance (f : Field) (name : List UInt8) : Decidable (f.Named name) :=
  inferInstanceAs (Decidable (_ = _))

end Field

theorem tokenByte_lowerByte (b : UInt8) (h : tokenByte b) : tokenByte (lowerByte b) := by
  have hall : ∀ n < 256, tokenByte n.toUInt8 → tokenByte (lowerByte n.toUInt8) := by decide +kernel
  have hb : b.toNat.toUInt8 = b := by simp
  have := hall b.toNat (UInt8.toNat_lt b)
  rw [hb] at this
  exact this h

theorem token_lower {name : List UInt8} (h : Token name) : Token (lower name) := by
  refine ⟨by simpa [lower] using h.1, fun b hb => ?_⟩
  obtain ⟨c, hc, rfl⟩ := List.mem_map.mp hb
  exact tokenByte_lowerByte c (h.2 c hc)

section Trim

theorem lowerByte_idem (b : UInt8) : lowerByte (lowerByte b) = lowerByte b := by
  unfold lowerByte
  split
  · rename_i h
    rw [if_neg]
    rintro ⟨-, h'⟩
    have h1 := UInt8.le_iff_toNat_le.mp h.1
    have h2 := UInt8.le_iff_toNat_le.mp h.2
    have h3 := UInt8.le_iff_toNat_le.mp h'
    rw [UInt8.toNat_add] at h3
    simp only [UInt8.reduceToNat] at h1 h2 h3
    omega
  · rfl

theorem lower_idem (s : List UInt8) : lower (lower s) = lower s := by
  simp [lower, lowerByte_idem]

theorem trim_of_ends {s : List UInt8} (hhead : ∀ b ∈ s.head?, ¬ blank b)
    (hlast : ∀ b ∈ s.getLast?, ¬ blank b) : trim s = s := by
  have hdrop : s.dropWhile blank = s := by
    cases s with
    | nil => rfl
    | cons b s => exact List.dropWhile_cons_of_neg (hhead b rfl)
  rw [trim, hdrop, List.rdropWhile_eq_self_iff]
  intro hne
  exact hlast _ (List.getLast?_eq_some_getLast hne)

theorem trim_ends (s : List UInt8) :
    (∀ b ∈ (trim s).head?, ¬ blank b) ∧ ∀ b ∈ (trim s).getLast?, ¬ blank b := by
  constructor
  · intro b hb
    obtain ⟨rest, hrest⟩ := List.rdropWhile_prefix blank (l := s.dropWhile blank)
    have hhead : (s.dropWhile blank).head? = some b := by
      rw [← hrest, List.head?_append, show (List.rdropWhile blank _).head? = some b from hb]
      rfl
    have := List.head?_dropWhile_not blank s
    rw [hhead] at this
    simpa using this
  · intro b hb hblank
    have hne : trim s ≠ [] := by
      intro he
      simp [he] at hb
    have hlast := List.rdropWhile_last_not blank (s.dropWhile blank) hne
    rw [List.getLast?_eq_some_getLast hne] at hb
    exact hlast (Option.some.inj hb ▸ hblank)

theorem trim_idem (s : List UInt8) : trim (trim s) = trim s :=
  trim_of_ends (trim_ends s).1 (trim_ends s).2

end Trim

-- Storing a value cuts the blanks around it off.
def Field.store (name value : List UInt8) : Field := ⟨name, trim value, trim_idem value⟩

namespace Fields

def find (fields : Fields) (name : List UInt8) : Option Field :=
  fields.find? fun f => f.Named name

def get (fields : Fields) (name : List UInt8) : List UInt8 :=
  ((find fields name).map Field.value).getD []

def erase (fields : Fields) (name : List UInt8) : Fields :=
  fields.filter fun f => ¬ f.Named name

def set (fields : Fields) (name value : List UInt8) : Fields :=
  erase fields name ++ [Field.store name value]

theorem named_of_find {fields : Fields} {name : List UInt8} {f : Field}
    (h : find fields name = some f) : f.Named name := by
  have := List.find?_some h
  simpa using this

theorem find_set_self (fields : Fields) (name value : List UInt8) :
    find (set fields name value) name = some (Field.store name value) := by
  have hnone : (erase fields name).find? (fun f => decide (f.Named name)) = none := by
    apply List.find?_eq_none.mpr
    intro f hm
    simpa [erase] using (List.mem_filter.mp hm).2
  rw [find, set, List.find?_append, hnone]
  simp [Field.Named, Field.store]

theorem find_erase_ne (fields : Fields) {name other : List UInt8}
    (hne : lower name ≠ lower other) : find (erase fields name) other = find fields other := by
  rw [find, erase, List.find?_filter, find]
  congr 1
  funext f
  by_cases h : lower f.name = lower other
  · simp [Field.Named, h, Ne.symm hne]
  · simp [Field.Named, h]

theorem find_set_ne (fields : Fields) {name other : List UInt8} (value : List UInt8)
    (hne : lower name ≠ lower other) : find (set fields name value) other = find fields other := by
  have hnone : [Field.store name value].find? (fun f => decide (f.Named other)) = none := by
    simp [Field.Named, Field.store, hne]
  have hfind := find_erase_ne fields hne
  rw [find] at hfind
  rw [find, set, List.find?_append, hfind, hnone, Option.or_none]

theorem get_set_self (fields : Fields) (name value : List UInt8) :
    get (set fields name value) name = trim value := by
  simp [get, find_set_self, Field.store]

theorem get_set_ne (fields : Fields) {name other : List UInt8} (value : List UInt8)
    (hne : lower name ≠ lower other) : get (set fields name value) other = get fields other := by
  rw [get, find_set_ne fields value hne, get]

-- Setting a field leaves alone what is selected without it.
theorem filter_erase {p : Field → Bool} (fields : Fields) (name : List UInt8)
    (hp : ∀ f : Field, f.Named name → p f = false) : (erase fields name).filter p = fields.filter p := by
  rw [erase, List.filter_filter]
  congr 1
  funext f
  by_cases h : f.Named name
  · simp [h, hp f h]
  · simp [h]

theorem filter_set {p : Field → Bool} (fields : Fields) (name value : List UInt8)
    (hp : ∀ f : Field, f.Named name → p f = false) :
    (set fields name value).filter p = fields.filter p := by
  rw [set, List.filter_append, filter_erase fields name hp]
  simp [hp (Field.store name value) rfl]

end Fields

end S3Cpp.Library.Http
