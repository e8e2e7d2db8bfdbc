import Mathlib.Data.List.TakeWhile
import S3Cpp.Aws.S3.Types

namespace S3Cpp.Aws.S3

open Library.Xml

def Throws {α : Type} (result : Except Str α) : Prop := ∃ what, result = .error what

theorem throws_bind_iff {α β : Type} (x : Except Str α) (f : α → Except Str β) :
    Throws (x >>= f) ↔ Throws x ∨ ∃ a, x = .ok a ∧ Throws (f a) := by
  cases x with
  | error what =>
      refine ⟨fun _ => .inl ⟨what, rfl⟩, fun _ => ⟨what, rfl⟩⟩
  | ok a =>
      constructor
      · exact fun h => .inr ⟨a, rfl, h⟩
      · rintro (⟨what, h⟩ | ⟨b, h, hb⟩)
        · cases h
        · cases h
          exact hb

theorem throws_ok {α : Type} (a : α) : ¬ Throws (.ok a : Except Str α) := by
  rintro ⟨what, h⟩
  cases h

theorem throws_error {α : Type} (what : Str) : Throws (.error what : Except Str α) := ⟨what, rfl⟩

theorem throws_map_iff {α β : Type} (f : α → β) (x : Except Str α) : Throws (f <$> x) ↔ Throws x := by
  cases x with
  | error what => exact iff_of_true (throws_error what) (throws_error what)
  | ok a => exact iff_of_false (throws_ok (f a)) (throws_ok a)

theorem throws_mapM_iff {α β : Type} (f : α → Except Str β) (l : List α) :
    Throws (l.mapM f) ↔ ∃ a ∈ l, Throws (f a) := by
  induction l with
  | nil => exact iff_of_false (throws_ok []) (by simp)
  | cons a l ih =>
      rw [List.mapM_cons, throws_bind_iff, List.exists_mem_cons_iff, ← ih]
      cases hfa : f a with
      | error what => simp [throws_error]
      | ok b => simp [throws_ok, throws_map_iff]

-- A size text that does not begin with the digits of a 64-bit number.
def UnreadableSize (text : Str) : Prop :=
  (∀ b ∈ text.head?, digit b = false) ∨ 2 ^ 64 ≤ numeral (text.takeWhile digit)

def Object.Malformed (xml : Node) : Prop :=
  (xml.childValue (ascii "ChecksumAlgorithm") ≠ [] ∧
    ChecksumAlgorithm.fromString (xml.childValue (ascii "ChecksumAlgorithm")) = none) ∨
  (xml.childValue (ascii "ChecksumType") ≠ [] ∧
    ChecksumType.fromString (xml.childValue (ascii "ChecksumType")) = none) ∨
  UnreadableSize (xml.childValue (ascii "Size"))

def Object.ChecksumMalformed (xml : Node) : Prop :=
  (xml.childValue (ascii "ChecksumAlgorithm") ≠ [] ∧
    ChecksumAlgorithm.fromString (xml.childValue (ascii "ChecksumAlgorithm")) = none) ∨
  (xml.childValue (ascii "ChecksumType") ≠ [] ∧
    ChecksumType.fromString (xml.childValue (ascii "ChecksumType")) = none)

theorem fromChars_eq_none_iff (text : Str) : fromChars text = none ↔ UnreadableSize text := by
  have hdigits : text.takeWhile digit = [] ↔ ∀ b ∈ text.head?, digit b = false := by
    cases text with
    | nil => simp
    | cons b rest => cases hb : digit b <;> simp [hb]
  rw [fromChars, UnreadableSize, ← hdigits]
  by_cases hd : text.takeWhile digit = []
  · simp [hd]
  · simp [hd]

theorem throws_parseEnum_iff {α : Type} (fromString : Str → Option α) (what : String) (text : Str) :
    Throws (parseEnum fromString what text) ↔ text ≠ [] ∧ fromString text = none := by
  rw [parseEnum]
  by_cases ht : text = []
  · simp [ht, throws_ok]
  · cases hf : fromString text with
    | none => simp [ht, throws_error]
    | some chk => simp [ht, throws_ok]

theorem throws_parseSize_iff (text : Str) : Throws (parseSize text) ↔ UnreadableSize text := by
  rw [parseSize, ← fromChars_eq_none_iff]
  cases fromChars text with
  | none => simp [throws_error]
  | some size => simp [throws_ok]

theorem Object.parse_throws_iff (xml : Node) : Throws (Object.parse xml) ↔ Object.Malformed xml := by
  rw [Object.parse, Object.Malformed, ← throws_parseEnum_iff _ "unknown checksum algorithm ",
    ← throws_parseEnum_iff _ "unknown checksum type ", ← throws_parseSize_iff]
  have hpure (object : Object) : ¬ Throws (pure object : Except Str Object) := throws_ok object
  rw [throws_bind_iff]
  cases parseEnum ChecksumAlgorithm.fromString "unknown checksum algorithm " _ with
  | error what => simp [throws_error]
  | ok checksumAlgorithm =>
      simp only [throws_bind_iff, throws_ok, false_or, Except.ok.injEq, exists_eq_left', hpure,
        and_false, exists_false, or_false]
      cases parseEnum ChecksumType.fromString "unknown checksum type " _ with
      | error what => simp [throws_error]
      | ok checksumType => simp [throws_ok]

theorem Object.malformed_iff (xml : Node) : Object.Malformed xml ↔
    Object.ChecksumMalformed xml ∨ UnreadableSize (xml.childValue (ascii "Size")) :=
  (or_assoc).symm

theorem throws_or_ok {α : Type} (result : Except Str α) : Throws result ∨ ∃ a, result = .ok a := by
  cases result with
  | error what => exact .inl (throws_error what)
  | ok a => exact .inr ⟨a, rfl⟩

theorem bind_eq_ok_iff {α β : Type} {x : Except Str α} {f : α → Except Str β} {b : β} :
    (x >>= f) = .ok b ↔ ∃ a, x = .ok a ∧ f a = .ok b := by
  cases x with
  | error what => exact iff_of_false (fun h => by cases h) (by simp)
  | ok a => exact ⟨fun h => ⟨a, rfl, h⟩, fun ⟨_, ha, h⟩ => by cases ha; exact h⟩

theorem parseSize_eq_ok_iff {text : Str} {size : Nat} :
    parseSize text = .ok size ↔ fromChars text = some size := by
  rw [parseSize]
  cases fromChars text <;> simp

-- Where the fields of an object come from.
theorem Object.parse_eq_ok_iff {xml : Node} {object : Object} :
    Object.parse xml = .ok object ↔
      ∃ checksumAlgorithm checksumType size,
        parseEnum ChecksumAlgorithm.fromString "unknown checksum algorithm "
          (xml.childValue (ascii "ChecksumAlgorithm")) = .ok checksumAlgorithm ∧
        parseEnum ChecksumType.fromString "unknown checksum type "
          (xml.childValue (ascii "ChecksumType")) = .ok checksumType ∧
        fromChars (xml.childValue (ascii "Size")) = some size ∧
        object = ⟨checksumAlgorithm, checksumType, some (xml.childValue (ascii "ETag")),
          some (xml.childValue (ascii "Key")), some size⟩ := by
  have hpure (a b : Object) : (pure a : Except Str Object) = .ok b ↔ b = a :=
    ⟨fun h => (Except.ok.inj h).symm, fun h => congrArg Except.ok h.symm⟩
  simp only [Object.parse, bind_eq_ok_iff, parseSize_eq_ok_iff, hpure, exists_and_left]

-- A text that is nothing but the digits of a 64-bit number.
structure Numeral (text : Str) : Prop where
  nonempty : text ≠ []
  digits : ∀ b ∈ text, digit b = true
  fits : numeral text < 2 ^ 64

theorem Numeral.fromChars_eq {text : Str} (h : Numeral text) : fromChars text = some (numeral text) := by
  have htake : text.takeWhile digit = text := List.takeWhile_eq_self_iff.mpr h.digits
  simp only [fromChars, htake, if_neg h.nonempty, if_pos h.fits]

theorem Numeral.readable {text : Str} (h : Numeral text) : ¬ UnreadableSize text := by
  rw [← fromChars_eq_none_iff, h.fromChars_eq]
  simp

section Decimal

theorem toNat_digit {d : Nat} (hd : d < 10) : (48 + d).toUInt8.toNat = 48 + d := by
  simp only [Nat.toUInt8, UInt8.toNat_ofNat']
  omega

theorem decimal_zero : decimal 0 = [48] := rfl

theorem decimal_eq (n : Nat) (hn : n ≠ 0) :
    decimal n = (Nat.digits 10 n).reverse.map fun d => (48 + d).toUInt8 := if_neg hn

theorem digit_decimal (n : Nat) : ∀ b ∈ decimal n, digit b = true := by
  by_cases hn : n = 0
  · rw [hn, decimal_zero, List.forall_mem_singleton]
    rfl
  · rw [decimal_eq n hn, List.forall_mem_map]
    intro d hd
    have hlt : d < 10 := Nat.digits_lt_base (by decide) (List.mem_reverse.mp hd)
    simp only [digit, Bool.and_eq_true, decide_eq_true_eq, UInt8.le_iff_toNat_le, toNat_digit hlt]
    constructor
    · exact Nat.le_add_right 48 d
    · exact Nat.add_le_add_left (Nat.le_of_lt_succ hlt) 48

theorem numeral_decimal (n : Nat) : numeral (decimal n) = n := by
  by_cases hn : n = 0
  · rw [hn, decimal_zero]
    rfl
  · have hfold : ∀ digits : List Nat, (∀ d ∈ digits, d < 10) →
        digits.foldr (fun d n => 10 * n + ((48 + d).toUInt8.toNat - 48)) 0 = Nat.ofDigits 10 digits := by
      intro digits hdigits
      induction digits with
      | nil => rfl
      | cons d digits ih =>
          have hd : d < 10 := hdigits d List.mem_cons_self
          rw [List.foldr_cons, ih fun e he => hdigits e (List.mem_cons_of_mem _ he), toNat_digit hd,
            Nat.ofDigits_cons]
          omega
    rw [decimal_eq n hn, numeral, List.foldl_map, List.foldl_reverse,
      hfold _ fun d hd => Nat.digits_lt_base (by decide) hd]
    exact Nat.ofDigits_digits 10 n

theorem numeral_of_lt {n : Nat} (hn : n < 2 ^ 64) : Numeral (decimal n) := by
  refine ⟨?_, digit_decimal n, by rwa [numeral_decimal]⟩
  by_cases hzero : n = 0
  · rw [hzero, decimal_zero]
    exact List.cons_ne_nil _ _
  · rw [decimal_eq n hzero, ne_eq, List.map_eq_nil_iff, List.reverse_eq_nil_iff]
    exact Nat.digits_ne_nil_iff_ne_zero.mpr hzero

theorem fromChars_decimal {n : Nat} (hn : n < 2 ^ 64) : fromChars (decimal n) = some n := by
  rw [(numeral_of_lt hn).fromChars_eq, numeral_decimal]

end Decimal

end S3Cpp.Aws.S3
