import Mathlib.Data.Nat.Digits.Defs
import Mathlib.Data.List.Lex
import Mathlib.Order.Lattice

namespace S3Cpp

-- A std::string is a sequence of bytes, compared byte by byte as unsigned.
abbrev Str := List UInt8

instance byteOrder : LinearOrder UInt8 where
  le_refl := UInt8.le_refl
  le_trans _ _ _ := UInt8.le_trans
  le_antisymm _ _ := UInt8.le_antisymm
  le_total := UInt8.le_total
  lt_iff_le_not_ge a b := by
    rw [UInt8.lt_iff_toNat_lt, UInt8.le_iff_toNat_le, UInt8.le_iff_toNat_le]
    omega
  toDecidableLE := inferInstance
  toDecidableEq := inferInstance
  toDecidableLT := inferInstance
  min a b := if a ≤ b then a else b
  max a b := if a ≤ b then b else a

def ascii (text : String) : Str := text.toList.map fun c => c.toNat.toUInt8

-- The text std::format writes for an unsigned integer.
def decimal (n : Nat) : Str :=
  if n = 0 then ascii "0" else (Nat.digits 10 n).reverse.map fun d => (48 + d).toUInt8

example : decimal 1000 = ascii "1000" := by decide

end S3Cpp
