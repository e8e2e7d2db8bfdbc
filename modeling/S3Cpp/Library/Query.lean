import Mathlib.Data.List.Nodup
import S3Cpp.Library.Framing
import S3Cpp.Library.Percent

-- Query strings: name=text pieces joined by '&', with percent-encoded texts.
namespace S3Cpp.Library.Query

open Percent Framing

abbrev ampersand : UInt8 := 38
abbrev equals : UInt8 := 61

-- The bytes RFC 3986 lets stand for themselves in a query.
def unreserved (b : UInt8) : Bool :=
  (48 ≤ b && b ≤ 57) || (65 ≤ b && b ≤ 90) || (97 ≤ b && b ≤ 122) ||
    b == 45 || b == 46 || b == 95 || b == 126

def subDelim (b : UInt8) : Bool :=
  [33, 36, 38, 39, 40, 41, 42, 43, 44, 59, 61].contains b

def pchar (b : UInt8) : Bool := unreserved b || subDelim b || b == 58 || b == 64

def queryChar (b : UInt8) : Bool := pchar b || b == 47 || b == 63

def splitFirst (piece : List UInt8) : List UInt8 × List UInt8 :=
  (piece.takeWhile (· ≠ equals), (piece.dropWhile (· ≠ equals)).drop 1)

def parse (query : List UInt8) : List (List UInt8 × List UInt8) :=
  (query.splitOn ampersand).map fun piece =>
    (decode (splitFirst piece).1, decode (splitFirst piece).2)

-- A parameter and the text its value is written as.
structure Param where
  name : List UInt8
  value : List UInt8
  text : List UInt8

namespace Param

def piece (p : Param) : List UInt8 := p.name ++ equals :: p.text

def pair (p : Param) : List UInt8 × List UInt8 := (p.name, p.value)

-- The text can be read back as the value.
def Readable (p : Param) : Prop :=
  valid queryChar p.text ∧ ampersand ∉ p.text ∧ decode p.text = p.value

end Param

def join (params : List Param) : List UInt8 :=
  [ampersand].intercalate (params.map Param.piece)

-- The query is valid and holds exactly these parameters, in some order.
def Faithful (query : List UInt8) (pairs : List (List UInt8 × List UInt8)) : Prop :=
  valid queryChar query ∧ (parse query).Perm pairs ∧ (pairs.map Prod.fst).Nodup

def Plain (name : List UInt8) : Prop := ∀ b ∈ name, unreserved b

instance (name : List UInt8) : Decidable (Plain name) := List.decidableBAll _ name

section Bytes

theorem unreserved_queryChar {b : UInt8} (h : unreserved b) : queryChar b := by
  simp [queryChar, pchar, h]

theorem unreserved_ne {b : UInt8} (h : unreserved b) :
    b ≠ percent ∧ b ≠ ampersand ∧ b ≠ equals := by
  refine ⟨?_, ?_, ?_⟩ <;> rintro rfl <;> revert h <;> decide

theorem queryChar_percent : queryChar percent = false := by decide

end Bytes

theorem splitFirst_piece (p : Param) (hn : Plain p.name) : splitFirst p.piece = (p.name, p.text) := by
  have hne : ∀ b ∈ p.name, decide (b ≠ equals) = true := fun b hb => by
    simpa using (unreserved_ne (hn b hb)).2.2
  have htake := @List.takeWhile_append_of_pos _ _ _ (equals :: p.text) hne
  have hdrop := @List.dropWhile_append_of_pos _ _ _ (equals :: p.text) hne
  simp only [splitFirst, Param.piece, htake, hdrop]
  simp

section Join

variable {params : List Param} (hne : params ≠ []) (hname : ∀ p ∈ params, Plain p.name)

theorem piece_count (p : Param) (hn : Plain p.name) :
    p.piece.count ampersand = p.text.count ampersand := by
  have h0 : p.name.count ampersand = 0 :=
    List.count_eq_zero.mpr fun hm => (unreserved_ne (hn _ hm)).2.1 rfl
  rw [Param.piece, List.count_append, h0, List.count_cons_of_ne (by decide), Nat.zero_add]

include hne hname

theorem count_join :
    (join params).count ampersand + 1 =
      (params.map fun p => p.text.count ampersand).sum + params.length := by
  have hp : params.map Param.piece ≠ [] := by simpa using hne
  rw [join, count_intercalate _ _ hp, List.map_map, List.length_map]
  congr 2
  exact List.map_congr_left fun p hm => piece_count p (hname p hm)

theorem parse_join (hamp : ∀ p ∈ params, ampersand ∉ p.text) :
    parse (join params) = params.map fun p => (p.name, decode p.text) := by
  have hpieces : ∀ piece ∈ params.map Param.piece, ampersand ∉ piece := by
    intro piece hm
    obtain ⟨p, hp, rfl⟩ := List.mem_map.mp hm
    rw [← List.count_eq_zero, piece_count p (hname p hp), List.count_eq_zero]
    exact hamp p hp
  rw [parse, join, List.splitOn_intercalate _ hpieces (by simpa using hne), List.map_map]
  apply List.map_congr_left
  intro p hp
  have hd := decode_of_raw queryChar queryChar_percent p.name fun b hb =>
    unreserved_queryChar (hname p hp b hb)
  simp only [Function.comp_apply, splitFirst_piece p (hname p hp), hd]

omit hne in
theorem valid_join : valid queryChar (join params) ↔ ∀ p ∈ params, valid queryChar p.text := by
  have hpiece (p : Param) (hn : Plain p.name) : valid queryChar p.piece = valid queryChar p.text := by
    rw [Param.piece, valid_append_of_raw _ _ fun b hb =>
      ⟨unreserved_queryChar (hn b hb), (unreserved_ne (hn b hb)).1⟩]
    rw [valid_cons_of_ne _ _ (by decide)]
    rfl
  induction params with
  | nil => simp [join, valid]
  | cons first rest ih =>
      have hfirst := hpiece first (hname first (by simp))
      cases rest with
      | nil => simp [join, hfirst]
      | cons second rest =>
          have hi : join (first :: second :: rest) =
              first.piece ++ ampersand :: join (second :: rest) := by
            simp [join, List.intercalate]
          have hrest := ih fun p hp => hname p (List.mem_cons_of_mem _ hp)
          rw [hi, valid_append_separator queryChar_percent (by decide) (by decide) (by decide),
            Bool.and_eq_true, hfirst]
          constructor
          · rintro ⟨h1, h2⟩ p hp
            rcases List.mem_cons.mp hp with rfl | hp
            · exact h1
            · exact hrest.mp h2 p hp
          · intro h
            exact ⟨h first (by simp), hrest.mpr fun p hp => h p (List.mem_cons_of_mem _ hp)⟩

-- A query is read back exactly when each of its texts is.
theorem faithful_join_iff (hnodup : (params.map Param.name).Nodup) :
    Faithful (join params) (params.map Param.pair) ↔ ∀ p ∈ params, p.Readable := by
  have hnames : (params.map Param.pair).map Prod.fst = params.map Param.name := by
    simp [Param.pair, Function.comp_def]
  constructor
  · rintro ⟨hv, hperm, -⟩
    have hlen := hperm.length_eq
    rw [parse, List.length_map, length_splitOn, List.length_map, count_join hne hname] at hlen
    have hzero : (params.map fun p => p.text.count ampersand).sum = 0 := by omega
    have hamp : ∀ p ∈ params, ampersand ∉ p.text := by
      intro p hp
      have hc := List.sum_eq_zero_iff_forall_eq_nat.mp hzero _ (List.mem_map_of_mem hp)
      exact List.count_eq_zero.mp hc
    rw [parse_join hne hname hamp] at hperm
    intro p hp
    refine ⟨(valid_join hname).mp hv p hp, hamp p hp, ?_⟩
    have hm := hperm.mem_iff.mp (List.mem_map_of_mem hp)
    obtain ⟨q, hq, he⟩ := List.mem_map.mp hm
    obtain ⟨hn, hd⟩ := Prod.mk.inj he
    -- the names are distinct, so the pair read is this parameter's own
    obtain rfl := List.inj_on_of_nodup_map hnodup hq hp hn
    exact hd.symm
  · intro h
    refine ⟨(valid_join hname).mpr fun p hp => (h p hp).1, ?_, hnames ▸ hnodup⟩
    rw [parse_join hne hname fun p hp => (h p hp).2.1]
    refine List.Perm.of_eq (List.map_congr_left fun p hp => ?_)
    rw [(h p hp).2.2]
    rfl

end Join

-- A value written as it is can be read back when none of its bytes is special.
def Verbatim (value : List UInt8) : Prop := ∀ b ∈ value, queryChar b ∧ b ≠ ampersand

instance (value : List UInt8) : Decidable (Verbatim value) := List.decidableBAll _ value

theorem readable_verbatim_iff (name value : List UInt8) :
    Param.Readable ⟨name, value, value⟩ ↔ Verbatim value := by
  have hraw := valid_decode_self_iff queryChar_percent value
  constructor
  · rintro ⟨hv, hamp, hd⟩ b hb
    exact ⟨hraw.mp ⟨hv, hd⟩ b hb, fun he => hamp (he ▸ hb)⟩
  · intro h
    obtain ⟨hv, hd⟩ := hraw.mpr fun b hb => (h b hb).1
    exact ⟨hv, fun hm => (h _ hm).2 rfl, hd⟩

theorem readable_encode {allowed : UInt8 → Bool} (h : ∀ b, allowed b → unreserved b)
    (name value : List UInt8) : Param.Readable ⟨name, value, encode allowed value⟩ := by
  have hp : allowed percent = false := by
    by_contra hc
    exact (unreserved_ne (h _ (by simpa using hc))).1 rfl
  refine ⟨valid_encode (fun b hb => ⟨unreserved_queryChar (h b hb), (unreserved_ne (h b hb)).1⟩) _,
    fun hm => ?_, decode_encode allowed hp value⟩
  rcases mem_encode hm with ha | ha | ha
  · exact (unreserved_ne (h _ ha)).2.1 rfl
  · exact absurd ha (by decide)
  · exact absurd ha (by decide)

end S3Cpp.Library.Query
