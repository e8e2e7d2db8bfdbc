import Mathlib.Data.List.Basic

-- Percent-encoding of byte strings. `raw` or `allowed` is the set of bytes that
-- stand for themselves, every other byte is written as '%' and two digits.
namespace S3Cpp.Library.Percent

abbrev percent : UInt8 := 37

def hexDigit (n : Nat) : UInt8 := if n < 10 then (48 + n).toUInt8 else (55 + n).toUInt8

def hexValue (b : UInt8) : Option Nat :=
  if 48 ≤ b ∧ b ≤ 57 then some (b.toNat - 48)
  else if 65 ≤ b ∧ b ≤ 70 then some (b.toNat - 55)
  else if 97 ≤ b ∧ b ≤ 102 then some (b.toNat - 87)
  else none

def encodeByte (allowed : UInt8 → Bool) (b : UInt8) : List UInt8 :=
  if allowed b then [b] else [percent, hexDigit (b.toNat / 16), hexDigit (b.toNat % 16)]

def encode (allowed : UInt8 → Bool) (s : List UInt8) : List UInt8 :=
  s.flatMap (encodeByte allowed)

-- A '%' that no two digits follow is kept as it is.
def decode : List UInt8 → List UInt8
  | [] => []
  | [b] => [b]
  | [b, c] => [b, c]
  | b :: h :: l :: rest =>
      if b = percent then
        match hexValue h, hexValue l with
        | some x, some y => (16 * x + y).toUInt8 :: decode rest
        | _, _ => b :: decode (h :: l :: rest)
      else b :: decode (h :: l :: rest)

-- Every byte stands for itself or belongs to an escape.
def valid (raw : UInt8 → Bool) : List UInt8 → Bool
  | [] => true
  | [b] => raw b
  | [b, c] => raw b && raw c
  | b :: h :: l :: rest =>
      if b = percent then (hexValue h).isSome && (hexValue l).isSome && valid raw rest
      else raw b && valid raw (h :: l :: rest)

theorem hexValue_hexDigit : ∀ n < 16, hexValue (hexDigit n) = some n := by decide

theorem decode_cons_of_ne (b : UInt8) (rest : List UInt8) (h : b ≠ percent) :
    decode (b :: rest) = b :: decode rest := by
  rcases rest with _ | ⟨c, _ | ⟨d, rest⟩⟩ <;> simp [decode, h]

theorem decode_escape (b : UInt8) (rest : List UInt8) :
    decode (percent :: hexDigit (b.toNat / 16) :: hexDigit (b.toNat % 16) :: rest) =
      b :: decode rest := by
  have hb : b.toNat < 256 := UInt8.toNat_lt b
  rw [decode, if_pos rfl, hexValue_hexDigit _ (by omega), hexValue_hexDigit _ (by omega)]
  simp [Nat.div_add_mod]

theorem decode_encode_append (allowed : UInt8 → Bool) (hp : allowed percent = false)
    (s rest : List UInt8) : decode (encode allowed s ++ rest) = s ++ decode rest := by
  induction s with
  | nil => rfl
  | cons b s ih =>
      simp only [encode, List.flatMap_cons, List.append_assoc] at ih ⊢
      by_cases ha : allowed b
      · have hne : b ≠ percent := fun he => by simp [he, hp] at ha
        simp only [encodeByte, ha, if_true, List.cons_append, List.nil_append]
        rw [decode_cons_of_ne _ _ hne, ih]
      · simp only [encodeByte, ha, Bool.false_eq_true, if_false, List.cons_append, List.nil_append]
        rw [decode_escape, ih]

theorem decode_encode (allowed : UInt8 → Bool) (hp : allowed percent = false) (s : List UInt8) :
    decode (encode allowed s) = s := by
  simpa [decode] using decode_encode_append allowed hp s []

theorem decode_of_raw (raw : UInt8 → Bool) (hp : raw percent = false) (s : List UInt8)
    (h : ∀ b ∈ s, raw b) : decode s = s := by
  induction s with
  | nil => rfl
  | cons b s ih =>
      have hne : b ≠ percent := by
        rintro rfl
        simpa [hp] using h percent (by simp)
      rw [decode_cons_of_ne b s hne, ih fun c hc => h c (List.mem_cons_of_mem _ hc)]

-- An encoder leaves a string alone exactly when it has nothing to encode.
theorem encode_eq_self_iff (allowed : UInt8 → Bool) (s : List UInt8) :
    encode allowed s = s ↔ ∀ b ∈ s, allowed b := by
  constructor
  · intro h
    have hlen (t : List UInt8) : t.length ≤ (encode allowed t).length ∧
        ((encode allowed t).length = t.length → ∀ b ∈ t, allowed b) := by
      induction t with
      | nil => simp [encode]
      | cons b t ih =>
          simp only [encode, List.flatMap_cons, List.length_append, List.length_cons] at ih ⊢
          by_cases ha : allowed b
          · simp only [encodeByte, ha, if_true, List.length_singleton]
            refine ⟨by omega, fun he c hc => ?_⟩
            rcases List.mem_cons.mp hc with rfl | hc
            · exact ha
            · exact ih.2 (by omega) c hc
          · simp only [encodeByte, ha, Bool.false_eq_true, if_false, List.length_cons,
              List.length_nil]
            exact ⟨by omega, by omega⟩
    exact (hlen s).2 (by rw [h])
  · intro h
    induction s with
    | nil => rfl
    | cons b s ih =>
        have hb := h b (by simp)
        simp only [encode, List.flatMap_cons, encodeByte, hb, if_true, List.singleton_append]
        exact congrArg (b :: ·) (ih fun c hc => h c (List.mem_cons_of_mem _ hc))

theorem mem_encode {allowed : UInt8 → Bool} {s : List UInt8} {b : UInt8}
    (h : b ∈ encode allowed s) : allowed b ∨ b = percent ∨ (hexValue b).isSome := by
  obtain ⟨c, _, hb⟩ := List.mem_flatMap.mp h
  have hc : c.toNat < 256 := UInt8.toNat_lt c
  unfold encodeByte at hb
  split at hb
  · rename_i ha
    obtain rfl := List.mem_singleton.mp hb
    exact .inl ha
  · simp only [List.mem_cons, List.not_mem_nil, or_false] at hb
    rcases hb with rfl | rfl | rfl
    · exact .inr (.inl rfl)
    · exact .inr (.inr (by rw [hexValue_hexDigit _ (by omega)]; rfl))
    · exact .inr (.inr (by rw [hexValue_hexDigit _ (by omega)]; rfl))

section Valid

variable {raw : UInt8 → Bool}

theorem valid_cons_of_ne (b : UInt8) (rest : List UInt8) (h : b ≠ percent) :
    valid raw (b :: rest) = (raw b && valid raw rest) := by
  rcases rest with _ | ⟨c, _ | ⟨d, rest⟩⟩ <;> simp [valid, h]

theorem valid_append_of_raw (s rest : List UInt8) (h : ∀ b ∈ s, raw b ∧ b ≠ percent) :
    valid raw (s ++ rest) = valid raw rest := by
  induction s with
  | nil => rfl
  | cons b s ih =>
      have hb := h b (by simp)
      rw [List.cons_append, valid_cons_of_ne b _ hb.2, ih fun c hc => h c (List.mem_cons_of_mem _ hc),
        hb.1, Bool.true_and]

-- A separator that is no digit ends every escape before it.
theorem valid_append_separator (hp : raw percent = false) {separator : UInt8}
    (hraw : raw separator) (hne : separator ≠ percent) (hhex : hexValue separator = none)
    (s rest : List UInt8) :
    valid raw (s ++ separator :: rest) = (valid raw s && valid raw rest) := by
  induction s using valid.induct with
  | case1 => simp [valid, valid_cons_of_ne _ _ hne, hraw]
  | case2 b =>
      by_cases hb : b = percent
      · subst hb
        cases rest <;> simp [valid, hp, hhex]
      · simp [valid_cons_of_ne _ _ hb, valid_cons_of_ne _ _ hne, valid, hraw]
  | case3 b c =>
      by_cases hb : b = percent
      · subst hb
        simp [valid, hp, hhex]
      · rw [List.cons_append, valid_cons_of_ne _ _ hb, valid_cons_of_ne b _ hb, Bool.and_assoc]
        congr 1
        by_cases hc : c = percent
        · subst hc
          cases rest <;> simp [valid, hp, hhex]
        · simp [valid_cons_of_ne _ _ hc, valid_cons_of_ne _ _ hne, valid, hraw]
  | case4 h l tail ih => simp [valid, ih, Bool.and_assoc]
  | case5 b h l tail hb ih =>
      rw [List.cons_append, valid_cons_of_ne _ _ hb, ih, valid_cons_of_ne _ _ hb, Bool.and_assoc]

theorem valid_encode {allowed : UInt8 → Bool} (h : ∀ b, allowed b → raw b ∧ b ≠ percent)
    (s : List UInt8) : valid raw (encode allowed s) := by
  induction s with
  | nil => rfl
  | cons b s ih =>
      have hb : b.toNat < 256 := UInt8.toNat_lt b
      simp only [encode, List.flatMap_cons] at ih ⊢
      by_cases ha : allowed b
      · simp only [encodeByte, ha, if_true, List.singleton_append]
        rw [valid_cons_of_ne _ _ (h b ha).2, (h b ha).1, ih]
        rfl
      · simp only [encodeByte, ha, Bool.false_eq_true, if_false, List.cons_append, List.nil_append]
        rw [valid, if_pos rfl, hexValue_hexDigit _ (by omega), hexValue_hexDigit _ (by omega), ih]
        rfl

-- Every escape shortens a valid string, so decoding fixes only raw ones.
theorem decode_length_le (s : List UInt8) (hv : valid raw s) :
    (decode s).length ≤ s.length ∧ ((decode s).length = s.length → ∀ b ∈ s, raw b) := by
  induction s using valid.induct with
  | case1 => simp [decode]
  | case2 b => simpa [decode, valid] using hv
  | case3 b c => simpa [decode, valid] using hv
  | case4 h l tail ih =>
      simp only [valid, if_true, Bool.and_eq_true] at hv
      obtain ⟨⟨hx, hy⟩, ht⟩ := hv
      obtain ⟨x, hx⟩ := Option.isSome_iff_exists.mp hx
      obtain ⟨y, hy⟩ := Option.isSome_iff_exists.mp hy
      have := (ih ht).1
      simp only [decode, if_true, hx, hy, List.length_cons]
      exact ⟨by omega, by omega⟩
  | case5 b h l tail hb ih =>
      rw [valid_cons_of_ne _ _ hb, Bool.and_eq_true] at hv
      have := ih hv.2
      rw [decode_cons_of_ne _ _ hb]
      simp only [List.length_cons] at this ⊢
      refine ⟨by omega, fun he c hc => ?_⟩
      rcases List.mem_cons.mp hc with rfl | hc
      · exact hv.1
      · exact this.2 (by omega) c hc

theorem valid_decode_self_iff (hp : raw percent = false) (s : List UInt8) :
    (valid raw s ∧ decode s = s) ↔ ∀ b ∈ s, raw b := by
  constructor
  · rintro ⟨hv, hd⟩
    exact (decode_length_le s hv).2 (by rw [hd])
  · intro h
    refine ⟨?_, decode_of_raw raw hp s h⟩
    have := valid_append_of_raw s [] fun b hb =>
      ⟨h b hb, fun he => by simpa [he, hp] using h b hb⟩
    simpa [valid] using this

end Valid

end S3Cpp.Library.Percent
