import Unagi.Objects.PyHash
import Unagi.Runtime.Codec

/-! # The bytes of a `str`

A `str` is a Go string of UTF-8 bytes in which a lone surrogate stands as the three bytes that UTF-8
would give it. Go's own `range` and `[]rune` read each of these bytes as `U+FFFD`. -/

namespace Unagi.Runtime

open Objects (Bytes decodeRune runes)

/-- `writeStrRune`: UTF-8, for a surrogate too. -/
def writeStrRune (r : Nat) : Bytes :=
  if r < 0x80 then [r.toUInt8]
  else if r < 0x800 then [(0xC0 + r / 64).toUInt8, (0x80 + r % 64).toUInt8]
  else if r < 0x10000 then
    [(0xE0 + r / 4096).toUInt8, (0x80 + r / 64 % 64).toUInt8, (0x80 + r % 64).toUInt8]
  else
    [(0xF0 + r / 262144).toUInt8, (0x80 + r / 4096 % 64).toUInt8, (0x80 + r / 64 % 64).toUInt8,
      (0x80 + r % 64).toUInt8]

def encodeStrRunes (rs : List Rune) : Bytes := rs.flatMap writeStrRune

/-- What Go's `range` and `[]rune` see of a `str`. -/
def goRunes (s : List Rune) : List Rune := runes 0 (encodeStrRunes s)

def goRune (r : Rune) : List Rune := if isScalar r then [r] else [0xFFFD, 0xFFFD, 0xFFFD]

/-! ## Decoding -/

section
variable {b₀ b₁ b₂ b₃ : UInt8} {p : Bytes}

theorem decodeRune_ascii (h : b₀.toNat < 0x80) : decodeRune b₀ p = (b₀.toNat, 0) := by
  have hlt : b₀ < 0x80 := UInt8.lt_iff_toNat_lt.mpr h
  cases p <;> simp [decodeRune,hlt]
theorem decodeRune_two (h₀ : 0xC2 ≤ b₀.toNat ∧ b₀.toNat ≤ 0xDF)
    (h₁ : 0x80 ≤ b₁.toNat ∧ b₁.toNat ≤ 0xBF) :
    decodeRune b₀ (b₁ :: p) = (b₀.toNat % 32 * 64 + b₁.toNat % 64, 1) := by
  simp only [decodeRune,UInt8.lt_iff_toNat_lt,UInt8.le_iff_toNat_le,UInt8.reduceToNat]
  rw [if_neg (by omega),if_pos (by simp only [Bool.and_eq_true,decide_eq_true_eq]; omega)]

theorem decodeRune_three (h₀ : 0xE0 ≤ b₀.toNat ∧ b₀.toNat ≤ 0xEF)
    (h₁ : 0x80 ≤ b₁.toNat ∧ b₁.toNat ≤ 0xBF) (h₂ : 0x80 ≤ b₂.toNat ∧ b₂.toNat ≤ 0xBF)
    (hlong : b₀.toNat = 0xE0 → 0xA0 ≤ b₁.toNat) (hpair : b₀.toNat = 0xED → b₁.toNat ≤ 0x9F) :
    decodeRune b₀ (b₁ :: b₂ :: p) =
      (b₀.toNat % 16 * 4096 + b₁.toNat % 64 * 64 + b₂.toNat % 64, 2) := by
  simp only [decodeRune,UInt8.lt_iff_toNat_lt,UInt8.le_iff_toNat_le,UInt8.reduceToNat,
    ← UInt8.toNat_inj]
  rw [if_neg (by omega),if_neg (by simp only [Bool.and_eq_true,decide_eq_true_eq]; omega),
    if_pos (by simp only [Bool.and_eq_true,Bool.not_eq_true',Bool.and_eq_false_iff,
      decide_eq_true_eq,decide_eq_false_iff_not]; omega)]

theorem decodeRune_four (h₀ : 0xF0 ≤ b₀.toNat ∧ b₀.toNat ≤ 0xF4)
    (h₁ : 0x80 ≤ b₁.toNat ∧ b₁.toNat ≤ 0xBF) (h₂ : 0x80 ≤ b₂.toNat ∧ b₂.toNat ≤ 0xBF)
    (h₃ : 0x80 ≤ b₃.toNat ∧ b₃.toNat ≤ 0xBF)
    (hlong : b₀.toNat = 0xF0 → 0x90 ≤ b₁.toNat) (hlast : b₀.toNat = 0xF4 → b₁.toNat ≤ 0x8F) :
    decodeRune b₀ (b₁ :: b₂ :: b₃ :: p) =
      (b₀.toNat % 8 * 262144 + b₁.toNat % 64 * 4096 + b₂.toNat % 64 * 64 + b₃.toNat % 64, 3) := by
  simp only [decodeRune,UInt8.lt_iff_toNat_lt,UInt8.le_iff_toNat_le,UInt8.reduceToNat,
    ← UInt8.toNat_inj]
  rw [if_neg (by omega),if_neg (by simp only [Bool.and_eq_true,decide_eq_true_eq]; omega),
    if_neg (by simp only [Bool.and_eq_true,decide_eq_true_eq]; omega),
    if_pos (by simp only [Bool.and_eq_true,Bool.not_eq_true',Bool.and_eq_false_iff,
      decide_eq_true_eq,decide_eq_false_iff_not]; omega)]

theorem decodeRune_surrogate (h₀ : b₀.toNat = 0xED) (h₁ : 0xA0 ≤ b₁.toNat) :
    decodeRune b₀ (b₁ :: b₂ :: p) = (0xFFFD, 0) := by
  simp only [decodeRune,UInt8.lt_iff_toNat_lt,UInt8.le_iff_toNat_le,UInt8.reduceToNat,
    ← UInt8.toNat_inj]
  rw [if_neg (by omega),if_neg (by simp only [Bool.and_eq_true,decide_eq_true_eq]; omega),
    if_neg (by simp only [Bool.and_eq_true,Bool.not_eq_true',Bool.and_eq_false_iff,
      decide_eq_true_eq,decide_eq_false_iff_not]; omega)]
  cases p with
  | nil => rfl
  | cons b₃ p => exact if_neg (by simp only [Bool.and_eq_true,decide_eq_true_eq]; omega)

theorem decodeRune_continuation (h₀ : 0x80 ≤ b₀.toNat ∧ b₀.toNat ≤ 0xBF) :
    decodeRune b₀ p = (0xFFFD, 0) := by
  unfold decodeRune
  simp only [UInt8.lt_iff_toNat_lt,UInt8.le_iff_toNat_le,UInt8.reduceToNat,← UInt8.toNat_inj]
  split
  · rw [if_neg (by omega),if_neg (by simp only [Bool.and_eq_true,decide_eq_true_eq]; omega)]
    split
    · rw [if_neg (by simp only [Bool.and_eq_true,decide_eq_true_eq]; omega)]
      split
      · exact if_neg (by simp only [Bool.and_eq_true,decide_eq_true_eq]; omega)
      · rfl
    · rfl
  · exact if_neg (by omega)

end

private theorem toNat_toUInt8 {n : Nat} (h : n < 256) : n.toUInt8.toNat = n := by
  rw [Nat.toUInt8_eq,UInt8.toNat_ofNat',Nat.mod_eq_of_lt h]

theorem isScalar_iff {r : Nat} :
    isScalar r = true ↔ r < 0xD800 ∨ 0xDFFF < r ∧ r ≤ 0x10FFFF := by
  rw [isScalar,Bool.or_eq_true,Bool.and_eq_true,decide_eq_true_eq,decide_eq_true_eq,
    decide_eq_true_eq]
theorem goRune_scalar {r : Rune} (h : isScalar r = true) : goRune r = [r] := if_pos h

private theorem runes_three {r : Nat} (hlow : 0x800 ≤ r) (h : r < 0x10000) (p : Bytes) :
    runes 0 ((0xE0 + r / 4096).toUInt8 :: (0x80 + r / 64 % 64).toUInt8 :: (0x80 + r % 64).toUInt8 ::
      p) = goRune r ++ runes 0 p := by
  have h₀ : (0xE0 + r / 4096).toUInt8.toNat = 0xE0 + r / 4096 := toNat_toUInt8 (by omega)
  have h₁ : (0x80 + r / 64 % 64).toUInt8.toNat = 0x80 + r / 64 % 64 := toNat_toUInt8 (by omega)
  have h₂ : (0x80 + r % 64).toUInt8.toNat = 0x80 + r % 64 := toNat_toUInt8 (by omega)
  by_cases hs : isScalar r = true
  · have hr := isScalar_iff.mp hs
    have hvalue : (0xE0 + r / 4096) % 16 * 4096 + (0x80 + r / 64 % 64) % 64 * 64 +
        (0x80 + r % 64) % 64 = r := by
      clear h₀ h₁ h₂
      omega
    rw [runes,decodeRune_three (by omega) (by omega) (by omega) (by omega) (by omega),h₀,h₁,h₂,
      hvalue,runes,runes,goRune_scalar hs]
    rfl
  · have hr : ¬ (r < 0xD800 ∨ 0xDFFF < r ∧ r ≤ 0x10FFFF) := fun hr => hs (isScalar_iff.mpr hr)
    rw [runes,decodeRune_surrogate (by omega) (by omega),runes,
      decodeRune_continuation (by omega),runes,decodeRune_continuation (by omega),goRune,
      if_neg hs]
    rfl

/-- Go reads a code point of a `str` as itself, the three bytes of a surrogate one by one. -/
theorem runes_writeStrRune {r : Nat} (h : r ≤ 0x10FFFF) (p : Bytes) :
    runes 0 (writeStrRune r ++ p) = goRune r ++ runes 0 p := by
  unfold writeStrRune
  split_ifs with hone htwo hthree
  · have h₀ : r.toUInt8.toNat = r := toNat_toUInt8 (by omega)
    rw [List.singleton_append,runes,decodeRune_ascii (by omega),h₀,
      goRune_scalar (isScalar_iff.mpr (by omega))]
    rfl
  · have h₀ : (0xC0 + r / 64).toUInt8.toNat = 0xC0 + r / 64 := toNat_toUInt8 (by omega)
    have h₁ : (0x80 + r % 64).toUInt8.toNat = 0x80 + r % 64 := toNat_toUInt8 (by omega)
    have hvalue : (0xC0 + r / 64) % 32 * 64 + (0x80 + r % 64) % 64 = r := by
      clear h₀ h₁
      omega
    rw [List.cons_append,List.singleton_append,runes,decodeRune_two (by omega) (by omega),h₀,h₁,
      hvalue,runes,goRune_scalar (isScalar_iff.mpr (by omega))]
    rfl
  · exact runes_three (by omega) hthree p
  · have h₀ : (0xF0 + r / 262144).toUInt8.toNat = 0xF0 + r / 262144 := toNat_toUInt8 (by omega)
    have h₁ : (0x80 + r / 4096 % 64).toUInt8.toNat = 0x80 + r / 4096 % 64 :=
      toNat_toUInt8 (by omega)
    have h₂ : (0x80 + r / 64 % 64).toUInt8.toNat = 0x80 + r / 64 % 64 := toNat_toUInt8 (by omega)
    have h₃ : (0x80 + r % 64).toUInt8.toNat = 0x80 + r % 64 := toNat_toUInt8 (by omega)
    have hvalue : (0xF0 + r / 262144) % 8 * 262144 + (0x80 + r / 4096 % 64) % 64 * 4096 +
        (0x80 + r / 64 % 64) % 64 * 64 + (0x80 + r % 64) % 64 = r := by
      clear h₀ h₁ h₂ h₃
      omega
    rw [List.cons_append,List.cons_append,List.cons_append,List.singleton_append,runes,
      decodeRune_four (by omega) (by omega) (by omega) (by omega) (by omega) (by omega),h₀,h₁,h₂,
      h₃,hvalue,runes,runes,runes,goRune_scalar (isScalar_iff.mpr (by omega))]
    rfl

theorem goRunes_eq {s : List Rune} (h : ∀ r ∈ s, r ≤ 0x10FFFF) : goRunes s = s.flatMap goRune := by
  unfold goRunes
  induction s with
  | nil => rfl
  | cons r s ih =>
    rw [encodeStrRunes,List.flatMap_cons,runes_writeStrRune (h r List.mem_cons_self),
      List.flatMap_cons,← encodeStrRunes,ih fun r' hr' => h r' (List.mem_cons_of_mem r hr')]

theorem isScalar_goRune {r r' : Rune} (h : r' ∈ goRune r) : isScalar r' = true := by
  unfold goRune at h
  split at h
  · rename_i hr
    rwa [List.mem_singleton.mp h]
  · simp only [List.mem_cons,List.not_mem_nil,or_false,or_self] at h
    rw [h]
    decide

theorem goRunes_of_scalar {s : List Rune} (h : ∀ r ∈ s, isScalar r = true) : goRunes s = s := by
  have hmax : ∀ r ∈ s, r ≤ 0x10FFFF := by
    intro r hr
    have hscalar : r < 0xD800 ∨ 0xDFFF < r ∧ r ≤ 0x10FFFF := isScalar_iff.mp (h r hr)
    exact hscalar.elim (fun hlow => Nat.le_of_lt (Nat.lt_trans hlow (by decide))) And.right
  rw [goRunes_eq hmax]
  induction s with
  | nil => rfl
  | cons r s ih =>
    rw [List.flatMap_cons,goRune_scalar (h r List.mem_cons_self),
      ih (fun r' hr' => h r' (List.mem_cons_of_mem r hr'))
        fun r' hr' => hmax r' (List.mem_cons_of_mem r hr')]
    rfl

theorem isScalar_goRunes {s : List Rune} (h : ∀ r ∈ s, r ≤ 0x10FFFF) {r : Rune} (hr : r ∈ goRunes s) :
    isScalar r = true := by
  rw [goRunes_eq h,List.mem_flatMap] at hr
  obtain ⟨r',-,hr'⟩ := hr
  exact isScalar_goRune hr'

end Unagi.Runtime
