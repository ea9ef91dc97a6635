import Mathlib.Tactic.Ring

/-! # Doubles as bit patterns

A `float64` is its 64 bits. Comparisons and conversions read the exact value, counted in multiples of
the smallest positive double. -/

namespace Unagi.Objects

abbrev Float64 := BitVec 64

namespace Float64
variable (v w : Float64)

def exponent : Nat := v.toNat / 2 ^ 52 % 2 ^ 11
def fraction : Nat := v.toNat % 2 ^ 52

def isNaN : Bool := exponent v = 2047 && fraction v ≠ 0
def isInf : Bool := exponent v = 2047 && fraction v = 0

/-- The magnitude that 63 bits encode, in multiples of `2 ^ (-1074)`. The bits of an infinity encode
a magnitude above those of all finite doubles. -/
def magnitude (n : Nat) : Nat :=
  if n / 2 ^ 52 = 0 then n % 2 ^ 52 else (2 ^ 52 + n % 2 ^ 52) * 2 ^ (n / 2 ^ 52 - 1)

/-- The value in multiples of `2 ^ (-1074)`. -/
def scaled : Int := if v.msb then -magnitude (v.toNat % 2 ^ 63) else magnitude (v.toNat % 2 ^ 63)

def one : Int := 2 ^ 1074

/-- `v == math.Trunc(v)` for a double that is neither infinite nor a nan. -/
def isIntegral : Bool := scaled v % one = 0

def toInt : Int := scaled v / one
def eq : Bool := !isNaN v && !isNaN w && scaled v = scaled w

/-- The bits of a positive integer, rounded to the nearest double with ties to even; past the
largest double an infinity. -/
def natBits (n : Nat) : Nat :=
  let k := n.log2
  let s := k - 52
  let q := n >>> s
  let r := n % 2 ^ s
  let up := s ≠ 0 ∧ (2 ^ (s - 1) < r ∨ r = 2 ^ (s - 1) ∧ q % 2 = 1)
  -- a fraction that rounds up to `2 ^ 52` carries into the exponent
  min ((k + 1023) * 2 ^ 52 + ((q <<< (52 - k)) - 2 ^ 52 + if up then 1 else 0)) (2047 * 2 ^ 52)

/-- The conversion of an int of any size. -/
def ofInt (i : Int) : Float64 :=
  if i = 0 then 0 else BitVec.ofNat 64 (natBits i.natAbs + if i < 0 then 2 ^ 63 else 0)

example : ofInt 1 = 0x3ff0000000000000 ∧ ofInt (2 ^ 53 + 1) = ofInt (2 ^ 53) ∧
    (ofInt (-3)).toInt = -3 := by
  decide +kernel

theorem magnitude_strictMono : StrictMono magnitude := by
  intro n m hnm
  have hn := Nat.div_add_mod n (2 ^ 52)
  have hm := Nat.div_add_mod m (2 ^ 52)
  have hfn := Nat.mod_lt n (show 0 < 2 ^ 52 by decide)
  have hfm := Nat.mod_lt m (show 0 < 2 ^ 52 by decide)
  unfold magnitude
  generalize n / 2 ^ 52 = e at hn ⊢
  generalize m / 2 ^ 52 = e' at hm ⊢
  generalize n % 2 ^ 52 = f at hn hfn ⊢
  generalize m % 2 ^ 52 = f' at hm hfm ⊢
  rcases Nat.lt_trichotomy e e' with h | rfl | h
  · -- a higher exponent
    have hlow : (if e = 0 then f else (2 ^ 52 + f) * 2 ^ (e - 1)) < 2 ^ 52 * 2 ^ e := by
      split
      · rename_i he
        rw [he]
        omega
      · rename_i he
        calc (2 ^ 52 + f) * 2 ^ (e - 1) < (2 ^ 52 * 2) * 2 ^ (e - 1) :=
              Nat.mul_lt_mul_of_pos_right (by omega) (Nat.two_pow_pos _)
          _ = 2 ^ 52 * 2 ^ e := by
              rw [Nat.mul_assoc,← Nat.pow_succ',Nat.succ_eq_add_one,Nat.sub_add_cancel (by omega)]
    rw [if_neg (by omega : ¬ e' = 0)]
    calc _ < 2 ^ 52 * 2 ^ e := hlow
      _ ≤ 2 ^ 52 * 2 ^ (e' - 1) :=
          Nat.mul_le_mul_left _ (Nat.pow_le_pow_right (by decide) (by omega))
      _ ≤ (2 ^ 52 + f') * 2 ^ (e' - 1) := Nat.mul_le_mul_right _ (by omega)
  · have hf : f < f' := by omega
    split
    · exact hf
    · exact Nat.mul_lt_mul_of_pos_right (by omega) (Nat.two_pow_pos _)
  · have : (e' + 1) * 2 ^ 52 ≤ e * 2 ^ 52 := Nat.mul_le_mul_right _ h
    omega

theorem eq_of_scaled_eq {v w : Float64} (h : scaled v = scaled w) (hv : scaled v ≠ 0) : v = w := by
  have hmsb : ∀ u : Float64, u.toNat = (if u.msb then 2 ^ 63 else 0) + u.toNat % 2 ^ 63 := by
    intro u
    have hu := u.isLt
    have hmsb := u.msb_eq_decide
    by_cases hbig : 2 ^ 63 ≤ u.toNat
    · rw [hmsb,decide_eq_true (by simpa using hbig),if_pos rfl]
      omega
    · rw [hmsb,decide_eq_false (by simpa using hbig)]
      simp
      omega
  have hsign : v.msb = w.msb ∧ v.toNat % 2 ^ 63 = w.toNat % 2 ^ 63 := by
    unfold scaled at h hv
    cases hvm : v.msb <;> cases hwm : w.msb <;> simp only [hvm,hwm] at h hv
    · exact ⟨rfl,magnitude_strictMono.injective (by simpa using h)⟩
    · simp at h hv
      omega
    · simp at h hv
      omega
    · exact ⟨rfl,magnitude_strictMono.injective (by simpa using h)⟩
  apply BitVec.eq_of_toNat_eq
  rw [hmsb v,hmsb w,hsign.1,hsign.2]

section
variable {v : Float64}

theorem natAbs_two_pow (n : Nat) : ((2 : Int) ^ n).natAbs = 2 ^ n := Int.natAbs_pow 2 n
theorem one_pos : 0 < one := Int.pow_pos (by decide)
theorem scaled_of_isIntegral (h : v.isIntegral = true) : v.scaled = v.toInt * one := by
  have hmod : v.scaled % one = 0 := by simpa [isIntegral] using h
  rw [toInt,Int.ediv_mul_cancel (Int.dvd_of_emod_eq_zero hmod)]

theorem isIntegral_of_scaled {i : Int} (h : v.scaled = i * one) :
    v.isIntegral = true ∧ v.toInt = i := by
  constructor
  · rw [isIntegral,h,Int.mul_emod_left]
    rfl
  · rw [toInt,h,Int.mul_ediv_cancel _ (Int.ne_of_gt one_pos)]

theorem scaled_ne_zero_of_isInf (h : v.isInf = true) : v.scaled ≠ 0 := by
  have hexp : v.exponent = 2047 := by
    simp only [isInf,Bool.and_eq_true,decide_eq_true_eq] at h
    exact h.1
  have hpos : 0 < magnitude (v.toNat % 2 ^ 63) := by
    have hbits : v.toNat % 2 ^ 63 / 2 ^ 52 = 2047 := by
      unfold exponent at hexp
      omega
    rw [magnitude,hbits,if_neg (by decide)]
    exact Nat.mul_pos (by omega) (Nat.two_pow_pos _)
  unfold scaled
  split <;> omega

end
end Float64
end Unagi.Objects
