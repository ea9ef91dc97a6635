import Mathlib.Data.ZMod.Basic
import Unagi.Objects.HashNumbers

/-! # Numbers hash to their residues

The hash of a number is its magnitude in the integers modulo `2 ^ 61 - 1`, where every power of two
has an inverse, with the sign of the number. -/

namespace Unagi.Objects

def pyHashSmall (v : Int64) : UInt64 :=
  let u := if v < 0 then -v.toUInt64 else v.toUInt64
  let r := u % UInt64.ofNat hashModulus
  notMinusOne (if v < 0 then -r else r) (-2)
def pyHashBig (b : Int) : UInt64 :=
  let m := UInt64.ofNat (b.natAbs % hashModulus)
  notMinusOne (if b < 0 then -m else m) (-2)

/-- The hash of `m / 2 ^ k`: the residue of its magnitude with its sign, and `-2` for `-1`. -/
def modularHash (m : Int) (k : Nat) : Int :=
  let r := ((m.natAbs : ZMod hashModulus) * ((2 : ZMod hashModulus) ^ k)⁻¹).val
  let h := m.sign * r
  if h = -1 then -2 else h

theorem toNat_magnitude (v : Int64) :
    (if v < 0 then -v.toUInt64 else v.toUInt64).toNat = v.toInt.natAbs := by
  have hbits : v.toInt = if 2 * v.toUInt64.toNat < 2 ^ 64 then (v.toUInt64.toNat : Int)
      else v.toUInt64.toNat - 2 ^ 64 := BitVec.toInt_eq_toNat_cond v.toBitVec
  have hlt := v.toUInt64.toNat_lt
  have hneg : v < 0 ↔ v.toInt < 0 := Int64.lt_iff_toInt_lt
  by_cases h : v.toInt < 0
  · rw [if_pos (hneg.mpr h),UInt64.toNat_neg,UInt64.size]
    split at hbits <;> omega
  · rw [if_neg (fun h' => h (hneg.mp h'))]
    split at hbits <;> omega

theorem pyHashSmall_eq (v : Int64) : pyHashSmall v = pyHashBig v.toInt := by
  have hr : (if v < 0 then -v.toUInt64 else v.toUInt64) % UInt64.ofNat hashModulus =
      UInt64.ofNat (v.toInt.natAbs % hashModulus) := by
    apply UInt64.toNat_inj.mp
    have hlt := Nat.mod_lt v.toInt.natAbs hashModulus_pos
    have hmod : (UInt64.ofNat hashModulus).toNat = hashModulus := by decide
    rw [UInt64.toNat_mod,toNat_magnitude,hmod,UInt64.toNat_ofNat',
      Nat.mod_eq_of_lt (Nat.lt_trans hlt (show hashModulus < 2 ^ 64 by decide))]
  have hneg : v < 0 ↔ v.toInt < 0 := Int64.lt_iff_toInt_lt
  rw [pyHashSmall,pyHashBig,hr]
  simp only [hneg]

theorem toInt_notMinusOne {r : Nat} (hr : r < hashModulus) (s : Prop) [Decidable s] :
    (notMinusOne (if s then -UInt64.ofNat r else UInt64.ofNat r) (-2)).toInt64.toInt =
      if s ∧ r = 1 then -2 else if s then -(r : Int) else r := by
  have hbig : hashModulus < 2 ^ 61 := by decide
  have hpos : (UInt64.ofNat r).toInt64.toInt = r := by
    rw [UInt64.toInt64_ofNat',Int64.toInt_ofNat_of_lt (by omega)]
  have hneg : (-UInt64.ofNat r).toInt64.toInt = -r := by
    rw [UInt64.toInt64_neg,Int64.toInt_neg,UInt64.toInt64_ofNat',Int64.toInt_ofNat_of_lt (by omega)]
    rw [Int.bmod_def]
    split <;> omega
  have hone : ∀ u : UInt64, u = -1 ↔ u.toInt64.toInt = -1 := by
    intro u
    constructor
    · rintro rfl
      rfl
    · intro h
      have hword : u.toInt64 = (-1 : UInt64).toInt64 := Int64.toInt_inj.mp h
      exact congrArg Int64.toUInt64 hword
  simp only [notMinusOne,hone]
  by_cases hs : s
  · simp only [hs,if_true,hneg,true_and]
    by_cases h1 : r = 1
    · subst h1
      rfl
    · rw [if_neg (by omega),if_neg h1,hneg]
  · simp only [hs,if_false,hpos,false_and]
    rw [if_neg (by omega),hpos]

theorem modularHash_eq {m : Int} {k r : Nat} (hr : r < hashModulus)
    (hmod : r * 2 ^ k ≡ m.natAbs [MOD hashModulus]) :
    modularHash m k = if m < 0 ∧ r = 1 then -2 else if m < 0 then -(r : Int) else r := by
  have hunit : ((2 ^ k : Nat) : ZMod hashModulus) * ((2 ^ k : Nat) : ZMod hashModulus)⁻¹ = 1 :=
    ZMod.coe_mul_inv_eq_one _ (coprime_two_pow k).symm
  have hres : (m.natAbs : ZMod hashModulus) * ((2 : ZMod hashModulus) ^ k)⁻¹ = r := by
    rw [← (ZMod.natCast_eq_natCast_iff _ _ _).mpr hmod,Nat.cast_mul]
    push_cast at hunit ⊢
    rw [mul_assoc,hunit,mul_one]
  rw [modularHash,hres,ZMod.val_natCast_of_lt hr]
  rcases Int.lt_trichotomy m 0 with h | rfl | h
  · rw [Int.sign_eq_neg_one_of_neg h]
    by_cases h1 : r = 1
    · simp [h,h1]
    · rw [if_neg (by omega),if_neg (by omega),if_pos h,Int.neg_one_mul]
  · have hzero : r * 2 ^ k ≡ 0 * 2 ^ k [MOD hashModulus] := by rwa [Nat.zero_mul]
    obtain rfl : r = 0 := (Nat.ModEq.cancel_right_of_coprime (coprime_two_pow k) hzero).eq_of_lt_of_lt
      hr hashModulus_pos
    rfl
  · rw [Int.sign_eq_one_of_pos h,Int.one_mul,if_neg (by omega),if_neg (by omega),if_neg (by omega)]

theorem pyHashBig_modular (b : Int) : (pyHashBig b).toInt64.toInt = modularHash b 0 := by
  have hlt := Nat.mod_lt b.natAbs hashModulus_pos
  rw [pyHashBig,toInt_notMinusOne hlt,modularHash_eq hlt]
  rw [Nat.pow_zero,Nat.mul_one]
  exact Nat.mod_modEq _ _

theorem pyHashFloat_modular {v : Float64} {m : Int} {k : Nat} (hinf : v.isInf = false)
    (hnan : v.isNaN = false) (hv : v.scaled * 2 ^ k = m * 2 ^ 1074) :
    (pyHashFloat v).toInt64.toInt = modularHash m k := by
  obtain ⟨r,hlt,hmod,hhash⟩ := pyHashFloat_finite hinf hnan
  have hsign : v.scaled < 0 ↔ m < 0 := by
    have hk : (0 : Int) < 2 ^ k := Int.pow_pos (by decide)
    rw [← mul_neg_iff_of_pos hk,hv,mul_neg_iff_of_pos (Int.pow_pos (by decide))]
  have habs : v.scaled.natAbs * 2 ^ k = m.natAbs * 2 ^ 1074 := by
    have h := congrArg Int.natAbs hv
    rwa [Int.natAbs_mul,Int.natAbs_mul,Float64.natAbs_two_pow,Float64.natAbs_two_pow] at h
  rw [hhash,toInt_notMinusOne hlt,modularHash_eq hlt]
  · simp only [hsign]
  · apply Nat.ModEq.cancel_right_of_coprime (coprime_two_pow 1074)
    calc r * 2 ^ k * 2 ^ 1074 = r * 2 ^ 1074 * 2 ^ k := Nat.mul_right_comm _ _ _
      _ ≡ v.scaled.natAbs * 2 ^ k [MOD hashModulus] := hmod.mul_right _
      _ = m.natAbs * 2 ^ 1074 := habs

/-- Machine ints, ints of any size and finite doubles hash to their residues, and so equal numbers
of different types to one value. -/
theorem numbers_hash_to_residues :
    (∀ v : Int64, (pyHashSmall v).toInt64.toInt = modularHash v.toInt 0) ∧
    (∀ b : Int, (pyHashBig b).toInt64.toInt = modularHash b 0) ∧
    (∀ (v : Float64) (m : Int) (k : Nat), v.isInf = false → v.isNaN = false →
      v.scaled * 2 ^ k = m * 2 ^ 1074 → (pyHashFloat v).toInt64.toInt = modularHash m k) ∧
    (∀ v : Int64, pyHashSmall v = pyHashBig v.toInt) ∧
    (∀ (v : Float64) (b : Int), v.isInf = false → v.isNaN = false → v.scaled = b * Float64.one →
      pyHashFloat v = pyHashBig b) ∧
    ∀ v : Int, pyHashInt v =
      if -2 ^ 63 ≤ v ∧ v < 2 ^ 63 then pyHashSmall (Int64.ofInt v) else pyHashBig v := by
  refine ⟨?_,pyHashBig_modular,fun _ _ _ => pyHashFloat_modular,pyHashSmall_eq,
    fun _ _ => pyHashFloat_of_integral,?_⟩
  · intro v
    rw [pyHashSmall_eq,pyHashBig_modular]
  · intro v
    split
    · rename_i h
      rw [pyHashSmall_eq,Int64.toInt_ofInt_of_le h.1 h.2]
      rfl
    · rfl

/-- The double 2.5 is `5 / 2`, and the double -1.0 the int -1. -/
theorem two_and_a_half_hashes :
    (pyHashFloat 0x4004000000000000).toInt64.toInt = modularHash 5 1 ∧
    pyHashFloat 0xbff0000000000000 = pyHashBig (-1) := by
  refine ⟨numbers_hash_to_residues.2.2.1 _ 5 1 (by decide) (by decide) (by decide +kernel),
    numbers_hash_to_residues.2.2.2.2.1 _ (-1) (by decide) (by decide) (by decide +kernel)⟩

end Unagi.Objects
