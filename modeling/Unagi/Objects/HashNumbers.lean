import Mathlib.Data.Nat.ModEq
import Unagi.Objects.PyHash

/-! # Equal numbers have equal hashes

An integral double folds to the hash of the int that it is. -/

namespace Unagi.Objects

theorem hashModulus_pos : 0 < hashModulus := by decide

theorem swap_digits_lt {A K a q : Nat} (ha : a < A) (hq : q < K) (h : A * q + a + 1 < A * K) :
    a * K + q + 1 < A * K := by
  by_contra hge
  have hA : A ≤ a + 1 := by
    have hle : A * K ≤ (a + 1) * K := by
      rw [Nat.succ_mul]
      omega
    exact Nat.le_of_mul_le_mul_right hle (by omega)
  obtain rfl : A = a + 1 := by omega
  have hK : K ≤ q + 1 := by
    rw [Nat.succ_mul] at hge
    omega
  obtain rfl : K = q + 1 := by omega
  rw [Nat.mul_succ] at h
  omega

/-- A rotation of 61 bits multiplies by a power of two modulo `2 ^ 61 - 1`. -/
theorem rotate61_eq {x k : Nat} (hx : x < hashModulus) (hk : k ≤ 61) :
    rotate61 x k = x * 2 ^ k % hashModulus := by
  have hmask : hashModulus + 1 = 2 ^ (61 - k) * 2 ^ k := by
    rw [← Nat.pow_add,Nat.sub_add_cancel hk]
    rfl
  have hdigits := Nat.div_add_mod x (2 ^ (61 - k))
  have ha := Nat.mod_lt x (Nat.two_pow_pos (61 - k))
  have hq : x / 2 ^ (61 - k) < 2 ^ k := by
    rw [Nat.div_lt_iff_lt_mul (Nat.two_pow_pos _),Nat.mul_comm,← hmask]
    omega
  have hrotate : rotate61 x k = x % 2 ^ (61 - k) * 2 ^ k + x / 2 ^ (61 - k) := by
    rw [rotate61,Nat.shiftLeft_eq,Nat.shiftRight_eq_div_pow,
      show hashModulus = 2 ^ 61 - 1 from rfl,Nat.and_two_pow_sub_one_eq_mod]
    have hlow : x * 2 ^ k % 2 ^ 61 = x % 2 ^ (61 - k) * 2 ^ k := by
      rw [show 2 ^ 61 = 2 ^ (61 - k) * 2 ^ k by rw [← Nat.pow_add,Nat.sub_add_cancel hk],
        Nat.mul_mod_mul_right]
    rw [hlow,Nat.mul_comm _ (2 ^ k),Nat.two_pow_add_eq_or_of_lt hq]
  generalize x % 2 ^ (61 - k) = a at hdigits ha hrotate
  generalize x / 2 ^ (61 - k) = q at hdigits hq hrotate
  have hlt : a * 2 ^ k + q < hashModulus := by
    have := swap_digits_lt ha hq (by omega)
    omega
  have hwhole : x * 2 ^ k = a * 2 ^ k + q + hashModulus * q := by
    calc x * 2 ^ k = (2 ^ (61 - k) * 2 ^ k) * q + a * 2 ^ k := by
          rw [← hdigits]
          ring
      _ = a * 2 ^ k + q + hashModulus * q := by
          rw [← hmask]
          ring
  rw [hrotate,hwhole,Nat.add_mul_mod_self_left,Nat.mod_eq_of_lt hlt]

theorem foldFraction_spec (d n : Nat) {x f : Nat} (e : Int) (hx : x < hashModulus) (hf : f < 2 ^ d)
    (hend : f * 2 ^ (28 * n) % 2 ^ d = 0) :
    (foldFraction d n x f e).1 < hashModulus ∧
      ∃ t : Nat, (foldFraction d n x f e).2 = e - 28 * t ∧
        (foldFraction d n x f e).1 * 2 ^ d ≡ (x * 2 ^ d + f) * 2 ^ (28 * t) [MOD hashModulus] := by
  induction n generalizing x f e with
  | zero =>
    rw [Nat.mul_zero,Nat.pow_zero,Nat.mul_one,Nat.mod_eq_of_lt hf] at hend
    subst hend
    exact ⟨hx,0,by simp [foldFraction],by simp [foldFraction]; rfl⟩
  | succ n ih =>
    rw [foldFraction]
    by_cases hzero : f = 0
    · subst hzero
      simp only [if_true]
      exact ⟨hx,0,by simp,by simp; rfl⟩
    rw [if_neg hzero]
    simp only
    have hy : f * 2 ^ 28 / 2 ^ d < 2 ^ 28 := by
      rw [Nat.div_lt_iff_lt_mul (Nat.two_pow_pos d),Nat.mul_comm]
      exact Nat.mul_lt_mul_of_pos_left hf (by decide)
    have hrotate := rotate61_eq hx (by decide : 28 ≤ 61)
    have hreduced : ∀ {a : Nat}, a < 2 * hashModulus →
        (if hashModulus ≤ a then a - hashModulus else a) < hashModulus ∧
          (if hashModulus ≤ a then a - hashModulus else a) ≡ a [MOD hashModulus] := by
      intro a ha
      split
      · rename_i hle
        refine ⟨by omega,?_⟩
        rw [Nat.ModEq,Nat.mod_eq_sub_mod hle]
      · exact ⟨by omega,rfl⟩
    have hsum : rotate61 x 28 + f * 2 ^ 28 / 2 ^ d < 2 * hashModulus := by
      have := Nat.mod_lt (x * 2 ^ 28) hashModulus_pos
      have : 2 ^ 28 < hashModulus := by decide
      omega
    obtain ⟨hlt,hmod⟩ := hreduced hsum
    have hrest : f * 2 ^ 28 % 2 ^ d * 2 ^ (28 * n) % 2 ^ d = 0 := by
      rw [Nat.mod_mul_mod,Nat.mul_assoc,← Nat.pow_add,← hend,Nat.mul_succ,Nat.add_comm 28]
    obtain ⟨hlast,t,he,hvalue⟩ := ih (e - 28) hlt (Nat.mod_lt _ (Nat.two_pow_pos d)) hrest
    refine ⟨hlast,t + 1,by rw [he]; push_cast; ring,hvalue.trans ?_⟩
    have hhead : rotate61 x 28 + f * 2 ^ 28 / 2 ^ d ≡ x * 2 ^ 28 + f * 2 ^ 28 / 2 ^ d
        [MOD hashModulus] := by
      rw [hrotate]
      exact (Nat.mod_modEq _ _).add_right _
    have hstep : (rotate61 x 28 + f * 2 ^ 28 / 2 ^ d) * 2 ^ d + f * 2 ^ 28 % 2 ^ d ≡
        (x * 2 ^ d + f) * 2 ^ 28 [MOD hashModulus] := by
      refine ((hhead.mul_right _).add_right _).trans ?_
      have hdiv := Nat.div_add_mod (f * 2 ^ 28) (2 ^ d)
      have hexact : (x * 2 ^ 28 + f * 2 ^ 28 / 2 ^ d) * 2 ^ d + f * 2 ^ 28 % 2 ^ d =
          (x * 2 ^ d + f) * 2 ^ 28 := by
        calc _ = x * 2 ^ 28 * 2 ^ d + (2 ^ d * (f * 2 ^ 28 / 2 ^ d) + f * 2 ^ 28 % 2 ^ d) := by ring
          _ = _ := by rw [hdiv]; ring
      rw [hexact]
    calc _ ≡ ((rotate61 x 28 + f * 2 ^ 28 / 2 ^ d) * 2 ^ d + f * 2 ^ 28 % 2 ^ d) * 2 ^ (28 * t)
          [MOD hashModulus] := ((hmod.mul_right _).add_right _).mul_right _
      _ ≡ (x * 2 ^ d + f) * 2 ^ 28 * 2 ^ (28 * t) [MOD hashModulus] := hstep.mul_right _
      _ = (x * 2 ^ d + f) * 2 ^ (28 * (t + 1)) := by
          rw [Nat.mul_assoc,← Nat.pow_add,Nat.mul_succ,Nat.add_comm 28]

theorem two_pow_modEq {a b : Nat} (h : a % 61 = b % 61) : 2 ^ a ≡ 2 ^ b [MOD hashModulus] := by
  have hone : ∀ c, 2 ^ c ≡ 2 ^ (c % 61) [MOD hashModulus] := by
    intro c
    have hbase : 2 ^ 61 ≡ 1 [MOD hashModulus] := by decide
    calc 2 ^ c = (2 ^ 61) ^ (c / 61) * 2 ^ (c % 61) := by
          rw [← Nat.pow_mul,← Nat.pow_add,Nat.div_add_mod]
      _ ≡ 1 ^ (c / 61) * 2 ^ (c % 61) [MOD hashModulus] := (hbase.pow _).mul_right _
      _ = 2 ^ (c % 61) := by rw [Nat.one_pow,Nat.one_mul]
  exact (hone a).trans (h ▸ (hone b).symm)

theorem coprime_two_pow (n : Nat) : Nat.Coprime hashModulus (2 ^ n) :=
  Nat.Coprime.pow_right n (by decide)

theorem rotate_foldFraction (m : Nat) :
    let d := m.log2 + 1
    let folded := foldFraction d d 0 m (d - 1074)
    let r := rotate61 folded.1 (folded.2 % 61).toNat
    r < hashModulus ∧ r * 2 ^ 1074 ≡ m [MOD hashModulus] := by
  intro d folded r
  have hend : m * 2 ^ (28 * d) % 2 ^ d = 0 := by
    apply Nat.mod_eq_zero_of_dvd
    exact Dvd.dvd.mul_left (Nat.pow_dvd_pow 2 (by omega)) m
  obtain ⟨hlt,t,he,hvalue⟩ :=
    foldFraction_spec d d (d - 1074) hashModulus_pos Nat.lt_log2_self hend
  change folded.1 < hashModulus at hlt
  change folded.2 = _ at he
  change folded.1 * 2 ^ d ≡ _ [MOD hashModulus] at hvalue
  have hk : 0 ≤ folded.2 % 61 ∧ folded.2 % 61 < 61 := by omega
  have hr : r = folded.1 * 2 ^ (folded.2 % 61).toNat % hashModulus := rotate61_eq hlt (by omega)
  refine ⟨hr ▸ Nat.mod_lt _ hashModulus_pos,?_⟩
  have hexp : ((folded.2 % 61).toNat + (1074 + 28 * t)) % 61 = d % 61 := by omega
  apply Nat.ModEq.cancel_right_of_coprime (coprime_two_pow (28 * t))
  calc r * 2 ^ 1074 * 2 ^ (28 * t)
      ≡ folded.1 * 2 ^ (folded.2 % 61).toNat * 2 ^ 1074 * 2 ^ (28 * t) [MOD hashModulus] := by
        rw [hr]
        exact ((Nat.mod_modEq _ _).mul_right _).mul_right _
    _ = folded.1 * 2 ^ ((folded.2 % 61).toNat + (1074 + 28 * t)) := by
        rw [Nat.mul_assoc,Nat.mul_assoc,← Nat.pow_add,← Nat.pow_add]
    _ ≡ folded.1 * 2 ^ d [MOD hashModulus] := (two_pow_modEq hexp).mul_left _
    _ ≡ (0 * 2 ^ d + m) * 2 ^ (28 * t) [MOD hashModulus] := hvalue
    _ = m * 2 ^ (28 * t) := by rw [Nat.zero_mul,Nat.zero_add]

theorem msb_sign (v : Float64) {r : Nat} (hr : v.scaled = 0 → r = 0) :
    (if v.msb then -UInt64.ofNat r else UInt64.ofNat r) =
      if v.scaled < 0 then -UInt64.ofNat r else UInt64.ofNat r := by
  cases hmsb : v.msb with
  | false =>
    have hpos : ¬ v.scaled < 0 := by
      rw [Float64.scaled,hmsb,if_neg Bool.false_ne_true]
      omega
    rw [if_neg hpos]
    rfl
  | true =>
    by_cases hneg : v.scaled < 0
    · rw [if_pos hneg,if_pos rfl]
    · -- a zero with a sign
      have hzero : v.scaled = 0 := by
        rw [Float64.scaled,hmsb,if_pos rfl] at hneg ⊢
        omega
      rw [if_neg hneg,hr hzero]
      rfl

theorem mul_neg_iff_of_pos {a b : Int} (hb : 0 < b) : a * b < 0 ↔ a < 0 := by
  constructor
  · intro h
    by_contra hpos
    exact absurd h (Int.not_lt.mpr (Int.mul_nonneg (by omega) hb.le))
  · exact fun h => Int.mul_neg_of_neg_of_pos h hb

theorem pyHashFloat_finite {v : Float64} (hinf : v.isInf = false) (hnan : v.isNaN = false) :
    ∃ r : Nat, r < hashModulus ∧ r * 2 ^ 1074 ≡ v.scaled.natAbs [MOD hashModulus] ∧
      pyHashFloat v = notMinusOne (if v.scaled < 0 then -UInt64.ofNat r else UInt64.ofNat r) (-2) := by
  obtain ⟨hlt,hmod⟩ := rotate_foldFraction v.scaled.natAbs
  refine ⟨_,hlt,hmod,?_⟩
  rw [pyHashFloat,hinf,hnan]
  simp only [Bool.false_eq_true,if_false]
  rw [msb_sign]
  intro hzero
  rw [hzero]
  rfl

theorem pyHashFloat_of_integral {v : Float64} {i : Int} (hinf : v.isInf = false)
    (hnan : v.isNaN = false) (hi : v.scaled = i * Float64.one) : pyHashFloat v = pyHashInt i := by
  obtain ⟨r,hlt,hmod,hhash⟩ := pyHashFloat_finite hinf hnan
  have hm : v.scaled.natAbs = i.natAbs * 2 ^ 1074 := by
    rw [hi,Int.natAbs_mul,Float64.one,Float64.natAbs_two_pow]
  rw [hm] at hmod
  have hr : r = i.natAbs % hashModulus := by
    have h := Nat.ModEq.cancel_right_of_coprime (coprime_two_pow 1074) hmod
    rwa [Nat.ModEq,Nat.mod_eq_of_lt hlt] at h
  have hsign : v.scaled < 0 ↔ i < 0 := by
    rw [hi,mul_neg_iff_of_pos Float64.one_pos]
  rw [hhash,pyHashInt,hr]
  simp only [hsign]

end Unagi.Objects
