import Mathlib.Data.Int.Bitwise
import Mathlib.Tactic.Linarith
import Mathlib.Tactic.Ring

/-! # Signed 64-bit words as integers

Facts that carry arithmetic on `Int64` to unbounded integers: when a wrapped
result is exact, and what shifts and bitwise operators compute. -/

namespace Int

theorem eq_of_testBit_eq {m n : Int} (h : ∀ k, m.testBit k = n.testBit k) : m = n := by
  have hmixed : ∀ a b : Nat, (∀ k, a.testBit k = !b.testBit k) → False := by
    intro a b hab
    have hk := hab (max a b)
    rw [Nat.testBit_lt_two_pow ((Nat.le_max_left a b).trans_lt Nat.lt_two_pow_self),
      Nat.testBit_lt_two_pow ((Nat.le_max_right a b).trans_lt Nat.lt_two_pow_self)] at hk
    cases hk
  cases m with
  | ofNat a =>
    cases n with
    | ofNat b => exact congrArg ofNat (Nat.eq_of_testBit_eq h)
    | negSucc b => exact (hmixed a b h).elim
  | negSucc a =>
    cases n with
    | ofNat b => exact (hmixed b a fun k => (h k).symm).elim
    | negSucc b =>
      refine congrArg negSucc (Nat.eq_of_testBit_eq fun k => ?_)
      simpa [testBit] using h k

/-- Floor division from truncated division: step down when the signs differ and the
remainder is not zero. -/
theorem fdiv_eq_tdiv_adjust {a b : Int} (hb : b ≠ 0) :
    a.fdiv b = if a.tmod b ≠ 0 ∧ (a < 0 ↔ ¬ b < 0) then a.tdiv b - 1 else a.tdiv b := by
  have hs : 0 < b → b.sign = 1 := Int.sign_eq_one_of_pos
  have hs' : b < 0 → b.sign = -1 := Int.sign_eq_neg_one_of_neg
  rw [fdiv_eq_tdiv]
  simp only [ne_eq,← dvd_iff_tmod_eq_zero]
  by_cases hd : b ∣ a
  · simp [hd]
  · have ha : a ≠ 0 := fun h => hd (h ▸ dvd_zero b)
    simp only [hd,if_false,not_false_eq_true,true_and]
    split <;> split <;> split <;> omega

theorem fmod_eq_tmod_adjust {a b : Int} (hb : b ≠ 0) :
    a.fmod b = if a.tmod b ≠ 0 ∧ (a.tmod b < 0 ↔ ¬ b < 0) then a.tmod b + b else a.tmod b := by
  have hsgn : a.tmod b ≠ 0 → (a.tmod b < 0 ↔ a < 0) := by
    intro h0
    rcases le_or_gt 0 a with ha | ha
    · have := tmod_nonneg b ha; omega
    · have := tmod_nonneg b (a := -a) (by omega); rw [neg_tmod] at this; omega
  have h1 := fmod_add_mul_fdiv a b
  have h2 := tmod_add_mul_tdiv a b
  rw [fdiv_eq_tdiv_adjust hb] at h1
  by_cases h0 : a.tmod b ≠ 0 ∧ (a < 0 ↔ ¬ b < 0)
  · rw [if_pos h0,mul_sub,mul_one] at h1
    rw [if_pos ⟨h0.1,(hsgn h0.1).trans h0.2⟩]
    omega
  · rw [if_neg h0] at h1
    rw [if_neg fun h => h0 ⟨h.1,(hsgn h.1).symm.trans h.2⟩]
    omega

end Int

namespace BitVec

theorem testBit_toInt {w : Nat} (x : BitVec w) (k : Nat) :
    x.toInt.testBit k = if k < w then x.getLsbD k else x.msb := by
  cases hm : x.msb with
  | false =>
    rw [toInt_eq_toNat_of_msb hm]
    change x.toNat.testBit k = _
    rw [testBit_toNat]
    split
    · rfl
    · exact getLsbD_of_ge x k (by omega)
  | true =>
    have hn : x.toInt = Int.negSucc (~~~x).toNat := by
      have hlt := x.isLt
      rw [toInt_eq_msb_cond,hm,if_pos rfl,toNat_not]
      omega
    rw [hn,Int.testBit,testBit_toNat,getLsbD_not]
    split <;> simp [*]

theorem toInt_and_eq_land {w : Nat} (x y : BitVec w) :
    (x &&& y).toInt = Int.land x.toInt y.toInt := by
  refine Int.eq_of_testBit_eq fun k => ?_
  rw [Int.testBit_land,testBit_toInt,testBit_toInt,testBit_toInt]
  split <;> simp
theorem toInt_or_eq_lor {w : Nat} (x y : BitVec w) :
    (x ||| y).toInt = Int.lor x.toInt y.toInt := by
  refine Int.eq_of_testBit_eq fun k => ?_
  rw [Int.testBit_lor,testBit_toInt,testBit_toInt,testBit_toInt]
  split <;> simp
theorem toInt_xor_eq_xor {w : Nat} (x y : BitVec w) :
    (x ^^^ y).toInt = Int.xor x.toInt y.toInt := by
  refine Int.eq_of_testBit_eq fun k => ?_
  rw [Int.testBit_lxor,testBit_toInt,testBit_toInt,testBit_toInt]
  split <;> simp

end BitVec

namespace Int64

def InRange (z : Int) : Prop := -2 ^ 63 ≤ z ∧ z < 2 ^ 63
instance (z : Int) : Decidable (InRange z) := inferInstanceAs (Decidable (_ ∧ _))
theorem inRange_toInt (a : Int64) : InRange a.toInt := ⟨a.le_toInt,a.toInt_lt⟩
theorem bmod_eq_of_inRange {z : Int} (h : InRange z) : z.bmod (2 ^ 64) = z := by
  obtain ⟨h1,h2⟩ := h
  exact Int.bmod_eq_of_le (by omega) (by omega)

theorem bmod_cases {z : Int} (h1 : -2 ^ 64 ≤ z) (h2 : z < 2 ^ 64) :
    InRange z ∧ z.bmod (2 ^ 64) = z ∨ 2 ^ 63 ≤ z ∧ z.bmod (2 ^ 64) = z - 2 ^ 64 ∨
      z < -2 ^ 63 ∧ z.bmod (2 ^ 64) = z + 2 ^ 64 := by
  by_cases hr : InRange z
  · exact .inl ⟨hr,bmod_eq_of_inRange hr⟩
  · simp only [InRange,not_and_or,not_le,not_lt] at hr
    rcases hr with hr | hr
    · refine .inr (.inr ⟨hr,?_⟩)
      rw [Int.bmod_def]
      split <;> omega
    · refine .inr (.inl ⟨hr,?_⟩)
      rw [Int.bmod_def]
      split <;> omega

def wrap (z : Int) : Int := z.bmod (2 ^ 64)
theorem wrap_of_inRange {z : Int} (h : InRange z) : wrap z = z := bmod_eq_of_inRange h

theorem wrap_inRange (z : Int) : InRange (wrap z) := by
  have hlow := Int.le_bmod (x := z) (m := 2 ^ 64) (by norm_num)
  have hhigh := Int.bmod_lt (x := z) (m := 2 ^ 64) (by norm_num)
  unfold wrap InRange
  omega

@[simp] theorem wrap_add_wrap (a b : Int) : wrap (a + wrap b) = wrap (a + b) :=
  Int.add_bmod_bmod
theorem toInt_eq_zero_iff {a : Int64} : a.toInt = 0 ↔ a = 0 := by
  rw [← toInt_inj,toInt_zero]
theorem toInt_neg_one : (-1 : Int64).toInt = -1 := by decide
theorem toInt_and (a b : Int64) : (a &&& b).toInt = Int.land a.toInt b.toInt :=
  BitVec.toInt_and_eq_land a.toBitVec b.toBitVec
theorem toInt_or (a b : Int64) : (a ||| b).toInt = Int.lor a.toInt b.toInt :=
  BitVec.toInt_or_eq_lor a.toBitVec b.toBitVec
theorem toInt_xor (a b : Int64) : (a ^^^ b).toInt = Int.xor a.toInt b.toInt :=
  BitVec.toInt_xor_eq_xor a.toBitVec b.toBitVec

end Int64
