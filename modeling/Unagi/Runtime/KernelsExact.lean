import Unagi.Runtime.StaticTier

/-! # The checked kernels are exact

Each kernel raises its flag exactly when the true result leaves the word. For `PowInt64` this needs
that neither of its two checks fires early. -/

namespace Unagi.Runtime
open Int64

theorem not_inRange_mul {z m : Int} (h : ¬ InRange z) (hm : 1 ≤ m) : ¬ InRange (z * m) := by
  unfold InRange at h ⊢
  rcases Int.lt_or_le z (-2 ^ 63) with hlow | hlow
  · intro hr
    have hle : z * m ≤ z * 1 := Int.mul_le_mul_of_nonpos_left (by omega) hm
    omega
  · intro hr
    have hle : z * 1 ≤ z * m := Int.mul_le_mul_of_nonneg_left hm (by omega)
    omega

theorem lt_sq_of_not_inRange {z : Int} (h : ¬ InRange (z * z)) : 2 ^ 63 < z * z := by
  have hnonneg : 0 ≤ z * z := mul_self_nonneg z
  have hle : 2 ^ 63 ≤ z * z := by
    unfold InRange at h
    omega
  refine lt_of_le_of_ne hle fun heq => ?_
  -- 2 ^ 63 lies strictly between two neighbouring squares.
  rcases Nat.lt_or_ge z.natAbs 3037000500 with hz | hz
  · have hsq := Nat.mul_le_mul (Nat.le_of_lt_succ hz) (Nat.le_of_lt_succ hz)
    rw [← Int.natAbs_mul,← heq] at hsq
    omega
  · have hsq := Nat.mul_le_mul hz hz
    rw [← Int.natAbs_mul,← heq] at hsq
    omega

theorem not_inRange_of_lt_sq {z r : Int} {k : Nat} (h : 2 ^ 63 < z * z) (hr : r ≠ 0) (hk : k ≠ 0) :
    ¬ InRange (r * (z * z) ^ k) := by
  have hpow : z * z ≤ (z * z) ^ k := le_self_pow₀ (by omega) hk
  unfold InRange
  rcases Int.lt_or_gt_of_ne hr with hneg | hpos
  · intro hrange
    have hle : r * (z * z) ^ k ≤ -1 * (z * z) ^ k :=
      Int.mul_le_mul_of_nonneg_right (by omega) (by omega)
    omega
  · intro hrange
    have hle : 1 * (z * z) ^ k ≤ r * (z * z) ^ k :=
      Int.mul_le_mul_of_nonneg_right (by omega) (by omega)
    omega

theorem pow_halve (z : Int) (e : Nat) : z ^ e = z ^ (e % 2) * (z * z) ^ (e / 2) := by
  rw [← pow_two,← pow_mul,← pow_add]
  congr 1
  omega

theorem oddStep_checks (result base : Int64) (e : Nat) :
    Checks (if e % 2 = 1 then mulInt64 result base else (result, false))
      (result.toInt * base.toInt ^ (e % 2)) := by
  rcases Nat.mod_two_eq_zero_or_one e with he | he
  · rw [he,if_neg (by decide),pow_zero,Int.mul_one]
    exact .inl ⟨inRange_toInt result,rfl,rfl⟩
  · rw [he,if_pos rfl,pow_one]
    exact mulInt64_checks result base

theorem powLoop_none {fuel : Nat} {result base : Int64} {e : Nat}
    (hresult : base.toInt ≠ 0 → result.toInt ≠ 0) (h : powLoop fuel result base e = none) :
    ¬ InRange (result.toInt * base.toInt ^ e) := by
  induction fuel generalizing result base e with
  | zero => cases h
  | succ fuel ih =>
    rw [powLoop] at h
    split at h
    · cases h
    have hodd := oddStep_checks result base e
    generalize (if e % 2 = 1 then mulInt64 result base else (result, false)) = r at h hodd
    have hsplit : result.toInt * base.toInt ^ e =
        result.toInt * base.toInt ^ (e % 2) * (base.toInt * base.toInt) ^ (e / 2) := by
      rw [pow_halve,Int.mul_assoc]
    have hfactor : base.toInt ≠ 0 → result.toInt * base.toInt ^ (e % 2) ≠ 0 := fun hbase =>
      Int.mul_ne_zero (hresult hbase) (pow_ne_zero _ hbase)
    rw [hsplit]
    dsimp only at h
    rcases hodd with ⟨-,hflag,hvalue⟩ | ⟨hout,-⟩
    · rw [hflag,if_neg Bool.false_ne_true] at h
      split at h
      · cases h
      rename_i hhalf
      rcases mulInt64_checks base base with ⟨-,hflag',hsq⟩ | ⟨hout,-⟩
      · rw [hflag',if_neg Bool.false_ne_true] at h
        rw [← hvalue,← hsq]
        apply ih _ h
        intro hbase
        rw [hvalue]
        apply hfactor
        intro hzero
        rw [hsq,hzero] at hbase
        exact hbase rfl
      · have hlt := lt_sq_of_not_inRange hout
        apply not_inRange_of_lt_sq hlt (hfactor _) hhalf
        intro hzero
        rw [hzero] at hlt
        exact absurd hlt (by decide)
    · by_cases hbase : base.toInt = 0
      · -- A product with zero never leaves the word, so the flag was not raised.
        rw [hbase] at hout
        rcases Nat.mod_two_eq_zero_or_one e with he | he
        · rw [he,pow_zero,Int.mul_one] at hout
          exact absurd (inRange_toInt result) hout
        · rw [he,pow_one,Int.mul_zero] at hout
          exact absurd (by decide) hout
      · apply not_inRange_mul hout
        exact one_le_pow₀ (Int.add_one_le_of_lt (mul_self_pos.mpr hbase))

theorem powInt64_flag (a b : Int64) :
    (powInt64 a b).2 = false ↔ 0 ≤ b.toInt ∧ InRange (a.toInt ^ b.toInt.toNat) := by
  constructor
  · intro h
    obtain ⟨hb,hvalue⟩ := powInt64_exact (v := (powInt64 a b).1) (Prod.ext rfl h)
    exact ⟨hb,hvalue ▸ inRange_toInt _⟩
  · rintro ⟨hb,hrange⟩
    have hneg : ¬ b < 0 := by
      rw [lt_iff_toInt_lt,toInt_zero]
      omega
    rw [powInt64,if_neg hneg]
    split
    · rfl
    · rename_i hnone
      have hout := powLoop_none (fun _ => by decide) hnone
      rw [toInt_one,Int.one_mul] at hout
      exact absurd hrange hout

theorem fmod_sign {a b : Int} (hb : b ≠ 0) :
    (a.fmod b = 0 ∨ (a.fmod b).sign = b.sign) ∧ (a.fmod b).natAbs < b.natAbs := by
  have hlow := Int.emod_nonneg a hb
  have hhigh : a % b < b.natAbs := Int.emod_lt a hb
  rw [Int.fmod_eq_emod]
  rcases Int.lt_or_gt_of_ne hb with hneg | hpos
  · rw [Int.sign_eq_neg_one_of_neg hneg]
    split
    · rename_i hdvd
      rw [Int.emod_eq_zero_of_dvd (hdvd.resolve_left (by omega))]
      exact ⟨.inl rfl,by omega⟩
    · have hrem : a % b + b < 0 := by omega
      exact ⟨.inr (Int.sign_eq_neg_one_of_neg hrem),by
        have hne : a % b ≠ 0 := fun hzero => ‹¬ (0 ≤ b ∨ b ∣ a)› (.inr (Int.dvd_of_emod_eq_zero hzero))
        omega⟩
  · rw [if_pos (.inl hpos.le),Int.add_zero,Int.sign_eq_one_of_pos hpos]
    refine ⟨?_,by omega⟩
    rcases Int.lt_or_eq_of_le hlow with hrem | hrem
    · exact .inr (Int.sign_eq_one_of_pos hrem)
    · exact .inl hrem.symm

/-- The kernels over all pairs of words. `Checks` says that the flag is down exactly when the true
value is in the word, and that it is then the result. -/
theorem checked_kernels_exact (a b : Int64) :
    Checks (addInt64 a b) (a.toInt + b.toInt) ∧
    Checks (subInt64 a b) (a.toInt - b.toInt) ∧
    Checks (mulInt64 a b) (a.toInt * b.toInt) ∧
    (b ≠ 0 → ∃ q r, floorDivInt64 a b = some q ∧ floorModInt64 a b = some r ∧
      Checks q (a.toInt.fdiv b.toInt) ∧ r.toInt = a.toInt.fmod b.toInt ∧
      (q.2 = false → a.toInt = b.toInt * q.1.toInt + r.toInt) ∧
      (r.toInt = 0 ∨ r.toInt.sign = b.toInt.sign) ∧ r.toInt.natAbs < b.toInt.natAbs) ∧
    (0 ≤ b.toInt → Checks (lShiftInt64 a b) (a.toInt * 2 ^ b.toInt.toNat) ∧
      (rShiftInt64 a b).toInt = a.toInt / 2 ^ b.toInt.toNat) ∧
    ((powInt64 a b).2 = false ↔ 0 ≤ b.toInt ∧ InRange (a.toInt ^ b.toInt.toNat)) ∧
    ((powInt64 a b).2 = false → (powInt64 a b).1.toInt = a.toInt ^ b.toInt.toNat) := by
  refine ⟨addInt64_checks a b,subInt64_checks a b,mulInt64_checks a b,?_,?_,powInt64_flag a b,?_⟩
  · intro hb
    have hb0 : b.toInt ≠ 0 := fun h => hb (toInt_eq_zero_iff.mp h)
    obtain ⟨q,hq,hquot⟩ := @floorDivInt64_checks a b hb
    obtain ⟨r,hr,hrem⟩ := @floorModInt64_exact a b hb
    obtain ⟨hsign,hlt⟩ := @fmod_sign a.toInt b.toInt hb0
    refine ⟨q,r,hq,hr,hquot,hrem,?_,hrem ▸ hsign,hrem ▸ hlt⟩
    intro hflag
    rcases hquot with ⟨-, -,hvalue⟩ | ⟨-,hraised⟩
    · rw [hvalue,hrem,Int.add_comm,Int.fmod_add_mul_fdiv]
    · rw [hraised] at hflag
      exact nomatch hflag
  · exact fun hb => ⟨lShiftInt64_checks hb,rShiftInt64_exact hb⟩
  · exact fun hflag => (powInt64_exact (v := (powInt64 a b).1) (Prod.ext rfl hflag)).2

/-- Division at the ends of the word. -/
theorem kernels_at_minValue : ∃ q r, floorDivInt64 minValue 3 = some q ∧
    floorModInt64 minValue 3 = some r ∧ minValue.toInt = (3 : Int64).toInt * q.1.toInt + r.toInt := by
  obtain ⟨q,r,hq,hr,hquot, -,hsum, -⟩ := (checked_kernels_exact minValue 3).2.2.2.1 (by decide)
  refine ⟨q,r,hq,hr,hsum ?_⟩
  obtain rfl : (q : Int64 × Bool) = (-3074457345618258603, false) := by
    rw [← Option.some_inj,← hq]
    decide +kernel
  rfl

end Unagi.Runtime
