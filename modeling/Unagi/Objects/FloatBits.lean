import Mathlib
import Unagi.Objects.Rounding

/-! # `float64` values and their bits

The doubles of the emitted code are those of the Lean runtime's model. Here they are read as bit
patterns: a comparison is one of exact values, and a conversion from an integer gives the bits of the
nearest double. -/

namespace Unagi.Objects

open Float.Model

namespace Float64

def ofFloat (f : Float) : Float64 := f.toBits.toBitVec
def signOf (v : Float64) : UnpackedFloat.Sign := if v.toNat < 2 ^ 63 then .positive else .negative

theorem toNat_unpackExponent (v : Float64) :
    (@UnpackedFloat.unpackExponent Format.binary64 v).toNat = exponent v := by
  unfold UnpackedFloat.unpackExponent exponent
  rw [BitVec.toNat_cast,BitVec.extractLsb_toNat,Nat.shiftRight_eq_div_pow]
  rfl
theorem toNat_unpackMantissa (v : Float64) :
    (@UnpackedFloat.unpackMantissa Format.binary64 v).toNat = fraction v := by
  unfold UnpackedFloat.unpackMantissa fraction
  rw [BitVec.toNat_cast,BitVec.extractLsb_toNat,Nat.shiftRight_zero]
  rfl

theorem ofBitVec_unpackSign (v : Float64) :
    UnpackedFloat.Sign.ofBitVec (@UnpackedFloat.unpackSign Format.binary64 v) = signOf v := by
  have hv := v.isLt
  have hbit : (@UnpackedFloat.unpackSign Format.binary64 v).toNat = v.toNat / 2 ^ 63 := by
    unfold UnpackedFloat.unpackSign
    rw [BitVec.toNat_cast,BitVec.extractLsb_toNat,Nat.shiftRight_eq_div_pow]
    change v.toNat / 2 ^ 63 % 2 ^ 1 = v.toNat / 2 ^ 63
    omega
  unfold UnpackedFloat.Sign.ofBitVec signOf
  by_cases hsmall : v.toNat < 2 ^ 63
  · rw [if_pos hsmall,if_pos]
    apply BitVec.eq_of_toNat_eq
    rw [hbit,Nat.div_eq_of_lt hsmall]
    rfl
  · rw [if_neg hsmall,if_neg]
    intro h
    rw [h] at hbit
    change 0 = _ at hbit
    omega

def Parts (v : Float64) (m : Nat) (e : Int) : Prop :=
  (exponent v = 0 ∧ m = fraction v ∧ e = -1074) ∨
  (exponent v ≠ 0 ∧ m = 2 ^ 52 + fraction v ∧ e = exponent v - 1075)
theorem mod_eq_parts (v : Float64) :
    v.toNat % 2 ^ 63 = exponent v * 2 ^ 52 + fraction v ∧ fraction v < 2 ^ 52 := by
  unfold exponent fraction
  omega

theorem unpack_of_isFinite {v : Float64} (hv : v.isFinite = true) :
    (v.toNat % 2 ^ 63 = 0 ∧ UnpackedFloat.unpack Format.binary64 v = .zero (signOf v)) ∨
    (0 < v.toNat % 2 ^ 63 ∧ ∃ m e hm,
      UnpackedFloat.unpack Format.binary64 v = .finite (signOf v) m e hm ∧ Parts v m e) := by
  have hbits := mod_eq_parts v
  have he := toNat_unpackExponent v
  have hm := toNat_unpackMantissa v
  have hnotInf : @UnpackedFloat.unpackExponent Format.binary64 v ≠ -1#11 := by
    intro h
    rw [h] at he
    have hfinite : exponent v ≠ 2047 := by simpa [isFinite] using hv
    exact hfinite he.symm
  generalize hu : UnpackedFloat.unpack Format.binary64 v = u
  unfold UnpackedFloat.unpack at hu
  dsimp only at hu
  rw [ofBitVec_unpackSign,if_neg hnotInf] at hu
  split at hu
  · rename_i hzero
    have hexp : exponent v = 0 := by
      rw [← he,hzero]
      rfl
    split at hu
    · rename_i hfrac
      have hnone : fraction v = 0 := by
        rw [← hm,hfrac]
        rfl
      exact Or.inl ⟨by omega,hu.symm⟩
    · rename_i hfrac
      have hsome : fraction v ≠ 0 := by
        intro h
        apply hfrac
        apply BitVec.eq_of_toNat_eq
        rw [hm,h]
        rfl
      refine Or.inr ⟨by omega,_,_,_,hu.symm,Or.inl ⟨hexp,hm,?_⟩⟩
      rw [he,hexp]
      decide
  · rename_i hnonzero
    have hexp : exponent v ≠ 0 := by
      intro h
      apply hnonzero
      apply BitVec.eq_of_toNat_eq
      rw [he,h]
      rfl
    refine Or.inr ⟨by omega,_,_,_,hu.symm,Or.inr ⟨hexp,?_,?_⟩⟩
    · rw [BitVec.toNat_append,hm,← Nat.shiftLeft_add_eq_or_of_lt hbits.2]
      rfl
    · rw [he]
      rfl

/-! ## Comparisons -/

section
variable {v w : Float64}

theorem Parts.compare {m m' : Nat} {e e' : Int} (h : Parts v m e) (h' : Parts w m' e') :
    (compare e e').then (compare m m') = compare (v.toNat % 2 ^ 63) (w.toNat % 2 ^ 63) := by
  have hv := mod_eq_parts v
  have hw := mod_eq_parts w
  unfold Parts at h h'
  rcases Nat.lt_trichotomy (v.toNat % 2 ^ 63) (w.toNat % 2 ^ 63) with hlt | heq | hgt
  · rw [compare_lt_iff_lt.mpr hlt]
    have : e < e' ∨ e = e' ∧ m < m' := by omega
    rcases this with he | ⟨he,hm⟩
    · rw [compare_lt_iff_lt.mpr he]
      rfl
    · rw [compare_eq_iff_eq.mpr he,compare_lt_iff_lt.mpr hm]
      rfl
  · rw [compare_eq_iff_eq.mpr heq]
    have : e = e' ∧ m = m' := by omega
    rw [compare_eq_iff_eq.mpr this.1,compare_eq_iff_eq.mpr this.2]
    rfl
  · rw [compare_gt_iff_gt.mpr hgt]
    have : e' < e ∨ e = e' ∧ m' < m := by omega
    rcases this with he | ⟨he,hm⟩
    · rw [compare_gt_iff_gt.mpr he]
      rfl
    · rw [compare_eq_iff_eq.mpr he,compare_gt_iff_gt.mpr hm]
      rfl

theorem scaled_signOf (v : Float64) :
    (signOf v = .positive ∧ scaled v = magnitude (v.toNat % 2 ^ 63)) ∨
    (signOf v = .negative ∧ scaled v = -magnitude (v.toNat % 2 ^ 63)) := by
  unfold signOf
  rcases scaled_cases v with ⟨hbits,h⟩ | ⟨hbits,h⟩
  · exact Or.inl ⟨if_pos (by omega),h⟩
  · exact Or.inr ⟨if_neg (by omega),h⟩

theorem magnitude_zero : magnitude 0 = 0 := rfl
theorem magnitude_pos {m : Nat} (h : 0 < m) : 0 < magnitude m := magnitude_strictMono h

theorem compare_magnitude (m m' : Nat) :
    compare (magnitude m : Int) (magnitude m') = compare m m' ∧
    compare (-magnitude m : Int) (-magnitude m') = (compare m m').swap := by
  rcases Nat.lt_trichotomy m m' with h | rfl | h
  · have hlt := magnitude_strictMono h
    rw [compare_lt_iff_lt.mpr h]
    exact ⟨compare_lt_iff_lt.mpr (by omega),compare_gt_iff_gt.mpr (by omega)⟩
  · rw [compare_eq_iff_eq.mpr rfl,compare_eq_iff_eq.mpr rfl,compare_eq_iff_eq.mpr rfl]
    exact ⟨rfl,rfl⟩
  · have hlt := magnitude_strictMono h
    rw [compare_gt_iff_gt.mpr h]
    exact ⟨compare_gt_iff_gt.mpr (by omega),compare_lt_iff_lt.mpr (by omega)⟩

theorem compare_of_isFinite (hv : v.isFinite = true) (hw : w.isFinite = true) :
    (UnpackedFloat.unpack Format.binary64 v).compare (UnpackedFloat.unpack Format.binary64 w) =
      some (compare (scaled v) (scaled w)) := by
  rcases unpack_of_isFinite hv with ⟨hzv,huv⟩ | ⟨hpv,m,e,hm,huv,hpartsv⟩ <;>
    rcases unpack_of_isFinite hw with ⟨hzw,huw⟩ | ⟨hpw,m',e',hm',huw,hpartsw⟩ <;>
    rw [huv,huw] <;>
    rcases scaled_signOf v with ⟨hsv,hv'⟩ | ⟨hsv,hv'⟩ <;>
    rcases scaled_signOf w with ⟨hsw,hw'⟩ | ⟨hsw,hw'⟩ <;>
    rw [hsv,hsw,hv',hw'] <;> apply congrArg some
  -- two zeros
  iterate 4
    · rw [hzv,hzw]
      rfl
  -- a zero and another double
  iterate 2
    · rw [hzv]
      have hpos := magnitude_pos hpw
      exact (compare_lt_iff_lt.mpr (by rw [magnitude_zero]; omega)).symm
    · rw [hzv]
      have hpos := magnitude_pos hpw
      exact (compare_gt_iff_gt.mpr (by rw [magnitude_zero]; omega)).symm
  iterate 2
    · rw [hzw]
      have hpos := magnitude_pos hpv
      exact (compare_gt_iff_gt.mpr (by rw [magnitude_zero]; omega)).symm
  iterate 2
    · rw [hzw]
      have hpos := magnitude_pos hpv
      exact (compare_lt_iff_lt.mpr (by rw [magnitude_zero]; omega)).symm
  -- two doubles that are not zero, by their signs
  · rw [(compare_magnitude _ _).1]
    exact hpartsv.compare hpartsw
  · have hpos := magnitude_pos hpv
    exact (compare_gt_iff_gt.mpr (by omega)).symm
  · have hpos := magnitude_pos hpv
    exact (compare_lt_iff_lt.mpr (by omega)).symm
  · rw [(compare_magnitude _ _).2,← hpartsv.compare hpartsw]

end

/-! ## Conversions -/

/-- One when the part of a number below its significand rounds it up. -/
def carry (m j : Nat) : Nat :=
  if j ≠ 0 ∧ (2 ^ (j - 1) < m % 2 ^ j ∨ m % 2 ^ j = 2 ^ (j - 1) ∧ m / 2 ^ j % 2 = 1) then 1 else 0

theorem shift_exact (m j : Nat) :
    (UnpackedFloat.ExtendedMantissa.mk m false false) >>> (j + 1) =
      ⟨m / 2 ^ (j + 1), m / 2 ^ j % 2 != 0, decide (m % 2 ^ j ≠ 0)⟩ := by
  induction j with
  | zero =>
    change UnpackedFloat.ExtendedMantissa.shiftRightOne ⟨m,false,false⟩ = _
    rw [UnpackedFloat.ExtendedMantissa.shiftRightOne,Nat.pow_zero,Nat.mod_one,Nat.div_one]
    rfl
  | succ j ih =>
    change UnpackedFloat.ExtendedMantissa.shiftRightOne
      (UnpackedFloat.ExtendedMantissa.mk m false false >>> (j + 1)) = _
    rw [ih,UnpackedFloat.ExtendedMantissa.shiftRightOne]
    have hlow : m % 2 ^ (j + 1) = m % 2 ^ j + 2 ^ j * (m / 2 ^ j % 2) := Nat.mod_pow_succ
    have hsticky : ((m / 2 ^ j % 2 != 0) || decide (m % 2 ^ j ≠ 0)) =
        decide (m % 2 ^ (j + 1) ≠ 0) := by
      rw [hlow]
      have hpos : 0 < 2 ^ j := Nat.two_pow_pos j
      rcases Nat.mod_two_eq_zero_or_one (m / 2 ^ j) with hbit | hbit <;> rw [hbit]
      · simp
      · simp
    dsimp only
    rw [hsticky,Nat.div_div_eq_div_mul,← Nat.pow_succ]

theorem roundedMantissa_shift (m j : Nat) :
    ((UnpackedFloat.ExtendedMantissa.mk m false false) >>> j).roundedMantissa =
      m / 2 ^ j + carry m j := by
  cases j with
  | zero =>
    rw [carry,if_neg (by simp),Nat.pow_zero,Nat.div_one]
    rfl
  | succ j =>
    rw [shift_exact,carry,Nat.add_sub_cancel]
    have hlow : m % 2 ^ (j + 1) = m % 2 ^ j + 2 ^ j * (m / 2 ^ j % 2) := Nat.mod_pow_succ
    have hlt : m % 2 ^ j < 2 ^ j := Nat.mod_lt _ (Nat.two_pow_pos j)
    have hparity := Nat.mod_two_eq_zero_or_one (m / 2 ^ (j + 1))
    unfold UnpackedFloat.ExtendedMantissa.roundedMantissa
    rw [hlow]
    rcases Nat.mod_two_eq_zero_or_one (m / 2 ^ j) with hbit | hbit <;> rw [hbit]
    · -- the last bit that went is clear: below the middle
      rw [Nat.mul_zero,Nat.add_zero,if_neg (by omega)]
      by_cases hsticky : m % 2 ^ j = 0 <;>
        simp [hsticky,UnpackedFloat.ExtendedMantissa.accuracy,
          UnpackedFloat.Accuracy.roundToNearestEven]
    · rw [Nat.mul_one]
      by_cases hsticky : m % 2 ^ j = 0
      · simp only [hsticky,UnpackedFloat.ExtendedMantissa.accuracy,
          UnpackedFloat.Accuracy.roundToNearestEven]
        rcases hparity with h | h <;> simp [h]
      · rw [if_pos (by omega)]
        simp [hsticky,UnpackedFloat.ExtendedMantissa.accuracy,
          UnpackedFloat.Accuracy.roundToNearestEven]

def signBit : UnpackedFloat.Sign → Nat
  | .negative => 1
  | .positive => 0

variable {e : Int} {f : Float}

theorem toNat_pack (s : UnpackedFloat.Sign) {m : Nat} (hm : 0 < m) (hlow : 2 ^ 52 ≤ m)
    (hhigh : m < 2 ^ 53) (he : -1074 ≤ e) (he' : e ≤ 971) :
    (UnpackedFloat.pack Format.binary64 (.finite s m e hm)).toNat =
      signBit s * 2 ^ 63 + (e + 1075).toNat * 2 ^ 52 + (m - 2 ^ 52) := by
  have hlog : m.log2 = 52 := (Nat.log2_eq_iff (Nat.ne_of_gt hm)).mpr ⟨hlow,hhigh⟩
  have hbiased : (e + (Format.binary64.exponentBias : Nat) +
      (Format.binary64.mantissaBitsWithoutImplicit : Nat)).toNat = (e + 1075).toNat := by
    rw [Int.add_assoc]
    rfl
  unfold UnpackedFloat.pack
  dsimp only
  rw [hbiased,hlog]
  have hfits : ¬ 2 ^ Format.binary64.exponentBits ≤ (e + 1075).toNat + 1 := by
    change ¬ 2 ^ 11 ≤ _
    omega
  rw [if_neg hfits,if_pos (show 52 + 1 = Format.binary64.mantissaBits from rfl),
    UnpackedFloat.packComponents]
  have hexp : (BitVec.ofNat 11 (e + 1075).toNat).toNat = (e + 1075).toNat := by
    rw [BitVec.toNat_ofNat,Nat.mod_eq_of_lt (by omega)]
  have hfrac : (BitVec.ofNat 52 m).toNat = m - 2 ^ 52 := by
    rw [BitVec.toNat_ofNat]
    omega
  have hsign : (s.toBitVec).toNat = signBit s := by cases s <;> rfl
  have hhead : (s.toBitVec ++ BitVec.ofNat 11 (e + 1075).toNat).toNat =
      signBit s * 2 ^ 11 + (e + 1075).toNat := by
    rw [BitVec.toNat_append,hexp,hsign,← Nat.shiftLeft_add_eq_or_of_lt (by omega),
      Nat.shiftLeft_eq]
  calc (s.toBitVec ++ BitVec.ofNat 11 (e + 1075).toNat ++ BitVec.ofNat 52 m).toNat
      = (signBit s * 2 ^ 11 + (e + 1075).toNat) * 2 ^ 52 + (m - 2 ^ 52) := by
        rw [BitVec.toNat_append,hhead,hfrac,← Nat.shiftLeft_add_eq_or_of_lt (by omega),
          Nat.shiftLeft_eq]
    _ = signBit s * 2 ^ 63 + (e + 1075).toNat * 2 ^ 52 + (m - 2 ^ 52) := by
        rw [Nat.add_mul,Nat.mul_assoc,← Nat.pow_add]

theorem shiftToTargetExponent_exact {m j : Nat} (hlog : m.log2 = 52 + j) (he : -1074 ≤ e + j) :
    UnpackedFloat.shiftToTargetExponent Format.binary64 m e .exact =
      ((UnpackedFloat.ExtendedMantissa.mk m false false) >>> j, e + j) := by
  have htarget : Format.binary64.targetExponent (totalExponent m e) = e + j := by
    unfold Format.targetExponent totalExponent
    rw [hlog]
    change max ((52 + j : Nat) + 1 + e - 53) (-1074) = e + j
    omega
  have hshift : (e + j - e).toNat = j := by omega
  unfold UnpackedFloat.shiftToTargetExponent UnpackedFloat.shiftToExponent
  dsimp only
  rw [htarget,hshift]
  rfl

theorem toNat_pack_round (s : UnpackedFloat.Sign) {m j : Nat} (hlog : m.log2 = 52 + j)
    (he : -1074 ≤ e + j) (he' : e + j ≤ 970) :
    (UnpackedFloat.pack Format.binary64
      (UnpackedFloat.roundWithAccuracy Format.binary64 s m e .exact)).toNat =
      signBit s * 2 ^ 63 + (e + j + 1075).toNat * 2 ^ 52 + (m / 2 ^ j + carry m j - 2 ^ 52) := by
  have hm : m ≠ 0 := by
    intro h
    rw [h] at hlog
    change 0 = 52 + j at hlog
    omega
  have hbounds := (Nat.log2_eq_iff hm).mp hlog
  have hlow : 2 ^ 52 ≤ m / 2 ^ j := by
    rw [Nat.le_div_iff_mul_le (Nat.two_pow_pos j),← Nat.pow_add]
    exact hbounds.1
  have hhigh : m / 2 ^ j < 2 ^ 53 := by
    rw [Nat.div_lt_iff_lt_mul (Nat.two_pow_pos j),← Nat.pow_add]
    have : 53 + j = 52 + j + 1 := by omega
    rw [this]
    exact hbounds.2
  have hcarry : carry m j ≤ 1 := by
    unfold carry
    split <;> decide
  have hr : 2 ^ 52 ≤ m / 2 ^ j + carry m j ∧ m / 2 ^ j + carry m j ≤ 2 ^ 53 := by omega
  unfold UnpackedFloat.roundWithAccuracy
  rw [shiftToTargetExponent_exact hlog he]
  dsimp only
  rw [roundedMantissa_shift]
  generalize m / 2 ^ j + carry m j = r at hr ⊢
  generalize e + j = e at he he' ⊢
  rcases Nat.lt_or_eq_of_le hr.2 with hlt | rfl
  · have hr0 : r ≠ 0 := by omega
    have hlogr : r.log2 = 52 + 0 := (Nat.log2_eq_iff hr0).mpr ⟨hr.1,hlt⟩
    have hsame : (UnpackedFloat.ExtendedMantissa.mk r false false >>> 0).mantissa = r := rfl
    rw [shiftToTargetExponent_exact hlogr (by omega)]
    dsimp only
    rw [dif_neg (by rw [hsame]; exact hr0)]
    have hpack := toNat_pack s (Nat.pos_of_ne_zero hr0) hr.1 hlt he (by omega)
    rw [← hpack]
    congr 2
    congr 1
    exact Int.add_zero e
  · have hlogr : (2 ^ 53).log2 = 52 + 1 := by decide
    rw [shiftToTargetExponent_exact hlogr (by omega)]
    dsimp only
    rw [dif_neg (by decide)]
    have hpack := toNat_pack s (m := 2 ^ 52) (e := e + 1) (by decide) (by decide) (by decide)
      (by omega) (by omega)
    rw [show signBit s * 2 ^ 63 + (e + 1075).toNat * 2 ^ 52 + (2 ^ 53 - 2 ^ 52) =
      signBit s * 2 ^ 63 + (e + 1 + 1075).toNat * 2 ^ 52 + (2 ^ 52 - 2 ^ 52) by omega,← hpack]
    rfl

/-! ## Integers -/

theorem scaled_significand {n c j : Nat} (hj : n.log2 + c = 52 + j) :
    n * 2 ^ c / 2 ^ j = (n >>> (n.log2 - 52)) <<< (52 - n.log2) := by
  rw [Nat.shiftRight_eq_div_pow,Nat.shiftLeft_eq]
  rcases Nat.le_total 52 n.log2 with hk | hk
  · have hsplit : j = n.log2 - 52 + c := by omega
    rw [hsplit,Nat.pow_add,Nat.mul_div_mul_right _ _ (Nat.two_pow_pos c),
      Nat.sub_eq_zero_of_le hk,Nat.pow_zero,Nat.mul_one]
  · have hsplit : c = 52 - n.log2 + j := by omega
    rw [hsplit,Nat.pow_add,← Nat.mul_assoc,Nat.mul_div_cancel _ (Nat.two_pow_pos j),
      Nat.sub_eq_zero_of_le hk,Nat.pow_zero,Nat.div_one]

theorem scaled_carry {n c j : Nat} (hj : n.log2 + c = 52 + j) :
    carry (n * 2 ^ c) j = if roundsUp n then 1 else 0 := by
  have hunit : 0 < 2 ^ c := Nat.two_pow_pos c
  apply if_congr _ rfl rfl
  unfold roundsUp
  rcases Nat.lt_or_ge 52 n.log2 with hk | hk
  · obtain ⟨s,hs⟩ : ∃ s, n.log2 = s + 1 + 52 := ⟨n.log2 - 53,by omega⟩
    have hsplit : j = s + 1 + c := by omega
    have hpred : s + 1 + c - 1 = s + c := by omega
    rw [hsplit,hpred,hs,Nat.add_sub_cancel,Nat.add_sub_cancel,Nat.pow_add,Nat.pow_add,
      Nat.mul_div_mul_right _ _ hunit,Nat.mul_mod_mul_right,Nat.mul_lt_mul_right hunit,
      Nat.mul_left_inj (Nat.ne_of_gt hunit),Nat.shiftRight_eq_div_pow]
    exact and_congr_left fun _ => iff_of_true (by omega) (by omega)
  · have hmod : n * 2 ^ c % 2 ^ j = 0 := by
      have hsplit : c = 52 - n.log2 + j := by omega
      rw [hsplit,Nat.pow_add,← Nat.mul_assoc,Nat.mul_mod_left]
    have hhalf : 0 < 2 ^ (j - 1) := Nat.two_pow_pos _
    have hnone : n.log2 - 52 = 0 := Nat.sub_eq_zero_of_le hk
    rw [hmod]
    exact iff_of_false (by omega) fun h => h.1 hnone

theorem toNat_pack_round_scaled {n c : Nat} (hn : 0 < n) (hsmall : n.log2 < 1000)
    (hc : 52 ≤ n.log2 + c) (he : e = -c) :
    (UnpackedFloat.pack Format.binary64 (UnpackedFloat.roundWithAccuracy Format.binary64 .positive
      (n * 2 ^ c) e .exact)).toNat = natBits n := by
  obtain ⟨j,hj⟩ := Nat.exists_eq_add_of_le hc
  have hlog : (n * 2 ^ c).log2 = 52 + j := by
    rw [← hj,Nat.log2_eq_iff (Nat.ne_of_gt (Nat.mul_pos hn (Nat.two_pow_pos c)))]
    constructor
    · rw [Nat.pow_add]
      exact Nat.mul_le_mul_right _ (Nat.log2_self_le (Nat.ne_of_gt hn))
    · rw [Nat.add_right_comm,Nat.pow_add]
      exact Nat.mul_lt_mul_of_pos_right Nat.lt_log2_self (Nat.two_pow_pos c)
  have hM := (significand_bounds hn).1
  rw [toNat_pack_round .positive hlog (by omega) (by omega),scaled_significand hj,scaled_carry hj,
    natBits_eq hn (by omega)]
  have hsign : signBit .positive = 0 := rfl
  rw [hsign]
  unfold floorBits
  generalize (n >>> (n.log2 - 52)) <<< (52 - n.log2) = M at hM ⊢
  by_cases hup : roundsUp n
  · rw [if_pos hup,if_pos hup]
    omega
  · rw [if_neg hup,if_neg hup]
    omega

theorem toNat_ofUInt64 {n : Nat} (hn : 0 < n) (hsmall : n < 2 ^ 53) :
    (ofUInt64 n.toUInt64).toBits.toBitVec.toNat = natBits n := by
  have hlog : n.log2 ≤ 52 := by
    have := (Nat.log2_lt (Nat.ne_of_gt hn)).mpr hsmall
    omega
  have htoNat : n.toUInt64.toNat = n := by
    change (UInt64.ofNat n).toNat = n
    rw [UInt64.toNat_ofNat',Nat.mod_eq_of_lt (by omega)]
  have hround : UnpackedFloat.ofUInt64 Format.binary64 n.toUInt64 =
      UnpackedFloat.round Format.binary64 .positive n 0 := by
    unfold UnpackedFloat.ofUInt64 UnpackedFloat.ofNat UnpackedFloat.ofInt UnpackedFloat.normalize
    rw [htoNat,compare_gt_iff_gt.mpr (by omega)]
    rfl
  have htarget : Format.binary64.targetExponent (totalExponent n 0) = n.log2 - 52 := by
    unfold Format.targetExponent totalExponent
    change max ((n.log2 : Int) + 1 + 0 - 53) (-1074) = _
    omega
  change (UnpackedFloat.pack Format.binary64
    (UnpackedFloat.ofUInt64 Format.binary64 n.toUInt64)).toNat = _
  rw [hround]
  unfold UnpackedFloat.round UnpackedFloat.decreaseExponent
  dsimp only
  have hshift : (0 - ((n.log2 : Int) - 52)).toNat = 52 - n.log2 := by omega
  rw [htarget,hshift,Nat.shiftLeft_eq]
  exact toNat_pack_round_scaled hn (by omega) (by omega) (Int.zero_sub _)

theorem unpack_of_toNat {v : Float64} {k M : Nat} (hk : k ≤ 52) (hlow : 2 ^ 52 ≤ M)
    (hhigh : M < 2 ^ 53) (hbits : v.toNat = (k + 1023) * 2 ^ 52 + (M - 2 ^ 52)) :
    ∃ hm, UnpackedFloat.unpack Format.binary64 v = .finite .positive M (k - 52) hm := by
  have hexp : exponent v = k + 1023 := by
    unfold exponent
    omega
  have hfrac : fraction v = M - 2 ^ 52 := by
    unfold fraction
    omega
  have hfinite : isFinite v = true := by
    unfold isFinite
    rw [decide_eq_true_eq]
    omega
  have hsign : signOf v = .positive := if_pos (by omega)
  rcases unpack_of_isFinite hfinite with ⟨hzero,-⟩ | ⟨-,m,e,hm,hunpack,hparts⟩
  · omega
  · unfold Parts at hparts
    obtain rfl : m = M := by omega
    obtain rfl : e = k - 52 := by omega
    rw [hunpack,hsign]
    exact ⟨hm,rfl⟩

theorem unpack_ofUInt64 {n : Nat} (hn : 0 < n) (hsmall : n < 2 ^ 53) :
    ∃ hm, (ofUInt64 n.toUInt64).unpack =
      .finite .positive (n * 2 ^ (52 - n.log2)) (n.log2 - 52) hm := by
  have hlog : n.log2 ≤ 52 := by
    have := (Nat.log2_lt (Nat.ne_of_gt hn)).mpr hsmall
    omega
  have hexact : ¬ roundsUp n := fun h => h.1 (Nat.sub_eq_zero_of_le hlog)
  have hsig : (n >>> (n.log2 - 52)) <<< (52 - n.log2) = n * 2 ^ (52 - n.log2) := by
    rw [Nat.sub_eq_zero_of_le hlog,Nat.shiftRight_zero,Nat.shiftLeft_eq]
  have hM := significand_bounds hn
  rw [hsig] at hM
  have hbits := toNat_ofUInt64 hn hsmall
  rw [natBits_eq hn (by omega),if_neg hexact] at hbits
  unfold floorBits at hbits
  rw [hsig] at hbits
  exact unpack_of_toNat hlog hM.1 hM.2 hbits

theorem toNat_ofNat {n : Nat} (hn : 0 < n) (hsmall : n.log2 < 64) :
    (Float.ofNat n).toBits.toBitVec.toNat = natBits n := by
  change (Float.ofScientific n false 0).toBits.toBitVec.toNat = natBits n
  unfold Float.ofScientific
  split
  · rename_i h
    -- a short number is multiplied by one
    obtain ⟨hm,hunpack⟩ := unpack_ofUInt64 hn h.1
    have hlog : n.log2 ≤ 52 := by
      have := (Nat.log2_lt (Nat.ne_of_gt hn)).mpr h.1
      omega
    change (UnpackedFloat.pack Format.binary64 (UnpackedFloat.mul Format.binary64
      (ofUInt64 n.toUInt64).unpack (Float.Model.ofBits 4607182418800017408).unpack)).toNat = _
    have hone : (Float.Model.ofBits 4607182418800017408).unpack =
        .finite .positive (2 ^ 52) (-52) (by decide) := by rfl
    rw [hunpack,hone]
    change (UnpackedFloat.pack Format.binary64 (UnpackedFloat.roundWithAccuracy Format.binary64
      .positive (n * 2 ^ (52 - n.log2) * 2 ^ 52) (n.log2 - 52 + -52) .exact)).toNat = _
    rw [Nat.mul_assoc,← Nat.pow_add]
    exact toNat_pack_round_scaled hn (by omega) (by omega) (by omega)
  · change (UnpackedFloat.pack Format.binary64
      (UnpackedFloat.ofScientific Format.binary64 n 0)).toNat = _
    unfold UnpackedFloat.ofScientific
    have hnotSmall : ¬ (0 : Int) < -(2 ^ 11 + (n.log2 : Int)) := by omega
    rw [dif_neg (Nat.ne_of_gt hn),if_neg (by decide),if_neg hnotSmall,if_pos (by decide)]
    change (UnpackedFloat.pack Format.binary64 (UnpackedFloat.roundWithAccuracy Format.binary64
      .positive (n <<< 53 * 1) (-53 + 0) .exact)).toNat = _
    rw [Nat.mul_one,Nat.shiftLeft_eq]
    exact toNat_pack_round_scaled hn (by omega) (by omega) rfl

theorem toNat_neg (hsign : (ofFloat f).toNat < 2 ^ 63) (hexp : exponent (ofFloat f) ≠ 0)
    (hfinite : (ofFloat f).isFinite = true) :
    (ofFloat f.neg).toNat = 2 ^ 63 + (ofFloat f).toNat := by
  have hbits := mod_eq_parts (ofFloat f)
  have hnotInf : exponent (ofFloat f) ≠ 2047 := by simpa [isFinite] using hfinite
  have hle : exponent (ofFloat f) < 2 ^ 11 := Nat.mod_lt _ (by decide)
  change (UnpackedFloat.pack Format.binary64
    (UnpackedFloat.unpack Format.binary64 (ofFloat f)).neg).toNat = _
  rcases unpack_of_isFinite hfinite with ⟨hzero,-⟩ | ⟨-,m,e,hm,hunpack,hparts⟩
  · omega
  · have hpositive : signOf (ofFloat f) = .positive := if_pos hsign
    unfold Parts at hparts
    rw [hunpack,hpositive]
    change (UnpackedFloat.pack Format.binary64 (.finite .negative m e hm)).toNat = _
    rw [toNat_pack .negative hm (by omega) (by omega) (by omega) (by omega)]
    change 1 * 2 ^ 63 + _ + _ = _
    omega

theorem ofFloat_ofInt {i : Int} (hsmall : i.natAbs.log2 < 64) : ofFloat (Float.ofInt i) = ofInt i := by
  by_cases hi : i = 0
  · subst hi
    decide +kernel
  · have hpos : 0 < i.natAbs := Int.natAbs_pos.mpr hi
    have hbits := toNat_ofNat hpos hsmall
    have hlt := floorBits_lt hpos (by omega)
    have hrange : 2 ^ 52 ≤ natBits i.natAbs ∧ natBits i.natAbs ≤ 2046 * 2 ^ 52 := by
      have hfloor : 2 ^ 52 ≤ floorBits i.natAbs := by
        unfold floorBits
        omega
      rw [natBits_eq hpos (by omega)]
      split <;> omega
    apply BitVec.eq_of_toNat_eq
    rw [ofInt,if_neg hi,BitVec.toNat_ofNat]
    cases i with
    | ofNat n =>
      have hsign : ¬ Int.ofNat n < 0 := Int.not_lt.mpr (Int.natCast_nonneg n)
      rw [if_neg hsign]
      change (Float.ofNat n).toBits.toBitVec.toNat = _
      change (Float.ofNat n).toBits.toBitVec.toNat = _ at hbits
      rw [hbits,Nat.add_zero,Nat.mod_eq_of_lt]
      exact Nat.lt_of_le_of_lt hrange.2 (by decide)
    | negSucc n =>
      rw [if_pos (by omega)]
      change (ofFloat (Float.ofNat (n + 1)).neg).toNat = _
      change (ofFloat (Float.ofNat (n + 1))).toNat = _ at hbits
      have hexp : exponent (ofFloat (Float.ofNat (n + 1))) ≠ 0 ∧
          exponent (ofFloat (Float.ofNat (n + 1))) ≠ 2047 := by
        unfold exponent
        omega
      rw [toNat_neg (by omega) hexp.1 (by simpa [isFinite] using hexp.2),hbits]
      omega

theorem isFinite_ofFloat (h : f.isFinite = true) : (ofFloat f).isFinite = true := by
  change (UnpackedFloat.unpack Format.binary64 (ofFloat f)).isFinite = true at h
  unfold isFinite
  rw [decide_eq_true_eq]
  intro hexp
  have hall : @UnpackedFloat.unpackExponent Format.binary64 (ofFloat f) = -1#11 := by
    apply BitVec.eq_of_toNat_eq
    rw [toNat_unpackExponent,hexp]
    rfl
  unfold UnpackedFloat.unpack at h
  dsimp only at h
  rw [if_pos hall] at h
  split at h <;> cases h

theorem isFinite_of_ofFloat (h : (ofFloat f).isFinite = true) : f.isFinite = true := by
  change (UnpackedFloat.unpack Format.binary64 (ofFloat f)).isFinite = true
  rcases unpack_of_isFinite h with ⟨-,hunpack⟩ | ⟨-,m,e,hm,hunpack,-⟩ <;> rw [hunpack] <;> rfl

end Float64
end Unagi.Objects
