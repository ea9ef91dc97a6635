import Unagi.Objects.RangeExact

/-! # Slices of ranges

A slice of a range is a range again. Its bounds and its step are computed in words, and for almost
every range there is a slice for which they overflow. -/

namespace Unagi.Objects

open Int64 (wrap InRange)
open Lib.Progression (terms count)

section
variable {a b s : Int}

def SliceRight (a b s : Int) (lo hi step : Option Int) : Prop :=
  ∃ r, (newRangeBig a b s).getSlice (.ofOption lo) (.ofOption hi) (.ofOption step) = .ok r ∧
    r.elements =
      (indexSeq lo hi (step.getD 1) (count a b s)).map fun n => a + n * s

/-- The words of one slice: they count as many elements as the slice has, the first of them is that
of the slice if it has one, and the step that of the slice if it has two. -/
def SliceFits (a b s : Int) (lo hi step : Option Int) : Prop :=
  Small a b s ∧ ∃ x y t,
    sliceBounds (.ofOption lo) (.ofOption hi) (.ofOption step) (newRangeBig a b s).length =
      .ok (x, y, t) ∧
    count (wrap (a + x * s)) (wrap (a + y * s)) (wrap (s * t)) =
      indexCount lo hi (step.getD 1) (count a b s) ∧
    (0 < indexCount lo hi (step.getD 1) (count a b s) →
      wrap (a + x * s) = a + firstIndex lo (step.getD 1) (count a b s) * s) ∧
    (1 < indexCount lo hi (step.getD 1) (count a b s) → wrap (s * t) = s * step.getD 1)

/-- Every slice of a range of words is right where the range is empty, or has step one, no element
at the edge and fewer elements than a sentinel. -/
def SlicesFit (a b s : Int) : Prop :=
  Small a b s ∧ (distance a b s ≤ 0 ∨ s = 1 ∧ a ≠ -2 ^ 63 ∧ b - a < 2 ^ 62)

def wordSlice (a s x y t : Int) : RangeObject :=
  ⟨wrap (a + wrap (x * s)), wrap (a + wrap (y * s)), wrap (s * t), none, none, none⟩
theorem getSlice_big (h : ¬ Small a b s) (lo hi step : SlicePart) :
    (newRangeBig a b s).getSlice lo hi step =
      raise .overflowError "Python int too large to convert to C ssize_t" := by
  rw [RangeObject.getSlice,if_pos (newRangeBig_big.mpr h)]
theorem getSlice_small (h : Small a b s) {lo hi step : SlicePart} {x y t : Int}
    (hbounds : sliceBounds lo hi step (newRangeBig a b s).length = .ok (x, y, t)) :
    (newRangeBig a b s).getSlice lo hi step = .ok (wordSlice a s x y t) := by
  rw [RangeObject.getSlice,if_neg (newRangeBig_big.not.mpr (not_not.mpr h)),hbounds,
    newRangeBig_small h]
  rfl

theorem wordSlice_elements (a s x y t : Int) :
    (wordSlice a s x y t).elements = terms (wrap (a + x * s)) (wrap (s * t))
      (count (wrap (a + x * s)) (wrap (a + y * s)) (wrap (s * t))) := by
  have hx : (wordSlice a s x y t).bStart = wrap (a + x * s) := Int64.wrap_add_wrap a _
  have hy : (wordSlice a s x y t).bStop = wrap (a + y * s) := Int64.wrap_add_wrap a _
  rw [RangeObject.elements,hx,hy]
  rfl

theorem sliceRight_iff {lo hi step : Option Int} :
    SliceRight a b s lo hi step ↔ SliceFits a b s lo hi step := by
  have hterms : ∀ x y t, (wordSlice a s x y t).elements =
      ((indexSeq lo hi (step.getD 1) (count a b s)).map fun n => a + n * s) ↔
      count (wrap (a + x * s)) (wrap (a + y * s)) (wrap (s * t)) =
        indexCount lo hi (step.getD 1) (count a b s) ∧
      (0 < indexCount lo hi (step.getD 1) (count a b s) →
        wrap (a + x * s) = a + firstIndex lo (step.getD 1) (count a b s) * s) ∧
      (1 < indexCount lo hi (step.getD 1) (count a b s) → wrap (s * t) = s * step.getD 1) := by
    intro x y t
    rw [wordSlice_elements,indexSeq,Lib.Progression.map_terms,Lib.Progression.terms_eq_iff,
      mul_comm (step.getD 1) s]
    omega
  by_cases h : Small a b s
  · constructor
    · rintro ⟨r,hget,helements⟩
      cases hbounds : sliceBounds (.ofOption lo) (.ofOption hi) (.ofOption step)
          (newRangeBig a b s).length with
      | error e =>
        rw [RangeObject.getSlice,if_neg (newRangeBig_big.not.mpr (not_not.mpr h)),hbounds] at hget
        cases hget
      | ok p =>
        obtain ⟨x,y,t⟩ := p
        rw [getSlice_small h hbounds] at hget
        obtain rfl := Except.ok.inj hget
        exact ⟨h,x,y,t,hbounds,(hterms x y t).mp helements⟩
    · rintro ⟨-,x,y,t,hbounds,hwords⟩
      exact ⟨_,getSlice_small h hbounds,(hterms x y t).mpr hwords⟩
  · refine iff_of_false ?_ fun hfits => h hfits.1
    rintro ⟨r,hget,-⟩
    rw [getSlice_big h] at hget
    cases hget

theorem SliceRight.count_eq {lo hi step : Option Int} {x y t : Int}
    (hright : SliceRight a b s lo hi step)
    (hbounds : sliceBounds (.ofOption lo) (.ofOption hi) (.ofOption step)
      (newRangeBig a b s).length = .ok (x, y, t)) :
    count (wrap (a + x * s)) (wrap (a + y * s)) (wrap (s * t)) =
      indexCount lo hi (step.getD 1) (count a b s) := by
  obtain ⟨-,x',y',t',hbounds',hcount,-⟩ := sliceRight_iff.mp hright
  obtain ⟨rfl,rfl,rfl⟩ : x = x' ∧ y = y' ∧ t = t' := by
    simpa using hbounds.symm.trans hbounds'
  exact hcount

theorem sliceBounds_whole {k : Int} (hk : k ≠ 0) (hr : InRange k) (n : Int) :
    sliceBounds (.ofOption none) (.ofOption none) (.ofOption (some k)) n =
      .ok (if k < 0 then n - 1 else 0, if k < 0 then -1 else n, k) := by
  have hstep : sliceStep (.int k) = .ok k := by
    rw [sliceStep]
    simp only [slicePart,indexSized,if_pos hr,bind,Except.bind,if_neg hk]
    rfl
  rw [sliceBounds,SlicePart.ofOption,SlicePart.ofOption,hstep]
  rfl

theorem count_one (h : a < b) : (count a b 1 : Int) = b - a := by
  rw [Lib.Progression.count_eq_of_pos one_pos h,Int.ediv_one,sub_add_cancel]
theorem count_neg_one (h : b < a) : (count a b (-1) : Int) = a - b := by
  rw [Lib.Progression.count_eq_of_neg (by norm_num) h,neg_neg,Int.ediv_one,sub_add_cancel]
theorem clampIndex_empty (st v : Int) : clampIndex st 0 v = if st < 0 then -1 else 0 := by
  unfold clampIndex
  split_ifs <;> omega

theorem ends_of_empty (lo hi : Option Int) (st : Int) : firstIndex lo st 0 = endIndex hi st 0 := by
  have hlo : firstIndex lo st 0 = if st < 0 then -1 else 0 := by
    cases lo with
    | none => rfl
    | some v => exact clampIndex_empty st v
  have hhi : endIndex hi st 0 = if st < 0 then -1 else 0 := by
    cases hi with
    | none => rfl
    | some v => exact clampIndex_empty st v
  rw [hlo,hhi]

theorem sliceRight_of_empty (h : Small a b s) (hd : distance a b s ≤ 0)
    (lo hi : Option Int) {step : Option Int} (hstep : step ≠ some 0) :
    SliceRight a b s lo hi step := by
  have hbounds := sliceBounds_eq lo hi hstep (le_refl (0 : Int)) (by norm_num)
  rw [← length_empty h hd] at hbounds
  refine ⟨_,getSlice_small h hbounds,?_⟩
  rw [length_empty h hd,wordSlice_elements,count_zero hd,Nat.cast_zero,indexSeq,indexCount,
    ends_of_empty lo hi,Lib.Progression.count_eq_zero (fun _ => le_rfl) (fun _ => le_rfl),
    Lib.Progression.count_eq_zero (fun _ => le_rfl) (fun _ => le_rfl)]
  rfl

theorem sliceRight_of_one (h : Small a b 1) (ha : a ≠ -2 ^ 63) (hlen : b - a < 2 ^ 62)
    (hd : 0 < b - a) (lo hi : Option Int) {step : Option Int} (hstep : step ≠ some 0) :
    SliceRight a b 1 lo hi step := by
  have hcount : (count a b 1 : Int) = b - a := count_one (by omega)
  have hlength : (newRangeBig a b 1).length = b - a := by
    rw [length_eq h one_ne_zero,hcount]
    refine .inr (.inl ?_)
    rw [distance,if_pos one_pos,abs_of_pos one_pos]
    omega
  have hbounds := sliceBounds_eq lo hi hstep hd.le hlen
  obtain ⟨hx,hx',-⟩ := firstIndex_mem lo (step.getD 1) hd.le
  obtain ⟨hy,hy'⟩ := endIndex_mem hi (step.getD 1) hd.le
  rw [← hlength] at hbounds
  refine ⟨_,getSlice_small h hbounds,?_⟩
  rw [hlength,wordSlice_elements,hcount,indexSeq,Lib.Progression.map_terms,indexCount]
  generalize firstIndex lo (step.getD 1) (b - a) = x at hx hx' ⊢
  generalize endIndex hi (step.getD 1) (b - a) = y at hy hy' ⊢
  obtain ⟨ha',hb,-⟩ := h
  unfold InRange at ha' hb
  have hwrap : ∀ z : Int, -1 ≤ z → z ≤ b - a → wrap (a + z * 1) = a + z := by
    intro z hz hz'
    rw [mul_one]
    exact Int64.wrap_of_inRange ⟨by omega,by omega⟩
  rw [hwrap x hx hx',hwrap y hy hy',one_mul,Int64.wrap_of_inRange indexSized_inRange,
    Lib.Progression.count_add,count_indexSized (abs_le.mpr ⟨by omega,by omega⟩),mul_one,mul_one]
  have hterms : terms x (indexSized (step.getD 1)) (count x y (step.getD 1)) =
      terms x (step.getD 1) (count x y (step.getD 1)) :=
    terms_indexSized ⟨hx,hx'⟩ ⟨hy,hy'⟩ hlen rfl
  have hshift := congrArg (List.map fun i => a + i * 1) hterms
  rw [Lib.Progression.map_terms,Lib.Progression.map_terms] at hshift
  simpa only [mul_one] using hshift

/-! ## Slices that overflow -/

theorem wrap_eq_sub {z : Int} (h : 2 ^ 63 ≤ z) (h' : z < 2 ^ 64 + 2 ^ 63) :
    wrap z = z - 2 ^ 64 := by
  rw [wrap_of_sum (by omega) h',if_neg (by omega)]

theorem not_right_of_overflow (h : Small a b s) (hs : s ≠ 0) (hfit : ¬ LenFits a b s) :
    ¬ SliceRight a b s (some 0) none none := by
  obtain ⟨hover,hpos⟩ := length_overflows h hs hfit
  intro hright
  have hbounds : sliceBounds (.ofOption (some 0)) (.ofOption none) (.ofOption none)
      (newRangeBig a b s).length =
      .ok ((newRangeBig a b s).length, (newRangeBig a b s).length, 1) := by
    have hclamp : clampSliceIndex 0 (newRangeBig a b s).length 1 = (newRangeBig a b s).length := by
      unfold clampSliceIndex
      simp [hover]
    have hunfold : ∀ n, sliceBounds (.ofOption (some 0)) (.ofOption none) (.ofOption none) n =
        .ok (clampSliceIndex 0 n 1, n, 1) := fun n => rfl
    rw [hunfold,hclamp]
  have hcount := hright.count_eq hbounds
  rw [Lib.Progression.count_eq_zero (fun _ => le_rfl) (fun _ => le_rfl)] at hcount
  have hindex : 0 < indexCount (some 0) none 1 (count a b s) := by
    rw [indexCount,Lib.Progression.lt_count_of_pos one_pos]
    simp [firstIndex,endIndex,clampIndex]
    omega
  exact hindex.ne hcount

theorem turned_count {c m p : Int} (hc : InRange c) (hm : 0 < m) (hm' : m < 2 ^ 63)
    (hp : 2 ^ 63 ≤ p) (hp' : p < 2 ^ 64) : count c (wrap (c + m)) (wrap p) ≠ 1 := by
  unfold InRange at hc
  rw [wrap_eq_sub hp (by omega)]
  by_cases hover : c + m < 2 ^ 63
  · rw [Int64.wrap_of_inRange ⟨by omega,hover⟩,
      Lib.Progression.count_eq_zero (by omega) (by omega)]
    exact zero_ne_one
  · have hlt : 1 < count c (wrap (c + m)) (p - 2 ^ 64) := by
      rw [Lib.Progression.lt_count_of_neg (by omega),wrap_eq_sub (by omega) (by omega)]
      omega
    omega

theorem exists_turn (hr : InRange s) (hs : 1 < s ∨ s < 0 ∧ s ≠ -2 ^ 63) :
    ∃ k, InRange k ∧ 2 ^ 63 ≤ s * k ∧ s * k < 2 ^ 64 := by
  have hfactor : ∀ t : Int, 0 < t → t < 2 ^ 63 →
      ∃ k, 0 < k ∧ k ≤ 2 ^ 63 ∧ (1 < t → k < 2 ^ 63) ∧ 2 ^ 63 ≤ t * k ∧ t * k < 2 ^ 64 := by
    intro t ht ht'
    have hmul := Int.mul_ediv_add_emod (2 ^ 63 + t - 1) t
    have hmod := Int.emod_lt_of_pos (2 ^ 63 + t - 1) ht
    have hmod' := Int.emod_nonneg (2 ^ 63 + t - 1) ht.ne'
    have hpos : 1 ≤ (2 ^ 63 + t - 1) / t := (Int.le_ediv_iff_mul_le ht).mpr (by omega)
    generalize (2 ^ 63 + t - 1) / t = k at hmul hpos
    refine ⟨k,hpos,?_,fun hone => ?_,by omega,by omega⟩
    · by_contra hgt
      have : t * (2 ^ 63 + 1) ≤ t * k := mul_le_mul_of_nonneg_left (by omega) ht.le
      omega
    · by_contra hge
      have : 2 * 2 ^ 63 ≤ t * k := mul_le_mul hone (by omega) (by norm_num) ht.le
      omega
  unfold InRange at hr ⊢
  rcases hs with hone | ⟨hneg,hmin⟩
  · obtain ⟨k,hk,-,hlt,hspan⟩ := hfactor s (by omega) hr.2
    exact ⟨k,⟨by omega,hlt hone⟩,hspan⟩
  · obtain ⟨k,hk,hle,-,hspan⟩ := hfactor (-s) (by omega) (by omega)
    rw [neg_mul,← mul_neg] at hspan
    exact ⟨-k,⟨by omega,by omega⟩,hspan⟩

theorem span_lt (hs : s ≠ 0) (hd : 0 < distance a b s) (hfit : distance a b s + |s| ≤ 2 ^ 63) :
    count a b s * |s| < 2 ^ 63 := by
  have hdiv := Int.ediv_mul_le (distance a b s - 1) (abs_pos.mpr hs).ne'
  rw [count_eq hs hd,add_mul,one_mul]
  omega

theorem indexCount_whole {n : Nat} {k : Int} (hn : 0 < n) (hle : (n : Int) ≤ |k|) :
    indexCount none none k n = 1 := by
  have hk : k ≠ 0 := by
    rintro rfl
    simp at hle
    omega
  have hdist : distance (firstIndex none k n) (endIndex none k n) k = n := by
    simp only [distance,firstIndex,endIndex,Option.elim]
    split_ifs <;> omega
  have hcount := count_eq hk (hdist ▸ Int.natCast_pos.mpr hn)
  rw [hdist,Int.ediv_eq_zero_of_lt (by omega) (by omega)] at hcount
  exact Int.natCast_inj.mp hcount

/-- A step that turns the product of the steps negative leaves the slice no element or several. -/
theorem not_right_of_turn (h : Small a b s) (hs : s ≠ 0) (hd : 0 < distance a b s)
    (hfit : LenFits a b s) (hmin : s ≠ -2 ^ 63) {k : Int} (hk : InRange k)
    (hlow : 2 ^ 63 ≤ s * k) (hhigh : s * k < 2 ^ 64) : ¬ SliceRight a b s none none (some k) := by
  intro hright
  have hspan := span_lt hs hd (by unfold LenFits at hfit; omega)
  have hpos := (count_pos hs).mpr hd
  have hmul : 0 < (count a b s : Int) * |s| :=
    mul_pos (by exact_mod_cast hpos) (abs_pos.mpr hs)
  have hk0 : k ≠ 0 := by
    rintro rfl
    omega
  have hle : (count a b s : Int) ≤ |k| := by
    by_contra hlt
    have hprod : |k| * |s| < count a b s * |s| :=
      mul_lt_mul_of_pos_right (not_le.mp hlt) (abs_pos.mpr hs)
    rw [Int.abs_eq_natAbs k,Int.abs_eq_natAbs s,← Int.natCast_mul,← Int.natAbs_mul,mul_comm k,
      Int.natAbs_of_nonneg (by omega)] at hprod
    rw [Int.abs_eq_natAbs s] at hspan
    omega
  have hcount := hright.count_eq (sliceBounds_whole hk0 hk _)
  rw [Option.getD_some,indexCount_whole hpos hle,length_eq h hs hfit] at hcount
  rcases lt_or_gt_of_ne hs with hneg | hpos'
  · have hkneg : k < 0 := by
      by_contra hge
      have := mul_nonpos_of_nonpos_of_nonneg hneg.le (not_lt.mp hge)
      omega
    -- the slice begins at the last element
    have hterm := wrap_term h hs (i := count a b s - 1) (by omega)
    rw [Nat.cast_sub hpos,Nat.cast_one,Int64.wrap_add_wrap] at hterm
    have hlast : InRange (a + ((count a b s : Int) - 1) * s) := by
      rw [← hterm]
      exact Int64.wrap_inRange _
    have hstop : a + -1 * s = a + ((count a b s : Int) - 1) * s + count a b s * |s| := by
      rw [abs_of_neg hneg]
      ring
    rw [if_pos hkneg,if_pos hkneg,hterm,hstop] at hcount
    exact turned_count hlast hmul hspan hlow hhigh hcount
  · have hkpos : ¬ k < 0 := by
      intro hlt
      have := mul_nonpos_of_nonneg_of_nonpos hpos'.le hlt.le
      omega
    rw [abs_of_pos hpos'] at hmul hspan
    rw [if_neg hkpos,if_neg hkpos,zero_mul,add_zero,Int64.wrap_of_inRange h.1] at hcount
    exact turned_count h.1 hmul hspan hlow hhigh hcount

theorem not_right_of_min (hd : 0 < distance a b (-2 ^ 63)) :
    ¬ SliceRight a b (-2 ^ 63) none none (some 2) := by
  intro hright
  have hs : (-2 ^ 63 : Int) ≠ 0 := by norm_num
  have hcount := hright.count_eq (sliceBounds_whole two_ne_zero (by decide) _)
  rw [show wrap (-2 ^ 63 * 2) = 0 by decide] at hcount
  have hpos := (count_pos hs).mpr hd
  have hindex : 0 < indexCount none none 2 (count a b (-2 ^ 63)) := by
    rw [indexCount,Lib.Progression.lt_count_of_pos two_pos]
    simpa [firstIndex,endIndex] using hpos
  simp only [count,lt_irrefl,if_false] at hcount
  exact hindex.ne hcount

theorem not_right_of_edge (h : Small (-2 ^ 63) b 1) (hd : -2 ^ 63 < b)
    (hfit : LenFits (-2 ^ 63) b 1) : ¬ SliceRight (-2 ^ 63) b 1 none none (some (-1)) := by
  intro hright
  have hcount := hright.count_eq (sliceBounds_whole (by norm_num) (by decide) _)
  have hlength := length_eq h one_ne_zero hfit
  have hc : (count (-2 ^ 63) b 1 : Int) = b - -2 ^ 63 := count_one hd
  have hindex : 0 < indexCount none none (-1) (count (-2 ^ 63) b 1) := by
    have hvalue : (indexCount none none (-1) (count (-2 ^ 63) b 1) : Int) =
        (count (-2 ^ 63) b 1 - 1) - -1 :=
      count_neg_one (show -1 < (count (-2 ^ 63) b 1 : Int) - 1 by omega)
    omega
  have hb := h.2.1
  unfold InRange at hb
  rw [hlength,show wrap (1 * -1) = -1 by decide,if_pos (by norm_num),if_pos (by norm_num),
    show wrap (-2 ^ 63 + -1 * 1) = 2 ^ 63 - 1 by decide,
    Int64.wrap_of_inRange (show InRange (-2 ^ 63 + ((count (-2 ^ 63) b 1 : Int) - 1) * 1) from
      ⟨by omega,by omega⟩)] at hcount
  have hzero : count (-2 ^ 63 + ((count (-2 ^ 63) b 1 : Int) - 1) * 1) (2 ^ 63 - 1) (-1) = 0 :=
    Lib.Progression.count_eq_zero (by norm_num) (fun _ => by omega)
  exact hindex.ne (hzero.symm.trans hcount)

theorem not_right_of_long (h : Small a b 1) (hlen : 2 ^ 62 ≤ b - a) (hfit : LenFits a b 1) :
    ¬ SliceRight a b 1 none (some (-2 ^ 64)) (some (-1)) := by
  intro hright
  have hlength := length_eq h one_ne_zero hfit
  have hle := count_lt_of_fits one_ne_zero hfit
  have hc : (count a b 1 : Int) = b - a := count_one (by omega)
  have hn : (newRangeBig a b 1).length = b - a := by omega
  have hbounds : sliceBounds (.ofOption none) (.ofOption (some (-2 ^ 64))) (.ofOption (some (-1)))
      (newRangeBig a b 1).length = .ok (b - a - 1, b - a - 2 ^ 62, -1) := by
    have hunfold : ∀ n, sliceBounds (.ofOption none) (.ofOption (some (-2 ^ 64)))
        (.ofOption (some (-1))) n = .ok (n - 1, clampSliceIndex (-2 ^ 62) n (-1), -1) :=
      fun n => rfl
    have hclamp : clampSliceIndex (-2 ^ 62) (b - a) (-1) = b - a - 2 ^ 62 := by
      unfold clampSliceIndex
      have hwrap : wrap (-2 ^ 62 + (b - a)) = -2 ^ 62 + (b - a) :=
        Int64.wrap_of_inRange ⟨by omega,by omega⟩
      simp only [show (-2 ^ 62 : Int) < 0 by norm_num,if_true,hwrap]
      rw [if_neg (by omega),if_neg (by omega)]
      omega
    rw [hunfold,hn,hclamp]
  have hcount := hright.count_eq hbounds
  obtain ⟨ha,hb,-⟩ := h
  unfold InRange at ha hb
  have hends : indexCount none (some (-2 ^ 64)) (-1) (count a b 1) =
      count (b - a - 1) (-1) (-1) := by
    have hfirst : firstIndex none (-1) (count a b 1) = b - a - 1 := by
      rw [hc]
      rfl
    have hend : endIndex (some (-2 ^ 64)) (-1) (count a b 1) = -1 := by
      rw [hc]
      simp only [endIndex,Option.elim,clampIndex]
      rw [if_pos (by norm_num),if_pos (by norm_num)]
      omega
    rw [indexCount,hfirst,hend]
  rw [show wrap (1 * -1) = -1 by decide,
    Int64.wrap_of_inRange (show InRange (a + (b - a - 1) * 1) from ⟨by omega,by omega⟩),
    Int64.wrap_of_inRange (show InRange (a + (b - a - 2 ^ 62) * 1) from ⟨by omega,by omega⟩),
    Option.getD_some,hends] at hcount
  have hword := count_neg_one (show a + (b - a - 2 ^ 62) * 1 < a + (b - a - 1) * 1 by omega)
  have hindex := count_neg_one (show -1 < b - a - 1 by omega)
  omega

theorem slices_iff (hs : s ≠ 0) :
    (∀ lo hi step, step ≠ some 0 → SliceRight a b s lo hi step) ↔ SlicesFit a b s := by
  constructor
  · intro hright
    have hsmall : Small a b s := (sliceRight_iff.mp (hright none none none (by simp))).1
    refine ⟨hsmall,?_⟩
    by_contra hcond
    rw [not_or,not_le] at hcond
    obtain ⟨hd,hone⟩ := hcond
    have hfit : LenFits a b s := by
      by_contra h
      exact not_right_of_overflow hsmall hs h (hright _ _ _ (by simp))
    have hturn : s ≠ -2 ^ 63 → ¬ (1 < s ∨ s < 0 ∧ s ≠ -2 ^ 63) := by
      intro hmin hside
      obtain ⟨k,hk,hlow,hhigh⟩ := exists_turn hsmall.2.2 hside
      refine not_right_of_turn hsmall hs hd hfit hmin hk hlow hhigh (hright _ _ _ ?_)
      rintro ⟨⟩
      omega
    by_cases hmin : s = -2 ^ 63
    · subst hmin
      exact not_right_of_min hd (hright _ _ _ (by simp))
    · have := hturn hmin
      obtain rfl : s = 1 := by omega
      rw [distance,if_pos one_pos] at hd
      by_cases hedge : a = -2 ^ 63
      · subst hedge
        exact not_right_of_edge hsmall (by omega) hfit (hright _ _ _ (by simp))
      · by_cases hlen : b - a < 2 ^ 62
        · exact hone ⟨rfl,hedge,hlen⟩
        · exact not_right_of_long hsmall (by omega) hfit (hright _ _ _ (by simp))
  · rintro ⟨hsmall,hcond⟩ lo hi step hstep
    by_cases hd : distance a b s ≤ 0
    · exact sliceRight_of_empty hsmall hd lo hi hstep
    · obtain ⟨rfl,hedge,hlen⟩ := hcond.resolve_left hd
      rw [distance,if_pos one_pos] at hd
      exact sliceRight_of_one hsmall hedge hlen (by omega) lo hi hstep

/-- Where each operation gives the values of the progression. -/
structure RangeReport (a b s : Int) : Prop where
  truth : (newRangeBig a b s).truth = decide (0 < count a b s) ↔ TruthFits a b s
  len : (newRangeBig a b s).len = lenSpec a b s ↔ Counted a b s
  iter : (∀ n, (newRangeBig a b s).iter.nth n = element a b s n) ↔ Counted a b s
  item : ∀ i : Int, -(count a b s : Int) ≤ i → i < count a b s →
    ((newRangeBig a b s).getItem i = .ok (a + place a b s i * s) ↔
      (Small a b s → LenFits a b s) ∧ (¬ Small a b s → InRange i))
  equal : ∀ a' b' s' : Int, s' ≠ 0 → Counted a b s → Counted a' b' s' →
    (rangeEquals (newRangeBig a b s) (newRangeBig a' b' s') = true ↔
      (newRangeBig a b s).elements = (newRangeBig a' b' s').elements)
  slice : ∀ lo hi step, SliceRight a b s lo hi step ↔ SliceFits a b s lo hi step
  slices : (∀ lo hi step, step ≠ some 0 → SliceRight a b s lo hi step) ↔ SlicesFit a b s

/-- A range is the exact progression where its count fits: truth, length, iteration and indexing
exactly there, comparison at least there; a slice exactly where its words fit, and every slice of a
range exactly where no word overflows. -/
theorem range_exact (a b s : Int) (hs : s ≠ 0) : RangeReport a b s where
  truth := truth_iff hs
  len := len_iff hs
  iter := iter_iff hs
  item _ hlow hhigh := getItem_iff hs hlow hhigh
  equal _ _ _ hs' h h' := rangeEquals_iff hs hs' h h'
  slice _ _ _ := sliceRight_iff
  slices := slices_iff hs

theorem range_exact_of_ten : RangeReport 0 10 1 ∧ SlicesFit 0 10 1 ∧ Counted 0 10 1 := by
  refine ⟨range_exact 0 10 1 one_ne_zero,⟨by decide,.inr ⟨rfl,by decide,by decide⟩⟩,.inr ?_⟩
  exact .inr (.inl (by decide))

/-- A huge range is false and cannot be sliced, an index past the words does not reach it; a range
of words can have a negative length, equal the empty range, and lose its elements in a slice. -/
theorem range_overflows :
    (newRangeBig 0 (2 ^ 100) 1).truth = false ∧
    (newRangeBig 0 (2 ^ 100) 1).getItem (2 ^ 70) =
      raise .indexError "cannot fit 'int' into an index-sized integer" ∧
    (newRangeBig 0 (2 ^ 100) 1).getSlice (.int 0) (.int 5) .none =
      raise .overflowError "Python int too large to convert to C ssize_t" ∧
    (newRangeBig 0 (2 ^ 63 - 1) 2).len = .ok (-2 ^ 62) ∧
    (newRangeBig (-2 ^ 63) (2 ^ 63 - 1) (2 ^ 62)).len = .ok 0 ∧
    (newRangeBig (-2 ^ 63) (2 ^ 63 - 1) (2 ^ 62)).iter.nth 0 = none ∧
    rangeEquals (newRangeBig (-2 ^ 63) (2 ^ 63 - 1) (2 ^ 62)) (newRangeBig 0 0 1) = true ∧
    (newRangeBig (2 ^ 63 - 5) (2 ^ 63 - 1) 3).getSlice .none .none .none =
      .ok (wordSlice (2 ^ 63 - 5) 3 0 2 1) ∧
    (wordSlice (2 ^ 63 - 5) 3 0 2 1).elements = [] := by
  decide +kernel

end
end Unagi.Objects
