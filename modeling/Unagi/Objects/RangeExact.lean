import Unagi.Objects.Range
import Unagi.Objects.SliceSound

/-! # Where a range is the exact progression

The elements of a range are `start + n * step` for `n` below the count. The word arithmetic of the
runtime agrees with them exactly under conditions on the bounds that are stated here. -/

namespace Unagi.Objects

open Int64 (wrap InRange)
open Lib.Progression (terms count)

def Small (a b s : Int) : Prop := InRange a ∧ InRange b ∧ InRange s
def distance (a b s : Int) : Int := if 0 < s then b - a else a - b

/-- The dividend of the count fits a word. The most negative step is its own negation in words, and
divides right only at distance one. -/
def LenFits (a b s : Int) : Prop :=
  distance a b s ≤ 0 ∨ distance a b s + |s| ≤ 2 ^ 63 ∨ s = -2 ^ 63 ∧ distance a b s = 1

/-- The range in words, with the defaults for what does not fit. -/
def fast (a b s : Int) : Int × Int × Int :=
  (if InRange a then a else 0, if InRange b then b else 0, if InRange s then s else 1)

section
variable {a b s : Int}

instance : Decidable (Small a b s) := inferInstanceAs (Decidable (_ ∧ _))
theorem newRangeBig_big : (newRangeBig a b s).big = true ↔ ¬ Small a b s := by
  unfold RangeObject.big newRangeBig Small
  by_cases ha : InRange a <;> by_cases hb : InRange b <;> by_cases hs : InRange s <;>
    simp [ha,hb,hs]

theorem newRangeBig_bStart : (newRangeBig a b s).bStart = a := by
  unfold RangeObject.bStart newRangeBig
  by_cases ha : InRange a <;> simp [ha]
theorem newRangeBig_bStop : (newRangeBig a b s).bStop = b := by
  unfold RangeObject.bStop newRangeBig
  by_cases hb : InRange b <;> simp [hb]
theorem newRangeBig_bStep : (newRangeBig a b s).bStep = s := by
  unfold RangeObject.bStep newRangeBig
  by_cases hs : InRange s <;> simp [hs]

theorem newRangeBig_small (h : Small a b s) :
    newRangeBig a b s = ⟨a, b, s, none, none, none⟩ := by
  obtain ⟨ha,hb,hs⟩ := h
  simp [newRangeBig,ha,hb,hs]

theorem lengthBig_eq (hs : s ≠ 0) : (newRangeBig a b s).lengthBig = count a b s := by
  unfold RangeObject.lengthBig
  rw [newRangeBig_bStart,newRangeBig_bStop,newRangeBig_bStep]
  rcases lt_or_gt_of_ne hs with hneg | hpos
  · rw [if_pos hneg]
    simp only
    split
    · rw [Lib.Progression.count_eq_zero (by omega) (by omega),Nat.cast_zero]
    · rw [Lib.Progression.count_eq_of_neg hneg (by omega)]
  · rw [if_neg (by omega)]
    simp only
    split
    · rw [Lib.Progression.count_eq_zero (by omega) (by omega),Nat.cast_zero]
    · rw [Lib.Progression.count_eq_of_pos hpos (by omega)]

theorem count_eq (hs : s ≠ 0) (hd : 0 < distance a b s) :
    (count a b s : Int) = (distance a b s - 1) / |s| + 1 := by
  unfold distance at hd ⊢
  rcases lt_or_gt_of_ne hs with hneg | hpos
  · rw [if_neg (by omega)] at hd ⊢
    rw [Lib.Progression.count_eq_of_neg hneg (by omega),abs_of_neg hneg]
  · rw [if_pos hpos] at hd ⊢
    rw [Lib.Progression.count_eq_of_pos hpos (by omega),abs_of_pos hpos]
theorem count_zero (hd : distance a b s ≤ 0) : count a b s = 0 := by
  unfold distance at hd
  split at hd <;> exact Lib.Progression.count_eq_zero (by omega) (by omega)

theorem count_pos (hs : s ≠ 0) : 0 < count a b s ↔ 0 < distance a b s := by
  by_cases hd : 0 < distance a b s
  · have hdiv : 0 ≤ (distance a b s - 1) / |s| := Int.ediv_nonneg (by omega) (abs_nonneg s)
    have heq := count_eq hs hd
    exact iff_of_true (by omega) hd
  · rw [count_zero (by omega)]
    exact iff_of_false (lt_irrefl 0) hd

theorem count_le (hs : s ≠ 0) (hd : 0 < distance a b s) : (count a b s : Int) ≤ distance a b s := by
  have hdiv : (distance a b s - 1) / |s| ≤ distance a b s - 1 := Int.ediv_le_self _ (by omega)
  rw [count_eq hs hd]
  omega

theorem term_between (hs : s ≠ 0) {i : Nat} (hi : i < count a b s) :
    0 < s ∧ a ≤ a + i * s ∧ a + i * s < b ∨ s < 0 ∧ a + i * s ≤ a ∧ b < a + i * s := by
  rcases lt_or_gt_of_ne hs with hneg | hpos
  · have hmul : (i : Int) * s ≤ 0 := mul_nonpos_of_nonneg_of_nonpos (Int.natCast_nonneg i) hneg.le
    exact .inr ⟨hneg,by omega,(Lib.Progression.lt_count_of_neg hneg).mp hi⟩
  · have hmul : 0 ≤ (i : Int) * s := mul_nonneg (Int.natCast_nonneg i) hpos.le
    exact .inl ⟨hpos,by omega,(Lib.Progression.lt_count_of_pos hpos).mp hi⟩

theorem wrap_term (h : Small a b s) (hs : s ≠ 0) {i : Nat} (hi : i < count a b s) :
    wrap (a + wrap (i * s)) = a + i * s := by
  rw [Int64.wrap_add_wrap]
  apply Int64.wrap_of_inRange
  obtain ⟨ha,hb,-⟩ := h
  unfold InRange at ha hb ⊢
  rcases term_between hs hi with ⟨-,h₁,h₂⟩ | ⟨-,h₁,h₂⟩ <;> omega

/-! ## The count in words -/

theorem wrap_of_sum {z : Int} (h : 0 ≤ z) (h' : z < 2 ^ 64 + 2 ^ 63) :
    wrap z = if z < 2 ^ 63 then z else z - 2 ^ 64 := by
  rw [Int64.wrap,Int.bmod_def]
  split <;> split <;> omega
theorem tdiv_nonpos_of_lt {w t : Int} (ht : 0 < t) (h : w < t) : w.tdiv t ≤ 0 := by
  rcases lt_or_ge w 0 with hw | hw
  · have h₁ : 0 ≤ (-w).tdiv t := Int.tdiv_nonneg (by omega) ht.le
    rw [Int.neg_tdiv] at h₁
    omega
  · rw [Int.tdiv_eq_zero_of_lt hw h]
theorem wordCount_fits {d t : Int} (hd : 0 < d) (ht : 0 < t) (hfit : d + t ≤ 2 ^ 63) :
    (wrap (d + t - 1)).tdiv t = (d - 1) / t + 1 := by
  rw [wrap_of_sum (by omega) (by omega),if_pos (by omega),
    Int.tdiv_eq_ediv_of_nonneg (by omega),show d + t - 1 = d - 1 + 1 * t by ring,
    Int.add_mul_ediv_right _ _ ht.ne']
theorem wordCount_overflows {d t : Int} (hd : d < 2 ^ 64) (ht : 0 < t) (ht' : t < 2 ^ 63)
    (hfit : 2 ^ 63 < d + t) : (wrap (d + t - 1)).tdiv t ≤ 0 := by
  rw [wrap_of_sum (by omega) (by omega),if_neg (by omega)]
  exact tdiv_nonpos_of_lt ht (by omega)

theorem wordCount_min {d : Int} (hd : 0 < d) (hd' : d < 2 ^ 64) :
    (wrap (d + 2 ^ 63 - 1)).tdiv (-2 ^ 63) = if d = 1 then 1 else 0 := by
  rw [wrap_of_sum (by omega) (by omega),if_neg (by omega),Int.tdiv_neg]
  split
  · rename_i h
    rw [h]
    decide
  · rcases lt_or_ge (d + 2 ^ 63 - 1 - 2 ^ 64) 0 with h | h
    · have hneg : (-(d + 2 ^ 63 - 1 - 2 ^ 64)).tdiv (2 ^ 63) = 0 :=
        Int.tdiv_eq_zero_of_lt (by omega) (by omega)
      rw [Int.neg_tdiv] at hneg
      omega
    · rw [Int.tdiv_eq_zero_of_lt h (by omega),neg_zero]

theorem length_word (h : Small a b s) (hs : s ≠ 0) (hd : 0 < distance a b s) :
    (newRangeBig a b s).length = (wrap (distance a b s + |s| - 1)).tdiv (wrap |s|) := by
  rw [newRangeBig_small h,RangeObject.length]
  unfold distance at hd ⊢
  simp only
  rcases lt_or_gt_of_ne hs with hneg | hpos
  · rw [if_neg (by omega)] at hd ⊢
    rw [if_neg (by omega),if_neg (by omega),abs_of_neg hneg,sub_eq_add_neg (a - b) s]
  · rw [if_pos hpos] at hd ⊢
    rw [if_neg (by omega),if_pos hpos,abs_of_pos hpos,Int64.wrap_of_inRange h.2.2]
theorem length_empty (h : Small a b s) (hd : distance a b s ≤ 0) :
    (newRangeBig a b s).length = 0 := by
  rw [newRangeBig_small h,RangeObject.length]
  simp only
  unfold distance at hd
  split_ifs at hd ⊢ <;> first | rfl | omega

theorem length_eq (h : Small a b s) (hs : s ≠ 0) (hfit : LenFits a b s) :
    (newRangeBig a b s).length = count a b s := by
  by_cases hd : distance a b s ≤ 0
  · rw [length_empty h hd,count_zero hd,Nat.cast_zero]
  · rw [not_le] at hd
    have habs := abs_pos.mpr hs
    rw [length_word h hs hd,count_eq hs hd]
    rcases hfit with hle | hfit | ⟨rfl,hone⟩
    · omega
    · rw [Int64.wrap_of_inRange (z := |s|) ⟨by omega,by omega⟩]
      exact wordCount_fits hd habs hfit
    · rw [hone]
      decide

theorem length_overflows (h : Small a b s) (hs : s ≠ 0) (hfit : ¬ LenFits a b s) :
    (newRangeBig a b s).length ≤ 0 ∧ 0 < count a b s := by
  unfold LenFits at hfit
  simp only [not_or,not_le,not_and] at hfit
  obtain ⟨hd,hover,hmin⟩ := hfit
  refine ⟨?_,(count_pos hs).mpr hd⟩
  rw [length_word h hs hd]
  have habs := abs_pos.mpr hs
  obtain ⟨ha,hb,hr⟩ := h
  unfold InRange at ha hb hr
  have hfar : distance a b s < 2 ^ 64 := by
    unfold distance
    split <;> omega
  by_cases hm : s = -2 ^ 63
  · have hone := hmin hm
    subst hm
    rw [show wrap |(-2 ^ 63 : Int)| = -2 ^ 63 by decide,show |(-2 ^ 63 : Int)| = 2 ^ 63 by decide,
      wordCount_min hd hfar,if_neg hone]
  · have hlt : |s| < 2 ^ 63 := abs_lt.mpr ⟨by omega,by omega⟩
    rw [Int64.wrap_of_inRange (z := |s|) ⟨by omega,hlt⟩]
    exact wordCount_overflows hfar habs hlt hover

theorem count_lt_of_fits (hs : s ≠ 0) (hfit : LenFits a b s) :
    (count a b s : Int) ≤ 2 ^ 63 - 1 := by
  by_cases hd : 0 < distance a b s
  · have hle := count_le hs hd
    have habs := abs_pos.mpr hs
    unfold LenFits at hfit
    omega
  · have := (count_pos (a := a) (b := b) hs).not.mpr hd
    omega

/-! ## Truth, length and elements -/

/-- The runtime counts right: in arbitrary precision, or in words that fit. -/
def Counted (a b s : Int) : Prop := ¬ Small a b s ∨ LenFits a b s

theorem truth_eq (hs : s ≠ 0) :
    (newRangeBig a b s).truth = true ↔
      0 < distance (fast a b s).1 (fast a b s).2.1 (fast a b s).2.2 ∧
        LenFits (fast a b s).1 (fast a b s).2.1 (fast a b s).2.2 := by
  have hsmall : Small (fast a b s).1 (fast a b s).2.1 (fast a b s).2.2 := by
    unfold fast Small
    refine ⟨?_,?_,?_⟩ <;> simp only <;> split <;> first | assumption | decide
  have hs' : (fast a b s).2.2 ≠ 0 := by
    unfold fast
    simp only
    split
    · exact hs
    · exact one_ne_zero
  have hlength : (newRangeBig a b s).length =
      (newRangeBig (fast a b s).1 (fast a b s).2.1 (fast a b s).2.2).length := by
    rw [newRangeBig_small hsmall]
    rfl
  rw [RangeObject.truth,hlength,decide_eq_true_eq]
  by_cases hfit : LenFits (fast a b s).1 (fast a b s).2.1 (fast a b s).2.2
  · rw [length_eq hsmall hs' hfit,Int.natCast_pos,count_pos hs',and_iff_left hfit]
  · have hover := (length_overflows hsmall hs' hfit).1
    exact ⟨fun h => absurd h (by omega),fun h => absurd h.2 hfit⟩

/-- The words count something for a range that has an element, and nothing for an empty one. -/
def TruthFits (a b s : Int) : Prop :=
  if 0 < distance a b s then
    0 < distance (fast a b s).1 (fast a b s).2.1 (fast a b s).2.2 ∧
      LenFits (fast a b s).1 (fast a b s).2.1 (fast a b s).2.2
  else
    distance (fast a b s).1 (fast a b s).2.1 (fast a b s).2.2 ≤ 0 ∨
      ¬ LenFits (fast a b s).1 (fast a b s).2.1 (fast a b s).2.2

theorem truth_iff (hs : s ≠ 0) :
    (newRangeBig a b s).truth = decide (0 < count a b s) ↔ TruthFits a b s := by
  rw [Bool.eq_iff_iff,truth_eq hs,decide_eq_true_eq,count_pos hs,TruthFits]
  by_cases hd : 0 < distance a b s
  · rw [if_pos hd,iff_true_right hd]
  · rw [if_neg hd,iff_false_right hd,not_and_or,not_lt]

def lenSpec (a b s : Int) : Except Halt Int :=
  if (count a b s : Int) ≤ 2 ^ 63 - 1 then .ok (count a b s)
  else raise .overflowError "Python int too large to convert to C ssize_t"

theorem len_iff (hs : s ≠ 0) : (newRangeBig a b s).len = lenSpec a b s ↔ Counted a b s := by
  unfold RangeObject.len lenSpec
  by_cases hsmall : Small a b s
  · rw [if_neg (newRangeBig_big.not.mpr (not_not.mpr hsmall))]
    by_cases hfit : LenFits a b s
    · refine iff_of_true ?_ (.inr hfit)
      have hle := count_lt_of_fits hs hfit
      rw [length_eq hsmall hs hfit,if_pos hle]
    · obtain ⟨hover,hpos⟩ := length_overflows hsmall hs hfit
      refine iff_of_false (fun h => ?_) (fun h => h.elim (· hsmall) hfit)
      split at h
      · have hlen := Except.ok.inj h
        omega
      · cases h
  · rw [if_pos (newRangeBig_big.mpr hsmall),lengthBig_eq hs]
    refine iff_of_true ?_ (.inl hsmall)
    have hiff : InRange (count a b s) ↔ (count a b s : Int) ≤ 2 ^ 63 - 1 := by
      unfold InRange
      omega
    simp only [hiff]

def element (a b s : Int) (n : Nat) : Option Int := if n < count a b s then some (a + n * s) else none

theorem nth_eq {it : Nat → RangeIter}
    (hnext : ∀ i, (it i).next =
      if i < count a b s then (some (a + i * s), it (i + 1)) else (none, it i)) (i n : Nat) :
    (it i).nth n = element a b s (i + n) := by
  induction n generalizing i with
  | zero =>
    rw [RangeIter.nth,hnext,element,add_zero]
    split <;> rfl
  | succ n ih =>
    rw [RangeIter.nth,hnext]
    split
    · rw [ih,show i + 1 + n = i + (n + 1) by omega]
    · rw [ih,element,element,if_neg (by omega),if_neg (by omega)]

theorem counting_next (h : Small a b s) (hs : s ≠ 0) (i : Nat) :
    (RangeIter.counting (newRangeBig a b s) i (count a b s)).next =
      if i < count a b s then
        (some (a + i * s), .counting (newRangeBig a b s) (i + 1 : Nat) (count a b s))
      else (none, .counting (newRangeBig a b s) i (count a b s)) := by
  rw [RangeIter.next,newRangeBig_small h]
  by_cases hi : i < count a b s
  · rw [if_neg (by omega),if_pos hi,wrap_term h hs hi,Nat.cast_succ]
  · rw [if_pos (by omega),if_neg hi]

theorem walked_iff (hs : s ≠ 0) (i : Nat) :
    (if decide (0 < s) = true then b ≤ a + i * s else a + i * s ≤ b) ↔ ¬ i < count a b s := by
  rcases lt_or_gt_of_ne hs with hneg | hpos
  · rw [if_neg (by simpa using hneg.le),Lib.Progression.lt_count_of_neg hneg,not_lt]
  · rw [if_pos (by simpa using hpos),Lib.Progression.lt_count_of_pos hpos,not_lt]

theorem walking_next (hs : s ≠ 0) (i : Nat) :
    (RangeIter.walking (a + i * s) b s (0 < s)).next =
      if i < count a b s then (some (a + i * s), .walking (a + (i + 1 : Nat) * s) b s (0 < s))
      else (none, .walking (a + i * s) b s (0 < s)) := by
  rw [RangeIter.next]
  by_cases hi : i < count a b s
  · rw [if_neg ((walked_iff hs i).not.mpr (not_not.mpr hi)),if_pos hi,Nat.cast_succ,add_mul,
      one_mul,add_assoc]
  · rw [if_pos ((walked_iff hs i).mpr hi),if_neg hi]

theorem iter_iff (hs : s ≠ 0) :
    (∀ n, (newRangeBig a b s).iter.nth n = element a b s n) ↔ Counted a b s := by
  unfold RangeObject.iter
  by_cases hsmall : Small a b s
  · rw [if_neg (newRangeBig_big.not.mpr (not_not.mpr hsmall))]
    by_cases hfit : LenFits a b s
    · refine iff_of_true (fun n => ?_) (.inr hfit)
      have h := nth_eq (counting_next hsmall hs) 0 n
      rwa [zero_add,Nat.cast_zero,← length_eq hsmall hs hfit] at h
    · obtain ⟨hover,hpos⟩ := length_overflows hsmall hs hfit
      refine iff_of_false (fun h => ?_) (fun h => h.elim (· hsmall) hfit)
      have h₀ := h 0
      rw [RangeIter.nth,RangeIter.next,if_pos hover,element,if_pos hpos] at h₀
      cases h₀
  · rw [if_pos (newRangeBig_big.mpr hsmall),newRangeBig_bStart,newRangeBig_bStop,
      newRangeBig_bStep]
    refine iff_of_true (fun n => ?_) (.inl hsmall)
    have h := nth_eq (walking_next (a := a) (b := b) hs) 0 n
    rwa [Nat.cast_zero,zero_mul,add_zero,zero_add] at h

def place (a b s i : Int) : Int := if i < 0 then i + count a b s else i

theorem getItem_iff (hs : s ≠ 0) {i : Int} (hlow : -(count a b s : Int) ≤ i)
    (hhigh : i < count a b s) :
    (newRangeBig a b s).getItem i = .ok (a + place a b s i * s) ↔
      (Small a b s → LenFits a b s) ∧ (¬ Small a b s → InRange i) := by
  have hplace : 0 ≤ place a b s i ∧ place a b s i < count a b s := by
    unfold place
    split <;> omega
  unfold RangeObject.getItem
  by_cases hsmall : Small a b s
  · by_cases hfit : LenFits a b s
    · refine iff_of_true ?_ ⟨fun _ => hfit,fun h => absurd hsmall h⟩
      have hle := count_lt_of_fits hs hfit
      have hterm := wrap_term hsmall hs (i := (place a b s i).toNat) (by omega)
      rw [Int.toNat_of_nonneg hplace.1] at hterm
      have hkey : (if i < 0 then wrap (i + (newRangeBig a b s).length) else i) =
          place a b s i := by
        rw [length_eq hsmall hs hfit,place]
        split
        · exact Int64.wrap_of_inRange ⟨by omega,by omega⟩
        · rfl
      rw [if_pos (show InRange i from ⟨by omega,by omega⟩),
        if_neg (newRangeBig_big.not.mpr (not_not.mpr hsmall))]
      simp only [hkey]
      rw [length_eq hsmall hs hfit,if_neg (by omega),newRangeBig_small hsmall]
      exact congrArg Except.ok hterm
    · obtain ⟨hover,-⟩ := length_overflows hsmall hs hfit
      refine iff_of_false (fun h => ?_) (fun h => hfit (h.1 hsmall))
      have hout : ∀ k : Int, k < 0 ∨ (newRangeBig a b s).length ≤ k := fun k => by omega
      rw [if_neg (newRangeBig_big.not.mpr (not_not.mpr hsmall))] at h
      simp only [hout,if_true] at h
      split at h <;> cases h
  · rw [if_pos (newRangeBig_big.mpr hsmall),lengthBig_eq hs,newRangeBig_bStart,
      newRangeBig_bStep]
    by_cases hi : InRange i
    · refine iff_of_true ?_ ⟨fun h => absurd h hsmall,fun _ => hi⟩
      rw [if_pos hi]
      unfold place at hplace ⊢
      simp only
      rw [if_neg (by omega),add_comm]
    · refine iff_of_false (fun h => ?_) (fun h => hi (h.2 hsmall))
      rw [if_neg hi] at h
      cases h

def RangeObject.elements (r : RangeObject) : List Int :=
  terms r.bStart r.bStep (count r.bStart r.bStop r.bStep)
theorem elements_newRangeBig : (newRangeBig a b s).elements = terms a s (count a b s) := by
  rw [RangeObject.elements,newRangeBig_bStart,newRangeBig_bStop,newRangeBig_bStep]

theorem lenAsBig_eq (hs : s ≠ 0) (h : Counted a b s) :
    (newRangeBig a b s).lenAsBig = count a b s := by
  unfold RangeObject.lenAsBig
  by_cases hsmall : Small a b s
  · rw [if_neg (newRangeBig_big.not.mpr (not_not.mpr hsmall))]
    exact length_eq hsmall hs (h.resolve_left (not_not.mpr hsmall))
  · rw [if_pos (newRangeBig_big.mpr hsmall),lengthBig_eq hs]

theorem of_not_big {r : RangeObject} (h : r.big = false) :
    r.lenAsBig = r.length ∧ r.bStart = r.start ∧ r.bStep = r.step := by
  refine ⟨by rw [RangeObject.lenAsBig,h]; rfl,?_,?_⟩
  · cases hb : r.bigStart with
    | none => rw [RangeObject.bStart,hb]; rfl
    | some v => simp [RangeObject.big,hb] at h
  · cases hb : r.bigStep with
    | none => rw [RangeObject.bStep,hb]; rfl
    | some v => simp [RangeObject.big,hb] at h

theorem rangeEquals_cases (r r' : RangeObject) :
    rangeEquals r r' =
      (decide (r.lenAsBig = r'.lenAsBig) && (decide (r.lenAsBig = 0) ||
        (decide (r.bStart = r'.bStart) && (decide (r.lenAsBig = 1) ||
          decide (r.bStep = r'.bStep))))) := by
  unfold rangeEquals
  split
  · split_ifs <;> simp_all
  · rename_i hbig
    rw [Bool.or_eq_true,not_or,Bool.not_eq_true,Bool.not_eq_true] at hbig
    obtain ⟨h₁,h₂,h₃⟩ := of_not_big hbig.1
    obtain ⟨h₁',h₂',h₃'⟩ := of_not_big hbig.2
    rw [h₁,h₂,h₃,h₁',h₂',h₃']
    split_ifs <;> simp_all

theorem rangeEquals_iff {a' b' s' : Int} (hs : s ≠ 0) (hs' : s' ≠ 0) (h : Counted a b s)
    (h' : Counted a' b' s') :
    rangeEquals (newRangeBig a b s) (newRangeBig a' b' s') = true ↔
      (newRangeBig a b s).elements = (newRangeBig a' b' s').elements := by
  rw [elements_newRangeBig,elements_newRangeBig,Lib.Progression.terms_eq_iff,rangeEquals_cases,
    lenAsBig_eq hs h,lenAsBig_eq hs' h',newRangeBig_bStart,newRangeBig_bStart,
    newRangeBig_bStep,newRangeBig_bStep]
  simp only [Bool.and_eq_true,Bool.or_eq_true,decide_eq_true_eq]
  norm_cast

end
end Unagi.Objects
