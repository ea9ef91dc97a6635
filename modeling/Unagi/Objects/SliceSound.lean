import Mathlib.Tactic.IntervalCases
import Unagi.Objects.Slice

/-! # Slices select the index sequence of Python

The indices of a slice in unbounded integers, as `slice.indices` has them, and what the three
operations do at those indices. -/

namespace Unagi.Objects

open Int64 (wrap InRange)
open Lib.Progression (terms count)

variable {α : Type}

/-- The elements of a list object. An element takes 16 bytes, so that a Go slice has less than
`2 ^ 59` of them. -/
structure Elts (α : Type) where
  list : List α
  bound : list.length < 2 ^ 59

def clampIndex (st len v : Int) : Int :=
  if v < 0 then max (v + len) (if st < 0 then -1 else 0)
  else min v (if st < 0 then len - 1 else len)
def firstIndex (lo : Option Int) (st len : Int) : Int :=
  lo.elim (if st < 0 then len - 1 else 0) (clampIndex st len)
def endIndex (hi : Option Int) (st len : Int) : Int :=
  hi.elim (if st < 0 then -1 else len) (clampIndex st len)
def indexCount (lo hi : Option Int) (st len : Int) : Nat :=
  count (firstIndex lo st len) (endIndex hi st len) st
def indexSeq (lo hi : Option Int) (st len : Int) : List Int :=
  terms (firstIndex lo st len) st (indexCount lo hi st len)
def SlicePart.ofOption : Option Int → SlicePart
  | .none => .none
  | some v => .int v

section
variable {lo hi : Option Int} {st len v : Int}

private theorem clampIndex_mem (hlen : 0 ≤ len) :
    -1 ≤ clampIndex st len v ∧ clampIndex st len v ≤ len ∧ (0 < st → 0 ≤ clampIndex st len v) ∧
      (st < 0 → clampIndex st len v < len) := by
  unfold clampIndex
  split_ifs <;> omega

theorem firstIndex_mem (lo : Option Int) (st : Int) (hlen : 0 ≤ len) :
    -1 ≤ firstIndex lo st len ∧ firstIndex lo st len ≤ len ∧ (0 < st → 0 ≤ firstIndex lo st len) ∧
      (st < 0 → firstIndex lo st len < len) := by
  cases lo with
  | none =>
    simp only [firstIndex,Option.elim]
    split <;> omega
  | some v => exact clampIndex_mem hlen

theorem endIndex_mem (hi : Option Int) (st : Int) (hlen : 0 ≤ len) :
    -1 ≤ endIndex hi st len ∧ endIndex hi st len ≤ len := by
  cases hi with
  | none =>
    simp only [endIndex,Option.elim]
    split <;> omega
  | some v => exact ⟨(clampIndex_mem hlen).1,(clampIndex_mem hlen).2.1⟩

theorem indexSeq_mem (hlen : 0 ≤ len) (hst : st ≠ 0) {i : Nat} (hi' : i < indexCount lo hi st len) :
    0 ≤ firstIndex lo st len + i * st ∧ firstIndex lo st len + i * st < len := by
  obtain ⟨-,-,hlow,hhigh⟩ := firstIndex_mem lo st hlen
  obtain ⟨hend,hend'⟩ := endIndex_mem hi st hlen
  rcases lt_or_gt_of_ne hst with hneg | hpos
  · have h := (Lib.Progression.lt_count_of_neg hneg).mp hi'
    have hmul : (i : Int) * st ≤ 0 := mul_nonpos_of_nonneg_of_nonpos (Int.natCast_nonneg i) hneg.le
    have := hhigh hneg
    omega
  · have h := (Lib.Progression.lt_count_of_pos hpos).mp hi'
    have hmul : 0 ≤ (i : Int) * st := mul_nonneg (Int.natCast_nonneg i) hpos.le
    have := hlow hpos
    omega

/-! ## The words hold them -/

private theorem indexSized_neg : indexSized v < 0 ↔ v < 0 := by
  unfold indexSized InRange
  split_ifs <;> omega
private theorem indexSized_pos : 0 < indexSized v ↔ 0 < v := by
  unfold indexSized InRange
  split_ifs <;> omega

private theorem indexSized_eq_zero : indexSized v = 0 ↔ v = 0 := by
  have hneg := indexSized_neg (v := v)
  have hpos := indexSized_pos (v := v)
  omega
private theorem indexSized_eq_one : indexSized v = 1 ↔ v = 1 := by
  unfold indexSized InRange
  split_ifs <;> omega
variable {step : Option Int} {d start stop : Int}

private theorem getD_ne_zero (hstep : step ≠ some 0) : step.getD 1 ≠ 0 := by
  cases step with
  | none => exact one_ne_zero
  | some v => exact fun h => hstep (congrArg some h)
theorem indexSized_inRange : InRange (indexSized v) := by
  unfold indexSized
  split
  · assumption
  · unfold InRange
    split <;> omega

private theorem clampSliceIndex_eq (hlen : 0 ≤ len) (hlen' : len < 2 ^ 62) :
    clampSliceIndex (indexSized v) len (indexSized st) = clampIndex st len v := by
  have hr := indexSized_inRange (v := v)
  have hsum : indexSized v < 0 → wrap (indexSized v + len) = indexSized v + len := by
    intro hneg
    apply Int64.wrap_of_inRange
    unfold InRange at hr ⊢
    omega
  unfold clampSliceIndex clampIndex
  simp only [indexSized_neg (v := st)]
  by_cases hneg : indexSized v < 0
  · rw [if_pos hneg,if_pos (indexSized_neg.mp hneg),hsum hneg]
    unfold indexSized InRange at hneg ⊢
    split_ifs at hneg ⊢ <;> omega
  · rw [if_neg hneg,if_neg (fun h => hneg (indexSized_neg.mpr h))]
    unfold indexSized InRange at hneg ⊢
    split_ifs at hneg ⊢ <;> omega

private theorem ediv_indexSized (hd : 0 ≤ d) (hd' : d < 2 ^ 62) (h : 0 < st) :
    d / indexSized st = d / st := by
  unfold indexSized
  split
  · rfl
  · rename_i hout
    have hbig : 2 ^ 63 ≤ st := by
      unfold InRange at hout
      omega
    rw [Int.ediv_eq_zero_of_lt hd (by omega),Int.ediv_eq_zero_of_lt hd (by omega)]

private theorem ediv_neg_indexSized (hd : 0 ≤ d) (hd' : d < 2 ^ 62) (h : st < 0) :
    d / -indexSized st = d / -st := by
  unfold indexSized
  split
  · rfl
  · rename_i hout
    have hbig : st < -2 ^ 63 := by
      unfold InRange at hout
      omega
    rw [if_neg (by omega),Int.ediv_eq_zero_of_lt hd (by omega),
      Int.ediv_eq_zero_of_lt hd (by omega)]

/-- In words the most negative step is its own negation, and divides a distance to zero as it
should. -/
theorem tdiv_neg_indexSized (hd : 0 ≤ d) (hd' : d < 2 ^ 62) (h : st < 0) :
    d.tdiv (wrap (-indexSized st)) = d / -st := by
  rw [Int.tdiv_eq_ediv_of_nonneg hd]
  by_cases hmin : st = -2 ^ 63
  · subst hmin
    rw [show wrap (-indexSized (-2 ^ 63)) = -2 ^ 63 by decide,Int.ediv_neg,
      Int.ediv_eq_zero_of_lt hd (by omega),neg_zero,Int.ediv_eq_zero_of_lt hd (by omega)]
  · have hr : InRange (-indexSized st) := by
      unfold indexSized InRange
      split_ifs <;> omega
    rw [Int64.wrap_of_inRange hr,ediv_neg_indexSized hd hd' h]

theorem count_indexSized (h : |stop - start| ≤ 2 ^ 62) :
    count start stop (indexSized st) = count start stop st := by
  rw [abs_le] at h
  apply Int.natCast_inj.mp
  rcases lt_trichotomy st 0 with hneg | rfl | hpos
  · have hneg' := indexSized_neg.mpr hneg
    rcases lt_or_ge stop start with hlt | hge
    · rw [Lib.Progression.count_eq_of_neg hneg hlt,Lib.Progression.count_eq_of_neg hneg' hlt,
        ediv_neg_indexSized (by omega) (by omega) hneg]
    · rw [Lib.Progression.count_eq_zero (by omega) (by omega),
        Lib.Progression.count_eq_zero (by omega) (by omega)]
  · rfl
  · have hpos' := indexSized_pos.mpr hpos
    rcases lt_or_ge start stop with hlt | hge
    · rw [Lib.Progression.count_eq_of_pos hpos hlt,Lib.Progression.count_eq_of_pos hpos' hlt,
        ediv_indexSized (by omega) (by omega) hpos]
    · rw [Lib.Progression.count_eq_zero (by omega) (by omega),
        Lib.Progression.count_eq_zero (by omega) (by omega)]

private theorem sliceLength_eq (hstart : -1 ≤ start ∧ start ≤ len) (hstop : -1 ≤ stop ∧ stop ≤ len)
    (hlen : len < 2 ^ 59) : sliceLength start stop (indexSized st) = count start stop st := by
  unfold sliceLength
  simp only [indexSized_neg,indexSized_pos]
  split
  · rename_i h
    rw [Int.tdiv_eq_ediv_of_nonneg (by omega),ediv_indexSized (by omega) (by omega) h.1,Lib.Progression.count_eq_of_pos h.1 h.2]
  · split
    · rename_i h
      rw [tdiv_neg_indexSized (by omega) (by omega) h.1,Lib.Progression.count_eq_of_neg h.1 h.2]
    · rw [Lib.Progression.count_eq_zero (by omega) (by omega),Nat.cast_zero]

theorem terms_indexSized {n : Nat} (hstart : -1 ≤ start ∧ start ≤ len)
    (hstop : -1 ≤ stop ∧ stop ≤ len) (hlen : len < 2 ^ 62) (hn : n = count start stop st) :
    terms start (indexSized st) n = terms start st n := by
  by_cases hr : InRange st
  · rw [indexSized,if_pos hr]
  · have hone : n ≤ 1 := by
      by_contra htwo
      have hlt : 1 < count start stop st := by omega
      unfold InRange at hr
      rcases lt_trichotomy st 0 with h | h | h
      · have := (Lib.Progression.lt_count_of_neg h).mp hlt
        omega
      · omega
      · have := (Lib.Progression.lt_count_of_pos h).mp hlt
        omega
    interval_cases n <;> rfl

private theorem slicePart_ofOption (v : Option Int) :
    slicePart (.ofOption v) = .ok (v.map indexSized) := by
  cases v <;> rfl
private theorem sliceBounds_zero (lo hi : SlicePart) (n : Int) :
    sliceBounds lo hi (.int 0) n = raise .valueError "slice step cannot be zero" := rfl

theorem sliceBounds_eq (lo hi : Option Int) (hstep : step ≠ some 0) (hlen : 0 ≤ len)
    (hlen' : len < 2 ^ 62) :
    sliceBounds (.ofOption lo) (.ofOption hi) (.ofOption step) len =
      .ok (firstIndex lo (step.getD 1) len, endIndex hi (step.getD 1) len,
        indexSized (step.getD 1)) := by
  have hst : sliceStep (.ofOption step) = .ok (indexSized (step.getD 1)) := by
    cases step with
    | none => rfl
    | some v =>
      have hv : ¬ indexSized v = 0 := fun h => getD_ne_zero hstep (indexSized_eq_zero.mp h)
      rw [sliceStep,slicePart_ofOption]
      simp only [Option.map_some,bind,Except.bind,if_neg hv]
      rfl
  have hlo : ((lo.map indexSized).elim (if indexSized (step.getD 1) < 0 then len - 1 else 0)
      (clampSliceIndex · len (indexSized (step.getD 1)))) = firstIndex lo (step.getD 1) len := by
    cases lo with
    | none => simp only [Option.map_none,Option.elim,firstIndex,indexSized_neg]
    | some v => exact clampSliceIndex_eq hlen hlen'
  have hhi : ((hi.map indexSized).elim (if indexSized (step.getD 1) < 0 then -1 else len)
      (clampSliceIndex · len (indexSized (step.getD 1)))) = endIndex hi (step.getD 1) len := by
    cases hi with
    | none => simp only [Option.map_none,Option.elim,endIndex,indexSized_neg]
    | some v => exact clampSliceIndex_eq hlen hlen'
  rw [sliceBounds,hst,slicePart_ofOption,slicePart_ofOption]
  simp only [bind,Except.bind,hlo,hhi]
  rfl

theorem sliceIndices_eq (hstep : step ≠ some 0) {n : Nat} (hn : n < 2 ^ 59) :
    sliceIndices (.ofOption lo) (.ofOption hi) (.ofOption step) n =
      .ok (firstIndex lo (step.getD 1) n, indexSized (step.getD 1),
        indexCount lo hi (step.getD 1) n) := by
  have hlen : (0 : Int) ≤ n := Int.natCast_nonneg n
  have hlen' : (n : Int) < 2 ^ 59 := by exact_mod_cast hn
  obtain ⟨h₁,h₂,-⟩ := firstIndex_mem lo (step.getD 1) hlen
  rw [sliceIndices,sliceBounds_eq lo hi hstep hlen (by omega)]
  simp only [bind,Except.bind,pure,Except.pure]
  rw [sliceLength_eq ⟨h₁,h₂⟩ (endIndex_mem hi _ hlen) hlen']
  rfl

end

/-! ## The operations at the indices -/

section
variable {elts : List α} {j st : Int} {n : Nat}

def Within (elts : List α) (j st : Int) (n : Nat) : Prop :=
  ∀ i < n, 0 ≤ j + (i : Nat) * st ∧ j + (i : Nat) * st < elts.length

private theorem Within.next (h : Within elts j st (n + 1)) (hlen : elts.length < 2 ^ 59) :
    n = 0 ∨ wrap (j + st) = j + st ∧ Within elts (j + st) st n := by
  cases n with
  | zero => exact .inl rfl
  | succ n =>
    refine .inr ⟨Int64.wrap_of_inRange ?_,fun i hi => ?_⟩
    · have h₁ := h 1 (by omega)
      push_cast at h₁
      unfold InRange
      omega
    · have hi' := h (i + 1) (by omega)
      have heq : j + ((i + 1 : Nat) : Int) * st = j + st + i * st := by
        push_cast
        ring
      rwa [heq] at hi'

private theorem pickSlice_terms (h : Within elts j st n) (hlen : elts.length < 2 ^ 59) :
    ∃ ys, pickSlice elts st j n = .ok ys ∧
      ys.map some = (terms j st n).map fun i => elts[i.toNat]? := by
  induction n generalizing j with
  | zero => exact ⟨[],rfl,rfl⟩
  | succ n ih =>
    have h₀ := h 0 (by omega)
    simp only [Nat.cast_zero,zero_mul,add_zero] at h₀
    have hget : elts[j.toNat]? = some (elts.get ⟨j.toNat,by omega⟩) :=
      List.getElem?_eq_getElem (by omega)
    have hindex : index elts j = .ok (elts.get ⟨j.toNat,by omega⟩) := by
      rw [index,if_pos h₀.1,hget]
      rfl
    have hrest : ∃ ys, pickSlice elts st (wrap (j + st)) n = .ok ys ∧
        ys.map some = (terms (j + st) st n).map fun i => elts[i.toNat]? := by
      rcases h.next hlen with rfl | ⟨hwrap,hnext⟩
      · exact ⟨[],rfl,rfl⟩
      · rw [hwrap]
        exact ih hnext
    obtain ⟨ys,hpick,hys⟩ := hrest
    refine ⟨elts.get ⟨j.toNat,by omega⟩ :: ys,?_,?_⟩
    · rw [pickSlice,hindex,hpick]
      rfl
    · rw [List.map_cons,hys,terms,List.map_cons,hget]

private theorem assign_terms {items : List α} (h : Within elts j st items.length) (hst : st ≠ 0)
    (hlen : elts.length < 2 ^ 59) :
    ∃ ys, assign st elts j items = (.ok (), ys) ∧ ys.length = elts.length ∧
      (∀ i < items.length, ys[(j + (i : Nat) * st).toNat]? = items[i]?) ∧
      ∀ k : Nat, (k : Int) ∉ terms j st items.length → ys[k]? = elts[k]? := by
  induction items generalizing elts j with
  | nil => exact ⟨elts,rfl,rfl,fun i hi => absurd hi (by simp),fun _ _ => rfl⟩
  | cons v items ih =>
    have h₀ := h 0 (by simp)
    simp only [Nat.cast_zero,zero_mul,add_zero] at h₀
    have hrest : ∃ ys, assign st (elts.set j.toNat v) (wrap (j + st)) items = (.ok (), ys) ∧
        ys.length = elts.length ∧
        (∀ i < items.length, ys[(j + st + (i : Nat) * st).toNat]? = items[i]?) ∧
        ∀ k : Nat, (k : Int) ∉ terms (j + st) st items.length →
          ys[k]? = (elts.set j.toNat v)[k]? := by
      rcases h.next hlen with hnil | ⟨hwrap,hnext⟩
      · obtain rfl := List.length_eq_zero_iff.mp hnil
        exact ⟨_,rfl,List.length_set,fun i hi => absurd hi (by simp),fun _ _ => rfl⟩
      · have hset : Within (elts.set j.toNat v) (j + st) st items.length := by
          unfold Within
          rw [List.length_set]
          exact hnext
        have hih := ih hset (by rwa [List.length_set])
        rw [List.length_set] at hih
        rwa [hwrap]
    obtain ⟨ys,hassign,hsize,hitems,hothers⟩ := hrest
    refine ⟨ys,?_,hsize,fun i hi => ?_,fun k hk => ?_⟩
    · rw [assign,if_pos h₀,hassign]
    · cases i with
      | zero =>
        -- the later indices differ from the first
        have hfirst : ((j.toNat : Nat) : Int) ∉ terms (j + st) st items.length := by
          rw [Lib.Progression.mem_terms]
          rintro ⟨i,-,hi⟩
          have hzero : ((i : Int) + 1) * st = 0 := by
            rw [Int.toNat_of_nonneg h₀.1] at hi
            linarith
          rcases mul_eq_zero.mp hzero with h' | h'
          · omega
          · exact hst h'
        rw [Nat.cast_zero,zero_mul,add_zero,hothers _ hfirst,
          List.getElem?_set_self (by omega)]
        rfl
      | succ i =>
        have heq : j + ((i + 1 : Nat) : Int) * st = j + st + i * st := by
          push_cast
          ring
        rw [heq,hitems i (by simpa using hi),List.getElem?_cons_succ]
    · rw [List.length_cons,terms,List.mem_cons,not_or] at hk
      rw [hothers k hk.2,List.getElem?_set_ne (by omega)]

def dropAt (indices : List Int) (elts : List α) (i : Nat) : List α :=
  ((elts.zipIdx i).filter fun p => (p.2 : Int) ∉ indices).map Prod.fst

private theorem dropAt_nil_indices (elts : List α) (i : Nat) : dropAt [] elts i = elts := by
  induction elts generalizing i with
  | nil => rfl
  | cons e elts ih =>
    have h := ih (i + 1)
    simp only [dropAt,List.not_mem_nil,not_false_eq_true,decide_true,List.filter_true] at h ⊢
    rw [List.zipIdx_cons,List.map_cons,h]

private theorem dropAt_cons (indices : List Int) (e : α) (elts : List α) (i : Nat) :
    dropAt indices (e :: elts) i =
      if (i : Int) ∈ indices then dropAt indices elts (i + 1)
      else e :: dropAt indices elts (i + 1) := by
  unfold dropAt
  rw [List.zipIdx_cons]
  by_cases h : (i : Int) ∈ indices
  · rw [if_pos h,List.filter_cons_of_neg (by simpa using h)]
  · rw [if_neg h,List.filter_cons_of_pos (by simpa using h),List.map_cons]

private theorem dropAt_congr {indices indices' : List Int} {i : Nat}
    (h : ∀ k : Nat, i ≤ k → ((k : Int) ∈ indices ↔ (k : Int) ∈ indices')) :
    dropAt indices elts i = dropAt indices' elts i := by
  induction elts generalizing i with
  | nil => rfl
  | cons e elts ih =>
    rw [dropAt_cons,dropAt_cons,ih fun k hk => h k (by omega)]
    simp only [h i le_rfl]

private theorem dropAt_segment {indices : List Int} {a b : Nat} (hab : a ≤ b)
    (h : ∀ k : Nat, (k : Int) ∈ indices ↔ a ≤ k ∧ k < b) (i : Nat) :
    dropAt indices elts i = elts.take (a - i) ++ elts.drop (b - i) := by
  induction elts generalizing i with
  | nil => simp [dropAt]
  | cons e elts ih =>
    rw [dropAt_cons,ih (i + 1)]
    simp only [h i]
    by_cases ha : a ≤ i
    · rw [Nat.sub_eq_zero_of_le ha,Nat.sub_eq_zero_of_le (by omega : a ≤ i + 1)]
      by_cases hb : i < b
      · rw [if_pos ⟨ha,hb⟩,show b - i = b - (i + 1) + 1 by omega,List.drop_succ_cons]
        rfl
      · rw [if_neg (fun hi => hb hi.2),Nat.sub_eq_zero_of_le (by omega : b ≤ i),
          Nat.sub_eq_zero_of_le (by omega : b ≤ i + 1)]
        rfl
    · rw [if_neg (fun hi => ha hi.1),show a - i = a - (i + 1) + 1 by omega,
        show b - i = b - (i + 1) + 1 by omega,List.take_succ_cons,List.drop_succ_cons]
      rfl

theorem sweep_terms {dropped next : Int} {i m : Nat} (hm : dropped + m = n) (hi : 1 ≤ m → i ≤ next)
    (hst : 2 ≤ m → 0 < st ∧ next + (m - 1) * st < 2 ^ 59) :
    sweep n st elts i next dropped = dropAt (terms next st m) elts i := by
  induction elts generalizing i next dropped m with
  | nil => rfl
  | cons e elts ih =>
    rw [sweep,dropAt_cons]
    cases m with
    | zero =>
      rw [if_neg (by omega),terms,if_neg List.not_mem_nil,← Nat.cast_succ,
        ih hm (by omega) (by omega)]
      rfl
    | succ m =>
      have hnext := hi (by omega)
      -- the terms behind the next one
      have hlater : ∀ k : Nat, (k : Int) ∈ terms (next + st) st m → next < k := by
        intro k hk
        obtain ⟨r,hr,hk⟩ := Lib.Progression.mem_terms.mp hk
        have hpos := (hst (by omega)).1
        have hmul : 0 ≤ (r : Int) * st := mul_nonneg (Int.natCast_nonneg r) hpos.le
        omega
      by_cases heq : (i : Int) = next
      · rw [if_pos ⟨by omega,heq⟩,terms,if_pos (by rw [heq]; exact List.mem_cons_self)]
        have hskip : dropAt (next :: terms (next + st) st m) elts (i + 1) =
            dropAt (terms (next + st) st m) elts (i + 1) := by
          apply dropAt_congr
          intro k hk
          rw [List.mem_cons,or_iff_right (by omega)]
        rw [hskip,← Nat.cast_succ]
        cases m with
        | zero =>
          -- no term is left, and the next index is not read
          have hnone : sweep n st elts (i + 1 : Nat) (wrap (next + st)) (dropped + 1) =
              dropAt (terms (wrap (next + st)) st 0) elts (i + 1) :=
            ih (by push_cast at hm ⊢; omega) (by omega) (by omega)
          exact hnone
        | succ m =>
          obtain ⟨hpos,hlast⟩ := hst (by omega)
          have hmul : 0 ≤ (m : Int) * st := mul_nonneg (Int.natCast_nonneg m) hpos.le
          push_cast at hlast
          have hbound : next + (m + 1 + 1 - 1) * st = next + st + m * st := by ring
          rw [hbound] at hlast
          rw [Int64.wrap_of_inRange ⟨by omega,by omega⟩]
          refine ih (by push_cast at hm ⊢; omega) (by omega) fun _ => ⟨hpos,?_⟩
          push_cast
          rwa [add_sub_cancel_right]
      · have hnot : (i : Int) ∉ terms next st (m + 1) := by
          rw [terms,List.mem_cons,not_or]
          refine ⟨heq,fun hmem => ?_⟩
          have := hlater i hmem
          omega
        rw [if_neg (fun h => heq h.2),if_neg hnot,← Nat.cast_succ,ih hm (by omega) hst]

end

/-! ## The three operations -/

section
variable {lo hi step : Option Int}

private theorem indexCount_within (xs : Elts α) (hstep : step ≠ some 0) :
    Within xs.list (firstIndex lo (step.getD 1) xs.list.length) (step.getD 1)
      (indexCount lo hi (step.getD 1) xs.list.length) := by
  intro i hi'
  exact indexSeq_mem (Int.natCast_nonneg _) (getD_ne_zero hstep) hi'

private theorem terms_sized (xs : Elts α) :
    terms (firstIndex lo (step.getD 1) xs.list.length) (indexSized (step.getD 1))
        (indexCount lo hi (step.getD 1) xs.list.length) =
      indexSeq lo hi (step.getD 1) xs.list.length := by
  have hlen : (0 : Int) ≤ xs.list.length := Int.natCast_nonneg _
  obtain ⟨h₁,h₂,-⟩ := firstIndex_mem lo (step.getD 1) hlen
  have hbound : (xs.list.length : Int) < 2 ^ 59 := by exact_mod_cast xs.bound
  exact terms_indexSized ⟨h₁,h₂⟩ (endIndex_mem hi _ hlen) (by omega) rfl

private theorem within_sized (xs : Elts α) (lo hi : Option Int) (hstep : step ≠ some 0) :
    Within xs.list (firstIndex lo (step.getD 1) xs.list.length) (indexSized (step.getD 1))
      (indexCount lo hi (step.getD 1) xs.list.length) := by
  intro i hi'
  have hmem : firstIndex lo (step.getD 1) xs.list.length + i * indexSized (step.getD 1) ∈
      terms (firstIndex lo (step.getD 1) xs.list.length) (indexSized (step.getD 1))
        (indexCount lo hi (step.getD 1) xs.list.length) :=
    Lib.Progression.mem_terms.mpr ⟨i,hi',rfl⟩
  rw [terms_sized] at hmem
  obtain ⟨k,hk,heq⟩ := Lib.Progression.mem_terms.mp hmem
  rw [heq]
  exact indexCount_within xs hstep k hk

private theorem getSlice_eq (xs : Elts α) (hstep : step ≠ some 0) :
    ∃ ys, getSlice xs.list (.ofOption lo) (.ofOption hi) (.ofOption step) = .ok ys ∧
      ys.map some =
        (indexSeq lo hi (step.getD 1) xs.list.length).map fun i => xs.list[i.toNat]? := by
  obtain ⟨ys,hpick,hys⟩ := pickSlice_terms (within_sized xs lo hi hstep) xs.bound
  rw [terms_sized] at hys
  refine ⟨ys,?_,hys⟩
  rw [getSlice,sliceIndices_eq hstep xs.bound]
  exact hpick

private theorem segment_end (xs : Elts α) :
    (firstIndex lo 1 xs.list.length + indexCount lo hi 1 xs.list.length : Int) =
      max (firstIndex lo 1 xs.list.length) (endIndex hi 1 xs.list.length) := by
  rw [indexCount]
  rcases lt_or_ge (firstIndex lo 1 (xs.list.length : Int)) (endIndex hi 1 xs.list.length) with h | h
  · rw [Lib.Progression.count_eq_of_pos one_pos h,Int.ediv_one]
    omega
  · rw [Lib.Progression.count_eq_zero (fun _ => h) (by omega)]
    omega

theorem sweep_backward {elts : List α} {start st : Int} {n : Nat} (h : Within elts start st n)
    (hn : n ≠ 0) (hst : st < 0) (hlen : elts.length < 2 ^ 59) :
    sweep n (wrap (-st)) elts 0 (wrap (start + wrap ((n - 1) * st))) 0 =
      dropAt (terms start st n) elts 0 := by
  have hlast : 0 ≤ start + (n - 1) * st ∧ start + (n - 1) * st < elts.length := by
    have hl := h (n - 1) (by omega)
    rwa [Nat.cast_sub (by omega),Nat.cast_one] at hl
  have hfirst : 0 ≤ start ∧ start < elts.length := by
    have hf := h 0 (by omega)
    simpa using hf
  have hstart : wrap (start + wrap ((n - 1) * st)) = start + (n - 1) * st := by
    rw [Int64.wrap_add_wrap]
    exact Int64.wrap_of_inRange ⟨by omega,by omega⟩
  -- with two indices the step is within the list
  have htwo : 2 ≤ n → wrap (-st) = -st := by
    intro htwo
    have h₁ := h 1 (by omega)
    push_cast at h₁
    exact Int64.wrap_of_inRange ⟨by omega,by omega⟩
  have hsame : terms (start + (n - 1) * st) (wrap (-st)) n =
      terms (start + (n - 1) * st) (-st) n := by
    rcases Nat.lt_or_ge n 2 with hone | htwo'
    · obtain rfl : n = 1 := by omega
      rfl
    · rw [htwo htwo']
  have hsweep : sweep n (wrap (-st)) elts (0 : Nat) (start + (n - 1) * st) 0 =
      dropAt (terms (start + (n - 1) * st) (wrap (-st)) n) elts 0 := by
    apply sweep_terms
    · rw [zero_add]
    · exact fun _ => hlast.1
    · intro htwo'
      rw [htwo htwo']
      refine ⟨by omega,?_⟩
      have hback : start + (n - 1) * st + (n - 1) * -st = start := by ring
      rw [hback]
      omega
  rw [hstart]
  refine hsweep.trans ?_
  rw [hsame]
  exact dropAt_congr fun k _ => Lib.Progression.mem_terms_reverse

theorem sweep_forward {elts : List α} {start st : Int} {n : Nat} (h : Within elts start st n)
    (hn : n ≠ 0) (hst : 0 < st) (hlen : elts.length < 2 ^ 59) :
    sweep n st elts 0 start 0 = dropAt (terms start st n) elts 0 := by
  have hfirst : 0 ≤ start ∧ start < elts.length := by
    have hf := h 0 (by omega)
    simpa using hf
  have hlast := h (n - 1) (by omega)
  rw [Nat.cast_sub (by omega),Nat.cast_one] at hlast
  have hsweep : sweep n st elts (0 : Nat) start 0 = dropAt (terms start st n) elts 0 := by
    apply sweep_terms
    · rw [zero_add]
    · exact fun _ => hfirst.1
    · exact fun _ => ⟨hst,by omega⟩
  exact hsweep

private theorem delSlice_eq (xs : Elts α) (hstep : step ≠ some 0) :
    delSlice xs.list (.ofOption lo) (.ofOption hi) (.ofOption step) =
      (.ok (), dropAt (indexSeq lo hi (step.getD 1) xs.list.length) xs.list 0) := by
  have hwithin := within_sized xs lo hi hstep
  have hst : indexSized (step.getD 1) ≠ 0 := indexSized_eq_zero.not.mpr (getD_ne_zero hstep)
  rw [delSlice,sliceIndices_eq hstep xs.bound,← terms_sized]
  generalize firstIndex lo (step.getD 1) xs.list.length = start at hwithin ⊢
  generalize indexCount lo hi (step.getD 1) xs.list.length = n at hwithin ⊢
  generalize indexSized (step.getD 1) = st at hwithin hst ⊢
  simp only
  split_ifs with hzero hone hneg
  · obtain rfl : n = 0 := by exact_mod_cast hzero
    rw [terms,dropAt_nil_indices]
  · subst hone
    have hn : n ≠ 0 := by exact_mod_cast hzero
    have hfirst := hwithin 0 (by omega)
    simp only [Nat.cast_zero,zero_mul,add_zero] at hfirst
    rw [dropAt_segment (a := start.toNat) (b := (start + n).toNat) (by omega) ?_ 0]
    · rfl
    · intro k
      rw [Lib.Progression.mem_terms]
      constructor
      · rintro ⟨i,hi,hk⟩
        omega
      · rintro ⟨h₁,h₂⟩
        exact ⟨k - start.toNat,by omega,by omega⟩
  · rw [sweep_backward hwithin (by exact_mod_cast hzero) hneg xs.bound]
  · have hn : n ≠ 0 := by exact_mod_cast hzero
    rw [sweep_forward hwithin hn (by omega) xs.bound]

private theorem setSlice_one (xs : Elts α) (hone : step.getD 1 = 1) (items : List α) :
    setSlice xs.list (.ofOption lo) (.ofOption hi) (.ofOption step) (.ok items) =
      (.ok (), xs.list.take (firstIndex lo 1 xs.list.length).toNat ++ items ++
        xs.list.drop
          (max (firstIndex lo 1 xs.list.length) (endIndex hi 1 xs.list.length)).toNat) := by
  have hstep : step ≠ some 0 := by
    rintro rfl
    cases hone
  rw [setSlice,sliceIndices_eq hstep xs.bound,hone]
  simp only
  rw [if_pos (indexSized_eq_one.mpr rfl),segment_end]

private theorem setSlice_extended (xs : Elts α) (hstep : step ≠ some 0) (hone : step.getD 1 ≠ 1)
    {items : List α}
    (hsize : items.length = (indexSeq lo hi (step.getD 1) xs.list.length).length) :
    ∃ ys, setSlice xs.list (.ofOption lo) (.ofOption hi) (.ofOption step) (.ok items) =
        (.ok (), ys) ∧
      ys.length = xs.list.length ∧
      (∀ (i : Nat) (k : Int), (indexSeq lo hi (step.getD 1) xs.list.length)[i]? = some k →
        ys[k.toNat]? = items[i]?) ∧
      ∀ k : Nat, (k : Int) ∉ indexSeq lo hi (step.getD 1) xs.list.length →
        ys[k]? = xs.list[k]? := by
  rw [indexSeq,Lib.Progression.length_terms] at hsize
  have hwithin := within_sized xs lo hi hstep
  rw [← hsize] at hwithin
  obtain ⟨ys,hassign,hlen,hitems,hothers⟩ := assign_terms hwithin
    (indexSized_eq_zero.not.mpr (getD_ne_zero hstep)) xs.bound
  rw [hsize,terms_sized] at hothers
  refine ⟨ys,?_,hlen,fun i k hk => ?_,hothers⟩
  · rw [setSlice,sliceIndices_eq hstep xs.bound]
    simp only
    rw [if_neg (indexSized_eq_one.not.mpr hone),if_neg (by rw [hsize]; simp)]
    exact hassign
  · rw [← terms_sized] at hk
    have hi' : i < indexCount lo hi (step.getD 1) xs.list.length := by
      have hlt := (List.getElem?_eq_some_iff.mp hk).1
      rwa [Lib.Progression.length_terms] at hlt
    rw [Lib.Progression.getElem?_terms hi'] at hk
    rw [← Option.some.inj hk]
    exact hitems i (hsize ▸ hi')

private theorem setSlice_sizes (xs : Elts α) (hstep : step ≠ some 0) (hone : step.getD 1 ≠ 1)
    {items : List α}
    (hsize : items.length ≠ (indexSeq lo hi (step.getD 1) xs.list.length).length) :
    setSlice xs.list (.ofOption lo) (.ofOption hi) (.ofOption step) (.ok items) =
      (raise .valueError ("attempt to assign sequence of size " ++ toString items.length ++
        " to extended slice of size " ++
        toString (indexSeq lo hi (step.getD 1) xs.list.length).length), xs.list) := by
  rw [indexSeq,Lib.Progression.length_terms] at hsize ⊢
  rw [setSlice,sliceIndices_eq hstep xs.bound]
  simp only
  rw [if_neg (indexSized_eq_one.not.mpr hone),if_pos (by exact_mod_cast hsize)]
  rfl

structure AtIndices (elts : List α) (lo hi : Option Int) (step : Option Int) (indices : List Int) :
    Prop where
  within : ∀ i ∈ indices, 0 ≤ i ∧ i < elts.length
  get : ∃ ys, getSlice elts (.ofOption lo) (.ofOption hi) (.ofOption step) = .ok ys ∧
    ys.map some = indices.map fun i => elts[i.toNat]?
  segment : step.getD 1 = 1 → ∀ items,
    setSlice elts (.ofOption lo) (.ofOption hi) (.ofOption step) (.ok items) =
      (.ok (), elts.take (firstIndex lo 1 elts.length).toNat ++ items ++
        elts.drop (max (firstIndex lo 1 elts.length) (endIndex hi 1 elts.length)).toNat)
  set : step.getD 1 ≠ 1 → ∀ items : List α, items.length = indices.length →
    ∃ ys, setSlice elts (.ofOption lo) (.ofOption hi) (.ofOption step) (.ok items) = (.ok (), ys) ∧
      ys.length = elts.length ∧
      (∀ (i : Nat) (k : Int), indices[i]? = some k → ys[k.toNat]? = items[i]?) ∧
      ∀ k : Nat, (k : Int) ∉ indices → ys[k]? = elts[k]?
  sizes : step.getD 1 ≠ 1 → ∀ items : List α, items.length ≠ indices.length →
    setSlice elts (.ofOption lo) (.ofOption hi) (.ofOption step) (.ok items) =
      (raise .valueError ("attempt to assign sequence of size " ++ toString items.length ++
        " to extended slice of size " ++ toString indices.length), elts)
  del : delSlice elts (.ofOption lo) (.ofOption hi) (.ofOption step) =
    (.ok (), dropAt indices elts 0)

/-- A zero step is a `ValueError`, and the list stays. -/
structure Refused (elts : List α) (lo hi step : SlicePart) : Prop where
  get : getSlice elts lo hi step = raise .valueError "slice step cannot be zero"
  set : ∀ val, setSlice elts lo hi step val =
    (raise .valueError "slice step cannot be zero", elts)
  del : delSlice elts lo hi step = (raise .valueError "slice step cannot be zero", elts)

/-- Reading, assigning and deleting a slice agree with the index sequence of Python, for bounds and
steps of any size. -/
theorem slice_at_indices (xs : Elts α) (lo hi step : Option Int) :
    if step = some 0 then Refused xs.list (.ofOption lo) (.ofOption hi) (.ofOption step)
    else AtIndices xs.list lo hi step (indexSeq lo hi (step.getD 1) xs.list.length) := by
  split
  · rename_i hzero
    subst hzero
    have hindices : ∀ n, sliceIndices (.ofOption lo) (.ofOption hi) (.ofOption (some 0)) n =
        raise .valueError "slice step cannot be zero" := by
      intro n
      rw [sliceIndices,SlicePart.ofOption,sliceBounds_zero]
      rfl
    refine ⟨?_,fun val => ?_,?_⟩
    · rw [getSlice,hindices]
      rfl
    · rw [setSlice,hindices]
      rfl
    · rw [delSlice,hindices]
      rfl
  · rename_i hstep
    refine ⟨fun i hi' => ?_,getSlice_eq xs hstep,setSlice_one xs,
      fun hone items => setSlice_extended xs hstep hone,
      fun hone items => setSlice_sizes xs hstep hone,delSlice_eq xs hstep⟩
    obtain ⟨k,hk,rfl⟩ := Lib.Progression.mem_terms.mp hi'
    exact indexCount_within xs hstep k hk

end
end Unagi.Objects
