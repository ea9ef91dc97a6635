import Unagi.Lib.Int64
import Mathlib.Tactic.Positivity

/-! # The unboxed arithmetic kernels

`pkg/runtime/statictier.go`. Go's `int64` is `Int64`: its operators wrap, its
quotient and remainder truncate. A shift by 64 or more clears the word or fills
it with the sign, and a division by zero panics, which is `none`. -/

namespace Unagi.Runtime
open Int64

def goShl (a : Int64) (n : Nat) : Int64 :=
  if n < 64 then ⟨⟨a.toBitVec <<< n⟩⟩ else 0
def goShr (a : Int64) (n : Nat) : Int64 :=
  if n < 64 then ⟨⟨a.toBitVec.sshiftRight n⟩⟩ else if a < 0 then -1 else 0
def uint64 (b : Int64) : Nat := b.toBitVec.toNat
def addInt64 (a b : Int64) : Int64 × Bool :=
  let s := a + b
  (s, decide (0 ≤ a) == decide (0 ≤ b) && decide (0 ≤ s) != decide (0 ≤ a))
def subInt64 (a b : Int64) : Int64 × Bool :=
  let d := a - b
  (d, decide (0 ≤ a) != decide (0 ≤ b) && decide (0 ≤ d) != decide (0 ≤ a))

def mulInt64 (a b : Int64) : Int64 × Bool :=
  if a = 0 ∨ b = 0 then (0, false)
  else
    let p := a * b
    if a = Int64.minValue ∧ b = -1 ∨ b = Int64.minValue ∧ a = -1 then (p, true)
    else (p, decide (p / a ≠ b))

/-- `none` is Go's division-by-zero panic. -/
def floorDivInt64 (a b : Int64) : Option (Int64 × Bool) :=
  if a = Int64.minValue ∧ b = -1 then some (0, true)
  else if b = 0 then none
  else
    let q := a / b
    some (if a % b ≠ 0 ∧ (a < 0 ↔ ¬ b < 0) then q - 1 else q, false)

def floorModInt64 (a b : Int64) : Option Int64 :=
  if b = 0 then none
  else
    let r := a % b
    some (if r ≠ 0 ∧ (r < 0 ↔ ¬ b < 0) then r + b else r)

/-- The square-and-multiply loop of `PowInt64`; `none` is the deopt flag. -/
def powLoop : Nat → Int64 → Int64 → Nat → Option Int64
  | 0, result, _, _ => some result
  | fuel + 1, result, base, e =>
    if e = 0 then some result
    else
      let r := if e % 2 = 1 then mulInt64 result base else (result, false)
      if r.2 then none
      else if e / 2 = 0 then some r.1
      else
        let q := mulInt64 base base
        if q.2 then none else powLoop fuel r.1 q.1 (e / 2)

/-- The exponent halves on every turn, so 64 turns exhaust it. -/
def powInt64 (a b : Int64) : Int64 × Bool :=
  if b < 0 then (0, true)
  else match powLoop 64 1 a b.toInt.toNat with
    | some v => (v, false)
    | none => (0, true)

def lShiftInt64 (a b : Int64) : Int64 × Bool :=
  if a = 0 then (0, false)
  else
    let r := goShl a (uint64 b)
    if goShr r (uint64 b) ≠ a then (0, true) else (r, false)

def rShiftInt64 (a b : Int64) : Int64 := goShr a (uint64 b)
def boolToInt (b : Bool) : Int64 := if b then 1 else 0

def orInt64 (a b : Int64) : Int64 := if a ≠ 0 then a else b
def andInt64 (a b : Int64) : Int64 := if a = 0 then a else b
def orFloat64 (a b : Float) : Float := if a != Float.ofBits 0 then a else b
def andFloat64 (a b : Float) : Float := if a == Float.ofBits 0 then a else b
def orStr (a b : String) : String := if a ≠ "" then a else b
def andStr (a b : String) : String := if a = "" then a else b

/-! ### What the kernels compute -/

/-- A checked kernel's result for the exact value `z`: the value when it fits a word,
the raised flag when it does not. -/
def Checks (r : Int64 × Bool) (z : Int) : Prop :=
  InRange z ∧ r.2 = false ∧ r.1.toInt = z ∨ ¬ InRange z ∧ r.2 = true

theorem addInt64_checks (a b : Int64) : Checks (addInt64 a b) (a.toInt + b.toInt) := by
  obtain ⟨ha,ha'⟩ := inRange_toInt a
  obtain ⟨hb,hb'⟩ := inRange_toInt b
  simp only [Checks,addInt64,le_iff_toInt_le,toInt_zero,toInt_add,Bool.and_eq_false_iff,
    Bool.and_eq_true,beq_iff_eq,beq_eq_false_iff_ne,bne_iff_ne,bne_eq_false_iff_eq,
    ne_eq,decide_eq_decide]
  rcases bmod_cases (z := a.toInt + b.toInt) (by omega) (by omega) with ⟨hr,he⟩ | ⟨hr,he⟩ | ⟨hr,he⟩ <;>
    rw [he] <;> unfold InRange at * <;> omega

theorem subInt64_checks (a b : Int64) : Checks (subInt64 a b) (a.toInt - b.toInt) := by
  obtain ⟨ha,ha'⟩ := inRange_toInt a
  obtain ⟨hb,hb'⟩ := inRange_toInt b
  simp only [Checks,subInt64,le_iff_toInt_le,toInt_zero,toInt_sub,Bool.and_eq_false_iff,
    Bool.and_eq_true,bne_iff_ne,bne_eq_false_iff_eq,ne_eq,decide_eq_decide]
  rcases bmod_cases (z := a.toInt - b.toInt) (by omega) (by omega) with ⟨hr,he⟩ | ⟨hr,he⟩ | ⟨hr,he⟩ <;>
    rw [he] <;> unfold InRange at * <;> omega

variable {a b : Int64}

private theorem mul_wrapped_div (ha0 : a.toInt ≠ 0)
    (hm : ¬ (a = minValue ∧ b = -1 ∨ b = minValue ∧ a = -1)) :
    (a * b / a = b) ↔ InRange (a.toInt * b.toInt) := by
  obtain ⟨hb,hb'⟩ := inRange_toInt b
  obtain ⟨ha,ha'⟩ := inRange_toInt a
  constructor
  · intro h
    by_contra hr
    have hd : (a * b / a).toInt = (a * b).toInt.tdiv a.toInt := by
      by_cases h1 : a = -1
      · refine toInt_div_of_ne_left _ _ fun hmin => hm (.inr ⟨?_,h1⟩)
        rw [← h,hmin,h1]
        decide
      · exact toInt_div_of_ne_right _ _ h1
    rw [h] at hd
    have hdm := Int.mul_tdiv_add_tmod (a * b).toInt a.toInt
    have hlt := Int.natAbs_tmod (a * b).toInt a.toInt
    have hlt' : ((a*b).toInt.natAbs % a.toInt.natAbs) < a.toInt.natAbs := Nat.mod_lt _ (by omega)
    rw [← hd] at hdm
    obtain ⟨k,hk⟩ : ∃ k, (a * b).toInt = a.toInt * b.toInt + k * 2 ^ 64 := by
      rw [toInt_mul]
      exact ⟨-((a.toInt * b.toInt).bdiv (2 ^ 64)),by have := Int.bmod_add_bdiv (a.toInt * b.toInt) (2 ^ 64); omega⟩
    have hk0 : k ≠ 0 := by
      rintro rfl
      exact hr (by have := inRange_toInt (a * b); simpa [hk] using this)
    omega
  · intro hr
    apply Int64.toInt_inj.mp
    rw [toInt_div,toInt_mul,bmod_eq_of_inRange hr,Int.mul_tdiv_cancel_left _ ha0,bmod_eq_of_inRange ⟨hb,hb'⟩]

theorem mulInt64_checks (a b : Int64) : Checks (mulInt64 a b) (a.toInt * b.toInt) := by
  unfold mulInt64
  split
  · next h =>
    have hz : a.toInt * b.toInt = 0 := by rcases h with rfl | rfl <;> simp
    rw [hz]
    exact .inl ⟨by decide,rfl,rfl⟩
  · next h =>
    have ha0 : a.toInt ≠ 0 := fun h' => h (.inl (toInt_eq_zero_iff.mp h'))
    dsimp only
    split
    · next hm =>
      have hz : a.toInt * b.toInt = 2^63 := by
        rcases hm with ⟨rfl,rfl⟩ | ⟨rfl,rfl⟩ <;> decide
      rw [hz]
      exact .inr ⟨by decide,rfl⟩
    · next hm =>
      have hd := mul_wrapped_div ha0 hm
      by_cases hr : InRange (a.toInt * b.toInt)
      · exact .inl ⟨hr,by simpa using hd.mpr hr,by rw [toInt_mul,bmod_eq_of_inRange hr]⟩
      · exact .inr ⟨hr,by simpa using mt hd.mp hr⟩

theorem floorDivInt64_checks (hb : b ≠ 0) :
    ∃ r, floorDivInt64 a b = some r ∧ Checks r (a.toInt.fdiv b.toInt) := by
  have hb0 : b.toInt ≠ 0 := fun h => hb (toInt_eq_zero_iff.mp h)
  by_cases h : a = minValue ∧ b = -1
  · obtain ⟨rfl,rfl⟩ := h
    exact ⟨_,rfl,.inr ⟨by decide,rfl⟩⟩
  · rw [floorDivInt64,if_neg h,if_neg hb]
    refine ⟨_,rfl,.inl ?_⟩
    have hd : (a / b).toInt = a.toInt.tdiv b.toInt := by
      by_cases h1 : a = minValue
      · exact toInt_div_of_ne_right _ _ fun h2 => h ⟨h1,h2⟩
      · exact toInt_div_of_ne_left _ _ h1
    have hm : a % b ≠ 0 ↔ a.toInt.tmod b.toInt ≠ 0 := by
      rw [ne_eq,← toInt_inj,toInt_mod,toInt_zero]
    have hq := inRange_toInt (a / b)
    rw [Int.fdiv_eq_tdiv_adjust hb0]
    simp only [hm,lt_iff_toInt_lt,toInt_zero]
    split
    · next hadj =>
      have hr : InRange (a.toInt.tdiv b.toInt - 1) := by
        have hge : (a.toInt.tdiv b.toInt).natAbs = a.toInt.natAbs / b.toInt.natAbs :=
          Int.natAbs_tdiv a.toInt b.toInt
        have hlt := Nat.mul_div_le a.toInt.natAbs b.toInt.natAbs
        have hb2 : 2 ≤ b.toInt.natAbs := by
          by_contra hc
          have hone : b.toInt = 1 ∨ b.toInt = -1 := by omega
          rcases hone with h1 | h1 <;> rw [h1] at hadj <;> simp at hadj
        have hmul := Nat.mul_le_mul_right (a.toInt.natAbs / b.toInt.natAbs) hb2
        have ha := inRange_toInt a
        unfold InRange at *
        omega
      exact ⟨hr,trivial,by rw [toInt_sub,hd,toInt_one,bmod_eq_of_inRange hr]⟩
    · exact ⟨hd ▸ hq,trivial,hd⟩

theorem floorModInt64_exact (hb : b ≠ 0) :
    ∃ v, floorModInt64 a b = some v ∧ v.toInt = a.toInt.fmod b.toInt := by
  have hb0 : b.toInt ≠ 0 := fun h => hb (toInt_eq_zero_iff.mp h)
  rw [floorModInt64,if_neg hb]
  refine ⟨_,rfl,?_⟩
  have hm : a % b ≠ 0 ↔ a.toInt.tmod b.toInt ≠ 0 := by
    rw [ne_eq,← toInt_inj,toInt_mod,toInt_zero]
  rw [Int.fmod_eq_tmod_adjust hb0]
  simp only [hm,lt_iff_toInt_lt,toInt_zero,toInt_mod]
  split
  · next hadj =>
    have hr : InRange (a.toInt.tmod b.toInt + b.toInt) := by
      have h1 := inRange_toInt (a % b)
      have h2 := inRange_toInt b
      rw [toInt_mod] at h1
      unfold InRange at *
      omega
    rw [toInt_add,toInt_mod,bmod_eq_of_inRange hr]
  · rw [toInt_mod]

private theorem powLoop_exact (fuel : Nat) (result base : Int64) (e : Nat) (v : Int64)
    (he : e < 2 ^ fuel) (h : powLoop fuel result base e = some v) :
    v.toInt = result.toInt * base.toInt ^ e := by
  induction fuel generalizing result base e with
  | zero =>
    obtain rfl : e = 0 := by omega
    simp_all [powLoop]
  | succ fuel ih =>
    rw [powLoop] at h
    split at h
    · next h0 => simp_all
    · next h0 =>
      have hodd : ∀ r : Int64 × Bool, r = (if e % 2 = 1 then mulInt64 result base else (result, false)) →
          r.2 = false → r.1.toInt = result.toInt * base.toInt ^ (e % 2) := by
        rintro r rfl hr
        rcases Nat.mod_two_eq_zero_or_one e with hp | hp
        · simp [hp]
        · simp only [hp,if_true] at hr ⊢
          rcases mulInt64_checks result base with hc | hc
          · simpa using hc.2.2
          · rw [hc.2] at hr; cases hr
      generalize hr : (if e % 2 = 1 then mulInt64 result base else (result, false)) = r at h
      dsimp only at h
      split at h
      · cases h
      · next hr2 =>
        have hres := hodd r hr.symm (by simpa using hr2)
        have hsplit : base.toInt ^ e = base.toInt ^ (e % 2) * (base.toInt * base.toInt) ^ (e / 2) := by
          rw [← pow_two,← pow_mul,← pow_add]; congr 1; omega
        split at h
        · next h2 =>
          obtain rfl : r.1 = v := by simpa using h
          rw [hres,hsplit,h2,pow_zero,Int.mul_one]
        · split at h
          · cases h
          · next hq =>
            rcases mulInt64_checks base base with hc | hc
            · rw [ih _ _ _ (by omega) h,hres,hc.2.2,hsplit]; ring
            · exact absurd hc.2 hq

theorem powInt64_exact {v : Int64} (h : powInt64 a b = (v, false)) :
    0 ≤ b.toInt ∧ v.toInt = a.toInt ^ b.toInt.toNat := by
  unfold powInt64 at h
  split at h
  · cases h
  · next hb =>
    rw [lt_iff_toInt_lt,toInt_zero,not_lt] at hb
    split at h
    · next w hw =>
      obtain rfl : w = v := by simpa using h
      have hlt : b.toInt.toNat < 2 ^ 64 := by have := b.toInt_lt; omega
      exact ⟨hb,by simpa using powLoop_exact 64 1 a _ w hlt hw⟩
    · cases h

private theorem uint64_of_nonneg (hb : 0 ≤ b.toInt) : uint64 b = b.toInt.toNat := by
  have h : b.toInt = b.toBitVec.toNat := by
    have := BitVec.toInt_eq_toNat_cond b.toBitVec
    have hlt := b.toBitVec.isLt
    change b.toInt = _ at this
    split at this <;> omega
  rw [uint64,h,Int.toNat_natCast]

private theorem goShl_toInt {n : Nat} (hn : n < 64) :
    (goShl a n).toInt = (a.toInt * 2 ^ n).bmod (2 ^ 64) := by
  rw [goShl,if_pos hn]
  change (a.toBitVec <<< n).toInt = _
  rw [BitVec.toInt_shiftLeft]
  have hc : (a.toBitVec.toNat : Int) = a.toInt ∨ (a.toBitVec.toNat : Int) = a.toInt + 2 ^ 64 := by
    have h := BitVec.toInt_eq_toNat_cond a.toBitVec
    change a.toInt = _ at h
    split at h <;> omega
  have hs : ((a.toBitVec.toNat <<< n : Nat) : Int) = (a.toBitVec.toNat : Int) * 2 ^ n := by
    rw [Nat.shiftLeft_eq,Int.natCast_mul,Int.natCast_pow]
    rfl
  rw [hs]
  rcases hc with hc | hc <;> rw [hc]
  rw [Int.add_mul]
  exact_mod_cast Int.add_mul_bmod_self_left (a.toInt * 2 ^ n) (2 ^ 64) (2 ^ n)

theorem goShr_toInt (a : Int64) (n : Nat) : (goShr a n).toInt = a.toInt / 2 ^ n := by
  rw [goShr]
  split
  · change (a.toBitVec.sshiftRight n).toInt = _
    rw [BitVec.toInt_sshiftRight,Int.shiftRight_eq_div_pow]
    norm_cast
  · next hn =>
    have h2 : (2 : Int) ^ 64 ≤ 2 ^ n := pow_le_pow_right₀ (by norm_num) (by omega)
    obtain ⟨h1,h1'⟩ := inRange_toInt a
    split
    · next hneg =>
      rw [lt_iff_toInt_lt,toInt_zero] at hneg
      rw [toInt_neg_one]
      exact (Int.ediv_eq_neg_one_of_neg_of_le hneg (by omega)).symm
    · next hneg =>
      rw [lt_iff_toInt_lt,toInt_zero,not_lt] at hneg
      rw [toInt_zero,Int.ediv_eq_zero_of_lt hneg (by omega)]

theorem lShiftInt64_checks (hb : 0 ≤ b.toInt) :
    Checks (lShiftInt64 a b) (a.toInt * 2 ^ b.toInt.toNat) := by
  unfold lShiftInt64
  split
  · next h => subst h; exact .inl ⟨by simp [InRange],rfl,by simp⟩
  · next h =>
    have ha0 : a.toInt ≠ 0 := fun h' => h (toInt_eq_zero_iff.mp h')
    rw [uint64_of_nonneg hb]
    generalize b.toInt.toNat = n
    have hpos : (0 : Int) < 2 ^ n := by positivity
    dsimp only
    by_cases hr : InRange (a.toInt * 2 ^ n)
    · have hn : n < 64 := by
        by_contra hn
        have h2 : (2 : Int) ^ 64 ≤ 2 ^ n := pow_le_pow_right₀ (by norm_num) (by omega)
        unfold InRange at hr
        rcases lt_or_gt_of_ne ha0 with hneg | hneg <;> nlinarith
      have hv : (goShl a n).toInt = a.toInt * 2 ^ n := by
        rw [goShl_toInt hn,bmod_eq_of_inRange hr]
      have hback : goShr (goShl a n) n = a := by
        rw [← toInt_inj,goShr_toInt,hv,Int.mul_ediv_cancel _ hpos.ne']
      rw [if_neg (not_not.mpr hback)]
      exact .inl ⟨hr,rfl,hv⟩
    · refine .inr ⟨hr,?_⟩
      rw [if_pos]
      intro hback
      rw [← toInt_inj,goShr_toInt] at hback
      by_cases hn : n < 64
      · have hw : (2 : Int) ^ 64 = 2 ^ n * 2 ^ (64 - n) := by
          rw [← pow_add,Nat.add_sub_cancel' hn.le]
        have hq := Int.bmod_add_bdiv (a.toInt * 2 ^ n) (2 ^ 64)
        rw [← goShl_toInt hn] at hq
        generalize (a.toInt * 2 ^ n).bdiv (2 ^ 64) = q at hq
        have hfac : (goShl a n).toInt = (a.toInt - 2 ^ (64 - n) * q) * 2 ^ n := by
          have hq' : (goShl a n).toInt + 2 ^ 64 * q = a.toInt * 2 ^ n := by exact_mod_cast hq
          rw [hw] at hq'
          linarith
        rw [hfac,Int.mul_ediv_cancel _ hpos.ne'] at hback
        apply hr
        rw [← hback,← hfac]
        exact inRange_toInt _
      · rw [goShl,if_neg hn,toInt_zero,Int.zero_ediv] at hback
        exact ha0 hback.symm

theorem rShiftInt64_exact (hb : 0 ≤ b.toInt) :
    (rShiftInt64 a b).toInt = a.toInt / 2 ^ b.toInt.toNat := by
  rw [rShiftInt64,uint64_of_nonneg hb,goShr_toInt]

end Unagi.Runtime
