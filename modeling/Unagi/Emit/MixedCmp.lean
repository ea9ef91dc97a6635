import Unagi.Emit.Lower
import Unagi.Go.Semantics
import Unagi.Objects.Equals
import Unagi.Objects.FloatBits

/-! # Comparisons of an int and a float

The static tier converts the int to a double and compares doubles; the boxed tier compares exactly.
The two agree unless the float is what the int rounds to without being equal to it. -/

namespace Unagi.Emit

open Go (Store evalExpr)
open Objects (Float64 numCmp cmpI Addr)
open Objects.Float64 (ofFloat scaled one IsNearest)

def CmpOp.holds {α : Type} [LinearOrder α] (op : CmpOp) (a b : α) : Bool :=
  match op with
  | lt => decide (a < b)
  | le => decide (a ≤ b)
  | gt => decide (b < a)
  | ge => decide (b ≤ a)
  | eq => decide (a = b)
  | ne => decide (a ≠ b)

def value (f : Float) : Rat := (scaled (ofFloat f) : Rat) / (one : Rat)

section
variable {α β : Type} [LinearOrder α] [LinearOrder β] {f : Float} {i : Int}

theorem CmpOp.holds_congr {a b : α} {c d : β} (hlt : a < b ↔ c < d) (hgt : b < a ↔ d < c)
    (op : CmpOp) : op.holds a b = op.holds c d := by
  have heq : a = b ↔ c = d := by
    rw [eq_iff_le_not_lt,eq_iff_le_not_lt,← not_lt,← not_lt,hlt,hgt]
  cases op
  · exact decide_eq_decide.mpr hlt
  · exact decide_eq_decide.mpr (by rw [← not_lt,← not_lt,hgt])
  · exact decide_eq_decide.mpr hgt
  · exact decide_eq_decide.mpr (by rw [← not_lt,← not_lt,hlt])
  · exact decide_eq_decide.mpr heq
  · exact decide_eq_decide.mpr (not_congr heq)

theorem one_pos_rat : (0 : Rat) < (one : Rat) := Int.cast_pos.mpr Float64.one_pos
theorem intCast_lt_value : (i : Rat) < value f ↔ i * one < scaled (ofFloat f) := by
  rw [value,lt_div_iff₀ one_pos_rat,← Int.cast_mul,Int.cast_lt]
theorem value_lt_intCast : value f < (i : Rat) ↔ scaled (ofFloat f) < i * one := by
  rw [value,div_lt_iff₀ one_pos_rat,← Int.cast_mul,Int.cast_lt]
theorem value_eq_intCast : value f = (i : Rat) ↔ scaled (ofFloat f) = i * one := by
  rw [value,div_eq_iff (ne_of_gt one_pos_rat),← Int.cast_mul,Int.cast_inj]

end

section
variable {x y : Float}

theorem compare_float (hx : x.isFinite = true) (hy : y.isFinite = true) :
    x.toModel.unpack.compare y.toModel.unpack =
      some (compare (scaled (ofFloat x)) (scaled (ofFloat y))) :=
  Float64.compare_of_isFinite (Float64.isFinite_ofFloat hx) (Float64.isFinite_ofFloat hy)
theorem float_lt (hx : x.isFinite = true) (hy : y.isFinite = true) :
    x < y ↔ scaled (ofFloat x) < scaled (ofFloat y) := by
  have hlt : x < y ↔ (x.toModel.unpack.compare y.toModel.unpack == some Ordering.lt) = true :=
    decide_eq_true_iff
  rw [hlt,compare_float hx hy,beq_iff_eq,Option.some_inj,compare_lt_iff_lt]
theorem float_le (hx : x.isFinite = true) (hy : y.isFinite = true) :
    x ≤ y ↔ scaled (ofFloat x) ≤ scaled (ofFloat y) := by
  have hle : x ≤ y ↔ (x.toModel.unpack.compare y.toModel.unpack).any (·.isLE) = true :=
    decide_eq_true_iff
  rw [hle,compare_float hx hy,Option.any_some,Int.isLE_compare]
theorem float_beq (hx : x.isFinite = true) (hy : y.isFinite = true) :
    (x == y) = decide (scaled (ofFloat x) = scaled (ofFloat y)) := by
  have hbeq : (x == y) = (x.toModel.unpack.compare y.toModel.unpack == some Ordering.eq) := rfl
  rw [hbeq,compare_float hx hy,Bool.eq_iff_iff,beq_iff_eq,Option.some_inj,compare_eq_iff_eq,
    decide_eq_true_eq]

theorem binaryOp_finite (hx : x.isFinite = true) (hy : y.isFinite = true) (op : CmpOp) :
    Go.binaryOp op.tok (.float x) (.float y) =
      .ok (.bool (op.holds (scaled (ofFloat x)) (scaled (ofFloat y)))) := by
  have hbool : ∀ {b c : Bool}, b = c → (Except.ok (Go.Value.bool b) : Except Go.Trap Go.Value) =
      .ok (.bool c) := by
    intro b c h
    rw [h]
  cases op
  · exact hbool (decide_eq_decide.mpr (float_lt hx hy))
  · exact hbool (decide_eq_decide.mpr (float_le hx hy))
  · exact hbool (decide_eq_decide.mpr (float_lt hy hx))
  · exact hbool (decide_eq_decide.mpr (float_le hy hx))
  · exact hbool (float_beq hx hy)
  · apply hbool
    rw [bne,float_beq hx hy]
    exact (decide_not ..).symm

end

/-! ## An int against a double -/

section
variable {σ : Store} {lx rx : Go.Expr} {lr rr : Repr} {i : Int64} {f : Float}

theorem log2_toInt (i : Int64) : i.toInt.natAbs.log2 < 64 := by
  by_cases h : i.toInt.natAbs = 0
  · rw [h]
    decide
  · have hlow := i.le_toInt
    have hhigh := i.toInt_lt
    exact (Nat.log2_lt h).mpr (by omega)

theorem ofFloat_conversion (i : Int64) :
    IsNearest i.toInt (ofFloat (Float.ofInt i.toInt)) ∧ (Float.ofInt i.toInt).isFinite = true := by
  have hlog := log2_toInt i
  have hbits := Float64.ofFloat_ofInt hlog
  have hnear : IsNearest i.toInt (ofFloat (Float.ofInt i.toInt)) := by
    rw [hbits]
    exact Float64.ofInt_isNearest (by omega)
  exact ⟨hnear,Float64.isFinite_of_ofFloat hnear.finite⟩

theorem lowerCmpOp_mixed (hlr : lr.scalar = .sInt) (hrr : rr.scalar = .sFloat)
    (hl : evalExpr σ lx = .ok (.int i)) (hr : evalExpr σ rx = .ok (.float f))
    (hf : f.isFinite = true) (op : CmpOp) :
    ∃ x y, lowerCmpOp op lx lr rx rr = .ok x ∧ lowerCmpOp op rx rr lx lr = .ok y ∧
      evalExpr σ x = .ok (.bool (op.holds (scaled (ofFloat (Float.ofInt i.toInt)))
        (scaled (ofFloat f)))) ∧
      evalExpr σ y = .ok (.bool (op.holds (scaled (ofFloat f))
        (scaled (ofFloat (Float.ofInt i.toInt))))) := by
  have hconv := (ofFloat_conversion i).2
  have hland : op.tok ≠ .land := by cases op <;> decide
  have hlor : op.tok ≠ .lor := by cases op <;> decide
  have hfloat := Go.evalExpr_float64 hl
  refine ⟨.binary op.tok (.call .float64 [lx]) rx,.binary op.tok rx (.call .float64 [lx]),?_,?_,
    Go.evalExpr_binary hland hlor hfloat hr (binaryOp_finite hconv hf op),
    Go.evalExpr_binary hland hlor hr hfloat (binaryOp_finite hf hconv op)⟩
  · simp [lowerCmpOp,toFloat,arith,hlr,hrr]
  · simp [lowerCmpOp,toFloat,arith,hlr,hrr]

theorem conversion_order (hf : f.isFinite = true)
    (hexact : IsNearest i.toInt (ofFloat f) → value f = i.toInt) :
    (scaled (ofFloat (Float.ofInt i.toInt)) < scaled (ofFloat f) ↔ (i.toInt : Rat) < value f) ∧
    (scaled (ofFloat f) < scaled (ofFloat (Float.ofInt i.toInt)) ↔ value f < (i.toInt : Rat)) := by
  have hnear := (ofFloat_conversion i).1
  have hfinite := Float64.isFinite_ofFloat hf
  have horder := hnear.order hfinite
  -- a double with the value of the conversion is the nearest one, so it is the int itself
  have honto : scaled (ofFloat f) = scaled (ofFloat (Float.ofInt i.toInt)) →
      scaled (ofFloat f) = i.toInt * one :=
    fun h => value_eq_intCast.mp (hexact (hnear.congr hfinite h))
  rw [intCast_lt_value,value_lt_intCast]
  generalize i.toInt * one = x at horder honto ⊢
  omega

theorem numCmp_mixed (hf : f.isFinite = true) (a b : Addr) (n : Int) :
    numCmp (.int a n) (.float b (ofFloat f)) =
      some (-cmpI (scaled (ofFloat f)) (n * one), false) ∧
    numCmp (.float b (ofFloat f)) (.int a n) =
      some (cmpI (scaled (ofFloat f)) (n * one), false) := by
  have hfinite := Float64.isFinite_ofFloat hf
  have hexp : Float64.exponent (ofFloat f) ≠ 2047 := by simpa [Float64.isFinite] using hfinite
  have hcmp : Objects.floatIntCmp (ofFloat f) n = (cmpI (scaled (ofFloat f)) (n * one), false) := by
    have hnan : Float64.isNaN (ofFloat f) = false := by simp [Float64.isNaN,hexp]
    have hinf : Float64.isInf (ofFloat f) = false := by simp [Float64.isInf,hexp]
    rw [Objects.floatIntCmp_eq,hnan,hinf]
    rfl
  constructor
  · change some (-(Objects.floatIntCmp (ofFloat f) n).1, (Objects.floatIntCmp (ofFloat f) n).2) = _
    rw [hcmp]
  · change some (Objects.floatIntCmp (ofFloat f) n) = _
    rw [hcmp]

theorem cmpI_lt_zero (s x : Int) : (cmpI s x < 0 ↔ s < x) ∧ (0 < cmpI s x ↔ x < s) := by
  unfold cmpI
  split
  · omega
  · split <;> omega

/-- Both ways round, every comparison of an `int64` with a finite double in the emitted code says how
the exact values compare, if and only if the double is not one that the int is rounded to without
being equal to it; the boxed comparison always says so. -/
theorem mixed_comparisons_exact (hlr : lr.scalar = .sInt) (hrr : rr.scalar = .sFloat)
    (hl : evalExpr σ lx = .ok (.int i)) (hr : evalExpr σ rx = .ok (.float f))
    (hf : f.isFinite = true) :
    ((∀ op : CmpOp, ∃ x y, lowerCmpOp op lx lr rx rr = .ok x ∧ lowerCmpOp op rx rr lx lr = .ok y ∧
        evalExpr σ x = .ok (.bool (op.holds (i.toInt : Rat) (value f))) ∧
        evalExpr σ y = .ok (.bool (op.holds (value f) (i.toInt : Rat)))) ↔
      (IsNearest i.toInt (ofFloat f) → value f = i.toInt)) ∧
    ∀ a b : Addr, ∃ c d, numCmp (.int a i.toInt) (.float b (ofFloat f)) = some (c, false) ∧
      numCmp (.float b (ofFloat f)) (.int a i.toInt) = some (d, false) ∧
      ∀ op : CmpOp, op.holds c 0 = op.holds (i.toInt : Rat) (value f) ∧
        op.holds d 0 = op.holds (value f) (i.toInt : Rat) := by
  refine ⟨⟨?_,?_⟩,?_⟩
  · intro hall hnear
    obtain ⟨x,y,hx, -,hex, -⟩ := hall .eq
    obtain ⟨x',y',hx', -,hex', -⟩ := lowerCmpOp_mixed hlr hrr hl hr hf .eq
    rw [hx] at hx'
    obtain rfl := Except.ok.inj hx'
    rw [hex] at hex'
    have hsame : scaled (ofFloat (Float.ofInt i.toInt)) = scaled (ofFloat f) := by
      rw [hnear.scaled_eq (Nat.lt_trans (log2_toInt i) (by decide)),
        Float64.ofFloat_ofInt (log2_toInt i)]
    have htruth : decide ((i.toInt : Rat) = value f) =
        decide (scaled (ofFloat (Float.ofInt i.toInt)) = scaled (ofFloat f)) :=
      Go.Value.bool.inj (Except.ok.inj hex')
    rw [decide_eq_true hsame,decide_eq_true_eq] at htruth
    exact htruth.symm
  · intro hexact op
    obtain ⟨x,y,hx,hy,hex,hey⟩ := lowerCmpOp_mixed hlr hrr hl hr hf op
    obtain ⟨hlt,hgt⟩ := conversion_order hf hexact
    rw [CmpOp.holds_congr hlt hgt] at hex
    rw [CmpOp.holds_congr hgt hlt] at hey
    exact ⟨x,y,hx,hy,hex,hey⟩
  · intro a b
    obtain ⟨hc,hd⟩ := numCmp_mixed hf a b i.toInt
    refine ⟨_,_,hc,hd,fun op => ⟨CmpOp.holds_congr ?_ ?_ op,CmpOp.holds_congr ?_ ?_ op⟩⟩
    · rw [intCast_lt_value,Int.neg_lt_zero_iff,(cmpI_lt_zero _ _).2]
    · rw [value_lt_intCast,Int.neg_pos,(cmpI_lt_zero _ _).1]
    · rw [value_lt_intCast,(cmpI_lt_zero _ _).1]
    · rw [intCast_lt_value,(cmpI_lt_zero _ _).2]

end

def emptyStore : Store := ⟨[], fun _ => none, []⟩

/-- `3 < 2.5` and `2.5 < 3` are exact. -/
theorem three_against_two_and_a_half : ∃ x y,
    lowerCmpOp .lt (.intLit 3) intRepr (.floatLit 0x4004000000000000) floatRepr = .ok x ∧
    lowerCmpOp .lt (.floatLit 0x4004000000000000) floatRepr (.intLit 3) intRepr = .ok y ∧
    evalExpr emptyStore x = .ok (.bool (CmpOp.lt.holds (((3 : Int64).toInt : Int) : Rat)
      (value (Float.ofBits 0x4004000000000000)))) ∧
    evalExpr emptyStore y = .ok (.bool (CmpOp.lt.holds (value (Float.ofBits 0x4004000000000000))
      (((3 : Int64).toInt : Int) : Rat))) := by
  refine (mixed_comparisons_exact rfl rfl rfl rfl (by decide +kernel)).1.mpr ?_ .lt
  intro h
  -- the double 3.0 is nearer
  have hnearer := h.nearest (0x4008000000000000 : BitVec 64) (by decide +kernel)
  revert hnearer
  decide +kernel

/-- The emitted code takes `2 ** 53 + 1` for equal to the double `2 ** 53`, which it is not. -/
theorem int_rounded_onto_double :
    lowerCmpOp .eq (.intLit 9007199254740993) intRepr (.floatLit 0x4340000000000000) floatRepr =
      .ok (.binary .eql (.call .float64 [.intLit 9007199254740993]) (.floatLit 0x4340000000000000)) ∧
    evalExpr emptyStore
      (.binary .eql (.call .float64 [.intLit 9007199254740993]) (.floatLit 0x4340000000000000)) =
      .ok (.bool true) ∧
    CmpOp.eq.holds (9007199254740993 : Rat) (value (Float.ofBits 0x4340000000000000)) = false := by
  refine ⟨rfl,?_,by decide +kernel⟩
  have htrue : (Float.ofInt 9007199254740993 == Float.ofBits 0x4340000000000000) = true := by
    decide +kernel
  exact congrArg (fun b => Except.ok (Go.Value.bool b)) htrue

end Unagi.Emit
