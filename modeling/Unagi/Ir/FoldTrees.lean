import Unagi.Ir.FoldSound

/-! # Folding and identities against Python

An int tree before and after the bridge's rewriting, both read with Python's unbounded ints. A power
with a negative exponent is a float in Python, and an identity with a float operand is none. -/

namespace Unagi.Ir
open Emit (Op Repr intRepr)
open Go (Ident)
open Frontend (BinKind)
open Python (Stop)
open Unagi.Runtime Int64

def opKind : Op → BinKind
  | .add => .add
  | .sub => .sub
  | .mul => .mul
  | .div => .div
  | .floorDiv => .floorDiv
  | .mod => .mod
  | .pow => .pow
  | .bitAnd => .bitAnd
  | .bitOr => .bitOr
  | .bitXor => .bitXor
  | .lShift => .lShift
  | .rShift => .rShift

theorem binOp_opKind (op : Op) : binOp (opKind op) = some op := by
  cases op <;> rfl

inductive IntTree : Emit.Expr → Prop
  | var (x : Ident) (r : Repr) (scalar : r.scalar = .sInt) : IntTree (.var x r)
  | int (v : Int64) : IntTree (.int v)
  | bin (op : Op) (l r : Emit.Expr) (hop : op ≠ .div) (left : IntTree l) (right : IntTree r) :
      IntTree (.bin op l r)

def pyEval (ρ : Ident → Int) : Emit.Expr → Except Stop Python.Value
  | .var x _ => .ok (.int (ρ x))
  | .int v => .ok (.int v.toInt)
  | .bin op l r => do
    let v ← pyEval ρ l
    let w ← pyEval ρ r
    Python.binOp (opKind op) v w
  | _ => .error .outside

def subtrees : Emit.Expr → List Emit.Expr
  | .bin op l r => .bin op l r :: (subtrees l ++ subtrees r)
  | e => [e]
theorem mem_subtrees_self (e : Emit.Expr) : e ∈ subtrees e := by
  cases e <;> exact List.mem_cons_self

/-- No power in the tree has a negative exponent, so that no part of it is a float. -/
def StaysInt (ρ : Ident → Int) (e : Emit.Expr) : Prop :=
  ∀ s ∈ subtrees e, ∀ x, pyEval ρ s ≠ .ok (.float x)

variable {op : Op} {l r : Emit.Expr}

theorem StaysInt.left {ρ : Ident → Int} (h : StaysInt ρ (.bin op l r)) :
    StaysInt ρ l :=
  fun s hs => h s (List.mem_cons_of_mem _ (List.mem_append_left _ hs))
theorem StaysInt.right {ρ : Ident → Int} (h : StaysInt ρ (.bin op l r)) :
    StaysInt ρ r :=
  fun s hs => h s (List.mem_cons_of_mem _ (List.mem_append_right _ hs))

def simplifyTree : Emit.Expr → Except String (Emit.Expr × Repr)
  | .var x r => .ok (.var x r, r)
  | .int v => .ok (.int v, intRepr)
  | .bin op l r => do
    let (l, lr) ← simplifyTree l
    let (r, rr) ← simplifyTree r
    let res ← binResult op lr rr
    pure (binNode op l lr r rr res)
  | _ => .error "not an int tree"

theorem intOp_ok (hop : op ≠ .div) {x y : Int} {v : Python.Value}
    (h : Python.intOp (opKind op) x y = .ok v) : (∃ z, v = .int z) ∨ ∃ f, v = .float f := by
  cases op <;> simp only [opKind,Python.intOp] at h
  case div => exact absurd rfl hop
  case pow =>
    split at h
    · exact .inl ⟨_,(Except.ok.inj h).symm⟩
    · split at h
      · cases h
      · exact .inr ⟨_,(Except.ok.inj h).symm⟩
  case floorDiv | mod | lShift | rShift =>
    split at h
    · cases h
    · exact .inl ⟨_,(Except.ok.inj h).symm⟩
  all_goals exact .inl ⟨_,(Except.ok.inj h).symm⟩

variable {ρ : Ident → Int}

theorem pyEval_int {e : Emit.Expr} (he : IntTree e) (hs : StaysInt ρ e) {v : Python.Value}
    (h : pyEval ρ e = .ok v) : ∃ z, v = .int z := by
  induction he generalizing v with
  | var x r _ => exact ⟨_,(Except.ok.inj h).symm⟩
  | int w => exact ⟨_,(Except.ok.inj h).symm⟩
  | bin op l r hop _ _ ihl ihr =>
    have hroot := h
    rw [pyEval] at h
    cases hl : pyEval ρ l with
    | error s => rw [hl] at h; cases h
    | ok a =>
      cases hr : pyEval ρ r with
      | error s => rw [hl,hr] at h; cases h
      | ok b =>
        obtain ⟨x,rfl⟩ := ihl hs.left hl
        obtain ⟨y,rfl⟩ := ihr hs.right hr
        rw [hl,hr] at h
        rcases intOp_ok hop h with hz | ⟨f,rfl⟩
        · exact hz
        · exact absurd hroot (hs _ (mem_subtrees_self _) f)

theorem foldIntOp_intOp {x y v : Int64} (h : foldIntOp op x y = some v) :
    Python.intOp (opKind op) x.toInt y.toInt = .ok (.int v.toInt) := by
  obtain ⟨hop,hval⟩ := foldIntOp_intBin h
  have htracks := intBin_tracks (binOp_opKind op) hop x y
  rw [hval] at htracks
  generalize hpy : Python.intOp (opKind op) x.toInt y.toInt = res at htracks
  cases htracks with
  | ok hrel =>
    obtain ⟨w,hw,rfl⟩ := hrel
    rw [(Go.Value.int.inj hw)]

theorem pyEval_bin {x y : Int} (hl : pyEval ρ l = .ok (.int x))
    (hr : pyEval ρ r = .ok (.int y)) : pyEval ρ (.bin op l r) = Python.intOp (opKind op) x y := by
  rw [pyEval,hl,hr]
  rfl

theorem foldConstInt_parts (ρ : Ident → Int) {e : Emit.Expr} {v : Int64} (h : foldConstInt e = some v) :
    pyEval ρ e = .ok (.int v.toInt) ∧
      ∀ s ∈ subtrees e, ∃ w : Int64, pyEval ρ s = .ok (.int w.toInt) := by
  induction e using foldConstInt.induct generalizing v with
  | case1 w =>
    obtain rfl := Option.some.inj h
    refine ⟨rfl,?_⟩
    intro s hs
    rw [List.mem_singleton.mp hs]
    exact ⟨w,rfl⟩
  | case2 op l r ihl ihr =>
    simp only [foldConstInt,Option.bind_eq_bind,Option.bind_eq_some_iff] at h
    obtain ⟨x,hx,y,hy,w,hw,h⟩ := h
    split at h
    · cases h
    obtain rfl := Option.some.inj h
    obtain ⟨hl,hpartsL⟩ := ihl hx
    obtain ⟨hr,hpartsR⟩ := ihr hy
    have hroot : pyEval ρ (.bin op l r) = .ok (.int w.toInt) := by
      rw [pyEval_bin hl hr,foldIntOp_intOp hw]
    refine ⟨hroot,?_⟩
    intro s hs
    rcases List.mem_cons.mp hs with rfl | hs
    · exact ⟨w,hroot⟩
    · rcases List.mem_append.mp hs with hs | hs
      · exact hpartsL s hs
      · exact hpartsR s hs
  | case3 e hint hbin => simp [foldConstInt] at h

/-! ## Identities -/

private theorem testBit_zero_int (k : Nat) : Int.testBit 0 k = false := Nat.zero_testBit k

theorem rightIdentity_intOp {k : Int64} (h : rightIdentity op = some k) (x : Int) :
    Python.intOp (opKind op) x k.toInt = .ok (.int x) := by
  cases op <;> simp only [rightIdentity,Option.some.injEq,reduceCtorEq] at h <;> subst h <;>
    simp [opKind,Python.intOp,Int.fdiv_one]
  case bitOr =>
    apply Int.eq_of_testBit_eq
    intro i
    rw [Int.testBit_lor,testBit_zero_int,Bool.or_false]
  case bitXor =>
    apply Int.eq_of_testBit_eq
    intro i
    rw [Int.testBit_lxor,testBit_zero_int,Bool.xor_false]

theorem leftIdentity_intOp {k : Int64} (h : leftIdentity op = some k) (x : Int) :
    Python.intOp (opKind op) k.toInt x = .ok (.int x) := by
  cases op <;> simp only [leftIdentity,Option.some.injEq,reduceCtorEq] at h <;> subst h <;>
    simp [opKind,Python.intOp]
  case bitOr =>
    apply Int.eq_of_testBit_eq
    intro i
    rw [Int.testBit_lor,testBit_zero_int,Bool.false_or]
  case bitXor =>
    apply Int.eq_of_testBit_eq
    intro i
    rw [Int.testBit_lxor,testBit_zero_int,Bool.false_xor]

theorem binResult_intOperands (hop : op ≠ .div) {lr rr : Repr} (hl : lr.scalar = .sInt)
    (hr : rr.scalar = .sInt) : binResult op lr rr = .ok intRepr := by
  cases op <;> first | exact absurd rfl hop | simp [binResult,hl,hr,Emit.numeric]

/-- The node that the bridge builds means what the operator node means, as long as its operands are
no floats. -/
theorem pyEval_binNode {lr rr res : Repr}
    (hl : ∀ v, pyEval ρ l = .ok v → ∃ z, v = .int z) (hr : ∀ v, pyEval ρ r = .ok v → ∃ z, v = .int z) :
    pyEval ρ (binNode op l lr r rr res).1 = pyEval ρ (.bin op l r) := by
  unfold binNode
  split
  · rename_i v hv
    exact (foldConstInt_parts ρ hv).1.symm
  · split
    · rename_i p hp
      simp only [simplifyIntIdentity,Option.any_eq_true] at hp
      split_ifs at hp with hres hright hleft
      · obtain rfl := Option.some.inj hp
        obtain ⟨-,k,hk,hc⟩ := hright
        obtain rfl : r = .int k := by
          cases r <;> simp_all [isIntConst]
        cases hx : pyEval ρ l with
        | error s => rw [pyEval,hx]; rfl
        | ok v =>
          obtain ⟨z,rfl⟩ := hl v hx
          rw [pyEval_bin hx rfl,rightIdentity_intOp hk]
      · obtain rfl := Option.some.inj hp
        obtain ⟨-,k,hk,hc⟩ := hleft
        obtain rfl : l = .int k := by
          cases l <;> simp_all [isIntConst]
        cases hx : pyEval ρ r with
        | error s => rw [pyEval,hx]; rfl
        | ok v =>
          obtain ⟨z,rfl⟩ := hr v hx
          rw [pyEval_bin rfl hx,leftIdentity_intOp hk]
    · rfl

/-- The rewritten tree has the value of the tree or raises what it raises, as long as no power has a
negative exponent; and a tree is folded only if all its parts are ints that fit a word. -/
theorem simplifyTree_meaning (e : Emit.Expr) (he : IntTree e) :
    (∃ e' r, simplifyTree e = .ok (e', r) ∧ r.scalar = .sInt ∧
      ∀ ρ, StaysInt ρ e → pyEval ρ e' = pyEval ρ e) ∧
    ∀ v, foldConstInt e = some v → ∀ ρ, ∀ s ∈ subtrees e, ∃ w : Int64, pyEval ρ s = .ok (.int w.toInt) := by
  refine ⟨?_,fun v hv ρ => (foldConstInt_parts ρ hv).2⟩
  induction he with
  | var x r hr => exact ⟨_,r,rfl,hr,fun ρ _ => rfl⟩
  | int v => exact ⟨_,intRepr,rfl,rfl,fun ρ _ => rfl⟩
  | bin op l r hop left right ihl ihr =>
    obtain ⟨l',lr,hl,hlr,hleft⟩ := ihl
    obtain ⟨r',rr,hr,hrr,hright⟩ := ihr
    refine ⟨(binNode op l' lr r' rr intRepr).1,(binNode op l' lr r' rr intRepr).2,?_,?_,?_⟩
    · rw [simplifyTree,hl,hr]
      change (binResult op lr rr >>= fun res => pure (binNode op l' lr r' rr res)) = _
      rw [binResult_intOperands hop hlr hrr]
      rfl
    · exact binNode_scalar
    · intro ρ hs
      have hvalL : ∀ v, pyEval ρ l' = .ok v → ∃ z, v = .int z := by
        rw [hleft ρ hs.left]
        exact fun v hv => pyEval_int left hs.left hv
      have hvalR : ∀ v, pyEval ρ r' = .ok v → ∃ z, v = .int z := by
        rw [hright ρ hs.right]
        exact fun v hv => pyEval_int right hs.right hv
      rw [pyEval_binNode hvalL hvalR,pyEval,pyEval,hleft ρ hs.left,hright ρ hs.right]

/-- A product with one added zero keeps its value in an int beyond the word. -/
theorem sum_with_zero_keeps_value : ∃ e' r,
    simplifyTree (.bin .mul (.bin .add (.var (.py "x") intRepr) (.int 0)) (.int 3)) = .ok (e', r) ∧
      pyEval (fun _ => 2 ^ 80) e' = .ok (.int (3 * 2 ^ 80)) := by
  obtain ⟨⟨e',r,hsimp, -,hval⟩, -⟩ := simplifyTree_meaning
    (.bin .mul (.bin .add (.var (.py "x") intRepr) (.int 0)) (.int 3))
    (.bin _ _ _ (by decide) (.bin _ _ _ (by decide) (.var _ _ rfl) (.int 0)) (.int 3))
  refine ⟨e',r,hsimp,(hval (fun _ => 2 ^ 80) ?_).trans (by rfl)⟩
  intro s hs x
  simp only [subtrees,List.mem_cons,List.mem_append,List.not_mem_nil,or_false] at hs
  rcases hs with rfl | (rfl | rfl | rfl) | rfl <;> exact fun h => nomatch h

theorem bitOr_float (f : Float) : Python.binOp .bitOr (.float f) (.int 0) = .error Python.typeError := by
  have hzero : Python.intToFloat 0 = .ok (Float.ofInt 0) := if_pos (by decide +kernel)
  rw [Python.binOp,hzero]
  rfl

/-- With a negative exponent the dropped operator was the one that raised. -/
theorem dropped_or_of_float : ∃ e' r,
    simplifyTree (.bin .bitOr (.bin .pow (.var (.py "x") intRepr) (.var (.py "y") intRepr)) (.int 0)) =
      .ok (e', r) ∧
      pyEval (fun v => if v = .py "x" then 2 else -1)
        (.bin .bitOr (.bin .pow (.var (.py "x") intRepr) (.var (.py "y") intRepr)) (.int 0)) =
          .error Python.typeError ∧
      ∃ f, pyEval (fun v => if v = .py "x" then 2 else -1) e' = .ok (.float f) := by
  have hpow : pyEval (fun v => if v = .py "x" then 2 else -1)
      (.bin .pow (.var (.py "x") intRepr) (.var (.py "y") intRepr)) =
        .ok (.float (Float.pow (Float.ofInt 2) (Float.ofInt (-1)))) := rfl
  refine ⟨_,_,rfl,?_,_,hpow⟩
  have hzero : pyEval (fun v => if v = .py "x" then 2 else -1) (.int 0) = .ok (.int 0) := rfl
  rw [pyEval,hpow,hzero]
  simp only [bind,Except.bind,opKind,bitOr_float]

end Unagi.Ir
