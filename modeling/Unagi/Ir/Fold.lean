import Unagi.Emit.Ast
import Unagi.Runtime.StaticTier

/-! # Constant folding and integer identities

`pkg/ir/fold.go`. -/

namespace Unagi.Ir
open Emit Unagi.Runtime

def foldIntOp (op : Op) (l r : Int64) : Option Int64 :=
  let checked (p : Int64 × Bool) : Option Int64 := if p.2 then none else some p.1
  match op with
  | .add => checked (addInt64 l r)
  | .sub => checked (subInt64 l r)
  | .mul => checked (mulInt64 l r)
  | .floorDiv => if r = 0 then none else (floorDivInt64 l r).bind checked
  | .mod => if r = 0 then none else floorModInt64 l r
  | .pow => checked (powInt64 l r)
  | .bitAnd => some (l &&& r)
  | .bitOr => some (l ||| r)
  | .bitXor => some (l ^^^ r)
  | .lShift => if r < 0 then none else checked (lShiftInt64 l r)
  | .rShift => if r < 0 then none else some (rShiftInt64 l r)
  | .div => none

/-- The value of a constant int tree. `math.MinInt64` is never folded. -/
def foldConstInt : Expr → Option Int64
  | .int v => some v
  | .bin op l r => do
    let l ← foldConstInt l
    let r ← foldConstInt r
    let v ← foldIntOp op l r
    if v = Int64.minValue then none else some v
  | _ => none

def rightIdentity : Op → Option Int64
  | .add | .sub | .bitOr | .bitXor | .lShift | .rShift => some 0
  | .mul | .floorDiv | .pow => some 1
  | _ => none
def leftIdentity : Op → Option Int64
  | .add | .bitOr | .bitXor => some 0
  | .mul => some 1
  | _ => none
def isIntConst (e : Expr) (v : Int64) : Bool :=
  match e with
  | .int w => w = v
  | _ => false

/-- Drop an operand that is the operator's identity; the kept operand must be an int. -/
def simplifyIntIdentity (op : Op) (l : Expr) (lr : Repr) (r : Expr) (rr res : Repr) :
    Option (Expr × Repr) :=
  if res.scalar ≠ .sInt then none
  else if lr.scalar = .sInt ∧ (rightIdentity op).any (isIntConst r) then some (l, lr)
  else if rr.scalar = .sInt ∧ (leftIdentity op).any (isIntConst l) then some (r, rr)
  else none

end Unagi.Ir
