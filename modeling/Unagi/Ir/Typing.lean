import Unagi.Emit.Ast
import Unagi.Frontend.Ast

/-! # Operator tables of the bridge

The parts of `pkg/ir/bridge.go` that decide whether operands have a static form
and what representation the result has. -/

namespace Unagi.Ir
open Emit (Repr Op CmpOp Scalar intRepr floatRepr strRepr arith numeric)
open Frontend (BinKind CmpKind BoolKind)

def unsupported {α : Type} (msg : String) : Except String α :=
  .error ("ir: unsupported for the static tier: " ++ msg)

def binOp : BinKind → Option Op
  | .add => some .add
  | .sub => some .sub
  | .mul => some .mul
  | .div => some .div
  | .floorDiv => some .floorDiv
  | .mod => some .mod
  | .pow => some .pow
  | .bitAnd => some .bitAnd
  | .bitOr => some .bitOr
  | .bitXor => some .bitXor
  | .lShift => some .lShift
  | .rShift => some .rShift
  | .matMul => none

def cmpOp : CmpKind → Option CmpOp
  | .eq => some .eq
  | .ne => some .ne
  | .lt => some .lt
  | .le => some .le
  | .gt => some .gt
  | .ge => some .ge
  | _ => none

def binResult (op : Op) (l r : Repr) : Except String Repr :=
  let float := l.scalar = .sFloat ∨ r.scalar = .sFloat
  if l.scalar = .sStr ∨ r.scalar = .sStr then
    if op ≠ .add ∨ l.scalar ≠ .sStr ∨ r.scalar ≠ .sStr then unsupported s!"{op.string} on strings"
    else .ok strRepr
  else if !numeric l || !numeric r then
    unsupported s!"{op.string} needs numeric operands, got {l.scalar.string} and {r.scalar.string}"
  else match op with
  | .floorDiv | .mod | .pow =>
    if float then unsupported s!"{op.string} on a float operand stays boxed at M4" else .ok intRepr
  | .bitAnd | .bitOr | .bitXor | .lShift | .rShift =>
    if float then unsupported s!"{op.string} on a float operand is not valid Python" else .ok intRepr
  | .div => .ok floatRepr
  | .add | .sub | .mul => if float then .ok floatRepr else .ok intRepr

def cmpOperands (op : CmpOp) (l r : Repr) : Except String Unit :=
  if arith l && arith r then .ok ()
  else if l.scalar = .sStr ∧ r.scalar = .sStr then .ok ()
  else if l.scalar = .sBool ∧ r.scalar = .sBool ∧ !op.ordered then .ok ()
  else unsupported s!"{op.string} does not compare {l.scalar.string} and {r.scalar.string}"

def truthy (r : Repr) : Bool := r.scalar ≠ .notScalar || r.elem.isSome
def connScalar (s : Scalar) : Bool := s ≠ .notScalar
def boolName : BoolKind → String
  | .and => "and"
  | .or => "or"

end Unagi.Ir
