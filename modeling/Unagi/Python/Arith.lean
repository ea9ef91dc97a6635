import Unagi.Frontend.Ast
import Unagi.Python.Value
import Mathlib.Data.Int.Bitwise

/-! # Python operators on values

CPython's arithmetic and comparison on the values of `Unagi.Python.Value`, with
unbounded integers. What no modelled pass can reach is `outside`. -/

namespace Unagi.Python
open Frontend (BinKind CmpKind UnaryKind)

/-- Why an evaluation has no value. `outside` marks a construct this model leaves out. -/
inductive Stop
  | raise (x : Exc)
  | outside
  deriving DecidableEq

/-- The first magnitude that rounds past the largest float, `2 ^ 1024 - 2 ^ 971`. -/
def floatLimit : Nat := 2 ^ 1024 - 2 ^ 970

def intToFloat (n : Int) : Except Stop Float :=
  if n.natAbs < floatLimit then .ok (Float.ofInt n)
  else .error (.raise ⟨.overflowError, "int too large to convert to float"⟩)

/-- The quotient of two positive integers, rounded once: the guard bit is kept odd when
the integer quotient is inexact. -/
def roundQuot (a b : Nat) : Float :=
  let s : Int := 55 - (Nat.log2 a - Nat.log2 b : Int)
  let n := a * 2 ^ s.toNat
  let d := b * 2 ^ (-s).toNat
  let q := if n % d = 0 then n / d else (n / d) ||| 1
  Float.scaleB (Float.ofNat q) (-s)

def trueDiv (a b : Int) : Except Stop Float :=
  let x := if a = 0 then 0 else roundQuot a.natAbs b.natAbs
  let x := if (a < 0) ↔ (b < 0) then x else -x
  if x.isInf then .error (.raise ⟨.overflowError, "integer division result too large for a float"⟩)
  else .ok x

def zeroToNegative : Exc := ⟨.zeroDivisionError, "zero to a negative power"⟩
def typeError : Stop := .raise ⟨.typeError, "unsupported operand type(s)"⟩

def intOp (op : BinKind) (x y : Int) : Except Stop Value :=
  match op with
  | .add => .ok (.int (x + y))
  | .sub => .ok (.int (x - y))
  | .mul => .ok (.int (x * y))
  | .div => if y = 0 then .error (.raise zeroDivision) else Value.float <$> trueDiv x y
  | .floorDiv => if y = 0 then .error (.raise zeroDivision) else .ok (.int (x.fdiv y))
  | .mod => if y = 0 then .error (.raise zeroDivision) else .ok (.int (x.fmod y))
  | .pow =>
    if 0 ≤ y then .ok (.int (x ^ y.toNat))
    else if x = 0 then .error (.raise zeroToNegative)
    else .ok (.float (Float.pow (Float.ofInt x) (Float.ofInt y)))
  | .bitOr => .ok (.int (Int.lor x y))
  | .bitXor => .ok (.int (Int.xor x y))
  | .bitAnd => .ok (.int (Int.land x y))
  | .lShift => if y < 0 then .error (.raise negativeShift) else .ok (.int (x * 2 ^ y.toNat))
  | .rShift => if y < 0 then .error (.raise negativeShift) else .ok (.int (x / 2 ^ y.toNat))
  | .matMul => .error typeError

def floatOp (op : BinKind) (x y : Float) : Except Stop Value :=
  match op with
  | .add => .ok (.float (x + y))
  | .sub => .ok (.float (x - y))
  | .mul => .ok (.float (x * y))
  | .div => if y == Float.ofBits 0 then .error (.raise zeroDivision) else .ok (.float (x / y))
  | .floorDiv | .mod | .pow => .error .outside
  | _ => .error typeError

/-- A binary operator on two objects. Two bools keep a bool under the bitwise operators. -/
def binOp (op : BinKind) : Value → Value → Except Stop Value
  | .bool a, .bool b => match op with
    | .bitOr => .ok (.bool (a || b))
    | .bitXor => .ok (.bool (a ^^ b))
    | .bitAnd => .ok (.bool (a && b))
    | _ => intOp op (if a then 1 else 0) (if b then 1 else 0)
  | .int a, .int b => intOp op a b
  | .int a, .bool b => intOp op a (if b then 1 else 0)
  | .bool a, .int b => intOp op (if a then 1 else 0) b
  | .float a, .float b => floatOp op a b
  | .float a, .int b => do floatOp op a (← intToFloat b)
  | .int a, .float b => do floatOp op (← intToFloat a) b
  | .float a, .bool b => do floatOp op a (← intToFloat (if b then 1 else 0))
  | .bool a, .float b => do floatOp op (← intToFloat (if a then 1 else 0)) b
  | .str a, .str b => match op with
    | .add => .ok (.str (a ++ b))
    | .mod => .error .outside
    | _ => .error typeError
  | .str _, _ | _, .str _ => match op with
    | .mul | .mod => .error .outside
    | _ => .error typeError
  | _, _ => .error .outside

end Unagi.Python
