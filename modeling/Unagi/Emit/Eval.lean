import Unagi.Emit.Lower
import Unagi.Frontend.Ast
import Unagi.Go.Semantics

/-! # The meaning of an operator on two words -/

namespace Unagi.Emit
open Go (Value)
open Python (Exc zeroDivision negativeShift)
open Unagi.Runtime

inductive Halt
  | raise (x : Exc)
  | deopt
  | stuck

def checked (r : Int64 × Bool) : Except Halt Value := if r.2 then .error .deopt else .ok (.int r.1)

def intBin (op : Op) (x y : Int64) : Except Halt Value :=
  match op with
  | .add => checked (addInt64 x y)
  | .sub => checked (subInt64 x y)
  | .mul => checked (mulInt64 x y)
  | .pow => checked (powInt64 x y)
  | .floorDiv =>
    if y = 0 then .error (.raise zeroDivision)
    else (floorDivInt64 x y).elim (.error .stuck) checked
  | .mod =>
    if y = 0 then .error (.raise zeroDivision)
    else (floorModInt64 x y).elim (.error .stuck) fun v => .ok (.int v)
  | .bitAnd => .ok (.int (x &&& y))
  | .bitOr => .ok (.int (x ||| y))
  | .bitXor => .ok (.int (x ^^^ y))
  | .lShift => if y < 0 then .error (.raise negativeShift) else checked (lShiftInt64 x y)
  | .rShift => if y < 0 then .error (.raise negativeShift) else .ok (.int (rShiftInt64 x y))
  | .div => .error .stuck

end Unagi.Emit
