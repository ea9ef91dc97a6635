import Unagi.Go.Ast
import Unagi.Python.Value
import Unagi.Runtime.StaticTier

/-! # The meaning of emitted Go expressions

An interpreter for the expressions of `Unagi.Go.Ast`. Variables live in block scopes. -/

abbrev Scopes (κ α : Type) := List (κ → Option α)
def Scopes.lookup {κ α : Type} : Scopes κ α → κ → Option α
  | [], _ => none
  | f :: fs, x => match f x with
    | some v => some v
    | none => lookup fs x

namespace Unagi.Go
open Python (Exc)
open Unagi.Runtime
open Emit (Repr Scalar)

inductive Value
  | int (v : Int64)
  | float (x : Float)
  | bool (b : Bool)
  | str (s : String)
  | nil
  | list (xs : List Value)
  | struct (type : String) (fields : List (String × Value))
  | exc (x : Exc)
  | deopt

/-- Why an expression has no value: a run-time panic, or a term Go does not compile. -/
inductive Trap
  | panic
  | stuck
  deriving DecidableEq

abbrev Call := String × List Value

structure Store where
  scopes : Scopes Ident Value
  recv : String → Option Value
  log : List Call

def compareBy {α : Type} [LT α] [LE α] [BEq α] [DecidableLT α] [DecidableLE α] (op : Tok) (x y : α) :
    Except Trap Value :=
  match op with
  | .eql => .ok (.bool (x == y))
  | .neq => .ok (.bool (x != y))
  | .lss => .ok (.bool (decide (x < y)))
  | .leq => .ok (.bool (decide (x ≤ y)))
  | .gtr => .ok (.bool (decide (y < x)))
  | .geq => .ok (.bool (decide (y ≤ x)))
  | _ => .error .stuck

def binaryOp (op : Tok) : Value → Value → Except Trap Value
  | .int x, .int y => match op with
    | .add => .ok (.int (x + y))
    | .sub => .ok (.int (x - y))
    | .mul => .ok (.int (x * y))
    | .quo => if y = 0 then .error .panic else .ok (.int (x / y))
    | .and => .ok (.int (x &&& y))
    | .or => .ok (.int (x ||| y))
    | .xor => .ok (.int (x ^^^ y))
    | _ => compareBy op x y
  | .float x, .float y => match op with
    | .add => .ok (.float (x + y))
    | .sub => .ok (.float (x - y))
    | .mul => .ok (.float (x * y))
    | .quo => .ok (.float (x / y))
    | _ => compareBy op x y
  | .str x, .str y => match op with
    | .add => .ok (.str (x ++ y))
    | _ => compareBy op x y
  | .bool x, .bool y => match op with
    | .eql => .ok (.bool (x == y))
    | .neq => .ok (.bool (x != y))
    | _ => .error .stuck
  | .nil, .nil => match op with
    | .eql => .ok (.bool true)
    | .neq => .ok (.bool false)
    | _ => .error .stuck
  | .exc _, .nil | .deopt, .nil => match op with
    | .eql => .ok (.bool false)
    | .neq => .ok (.bool true)
    | _ => .error .stuck
  | _, _ => .error .stuck

def rtCall (f : RtFn) (args : List Value) : Except Trap (List Value) :=
  let checked (r : Int64 × Bool) : Except Trap (List Value) := .ok [.int r.1, .bool r.2]
  match f, args with
  | .addInt64, [.int x, .int y] => checked (addInt64 x y)
  | .subInt64, [.int x, .int y] => checked (subInt64 x y)
  | .mulInt64, [.int x, .int y] => checked (mulInt64 x y)
  | .floorDivInt64, [.int x, .int y] => match floorDivInt64 x y with
    | some r => checked r
    | none => .error .panic
  | .powInt64, [.int x, .int y] => checked (powInt64 x y)
  | .lShiftInt64, [.int x, .int y] => checked (lShiftInt64 x y)
  | .floorModInt64, [.int x, .int y] => match floorModInt64 x y with
    | some r => .ok [.int r]
    | none => .error .panic
  | .rShiftInt64, [.int x, .int y] => .ok [.int (rShiftInt64 x y)]
  | .boolToInt, [.bool b] => .ok [.int (boolToInt b)]
  | .orInt64, [.int x, .int y] => .ok [.int (orInt64 x y)]
  | .andInt64, [.int x, .int y] => .ok [.int (andInt64 x y)]
  | .orFloat64, [.float x, .float y] => .ok [.float (orFloat64 x y)]
  | .andFloat64, [.float x, .float y] => .ok [.float (andFloat64 x y)]
  | .orStr, [.str x, .str y] => .ok [.str (orStr x y)]
  | .andStr, [.str x, .str y] => .ok [.str (andStr x y)]
  | .zeroDivisionError, [.str m] => .ok [.exc ⟨.zeroDivisionError, m⟩]
  | .valueError, [.str m] => .ok [.exc ⟨.valueError, m⟩]
  | _, _ => .error .stuck

def asInt : Value → Except Trap Int64
  | .int v => .ok v
  | _ => .error .stuck
def asBool : Value → Except Trap Bool
  | .bool b => .ok b
  | _ => .error .stuck
def single : List Value → Except Trap Value
  | [v] => .ok v
  | _ => .error .stuck

mutual
/-- Evaluate a single-valued expression. Calls of static functions, deopt hand-offs, `Next`
and the comma-ok assertion are statements' business and have no value here. -/
def evalExpr (σ : Store) : Expr → Except Trap Value
  | .ident x => match σ.scopes.lookup x with
    | some v => .ok v
    | none => .error .stuck
  | .recv f => match σ.recv f with
    | some v => .ok v
    | none => .error .stuck
  | .intLit v => .ok (.int v)
  | .floatLit bits => .ok (.float (Float.ofBits bits))
  | .strLit s => .ok (.str s)
  | .boolLit b => .ok (.bool b)
  | .nil => .ok .nil
  | .deoptSignal => .ok .deopt
  | .binary op x y => do
    let v ← evalExpr σ x
    match op with
    | .land => if ← asBool v then return .bool (← asBool (← evalExpr σ y)) else return .bool false
    | .lor => if ← asBool v then return .bool true else return .bool (← asBool (← evalExpr σ y))
    | op => do binaryOp op v (← evalExpr σ y)
  | .not x => do return .bool (!(← asBool (← evalExpr σ x)))
  | .paren x => evalExpr σ x
  | .selector x f => do
    match ← evalExpr σ x with
    | .struct _ fs => match fs.lookup f with
      | some v => .ok v
      | none => .error .stuck
    | _ => .error .stuck
  | .index x i => do
    let xs ← evalExpr σ x
    let i ← asInt (← evalExpr σ i)
    match xs with
    | .list xs =>
      if i < 0 then .error .panic
      else match xs[i.toInt.toNat]? with
        | some v => .ok v
        | none => .error .panic
    | _ => .error .stuck
  | .call fn args => do
    let vs ← evalExprs σ args
    match fn, vs with
    | .rt f, vs => do single (← rtCall f vs)
    | .int64, [.int v] => .ok (.int v)
    | .float64, [.int v] => .ok (.float (Float.ofInt v.toInt))
    | .len, [.list xs] => .ok (.int (Int64.ofInt xs.length))
    | _, _ => .error .stuck
  | .sliceLit _ elts => do return .list (← evalExprs σ elts)
  | .structLit t => .ok (.struct t [])
  | .newStruct t fields values => do return .struct t (fields.zip (← evalExprs σ values))
  | .assertDeopt _ => .error .stuck

def evalExprs (σ : Store) : List Expr → Except Trap (List Value)
  | [] => .ok []
  | e :: es => do
    let v ← evalExpr σ e
    let vs ← evalExprs σ es
    return v :: vs
end

section
variable {σ : Store} {x y : Expr} {v w : Value}

theorem evalExpr_binary {op : Tok} {r : Except Trap Value} (h1 : op ≠ .land) (h2 : op ≠ .lor)
    (hx : evalExpr σ x = .ok v) (hy : evalExpr σ y = .ok w) (hr : binaryOp op v w = r) :
    evalExpr σ (.binary op x y) = r := by
  subst hr
  cases op <;> first
    | exact absurd rfl h1
    | exact absurd rfl h2
    | simp only [evalExpr,hx,hy,bind,Except.bind]

theorem evalExprs_one (hx : evalExpr σ x = .ok v) : evalExprs σ [x] = .ok [v] := by
  simp only [evalExprs,hx,bind,Except.bind,pure,Except.pure]
theorem evalExpr_float64 {i : Int64} (hx : evalExpr σ x = .ok (.int i)) :
    evalExpr σ (.call .float64 [x]) = .ok (.float (Float.ofInt i.toInt)) := by
  simp only [evalExpr,evalExprs_one hx,bind,Except.bind]

end
end Unagi.Go
