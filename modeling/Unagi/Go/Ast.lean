import Unagi.Emit.Repr

/-! # The Go syntax the static emitter builds

The part of `go/ast` that `pkg/emit` produces. An identifier is its origin, by which the
semantics tells it from others; the text that the printed program has for it is not modelled. -/

namespace Unagi.Go
open Emit (Repr)

inductive Ident
  | py (name : String)
  | temp (k : Nat)
  | flag (k : Nat)
  | errName (k : Nat)
  | deoptParam (i : Nat)
  | hoist (name : String)
  | handle (name : String)
  | genDone
  | genErr
  | genOk
  | enumRawIndex
  | loopYieldTmp
  | global (name : String)
  deriving DecidableEq

inductive Tok
  | add | sub | mul | quo | and | or | xor | land | lor
  | eql | neq | lss | leq | gtr | geq
  deriving DecidableEq

inductive RtFn
  | addInt64 | subInt64 | mulInt64 | floorDivInt64 | powInt64 | lShiftInt64
  | floorModInt64 | rShiftInt64 | boolToInt
  | orInt64 | andInt64 | orFloat64 | andFloat64 | orStr | andStr
  | zeroDivisionError | valueError
  deriving DecidableEq

/-- What a call expression calls. A `handoff` is a deopt handler: it never returns to
the emitted body. -/
inductive Fn
  | rt (f : RtFn)
  | int64
  | float64
  | len
  | static (name : String)
  | handoff (name : String)
  | next
  deriving DecidableEq

inductive Expr
  | ident (x : Ident)
  | recv (field : String)
  | intLit (v : Int64)
  | floatLit (bits : UInt64)
  | strLit (s : String)
  | boolLit (b : Bool)
  | nil
  | deoptSignal
  | binary (op : Tok) (x y : Expr)
  | not (x : Expr)
  | paren (x : Expr)
  | selector (x : Expr) (field : String)
  | index (x i : Expr)
  | call (fn : Fn) (args : List Expr)
  | sliceLit (elem : Emit.Scalar) (elts : List Expr)
  | structLit (type : String)
  | newStruct (type : String) (fields : List String) (values : List Expr)
  | assertDeopt (x : Expr)

inductive LHS
  | blank
  | var (x : Ident)
  | recv (field : String)
  deriving DecidableEq

/-- Statements. `els` is empty when there is no else branch; an `else if` is a one-element
`els`. A `switch` clause is numbered by its position in the list. -/
inductive Stmt
  | define (lhs : List LHS) (rhs : List Expr)
  | assign (lhs : List LHS) (rhs : List Expr)
  | opAssign (x : Ident) (op : Tok) (rhs : Expr)
  | varDecl (x : Ident) (type : Repr)
  | incDec (x : LHS) (inc : Bool)
  | ifStmt (init : List Stmt) (cond : Expr) (body els : List Stmt)
  | forStmt (init : List Stmt) (cond : Option Expr) (post : List Stmt) (body : List Stmt)
  | rangeStmt (key : LHS) (value : Ident) (x : Expr) (body : List Stmt)
  | switchStmt (tag : Expr) (clauses : List (List Stmt))
  | branchBreak
  | branchContinue
  | branchFallthrough
  | ret (results : List Expr)

structure FuncDecl where
  name : String
  params : List (Ident × Repr)
  ret : Repr
  body : List Stmt

/-! The node builders of `emit.go`. -/

def ident (x : Ident) : Expr := .ident x
def define (x : Ident) (rhs : Expr) : Stmt := .define [.var x] [rhs]
def setStmt (lhs : LHS) (rhs : Expr) : Stmt := .assign [lhs] [rhs]
def ifStmt (cond : Expr) (body : List Stmt) : Stmt := .ifStmt [] cond body []

end Unagi.Go
