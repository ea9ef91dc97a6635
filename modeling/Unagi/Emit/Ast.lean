import Unagi.Go.Ast

/-! # The scalar model of the static tier

The nodes of `pkg/emit`: what the bridge builds and the emitter lowers to Go. -/

namespace Unagi.Emit
open Go (Ident Tok RtFn)

inductive Op
  | add | sub | mul | div | floorDiv | mod | pow
  | bitAnd | bitOr | bitXor | lShift | rShift
  deriving DecidableEq

def Op.string : Op → String
  | add => "+" | sub => "-" | mul => "*" | div => "/" | floorDiv => "//" | mod => "%" | pow => "**"
  | bitAnd => "&" | bitOr => "|" | bitXor => "^" | lShift => "<<" | rShift => ">>"
def Op.overflows : Op → Bool
  | add | sub | mul | floorDiv | pow | lShift => true
  | div | mod | bitAnd | bitOr | bitXor | rShift => false

inductive CmpOp
  | lt | le | gt | ge | eq | ne
  deriving DecidableEq

def CmpOp.tok : CmpOp → Tok
  | lt => .lss | le => .leq | gt => .gtr | ge => .geq | eq => .eql | ne => .neq
def CmpOp.string : CmpOp → String
  | lt => "<" | le => "<=" | gt => ">" | ge => ">=" | eq => "==" | ne => "!="
def CmpOp.ordered (o : CmpOp) : Bool := o ≠ .eq && o ≠ .ne

/-- Expressions. `genNew` keeps its fields as parallel name and value lists. -/
inductive Expr
  | var (name : Ident) (repr : Repr)
  | recv (name : String) (repr : Repr)
  | int (v : Int64)
  | float (bits : UInt64)
  | bool (v : Bool)
  | str (v : String)
  | bin (op : Op) (l r : Expr)
  | index (base idx : Expr)
  | listLit (elem : Scalar) (items : List Expr)
  | attr (base : Expr) (name : String)
  | genNew (type : String) (fields : List String) (values : List Expr)
  | cmp (op : CmpOp) (l r : Expr)
  | and (l r : Expr)
  | or (l r : Expr)
  | not (x : Expr)
  | call (name : String) (args : List Expr) (ret : Repr)

structure ResumeInfo where
  handler : String
  carried : List Ident

inductive Stmt
  | define (name : Ident) (value : Expr)
  | assign (name : Ident) (value : Expr)
  | varDecl (name : Ident) (repr : Repr)
  | bind (names : List Ident) (values : List Expr) (define : Bool)
  | augAssign (name : Ident) (op : Op) (repr : Repr) (value : Expr)
  | ret (value : Expr)
  | forRange (bind : Ident) (index : Option Ident) (overList : Expr) (body : List Stmt)
  | forGen (bind : Ident) (elem : Repr) (gen : Expr) (body : List Stmt) (deopt : Bool)
  | forCount (var : Ident) (start stop : Expr) (down : Bool) (body : List Stmt)
      (resume : Option ResumeInfo)
  | whileLoop (cond : Expr) (body : List Stmt)
  | breakStmt
  | continueStmt
  | ifElse (cond : Expr) (thn els : List Stmt)
  | discard (value : Expr)

structure Param where
  name : Ident
  repr : Repr

structure BindingGuard where
  verVar : String
  version : Int64

/-- A static-tier function. An empty `deoptHandler` means none is named. -/
structure Func where
  name : String
  params : List Param
  ret : Repr
  body : List Stmt
  deoptHandler : String
  bindingGuards : List BindingGuard

/-- The subtree contains an operation the connectives take to raise: true division. -/
def hasRaisingGuard : Expr → Bool
  | .bin .div _ _ => true
  | .bin _ l r | .cmp _ l r | .and l r | .or l r => hasRaisingGuard l || hasRaisingGuard r
  | .not x => hasRaisingGuard x
  | _ => false

end Unagi.Emit
