import Mathlib.Data.List.Basic

/-! # The surface syntax of `pkg/frontend`

The syntax tree the parser hands to every later pass. Source positions are left
out: no modelled pass branches on one. An integer literal is kept by the value
of its normalized decimal text, a float literal by its bit pattern. -/

namespace Unagi.Frontend

inductive BinKind
  | add | sub | mul | div | floorDiv | mod | pow
  | bitOr | bitXor | bitAnd | lShift | rShift | matMul
  deriving DecidableEq, Repr

inductive UnaryKind
  | neg | pos | not | invert
  deriving DecidableEq, Repr

inductive BoolKind
  | and | or
  deriving DecidableEq, Repr

inductive CmpKind
  | eq | ne | lt | le | gt | ge | isIn | notIn | is | isNot
  deriving DecidableEq, Repr

inductive CompKind
  | list | set | dict | gen
  deriving DecidableEq, Repr

inductive ParamKind
  | plain | posOnly | star | kwOnly | starStar
  deriving DecidableEq, Repr

mutual
inductive Expr
  | name (id : String)
  | intLit (value : Nat)
  | floatLit (bits : UInt64)
  | imagLit (bits : UInt64)
  | strLit (val : String)
  | bytesLit (val : String)
  | boolLit (val : Bool)
  | noneLit
  | ellipsisLit
  | listLit (elts : List Expr)
  | tupleLit (elts : List Expr)
  | dictLit (keys : List (Option Expr)) (vals : List Expr)
  | setLit (elts : List Expr)
  | comp (kind : CompKind) (elt : Expr) (val : Option Expr) (clauses : List CompClause)
  | binOp (left : Expr) (op : BinKind) (right : Expr)
  | unaryOp (op : UnaryKind) (x : Expr)
  | await (x : Expr)
  | boolOp (kind : BoolKind) (values : List Expr)
  | compare (left : Expr) (ops : List CmpKind) (rights : List Expr)
  | call (fn : Expr) (args : List Arg)
  | attribute (x : Expr) (name : String)
  | subscript (x : Expr) (index : Expr)
  | sliceExpr (lo hi step : Option Expr)
  | ifExp (cond thn els : Expr)
  | namedExpr (target : String) (value : Expr)
  | starred (x : Expr)
  | lambda (params : List Param) (body : Expr)
  | yield (value : Option Expr) (isFrom : Bool)
  | fStr (parts : List FPart)
  | tStr (parts : List FPart)

inductive Arg
  | mk (name : String) (star : Nat) (value : Expr)

inductive Param
  | mk (name : String) (kind : ParamKind) (ann : Option Expr) (dflt : Option Expr)

inductive CompClause
  | mk (async : Bool) (target iter : Expr) (ifs : List Expr)

inductive FPart
  | text (s : String)
  | interp (x : Expr) (spec : List FPart)
end

namespace Arg
def name : Arg → String | mk n _ _ => n
def star : Arg → Nat | mk _ s _ => s
def value : Arg → Expr | mk _ _ v => v
end Arg

namespace Param
def name : Param → String | mk n _ _ _ => n
def kind : Param → ParamKind | mk _ k _ _ => k
def ann : Param → Option Expr | mk _ _ a _ => a
def dflt : Param → Option Expr | mk _ _ _ d => d
end Param

inductive Pattern
  | literal (value : Expr)
  | value (value : Expr)
  | capture (name : String)
  | star (name : String)
  | sequence (elts : List Pattern)
  | mapping (keys : List Expr) (vals : List Pattern) (rest : String)
  | class (cls : Expr) (pos : List Pattern) (kwNames : List String) (kwValues : List Pattern)
  | or (alts : List Pattern)
  | as (pattern : Pattern) (name : String)

structure WithItem where
  context : Expr
  target : Option Expr

structure ImportAlias where
  name : String
  asName : String
  deriving DecidableEq, Repr

/-- The name an import alias binds: the alias, else the first dotted component. -/
def ImportAlias.bound (a : ImportAlias) : String :=
  if a.asName ≠ "" then a.asName else String.ofList (a.name.toList.takeWhile (· ≠ '.'))

mutual
inductive Stmt
  | exprStmt (x : Expr)
  | assign (targets : List Expr) (value : Expr)
  | augAssign (target : Expr) (op : BinKind) (value : Expr)
  | annAssign (target ann : Expr) (value : Option Expr)
  | ifStmt (cond : Expr) (body els : List Stmt)
  | whileStmt (cond : Expr) (body els : List Stmt)
  | forStmt (target iter : Expr) (body els : List Stmt) (async : Bool)
  | withStmt (items : List WithItem) (body : List Stmt) (async : Bool)
  | matchStmt (subject : Expr) (cases : List MatchCase)
  | funcDef (fn : FuncDef)
  | classDef (name : String) (bases : List Expr) (keywords : List (String × Expr))
      (body : List Stmt) (decorators : List Expr)
  | tryStmt (body : List Stmt) (handlers : List ExceptHandler) (orElse final : List Stmt)
      (isStar : Bool)
  | raiseStmt (exc cause : Option Expr)
  | assertStmt (test : Expr) (msg : Option Expr)
  | returnStmt (value : Option Expr)
  | pass
  | typeAlias (name : String) (value : Expr)
  | breakStmt
  | continueStmt
  | del (targets : List Expr)
  | globalStmt (names : List String)
  | nonlocalStmt (names : List String)
  | importStmt (names : List ImportAlias)
  | importFrom (module : String) (level : Nat) (names : List ImportAlias) (star : Bool)

inductive FuncDef
  | mk (name : String) (params : List Param) (returns : Option Expr) (body : List Stmt)
      (decorators : List Expr) (async : Bool)

inductive MatchCase
  | mk (pattern : Pattern) (guard : Option Expr) (body : List Stmt)

inductive ExceptHandler
  | mk (type : Option Expr) (name : String) (body : List Stmt)
end

namespace FuncDef
def name : FuncDef → String | mk n _ _ _ _ _ => n
def params : FuncDef → List Param | mk _ p _ _ _ _ => p
def returns : FuncDef → Option Expr | mk _ _ r _ _ _ => r
def body : FuncDef → List Stmt | mk _ _ _ b _ _ => b
def decorators : FuncDef → List Expr | mk _ _ _ _ d _ => d
def async : FuncDef → Bool | mk _ _ _ _ _ a => a
end FuncDef

structure Module where
  body : List Stmt

end Unagi.Frontend
