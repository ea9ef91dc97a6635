import Unagi.Ir.Cost
import Unagi.Ir.Fold
import Mathlib.Data.List.Sort

/-! # The bridge from the surface syntax to the scalar model

`pkg/ir/bridge.go`: `LowerFuncGen` and the passes under it. A scope is the list of
bound names with their representations; the names of the module globals read so
far are threaded through as the state of `LowerM`. -/

namespace Unagi.Ir
open Emit (Repr Op CmpOp Scalar intRepr floatRepr strRepr boolRepr)
open Frontend (BinKind CmpKind BoolKind UnaryKind FuncDef Module)
open Go (Ident)

abbrev Scope := List (String × Repr)

namespace Scope

def get (sc : Scope) (x : String) : Option Repr := sc.lookup x
def set (sc : Scope) (x : String) (r : Repr) : Scope := (x, r) :: sc.filter (·.1 ≠ x)
def setAll (sc bs : Scope) : Scope := bs.foldl (fun sc p => sc.set p.1 p.2) sc
def newBindings (parent child : Scope) : Scope := child.filter fun p => (parent.get p.1).isNone

end Scope

structure StaticCallee where
  goName : String
  params : List Repr
  ret : Repr

structure GenParam where
  name : String
  repr : Repr
  saved : Bool

structure StaticGenerator where
  goName : String
  params : List GenParam
  elem : Repr
  deopt : Bool

/-- The environment of a lowering. A resolver that is `none` is the source's `nil`. -/
structure LowerCtx where
  reads : List String
  inLoop : Bool
  resolve : Option (String → Option StaticCallee)
  globals : Option (String → Option Repr)
  shapes : Option (String → Option Repr)
  gens : Option (String → Option StaticGenerator)

/-- A lowering step: it may refuse, and it records the globals it reads, first read first. -/
abbrev LowerM := StateT (List String) (Except String)

def refuse {α : Type} (msg : String) : LowerM α := fun _ => unsupported msg
def useGuard (name : String) : LowerM Unit :=
  modify fun seen => if name ∈ seen then seen else seen ++ [name]

def shadowVar (name : String) : String := "bshadow_" ++ name
def shadowVer (name : String) : String := "bver_" ++ name

def scalarRepr : String → Option Repr
  | "int" => some intRepr
  | "float" => some floatRepr
  | "bool" => some boolRepr
  | "str" => some strRepr
  | _ => none

def annotationRepr : Frontend.Expr → Option Repr
  | .name id => scalarRepr id
  | _ => none
def shapeAnnotationRepr (shapes : Option (String → Option Repr)) : Frontend.Expr → Option Repr
  | .name id => shapes.bind fun f => f id
  | _ => none
def parseInt (n : Nat) : Option Int64 := if n < 2 ^ 63 then some (Int64.ofNat n) else none
def singleEvalSafe : Frontend.Expr → Bool
  | .name _ | .intLit _ | .floatLit _ | .boolLit _ | .strLit _ => true
  | _ => false
def pureDiscardable : Emit.Expr → Bool
  | .int _ | .float _ | .bool _ | .str _ | .var _ _ => true
  | _ => false

def exprType : Frontend.Expr → String
  | .imagLit _ => "*frontend.ImagLit"
  | .bytesLit _ => "*frontend.BytesLit"
  | .noneLit => "*frontend.NoneLit"
  | .ellipsisLit => "*frontend.EllipsisLit"
  | .tupleLit _ => "*frontend.TupleLit"
  | .dictLit _ _ => "*frontend.DictLit"
  | .setLit _ => "*frontend.SetLit"
  | .comp _ _ _ _ => "*frontend.Comp"
  | .await _ => "*frontend.Await"
  | .attribute _ _ => "*frontend.Attribute"
  | .subscript _ _ => "*frontend.Subscript"
  | .call _ _ => "*frontend.Call"
  | .sliceExpr _ _ _ => "*frontend.SliceExpr"
  | .ifExp _ _ _ => "*frontend.IfExp"
  | .namedExpr _ _ => "*frontend.NamedExpr"
  | .starred _ => "*frontend.Starred"
  | .lambda _ _ => "*frontend.Lambda"
  | .yield _ _ => "*frontend.Yield"
  | .fStr _ => "*frontend.FStr"
  | .tStr _ => "*frontend.TStr"
  | _ => ""

def unaryCode : UnaryKind → Nat
  | .neg => 0 | .pos => 1 | .not => 2 | .invert => 3
def cmpCode : CmpKind → Nat
  | .eq => 0 | .ne => 1 | .lt => 2 | .le => 3 | .gt => 4 | .ge => 5
  | .isIn => 6 | .notIn => 7 | .is => 8 | .isNot => 9

/-- The node of a lowered binary operator: a folded constant, a kept operand, or the node. -/
def binNode (op : Op) (l : Emit.Expr) (lr : Repr) (r : Emit.Expr) (rr res : Repr) :
    Emit.Expr × Repr :=
  match foldConstInt (.bin op l r) with
  | some v => (.int v, res)
  | none => match simplifyIntIdentity op l lr r rr res with
    | some p => p
    | none => (.bin op l r, res)

def connNode (k : BoolKind) (l r : Emit.Expr) : Emit.Expr :=
  match k with
  | .and => .and l r
  | .or => .or l r
def chainNode (acc : Option Emit.Expr) (cmp : Emit.Expr) : Emit.Expr :=
  match acc with
  | none => cmp
  | some a => .and a cmp
def argChecked (callee : String) (i : Nat) (r p : Repr) : LowerM Unit :=
  if r.scalar ≠ p.scalar then
    refuse s!"call to {callee} argument {i} is a {r.scalar.string}, the static callee takes a {p.scalar.string}"
  else pure ()
def plainArgs (callee : String) : List Frontend.Arg → LowerM Unit
  | [] => pure ()
  | a :: as =>
    if a.name ≠ "" then refuse s!"call to {callee} uses a keyword argument, which has no static form"
    else if a.star ≠ 0 then refuse s!"call to {callee} uses a star argument, which has no static form"
    else plainArgs callee as

mutual
def lowerExpr (ctx : LowerCtx) (sc : Scope) : Frontend.Expr → LowerM (Emit.Expr × Repr)
  | .name id => match sc.get id with
    | some r => pure (.var (.py id) r, r)
    | none => match ctx.globals.bind fun g => g id with
      | some r => do
        useGuard id
        pure (.var (.global (shadowVar id)) r, r)
      | none => refuse s!"name {id} is read before it is bound"
  | .intLit n => match parseInt n with
    | some v => pure (.int v, intRepr)
    | none => refuse s!"integer literal {n} does not fit int64"
  | .floatLit bits => pure (.float bits, floatRepr)
  | .boolLit v => pure (.bool v, boolRepr)
  | .strLit v => pure (.str v, strRepr)
  | .binOp left k right => match binOp k with
    | none => refuse "binary operator 12"
    | some op => do
      let (l, lr) ← lowerExpr ctx sc left
      let (r, rr) ← lowerExpr ctx sc right
      let res ← liftM (binResult op lr rr)
      pure (binNode op l lr r rr res)
  | .compare left ops rights => do
    if !(rights.take (ops.length - 1)).all singleEvalSafe then
      refuse "a chained comparison reuses a computed middle term that would evaluate twice; kept boxed"
    else
      let (l, lr) ← lowerExpr ctx sc left
      let acc ← lowerChain ctx sc none l lr ops rights
      pure (acc, boolRepr)
  | .boolOp k (v :: vs) => do
    if vs.isEmpty then refuse "boolean connective with fewer than two operands"
    else
      let (acc, accR) ← lowerExpr ctx sc v
      if !connScalar accR.scalar then
        refuse s!"{boolName k} needs same-typed scalar operands, got {accR.scalar.string}"
      else
        let acc ← lowerOperands ctx sc k acc accR vs
        pure (acc, if accR.scalar = .sBool then boolRepr else accR)
  | .boolOp _ [] => refuse "boolean connective with fewer than two operands"
  | .call (.name f) args => match ctx.resolve with
    | none => refuse s!"call to {f}: no static callee resolver"
    | some resolve => match resolve f with
      | none => refuse s!"call to {f}: not a known static callee"
      | some callee => do
        plainArgs f args
        if args.length ≠ callee.params.length then
          refuse s!"call to {f} passes {args.length} arguments, the static callee takes {callee.params.length}"
        else
          let vs ← lowerArgs ctx sc f 0 callee.params args
          pure (.call callee.goName vs callee.ret, callee.ret)
  | .call fn _ => refuse s!"only a call to a bare name has a static form, not {exprType fn}"
  | .unaryOp op x =>
    if op ≠ .not then refuse s!"unary operator {unaryCode op}"
    else do
      let (x, xr) ← lowerExpr ctx sc x
      if xr.scalar ≠ .sBool then refuse s!"not needs a bool operand, got {xr.scalar.string}"
      else pure (.not x, boolRepr)
  | .listLit [] => refuse "empty list literal has no static element type"
  | .listLit (e :: es) => do
    let (ix, ir) ← lowerExpr ctx sc e
    if ir.scalar = .notScalar then
      refuse s!"a list element has representation {ir.go}, not a scalar"
    else
      let items ← lowerItems ctx sc ir.scalar es
      pure (.listLit ir.scalar (ix :: items), Emit.listRepr ir.scalar)
  | .subscript _ (.sliceExpr _ _ _) => refuse "a slice subscript has no static form"
  | .subscript x index => do
    let (base, br) ← lowerExpr ctx sc x
    match br.elem with
    | none => refuse s!"subscript base has representation {br.go}, not a list"
    | some elem =>
      let (idx, ir) ← lowerExpr ctx sc index
      if ir.scalar ≠ .sInt then refuse s!"list index has representation {ir.go}, not an int"
      else pure (.index base idx, Emit.scalarRepr elem)
  | .attribute x name => do
    let (base, br) ← lowerExpr ctx sc x
    match br.shape with
    | none => refuse s!"attribute base has representation {br.go}, not a fixed-shape instance"
    | some shape => match shape.field name with
      | none => refuse s!"shape {shape.name} has no field {name}"
      | some fr => pure (.attr base name, fr)
  | e => refuse s!"expression {exprType e}"

def lowerChain (ctx : LowerCtx) (sc : Scope) (acc : Option Emit.Expr) (l : Emit.Expr) (lr : Repr) :
    List CmpKind → List Frontend.Expr → LowerM Emit.Expr
  | [], _ => match acc with
    | some a => pure a
    | none => refuse "comparison operator"
  | _ :: _, [] => refuse "comparison operator"
  | k :: ks, e :: es => match cmpOp k with
    | none => refuse s!"comparison operator {cmpCode k}"
    | some op => do
      let (r, rr) ← lowerExpr ctx sc e
      liftM (cmpOperands op lr rr)
      lowerChain ctx sc (some (chainNode acc (.cmp op l r))) r rr ks es

def lowerOperands (ctx : LowerCtx) (sc : Scope) (k : BoolKind) (acc : Emit.Expr) (accR : Repr) :
    List Frontend.Expr → LowerM Emit.Expr
  | [] => pure acc
  | e :: es => do
    let (r, rr) ← lowerExpr ctx sc e
    if rr.scalar ≠ accR.scalar then
      refuse s!"{boolName k} needs same-typed scalar operands, got {accR.scalar.string} and {rr.scalar.string}"
    else if Emit.hasRaisingGuard r then
      refuse s!"a {boolName k} operand that can raise cannot short-circuit safely in the static tier"
    else lowerOperands ctx sc k (connNode k acc r) accR es

def lowerArgs (ctx : LowerCtx) (sc : Scope) (f : String) (i : Nat) :
    List Repr → List Frontend.Arg → LowerM (List Emit.Expr)
  | p :: ps, .mk _ _ e :: as => do
    let (v, r) ← lowerExpr ctx sc e
    argChecked f i r p
    let vs ← lowerArgs ctx sc f (i + 1) ps as
    pure (v :: vs)
  | _, _ => pure []

def lowerItems (ctx : LowerCtx) (sc : Scope) (elem : Scalar) :
    List Frontend.Expr → LowerM (List Emit.Expr)
  | [] => pure []
  | e :: es => do
    let (ix, ir) ← lowerExpr ctx sc e
    if ir.scalar = .notScalar then
      refuse s!"a list element has representation {ir.go}, not a scalar"
    else if ir.scalar ≠ elem then
      refuse s!"list elements mix {elem.string} and {ir.scalar.string}, which has no uniform static form"
    else
      let items ← lowerItems ctx sc elem es
      pure (ix :: items)
end

mutual
def targetHits (name : String) : Frontend.Expr → Bool
  | .name id => id = name
  | .tupleLit elts => targetsHit name elts
  | _ => false

def targetsHit (name : String) : List Frontend.Expr → Bool
  | [] => false
  | e :: es => targetHits name e || targetsHit name es
end

mutual
def stmtAssigns (name : String) : Frontend.Stmt → Bool
  | .assign targets _ => targetsHit name targets
  | .annAssign target _ _ | .augAssign target _ _ => targetHits name target
  | .ifStmt _ body els | .whileStmt _ body els => bodyAssigns name body || bodyAssigns name els
  | .forStmt target _ body els _ =>
    targetHits name target || bodyAssigns name body || bodyAssigns name els
  | _ => false

def bodyAssigns (name : String) : List Frontend.Stmt → Bool
  | [] => false
  | s :: ss => stmtAssigns name s || bodyAssigns name ss
end

def candidate (stem : String) (i : Nat) : String := if i = 0 then stem else stem ++ toString i
def freshFrom (taken : String → Bool) (stem : String) : Nat → Nat → String
  | 0, i => candidate stem i
  | fuel + 1, i =>
    if taken (candidate stem i) then freshFrom taken stem fuel (i + 1) else candidate stem i

mutual
def targetNames : Frontend.Expr → List String
  | .name id => [id]
  | .tupleLit elts => targetsNames elts
  | _ => []

def targetsNames : List Frontend.Expr → List String
  | [] => []
  | e :: es => targetNames e ++ targetsNames es
end

mutual
def stmtTargets : Frontend.Stmt → List String
  | .assign targets _ => targetsNames targets
  | .annAssign target _ _ | .augAssign target _ _ => targetNames target
  | .ifStmt _ body els | .whileStmt _ body els => bodyTargets body ++ bodyTargets els
  | .forStmt target _ body els _ => targetNames target ++ bodyTargets body ++ bodyTargets els
  | _ => []

def bodyTargets : List Frontend.Stmt → List String
  | [] => []
  | s :: ss => stmtTargets s ++ bodyTargets ss
end

/-- A name no binding in scope, loop variable or assignment of the body has. The search
stops once it has tried more candidates than there are names to avoid. -/
def freshLocal (sc : Scope) (body : List Frontend.Stmt) (loopVar stem : String) : String :=
  freshFrom (fun c => (sc.get c).isSome || c = loopVar || bodyAssigns c body) stem
    (sc.length + (bodyTargets body).length + 1) 0

def constStep : Frontend.Expr → Option Int
  | .intLit n => (parseInt n).map (·.toInt)
  | .unaryOp .neg (.intLit n) => (parseInt n).map (-·.toInt)
  | _ => none

mutual
def loadedInExpr : Frontend.Expr → List String
  | .name id => [id]
  | .binOp l _ r => loadedInExpr l ++ loadedInExpr r
  | .unaryOp _ x | .attribute x _ => loadedInExpr x
  | .boolOp _ vs | .tupleLit vs | .listLit vs => loadedInExprs vs
  | .compare l _ rs => loadedInExpr l ++ loadedInExprs rs
  | .subscript x i => loadedInExpr x ++ loadedInExpr i
  | _ => []

def loadedInExprs : List Frontend.Expr → List String
  | [] => []
  | e :: es => loadedInExpr e ++ loadedInExprs es
end

mutual
def loadedInStmt : Frontend.Stmt → List String
  | .returnStmt (some v) => loadedInExpr v
  | .exprStmt x => loadedInExpr x
  | .assign _ v => loadedInExpr v
  | .annAssign _ _ (some v) => loadedInExpr v
  | .augAssign (.name id) _ v => id :: loadedInExpr v
  | .augAssign _ _ v => loadedInExpr v
  | .ifStmt c body els | .whileStmt c body els =>
    loadedInExpr c ++ loadedNames body ++ loadedNames els
  | .forStmt _ iter body els _ => loadedInExpr iter ++ loadedNames body ++ loadedNames els
  | _ => []

def loadedNames : List Frontend.Stmt → List String
  | [] => []
  | s :: ss => loadedInStmt s ++ loadedNames ss
end

/-- What lowering a statement or a block gives: the nodes, the return representation if it
returns, whether every path returns, and the scope after it. -/
structure Lowered where
  stmts : List Emit.Stmt
  ret : Option Repr
  terminates : Bool
  scope : Scope

def Lowered.plain (stmts : List Emit.Stmt) (sc : Scope) : Lowered := ⟨stmts, none, false, sc⟩

/-- Bind one name: a rebind keeps the scalar class and assigns, a fresh name is defined. -/
def bindName (sc : Scope) (x : String) (v : Emit.Expr) (r : Repr) : LowerM Lowered :=
  match sc.get x with
  | some prev =>
    if prev.scalar ≠ r.scalar then
      refuse s!"{x} rebinds a {prev.scalar.string} value as a {r.scalar.string}, which Go cannot express"
    else pure (.plain [.assign (.py x) v] (sc.set x r))
  | none => pure (.plain [.define (.py x) v] (sc.set x r))

def tupleTargets (seen : List String) : List Frontend.Expr → LowerM (List String)
  | [] => pure []
  | .name id :: es => do
    if id ∈ seen then
      refuse s!"tuple unpack repeats the target {id}, which Go's parallel assignment forbids"
    else
      let names ← tupleTargets (id :: seen) es
      pure (id :: names)
  | _ :: _ => refuse "tuple unpack target is not a plain name"

def lowerValues (ctx : LowerCtx) (sc : Scope) : List Frontend.Expr → LowerM (List Emit.Expr × List Repr)
  | [] => pure ([], [])
  | e :: es => do
    let (v, r) ← lowerExpr ctx sc e
    let (vs, rs) ← lowerValues ctx sc es
    pure (v :: vs, r :: rs)

/-- Every rebound name of a tuple target keeps its scalar class. -/
def rebindsKeep (sc : Scope) : List String → List Repr → LowerM Unit
  | x :: xs, r :: rs => match sc.get x with
    | some prev =>
      if prev.scalar ≠ r.scalar then
        refuse s!"{x} rebinds a {prev.scalar.string} value as a {r.scalar.string}, which Go cannot express"
      else rebindsKeep sc xs rs
    | none => rebindsKeep sc xs rs
  | _, _ => pure ()

def lowerTupleAssign (ctx : LowerCtx) (sc : Scope) (targets : List Frontend.Expr)
    (value : Frontend.Expr) : LowerM Lowered :=
  match value with
  | .tupleLit elts => do
    if targets.length ≠ elts.length then
      refuse s!"tuple unpack binds {targets.length} names to {elts.length} values"
    else if targets.length < 2 then refuse "a tuple unpack needs at least two targets"
    else
      let names ← tupleTargets [] targets
      let (vals, reprs) ← lowerValues ctx sc elts
      rebindsKeep sc names reprs
      let fresh := names.any fun x => (sc.get x).isNone
      let rebind := names.any fun x => (sc.get x).isSome
      if fresh && rebind then
        refuse "a tuple unpack that mixes fresh and rebound names stays boxed"
      else
        pure (.plain [.bind (names.map .py) vals fresh] (sc.setAll (names.zip reprs)))
  | _ => refuse "tuple unpack of a non-tuple value stays boxed"

def joinReturns (thn els : Option Repr) : LowerM (Option Repr) :=
  match thn, els with
  | none, els => pure els
  | thn, none => pure thn
  | some t, some e =>
    if t.scalar ≠ e.scalar then
      refuse s!"if returns {t.scalar.string} on one arm and {e.scalar.string} on the other"
    else pure (some t)

/-- The names both arms newly bind, sorted, with the then arm's representations. -/
def joinBindings (thenNew elseNew : Scope) : LowerM Scope :=
  match thenNew.find? fun p => (elseNew.get p.1).any (·.scalar ≠ p.2.scalar) with
  | some p =>
    let other := (elseNew.get p.1).elim "" (·.scalar.string)
    refuse s!"{p.1} joins as {p.2.scalar.string} on one arm and {other} on the other, which Go cannot type"
  | none => pure ((thenNew.filter fun p => (elseNew.get p.1).isSome).insertionSort (·.1 ≤ ·.1))

def branchReads (ctx : LowerCtx) (bound : Scope) : LowerM Unit :=
  match bound.find? fun p => p.1 ∉ ctx.reads with
  | some p => refuse s!"{p.1} is bound in a branch but never read, so it has no live static form"
  | none => pure ()

def rangeShape : List Frontend.Arg → LowerM (Option Frontend.Expr × Frontend.Expr × Bool)
  | [a] => pure (none, a.value, false)
  | [a, b] => pure (some a.value, b.value, false)
  | [a, b, c] => match constStep c.value with
    | some step =>
      if step = 1 then pure (some a.value, b.value, false)
      else if step = -1 then pure (some a.value, b.value, true)
      else refuse "a range step of magnitude other than one needs a loop back-edge overflow guard, deferred past M4"
    | none =>
      refuse "a range step that is not an integer literal has no compile-time sign, so the loop direction is unknown"
  | _ => refuse "range needs one to three arguments"

def lowerStart (ctx : LowerCtx) (sc : Scope) : Option Frontend.Expr → LowerM Emit.Expr
  | none => pure (.int 0)
  | some e => do
    let (s, r) ← lowerExpr ctx sc e
    if r.scalar ≠ .sInt then refuse s!"a range start must be an int, got {r.scalar.string}"
    else pure s

/-- A range stop: the statements that hoist it, and the bound the loop tests. -/
def lowerStop (ctx : LowerCtx) (sc : Scope) (body : List Frontend.Stmt) (target : String)
    (e : Frontend.Expr) : LowerM (List Emit.Stmt × Emit.Expr) := do
  let (s, r) ← lowerExpr ctx sc e
  if r.scalar ≠ .sInt then refuse s!"a range stop must be an int, got {r.scalar.string}"
  else match e with
    | .intLit _ => pure ([], s)
    | .name b =>
      if bodyAssigns b body then
        refuse s!"the loop body reassigns the range bound {b}, which the counting loop would re-read"
      else pure ([], s)
    | _ =>
      let tmp := Ident.hoist (freshLocal sc body target "bound")
      pure ([.define tmp s], .var tmp r)

/-- The arguments of a driven generator: statements for the unsaved ones, fields for the
saved ones. -/
def lowerGenArgs (ctx : LowerCtx) (sc : Scope) (sig : String) (i : Nat) :
    List GenParam → List Frontend.Arg → LowerM (List Emit.Stmt × List String × List Emit.Expr)
  | p :: ps, a :: as => do
    let (v, r) ← lowerExpr ctx sc a.value
    if r.scalar ≠ p.repr.scalar then
      refuse s!"generator {sig} argument {i} is {r.scalar.string} but the parameter is {p.repr.scalar.string}"
    else
      let (pre, fields, values) ← lowerGenArgs ctx sc sig (i + 1) ps as
      if p.saved then pure (pre, p.name :: fields, v :: values)
      else if pureDiscardable v then pure (pre, fields, values)
      else pure (.discard v :: pre, fields, values)
  | _, _ => pure ([], [], [])

def stmtType : Frontend.Stmt → String
  | .withStmt _ _ _ => "*frontend.With"
  | .matchStmt _ _ => "*frontend.Match"
  | .funcDef _ => "*frontend.FuncDef"
  | .classDef _ _ _ _ _ => "*frontend.ClassDef"
  | .tryStmt _ _ _ _ _ => "*frontend.Try"
  | .raiseStmt _ _ => "*frontend.Raise"
  | .assertStmt _ _ => "*frontend.Assert"
  | .typeAlias _ _ => "*frontend.TypeAlias"
  | .del _ => "*frontend.Del"
  | .globalStmt _ => "*frontend.Global"
  | .nonlocalStmt _ => "*frontend.Nonlocal"
  | .importStmt _ => "*frontend.Import"
  | .importFrom _ _ _ _ => "*frontend.ImportFrom"
  | _ => ""

def nextReturn (ret rr : Option Repr) : LowerM (Option Repr) :=
  match ret, rr with
  | ret, none => pure ret
  | none, some r => pure (some r)
  | some p, some r =>
    if p.scalar ≠ r.scalar then
      refuse s!"return type is {p.scalar.string} on one path and {r.scalar.string} on another"
    else pure (some r)

/-- Lower a loop that drives a static generator; `lowerBody` lowers the loop's body. -/
def lowerForGen (ctx : LowerCtx) (sc : Scope) (x : String) (args : List Frontend.Arg)
    (sig : StaticGenerator) (body : List Frontend.Stmt)
    (lowerBody : LowerCtx → Scope → LowerM Lowered) : LowerM Lowered := do
  if args.any fun a => a.star ≠ 0 || a.name ≠ "" then
    refuse "a generator call with a keyword or star argument has no static drive form"
  else if args.length ≠ sig.params.length then
    refuse s!"generator {sig.goName} expects {sig.params.length} arguments, got {args.length}"
  else if bodyAssigns x body then
    refuse s!"the loop body reassigns the loop variable {x}, which perturbs the generator consume loop"
  else
    let (pre, fields, values) ← lowerGenArgs ctx sc sig.goName 0 sig.params args
    let handle := freshLocal sc body x "g"
    let handleRepr : Repr := { go := "*" ++ sig.goName, scalar := .notScalar }
    let loopSc := (sc.set handle handleRepr).set x sig.elem
    let body ← lowerBody { ctx with inLoop := true } loopSc
    pure (.plain (pre ++ [.define (.handle handle) (.genNew sig.goName fields values),
      .forGen (.py x) sig.elem (.var (.handle handle) handleRepr) body.stmts sig.deopt]) sc)

mutual
def lowerStmt (ctx : LowerCtx) (sc : Scope) : Frontend.Stmt → LowerM Lowered
  | .pass => pure (.plain [] sc)
  | .breakStmt =>
    if !ctx.inLoop then refuse "break outside a loop has no static form"
    else pure (.plain [.breakStmt] sc)
  | .continueStmt =>
    if !ctx.inLoop then refuse "continue outside a loop has no static form"
    else pure (.plain [.continueStmt] sc)
  | .returnStmt none => refuse "a bare return has no scalar value"
  | .returnStmt (some e) => do
    let (v, r) ← lowerExpr ctx sc e
    pure ⟨[.ret v], some r, true, sc⟩
  | .ifStmt cond body els => do
    let (c, cr) ← lowerExpr ctx sc cond
    if !truthy cr then refuse s!"no truthiness form for a {cr.scalar.string} condition"
    else
      let thn ← lowerBodyFrom ctx sc none false body
      let alt ← lowerBodyFrom ctx sc none false els
      let thenNew := sc.newBindings thn.scope
      let elseNew := sc.newBindings alt.scope
      let join ← joinBindings thenNew elseNew
      branchReads ctx thenNew
      branchReads ctx elseNew
      let seeded := sc.setAll join
      let thn' ← lowerBodyFrom ctx seeded none false body
      let alt' ← lowerBodyFrom ctx seeded none false els
      let ret ← joinReturns thn.ret alt.ret
      pure ⟨join.map (fun p => .varDecl (.py p.1) p.2) ++ [.ifElse c thn'.stmts alt'.stmts], ret,
        thn.terminates && !els.isEmpty && alt.terminates, seeded⟩
  | .whileStmt cond body els => do
    if !els.isEmpty then refuse "a while-else has no static form at M4"
    else
      let (c, cr) ← lowerExpr ctx sc cond
      if !truthy cr then refuse s!"no truthiness form for a {cr.scalar.string} condition"
      else if (costExpr c).guards > 0 then
        refuse "a guarded while condition needs a loop back-edge resume point, deferred past M4"
      else
        let body ← lowerBodyFrom { ctx with inLoop := true } sc none false body
        pure (.plain [.whileLoop c body.stmts] sc)
  | .forStmt target iter body els _ =>
    if !els.isEmpty then refuse "a for-else has no static form at M4"
    else match target with
    | .name x =>
      if (sc.get x).isSome then
        refuse s!"the loop variable {x} shadows an outer binding, which Go and Python leave in different states after the loop"
      else match iter with
      | .call (.name f) args =>
        match (if f = "range" then none else ctx.gens.bind fun g => g f) with
        | some sig =>
          lowerForGen ctx sc x args sig body fun ctx sc => lowerBodyFrom ctx sc none false body
        | none =>
          if f ≠ "range" then refuse "a for over a non-range call has no counting-loop form yet"
          else if args.any fun a => a.star ≠ 0 || a.name ≠ "" then
            refuse "range with a keyword or star argument has no static form"
          else do
            let (startArg, stopArg, down) ← rangeShape args
            let start ← lowerStart ctx sc startArg
            let (pre, stop) ← lowerStop ctx sc body x stopArg
            if bodyAssigns x body then
              refuse s!"the loop body reassigns the loop variable {x}, which perturbs a Go counting loop"
            else
              let body ← lowerBodyFrom { ctx with inLoop := true } (sc.set x intRepr) none false body
              pure (.plain (pre ++ [.forCount (.py x) start stop down body.stmts none]) sc)
      | .call _ _ => refuse "a for over a non-name call has no static form yet"
      | _ => refuse "a for over a non-range iterable has no counting-loop form yet"
    | _ => refuse "a for target that is not a plain name has no counting-loop form yet"
  | .assign targets value => match targets with
    | [.tupleLit elts] => lowerTupleAssign ctx sc elts value
    | [.name x] => do
      let (v, r) ← lowerExpr ctx sc value
      bindName sc x v r
    | [_] => refuse "assignment target is not a plain name"
    | _ => refuse "chained assignment"
  | .annAssign target ann value => match target, value with
    | .name x, some value => do
      let (v, r) ← lowerExpr ctx sc value
      match annotationRepr ann with
      | some want =>
        if want.scalar ≠ r.scalar then
          refuse s!"{x} is annotated {want.scalar.string} but bound a {r.scalar.string}"
        else bindName sc x v r
      | none => bindName sc x v r
    | .name _, none => refuse "bare annotation without a value binds nothing"
    | _, _ => refuse "annotated assignment target is not a plain name"
  | .augAssign target k value =>
    match (if k = .add ∨ k = .sub ∨ k = .mul then binOp k else none) with
    | none => refuse "augmented assignment other than +=, -=, *="
    | some op => match target with
      | .name x => match sc.get x with
        | none => refuse s!"{x} {op.string}= reads {x} before it is bound"
        | some tr => do
          let (v, vr) ← lowerExpr ctx sc value
          let _ ← liftM (binResult op tr vr)
          pure (.plain [.augAssign (.py x) op tr v] sc)
      | _ => refuse "augmented assignment target is not a plain name"
  | .exprStmt x => do
    let (v, _) ← lowerExpr ctx sc x
    if pureDiscardable v then pure (.plain [] sc) else pure (.plain [.discard v] sc)
  | s => refuse s!"statement {stmtType s}"

/-- Lower statements in order, reconciling their return representations; the statements
before them returned `ret` and `terminates`. -/
def lowerBodyFrom (ctx : LowerCtx) (sc : Scope) (ret : Option Repr) (terminates : Bool) :
    List Frontend.Stmt → LowerM Lowered
  | [] => pure ⟨[], ret, terminates, sc⟩
  | s :: ss => do
    let out ← lowerStmt ctx sc s
    let ret ← nextReturn ret out.ret
    let rest ← lowerBodyFrom ctx out.scope ret (terminates || out.terminates) ss
    pure { rest with stmts := out.stmts ++ rest.stmts }
end

def lowerBody (ctx : LowerCtx) (sc : Scope) (ss : List Frontend.Stmt) : LowerM Lowered :=
  lowerBodyFrom ctx sc none false ss

def lowerParams (shapes : Option (String → Option Repr)) (sc : Scope) :
    List Frontend.Param → Except String (List Emit.Param × Scope)
  | [] => .ok ([], sc)
  | p :: ps => do
    if p.kind ≠ .plain ∧ p.kind ≠ .posOnly then
      unsupported s!"parameter {p.name} is not a plain positional parameter"
    else if p.dflt.isSome then unsupported s!"parameter {p.name} has a default"
    else match p.ann with
      | none => unsupported s!"parameter {p.name} is unannotated"
      | some ann => match (annotationRepr ann).or (shapeAnnotationRepr shapes ann) with
        | none => unsupported s!"parameter {p.name} has a non-scalar annotation"
        | some r =>
          let (rest, sc) ← lowerParams shapes (sc.set p.name r) ps
          .ok (⟨.py p.name, r⟩ :: rest, sc)

def returnChecked (name : String) (returns : Option Frontend.Expr) (ret : Repr) : Except String Unit :=
  match returns with
  | none => .ok ()
  | some ann => match annotationRepr ann with
    | none => unsupported s!"{name} has a non-scalar return annotation"
    | some want =>
      if want.scalar ≠ ret.scalar then
        unsupported s!"{name} returns {ret.scalar.string} but is annotated {want.scalar.string}"
      else .ok ()

def lowerFuncGen (fn : FuncDef) (resolve : Option (String → Option StaticCallee))
    (globals shapes : Option (String → Option Repr))
    (gens : Option (String → Option StaticGenerator)) : Except String Emit.Func := do
  if fn.async then unsupported s!"async def {fn.name}"
  else if !fn.decorators.isEmpty then unsupported s!"decorated def {fn.name}"
  else
    let (params, sc) ← lowerParams shapes [] fn.params
    let ctx : LowerCtx := { reads := loadedNames fn.body, inLoop := false, resolve, globals, shapes, gens }
    let (out, guards) ← (lowerBody ctx sc fn.body).run []
    match out.ret with
    | none => unsupported s!"{fn.name} has no return the tier can type"
    | some ret =>
      if !out.terminates then unsupported s!"{fn.name} can fall off its end without returning"
      else
        returnChecked fn.name fn.returns ret
        .ok { name := fn.name, params, ret, body := out.stmts, deoptHandler := "",
              bindingGuards := guards.map fun g => ⟨shadowVer g, 1⟩ }

section
-- The equations of the mutual definitions are derived here, once.
attribute [local simp] lowerExpr lowerChain lowerOperands lowerArgs lowerItems lowerStmt lowerBodyFrom
end

end Unagi.Ir
