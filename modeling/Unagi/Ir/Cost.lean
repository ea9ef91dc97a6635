import Unagi.Ir.Typing

/-! # Cost and deopt sites of a static body

`pkg/ir/cost.go` and `pkg/ir/deopt.go`. A guard site keeps the names and scalar
classes live at it. -/

namespace Unagi.Ir
open Emit

structure Cost where
  unboxedOps : Nat
  entryGuards : Nat
  loopGuards : Nat
  deriving DecidableEq

namespace Cost

def zero : Cost := ⟨0, 0, 0⟩
def add (a b : Cost) : Cost :=
  ⟨a.unboxedOps + b.unboxedOps, a.entryGuards + b.entryGuards, a.loopGuards + b.loopGuards⟩
instance : Add Cost := ⟨add⟩
def op : Cost := ⟨1, 0, 0⟩
def guard : Cost := ⟨0, 1, 0⟩
def inLoop (c : Cost) : Cost := ⟨c.unboxedOps, 0, c.entryGuards + c.loopGuards⟩
def guards (c : Cost) : Nat := c.entryGuards + c.loopGuards

end Cost

/-- The representation the cost walk infers. A slot read and a generator handle have none. -/
def reprOf : Expr → Repr
  | .var _ r | .recv _ r | .call _ _ r => r
  | .int _ => intRepr
  | .float _ => floatRepr
  | .bool _ => boolRepr
  | .str _ => strRepr
  | .bin op l r => match binResult op (reprOf l) (reprOf r) with
    | .ok r => r
    | .error _ => { go := "", scalar := .notScalar }
  | .cmp _ _ _ | .not _ => boolRepr
  | .and l _ | .or l _ => reprOf l
  | .index base _ => match (reprOf base).elem with
    | some s => scalarRepr s
    | none => { go := "", scalar := .notScalar }
  | .listLit s _ => listRepr s
  | .attr _ _ | .genNew _ _ _ => { go := "", scalar := .notScalar }

/-- The operator's int form carries an overflow guard the walks can see. -/
def binGuarded (op : Op) (l r : Expr) : Bool :=
  match binResult op (reprOf l) (reprOf r) with
  | .ok res => res.scalar = .sInt && op.overflows
  | .error _ => false

mutual
def costExpr : Expr → Cost
  | .bin op l r =>
    costExpr l + costExpr r + Cost.op + if binGuarded op l r then Cost.guard else Cost.zero
  | .cmp _ l r | .and l r | .or l r => costExpr l + costExpr r + Cost.op
  | .not x => costExpr x + Cost.op
  | .call _ args _ => costExprs args + Cost.op
  | .index base idx => costExpr base + costExpr idx + Cost.op + Cost.guard
  | .listLit _ items => costExprs items + Cost.op
  | .genNew _ _ values => costExprs values + Cost.op
  | .var _ _ | .recv _ _ | .int _ | .float _ | .bool _ | .str _ | .attr _ _ => Cost.zero

def costExprs : List Expr → Cost
  | [] => Cost.zero
  | e :: es => costExpr e + costExprs es
end

mutual
def costStmt : Stmt → Cost
  | .define _ v | .assign _ v | .ret v | .discard v => costExpr v
  | .bind _ vs _ => costExprs vs
  | .varDecl _ _ | .breakStmt | .continueStmt | .forRange _ _ _ _ => Cost.zero
  | .augAssign _ _ r v =>
    costExpr v + Cost.op + if r.scalar = .sInt then Cost.guard else Cost.zero
  | .ifElse c thn els => costExpr c + costStmts thn + costStmts els
  | .whileLoop c body => (costExpr c + costStmts body).inLoop
  | .forCount _ start stop _ body _ => (costExpr start + costExpr stop + costStmts body).inLoop
  | .forGen _ _ _ body _ => (costStmts body + Cost.op).inLoop

def costStmts : List Stmt → Cost
  | [] => Cost.zero
  | s :: ss => costStmt s + costStmts ss
end

def costOf (f : Func) : Cost := costStmts f.body

mutual
def exprGuarded : Expr → Bool
  | .bin op l r => exprGuarded l || exprGuarded r || binGuarded op l r
  | .cmp _ l r | .and l r | .or l r => exprGuarded l || exprGuarded r
  | .not x => exprGuarded x
  | .call _ args _ => exprsGuarded args
  | .index _ _ => true
  | .listLit _ items => exprsGuarded items
  | .genNew _ _ values => exprsGuarded values
  | .var _ _ | .recv _ _ | .int _ | .float _ | .bool _ | .str _ | .attr _ _ => false

def exprsGuarded : List Expr → Bool
  | [] => false
  | e :: es => exprGuarded e || exprsGuarded es
end

def stmtGuarded : Stmt → Bool
  | .define _ v | .assign _ v | .ret v | .discard v => exprGuarded v
  | .bind _ vs _ => exprsGuarded vs
  | .augAssign _ _ r v => r.scalar = .sInt || exprGuarded v
  | .ifElse c _ _ | .whileLoop c _ => exprGuarded c
  | .forCount _ start stop _ _ _ => exprGuarded start || exprGuarded stop
  | .forGen _ _ _ _ deopt => deopt
  | .varDecl _ _ | .breakStmt | .continueStmt | .forRange _ _ _ _ => false

abbrev GuardLocal := Go.Ident × Scalar
def declareLocal (scope : List GuardLocal) (x : Go.Ident) (r : Repr) : List GuardLocal :=
  if r.scalar = .notScalar then scope else scope ++ [(x, r.scalar)]
def declareLocals (scope : List GuardLocal) : List Go.Ident → List Expr → List GuardLocal
  | x :: xs, v :: vs => declareLocals (declareLocal scope x (reprOf v)) xs vs
  | _, _ => scope

def scopeAfter (scope : List GuardLocal) : Stmt → List GuardLocal
  | .define x v => declareLocal scope x (reprOf v)
  | .bind xs vs true => declareLocals scope xs vs
  | .varDecl x r => declareLocal scope x r
  | _ => scope

mutual
def guardSites (scope : List GuardLocal) : Stmt → List (List GuardLocal)
  | .ifElse c thn els =>
    (if exprGuarded c then [scope] else []) ++ blockSites scope thn ++ blockSites scope els
  | .whileLoop c body => (if exprGuarded c then [scope] else []) ++ blockSites scope body
  | .forCount x start stop _ body _ =>
    (if exprGuarded start || exprGuarded stop then [scope] else []) ++
      blockSites (declareLocal scope x intRepr) body
  | .forRange _ _ _ body => blockSites scope body
  | .forGen x elem _ body deopt =>
    (if deopt then [scope] else []) ++ blockSites (declareLocal scope x elem) body
  | s => if stmtGuarded s then [scope] else []

def blockSites (scope : List GuardLocal) : List Stmt → List (List GuardLocal)
  | [] => []
  | s :: ss => guardSites scope s ++ blockSites (scopeAfter scope s) ss
end

def guardSitesOf (f : Func) : List (List GuardLocal) :=
  let scope := f.params.foldl (fun sc p => declareLocal sc p.name p.repr) []
  (if f.bindingGuards.isEmpty then [] else [scope]) ++ blockSites scope f.body

end Unagi.Ir
