import Unagi.Emit.Lower
import Unagi.Ir.Cost
import Unagi.Lib.Except

/-! # The guards of a static body

Every place of a body where the emitter takes a deopt edge, or where a walk of
`pkg/ir` counts one. The representation a node is emitted with is compared with the
one the walks infer, and the edges an emission takes are counted. -/

namespace Unagi.Ir
open Emit

inductive Site
  /-- An int operator that can overflow, or a list read. -/
  | plain
  /-- An int operator with an operand read from a slot, or any guard below a slot read. -/
  | slot
  /-- An augmented assignment whose target is a bool. -/
  | coerced
  /-- An augmented assignment of a float to an int. -/
  | phantom
  /-- A loop over a generator that can deopt. -/
  | drive
  /-- The entry guard of a module global. -/
  | world
  deriving DecidableEq

namespace Site

def emitted : Site → Bool
  | phantom => false
  | _ => true
def costed : Site → Bool
  | plain | phantom => true
  | _ => false
def marked : Site → Bool
  | plain | phantom | drive | world => true
  | slot | coerced => false

end Site

def unknownRepr : Repr := { go := "", scalar := .notScalar }

def nodeRepr : Expr → Repr
  | .var _ r | .recv _ r | .call _ _ r => r
  | .int _ => intRepr
  | .float _ => floatRepr
  | .bool _ => boolRepr
  | .str _ => strRepr
  | .bin op l r => match binResult op (nodeRepr l) (nodeRepr r) with
    | .ok r => r
    | .error _ => unknownRepr
  | .cmp _ _ _ | .not _ => boolRepr
  | .and l _ | .or l _ => nodeRepr l
  | .index base _ => match (nodeRepr base).elem with
    | some s => Emit.scalarRepr s
    | none => unknownRepr
  | .listLit s _ => listRepr s
  | .attr base name => ((nodeRepr base).shape.bind (·.field name)).getD unknownRepr
  | .genNew _ _ _ => unknownRepr

def slotted : Expr → Bool
  | .attr _ _ => true
  | .bin _ l r => slotted l || slotted r
  | .and l _ | .or l _ => slotted l
  | .index base _ => slotted base
  | _ => false
def overflowing (op : Op) (l r : Expr) : Bool :=
  match binResult op (nodeRepr l) (nodeRepr r) with
  | .ok res => res.scalar = .sInt && op.overflows
  | .error _ => false

mutual
def exprSites : Expr → List Site
  | .bin op l r => exprSites l ++ exprSites r ++
    if overflowing op l r then [if slotted l || slotted r then .slot else .plain] else []
  | .cmp _ l r | .and l r | .or l r => exprSites l ++ exprSites r
  | .not x => exprSites x
  -- No walk looks below a slot read.
  | .attr x _ => (exprSites x).map fun _ => .slot
  | .index base idx => exprSites base ++ exprSites idx ++ [.plain]
  | .call _ es _ | .listLit _ es | .genNew _ _ es => exprsSites es
  | .var _ _ | .recv _ _ | .int _ | .float _ | .bool _ | .str _ => []

def exprsSites : List Expr → List Site
  | [] => []
  | e :: es => exprSites e ++ exprsSites es
end

/-- The operator of an augmented assignment, by the classes of its target and its value. -/
def augSites : Scalar → Scalar → List Site
  | .sInt, .sFloat => [.phantom]
  | .sInt, _ => [.plain]
  | .sBool, .sFloat => []
  | .sBool, _ => [.coerced]
  | _, _ => []

def ownSites : Stmt → List Site
  | .define _ v | .assign _ v | .ret v | .discard v => exprSites v
  | .bind _ vs _ => exprsSites vs
  | .augAssign _ _ r v => exprSites v ++ augSites r.scalar (nodeRepr v).scalar
  | .ifElse c _ _ | .whileLoop c _ => exprSites c
  | .forCount _ start stop _ _ _ => exprSites start ++ exprSites stop
  | .forRange _ _ xs _ => exprSites xs
  | .forGen _ _ _ _ deopt => if deopt then [.drive] else []
  | .varDecl _ _ | .breakStmt | .continueStmt => []

mutual
def nested : Stmt → List Stmt
  | .ifElse _ thn els => statements thn ++ statements els
  | .whileLoop _ body | .forCount _ _ _ _ body _ | .forRange _ _ _ body
  | .forGen _ _ _ body _ => statements body
  | .define _ _ | .assign _ _ | .varDecl _ _ | .bind _ _ _ | .augAssign _ _ _ _ | .ret _
  | .breakStmt | .continueStmt | .discard _ => []

def statements : List Stmt → List Stmt
  | [] => []
  | s :: ss => s :: nested s ++ statements ss
end

def funcSites (f : Func) : List Site :=
  f.bindingGuards.map (fun _ => .world) ++ (statements f.body).flatMap ownSites

/-! ### What the walks see -/

theorem binResult_unknown (op : Op) {l r : Repr} (h : l = unknownRepr ∨ r = unknownRepr) :
    ∃ msg, binResult op l r = .error msg := by
  rcases h with rfl | rfl <;> simp [binResult,unknownRepr,numeric,unsupported] <;> split <;> simp

theorem reprOf_eq : ∀ e, reprOf e = if slotted e then unknownRepr else nodeRepr e
  | .var _ _ | .recv _ _ | .call _ _ _ | .int _ | .float _ | .bool _ | .str _ | .cmp _ _ _
  | .not _ | .listLit _ _ | .attr _ _ | .genNew _ _ _ => rfl
  | .and l _ | .or l _ => reprOf_eq l
  | .index base _ => by
    have ih := reprOf_eq base
    cases hs : slotted base <;> simp only [reprOf,nodeRepr,slotted,ih,hs] <;> rfl
  | .bin op l r => by
    have ihl := reprOf_eq l
    have ihr := reprOf_eq r
    cases hs : slotted l || slotted r with
    | false =>
      obtain ⟨hl,hr⟩ := Bool.or_eq_false_iff.mp hs
      simp only [reprOf,nodeRepr,slotted,ihl,ihr,hl,hr]
      rfl
    | true =>
      have hlost : reprOf l = unknownRepr ∨ reprOf r = unknownRepr := by
        rcases Bool.or_eq_true_iff.mp hs with h | h
        · exact .inl (by rw [ihl,if_pos h])
        · exact .inr (by rw [ihr,if_pos h])
      obtain ⟨msg,hmsg⟩ := binResult_unknown op hlost
      simp only [reprOf,slotted,hs,hmsg]
      rfl

theorem binGuarded_eq (op : Op) (l r : Expr) :
    binGuarded op l r = (!(slotted l || slotted r) && overflowing op l r) := by
  cases hs : slotted l || slotted r with
  | false =>
    obtain ⟨hl,hr⟩ := Bool.or_eq_false_iff.mp hs
    have hlr : reprOf l = nodeRepr l := (reprOf_eq l).trans (if_neg (by rw [hl]; decide))
    have hrr : reprOf r = nodeRepr r := (reprOf_eq r).trans (if_neg (by rw [hr]; decide))
    rw [binGuarded,hlr,hrr]
    rfl
  | true =>
    have hlost : reprOf l = unknownRepr ∨ reprOf r = unknownRepr := by
      rcases Bool.or_eq_true_iff.mp hs with h | h <;> simp [reprOf_eq,h]
    obtain ⟨msg,hmsg⟩ := binResult_unknown op hlost
    simp [binGuarded,hmsg]

section
variable (c d : Cost)

@[simp] theorem Cost.guards_add : (c + d).guards = c.guards + d.guards := by
  change c.entryGuards + d.entryGuards + (c.loopGuards + d.loopGuards) = _
  simp only [Cost.guards]
  omega

@[simp] theorem Cost.guards_zero : Cost.zero.guards = 0 := rfl
@[simp] theorem Cost.guards_op : Cost.op.guards = 0 := rfl
@[simp] theorem Cost.guards_guard : Cost.guard.guards = 1 := rfl
@[simp] theorem Cost.guards_inLoop : c.inLoop.guards = c.guards := by
  simp [Cost.guards,Cost.inLoop]

end

theorem countP_slots {p : Site → Bool} (h : p .slot = false) (ss : List Site) :
    (ss.map fun _ => Site.slot).countP p = 0 := by
  simp [List.countP_eq_zero,h]

mutual
theorem costExpr_guards : ∀ e, (costExpr e).guards = (exprSites e).countP Site.costed
  | .var _ _ | .recv _ _ | .int _ | .float _ | .bool _ | .str _ => rfl
  | .attr x _ => (countP_slots rfl (exprSites x)).symm
  | .not x => by simp [costExpr,exprSites,costExpr_guards x]
  | .cmp _ l r | .and l r | .or l r => by
    simp [costExpr,exprSites,costExpr_guards l,costExpr_guards r]
  | .index base idx => by
    simp [costExpr,exprSites,costExpr_guards base,costExpr_guards idx,Site.costed,Nat.add_assoc]
  | .call _ es _ | .listLit _ es | .genNew _ _ es => by
    simp [costExpr,exprSites,costExprs_guards es]
  | .bin op l r => by
    simp only [costExpr,exprSites,Cost.guards_add,Cost.guards_op,costExpr_guards l,
      costExpr_guards r,binGuarded_eq,List.countP_append]
    cases hs : slotted l || slotted r <;> cases ho : overflowing op l r <;> simp [Site.costed]

theorem costExprs_guards : ∀ es, (costExprs es).guards = (exprsSites es).countP Site.costed
  | [] => rfl
  | e :: es => by simp [costExprs,exprsSites,costExpr_guards e,costExprs_guards es]
end

mutual
theorem exprGuarded_eq : ∀ e, exprGuarded e = (exprSites e).any Site.marked
  | .var _ _ | .recv _ _ | .int _ | .float _ | .bool _ | .str _ => rfl
  | .attr x _ => by simp [exprGuarded,exprSites,Site.marked]
  | .not x => by simp [exprGuarded,exprSites,exprGuarded_eq x]
  | .cmp _ l r | .and l r | .or l r => by
    simp [exprGuarded,exprSites,exprGuarded_eq l,exprGuarded_eq r]
  | .index base idx => by simp [exprGuarded,exprSites,Site.marked]
  | .call _ es _ | .listLit _ es | .genNew _ _ es => by
    simp [exprGuarded,exprSites,exprsGuarded_eq es]
  | .bin op l r => by
    simp only [exprGuarded,exprSites,exprGuarded_eq l,exprGuarded_eq r,binGuarded_eq,
      List.any_append]
    cases hs : slotted l || slotted r <;> cases ho : overflowing op l r <;> simp [Site.marked]

theorem exprsGuarded_eq : ∀ es, exprsGuarded es = (exprsSites es).any Site.marked
  | [] => rfl
  | e :: es => by simp [exprsGuarded,exprsSites,exprGuarded_eq e,exprsGuarded_eq es]
end

mutual
/-- The statements the bridge builds: its augmented operators, no loop over a list, and only a
handle to drive. -/
def bridged : Stmt → Bool
  | .augAssign _ op _ _ => op = .add || op = .sub || op = .mul
  | .ifElse _ thn els => allBridged thn && allBridged els
  | .whileLoop _ body | .forCount _ _ _ _ body none => allBridged body
  | .forGen _ _ (.var _ _) body _ => allBridged body
  | .forRange _ _ _ _ | .forCount _ _ _ _ _ (some _) | .forGen _ _ _ _ _ => false
  | _ => true

def allBridged : List Stmt → Bool
  | [] => true
  | s :: ss => bridged s && allBridged ss
end

theorem bridged_forGen {x : Go.Ident} {elem : Repr} {g : Expr} {body : List Stmt} {d : Bool}
    (h : bridged (.forGen x elem g body d)) : (∃ i r, g = .var i r) ∧ allBridged body := by
  cases g <;> first | exact ⟨⟨_,_,rfl⟩,h⟩ | simp [bridged] at h

theorem stmtGuarded_eq {s : Stmt} (h : bridged s) : stmtGuarded s = (ownSites s).any Site.marked := by
  cases s with
  | define | assign | ret | discard => simp [stmtGuarded,ownSites,exprGuarded_eq]
  | bind => simp [stmtGuarded,ownSites,exprsGuarded_eq]
  | ifElse | whileLoop => simp [stmtGuarded,ownSites,exprGuarded_eq]
  | forCount => simp [stmtGuarded,ownSites,exprGuarded_eq]
  | forGen x e g body d => cases d <;> simp [stmtGuarded,ownSites,Site.marked]
  | forRange => simp [bridged] at h
  | varDecl | breakStmt | continueStmt => rfl
  | augAssign x op r v =>
    cases hr : r.scalar <;> cases hv : (nodeRepr v).scalar <;>
      simp [stmtGuarded,ownSites,augSites,exprGuarded_eq,hr,hv,Site.marked]

mutual
theorem costStmt_guards : ∀ s, bridged s →
    (costStmt s).guards = ((s :: nested s).flatMap ownSites).countP Site.costed
  | .define _ v, _ | .assign _ v, _ | .ret v, _ | .discard v, _ => by
    simp [costStmt,nested,ownSites,costExpr_guards]
  | .bind _ vs _, _ => by simp [costStmt,nested,ownSites,costExprs_guards]
  | .varDecl _ _, _ | .breakStmt, _ | .continueStmt, _ => rfl
  | .forRange _ _ _ _, h => by simp [bridged] at h
  | .augAssign _ _ r v, _ => by
    cases hr : r.scalar <;> cases hv : (nodeRepr v).scalar <;>
      simp [costStmt,nested,ownSites,augSites,costExpr_guards,hr,hv,Site.costed]
  | .ifElse c thn els, h => by
    have h : allBridged thn ∧ allBridged els := by simpa [bridged] using h
    simp [costStmt,nested,ownSites,costExpr_guards,costStmts_guards thn h.1,
      costStmts_guards els h.2,Nat.add_assoc]
  | .whileLoop c body, h => by
    simp [costStmt,nested,ownSites,costExpr_guards,costStmts_guards body h]
  | .forCount _ start stop _ body none, h => by
    simp [costStmt,nested,ownSites,costExpr_guards,costStmts_guards body h,Nat.add_assoc]
  | .forCount _ _ _ _ _ (some _), h => by simp [bridged] at h
  | .forGen _ _ g body d, h => by
    cases d <;>
      simp [costStmt,nested,ownSites,costStmts_guards body (bridged_forGen h).2,Site.costed]

theorem costStmts_guards : ∀ ss, allBridged ss →
    (costStmts ss).guards = ((statements ss).flatMap ownSites).countP Site.costed
  | [], _ => rfl
  | s :: ss, h => by
    have h : bridged s ∧ allBridged ss := by simpa [allBridged] using h
    simp [costStmts,statements,costStmt_guards s h.1,costStmts_guards ss h.2,Nat.add_assoc]
end

private theorem length_opened {α : Type} (c : Bool) (x : α) :
    (if c then [x] else []).length = if c then 1 else 0 := by
  cases c <;> rfl

mutual
theorem guardSites_length : ∀ s scope,
    (guardSites scope s).length = (s :: nested s).countP stmtGuarded
  | .define _ v, _ | .assign _ v, _ | .ret v, _ | .discard v, _ | .augAssign _ _ _ v, _ => by
    simp only [guardSites,nested,length_opened,List.countP_singleton]
  | .bind _ vs _, _ => by
    simp only [guardSites,nested,length_opened,List.countP_singleton]
  | .varDecl _ _, _ | .breakStmt, _ | .continueStmt, _ => rfl
  | .ifElse c thn els, scope => by
    cases hc : exprGuarded c <;>
      simp +arith [guardSites,nested,stmtGuarded,hc,blockSites_length thn,
        blockSites_length els]
  | .whileLoop c body, scope => by
    cases hc : exprGuarded c <;>
      simp [guardSites,nested,stmtGuarded,hc,blockSites_length body,Nat.add_comm]
  | .forCount x start stop _ body _, scope => by
    cases hc : exprGuarded start || exprGuarded stop <;>
      simp only [guardSites,nested,List.countP_cons,stmtGuarded,hc,List.length_append,
        blockSites_length body] <;> simp [Nat.add_comm]
  | .forRange _ _ _ body, scope => by
    simp [guardSites,nested,blockSites_length body,stmtGuarded]
  | .forGen x e _ body d, scope => by
    cases d <;>
      simp [guardSites,nested,List.countP_cons,stmtGuarded,blockSites_length body,Nat.add_comm]

theorem blockSites_length : ∀ ss scope,
    (blockSites scope ss).length = (statements ss).countP stmtGuarded
  | [], _ => rfl
  | s :: ss, scope => by
    rw [blockSites,statements,List.length_append,List.countP_append,guardSites_length s,
      blockSites_length ss]
end

/-! ### What the emitter takes -/

/-- No hand-off is named, so every deopt edge takes the next placeholder. -/
structure Bare (b : Builder) : Prop where
  genDeopt : b.genDeopt = false
  resume : b.resume = []
  deopt : b.deopt = ""

/-- Between the builders `k` deopt edges were taken. -/
def Takes (k : Nat) (b b' : Builder) : Prop := Bare b → Bare b' ∧ b'.nDeopt = b.nDeopt + k

namespace Takes
variable {b b₁ b₂ : Builder} {j k : Nat}

theorem refl (b : Builder) : Takes 0 b b := fun h => ⟨h,rfl⟩
theorem trans (h : Takes j b b₁) (h' : Takes k b₁ b₂) : Takes (j + k) b b₂ := by
  intro hb
  obtain ⟨hb₁,hj⟩ := h hb
  obtain ⟨hb₂,hk⟩ := h' hb₁
  exact ⟨hb₂,by omega⟩
theorem deoptEdge (b : Builder) : Takes 1 b b.deoptEdge.2 := by
  intro hb
  have hedge : b.deoptEdge.2 = { b with nDeopt := b.nDeopt + 1 } := by
    simp [Builder.deoptEdge,hb.genDeopt,hb.resume,hb.deopt]
  rw [hedge]
  exact ⟨⟨hb.genDeopt,hb.resume,hb.deopt⟩,rfl⟩

theorem same {b' : Builder} (hg : b'.genDeopt = b.genDeopt) (hr : b'.resume = b.resume)
    (hd : b'.deopt = b.deopt) (hn : b'.nDeopt = b.nDeopt) : Takes 0 b b' :=
  fun h => ⟨⟨hg.trans h.1,hr.trans h.2,hd.trans h.3⟩,hn⟩
theorem raiseIf (b : Builder) (c : Go.Expr) (f : Go.RtFn) (m : String) :
    Takes 0 b (b.raiseIf c f m) := .same rfl rfl rfl rfl
theorem flush (b : Builder) : Takes 0 b b.flush.2 := .same rfl rfl rfl rfl

theorem edge (b₁ : Builder) (h : Takes 0 b b₁) (h' : Takes 0 b₁.deoptEdge.2 b₂) : Takes 1 b b₂ :=
  (h.trans (deoptEdge b₁)).trans h'
theorem checkedInt (b : Builder) (f : Go.RtFn) (x y : Go.Expr) :
    Takes 1 b (b.checkedInt f x y).2.2 :=
  .edge b.temp.2.flag.2 (.same rfl rfl rfl rfl) (.same rfl rfl rfl rfl)

end Takes

/-- The emitter's operator code agrees with the bridge's result table, and an int result that
can overflow takes one edge. -/
theorem lowerBinOp_takes {b b' : Builder} {op : Op} {lx rx x : Go.Expr} {lr rr r : Repr}
    (h : lowerBinOp b op lx lr rx rr = .ok (x, r, b')) :
    binResult op lr rr = .ok r ∧ Takes (if r.scalar = .sInt ∧ op.overflows then 1 else 0) b b' := by
  simp only [lowerBinOp] at h
  split_ifs at h with hs hop hnum hf
  · obtain ⟨rfl,hl,hr⟩ : op = .add ∧ lr.scalar = .sStr ∧ rr.scalar = .sStr := by tauto
    cases h
    exact ⟨by simp [binResult,hl,hr],.refl b⟩
  all_goals
    cases op <;> cases h <;> refine ⟨by simp [binResult,hs,hnum,hf],?_⟩ <;> first
      | exact .refl b
      | exact .raiseIf b _ _ _
      | exact .checkedInt b _ _ _
      | exact (Takes.raiseIf b _ _ _).trans (Takes.checkedInt _ _ _ _)

theorem binResult_congr (op : Op) {l l' r r' : Repr} (hl : l.scalar = l'.scalar)
    (hr : r.scalar = r'.scalar) : binResult op l r = binResult op l' r' := by
  cases op <;> simp [binResult,numeric,hl,hr]

/-- `r` is a node's representation, so far as an emission can use it. -/
structure Reads (r want : Repr) : Prop where
  scalar : r.scalar = want.scalar
  elem : ∀ s, r.elem = some s → want.elem = some s
  shape : ∀ s, r.shape = some s → want.shape = some s

theorem Reads.refl (r : Repr) : Reads r r := ⟨rfl,fun _ h => h,fun _ h => h⟩

theorem lowerConn_reads {op : Go.Tok} {lx rx x : Go.Expr} {lr rr xr want : Repr} {e : Expr}
    (h : lowerConn op lx lr e rx rr = .ok (x, xr)) (hl : Reads lr want) : Reads xr want := by
  simp only [lowerConn] at h
  split_ifs at h with h1 h2 h3
  · cases h
    refine ⟨h2.1.symm.trans hl.scalar,?_,?_⟩ <;> intro s hs <;> cases hs
  · split at h <;> cases h
    exact hl

mutual
theorem lowerExpr_takes : ∀ (e : Expr) {b b' : Builder} {x : Go.Expr} {r : Repr},
    Emit.lowerExpr b e = .ok (x, r, b') →
    Reads r (nodeRepr e) ∧ Takes (exprSites e).length b b'
  | .var _ _, b, _, _, _, h | .recv _ _, b, _, _, _, h | .int _, b, _, _, _, h
  | .float _, b, _, _, _, h | .bool _, b, _, _, _, h | .str _, b, _, _, _, h => by
    cases h
    exact ⟨.refl _,.refl b⟩
  | .bin op l r, _, _, _, xr, h => by
    simp only [Emit.lowerExpr,Except.bind_isOk_iff,Prod.exists] at h
    obtain ⟨lx,lr,b₁,hl,rx,rr,b₂,hr,hop⟩ := h
    obtain ⟨tl,kl⟩ := lowerExpr_takes l hl
    obtain ⟨tr,kr⟩ := lowerExpr_takes r hr
    obtain ⟨hres,kop⟩ := lowerBinOp_takes hop
    have hnode := (binResult_congr op tl.scalar.symm tr.scalar.symm).trans hres
    have k := (kl.trans kr).trans kop
    simp only [nodeRepr,hnode,exprSites,overflowing,List.length_append]
    refine ⟨.refl _,?_⟩
    convert k using 2
    by_cases hg : xr.scalar = .sInt ∧ op.overflows <;> simp [hg]
  | .cmp _ l r, _, _, _, _, h => by
    simp only [Emit.lowerExpr,Except.bind_isOk_iff,Prod.exists] at h
    obtain ⟨lx,lr,b₁,hl,rx,rr,b₂,hr,y, -,h⟩ := h
    cases h
    have k := (lowerExpr_takes l hl).2.trans (lowerExpr_takes r hr).2
    rw [← List.length_append] at k
    exact ⟨.refl _,k⟩
  | .and l r, _, _, _, _, h | .or l r, _, _, _, _, h => by
    simp only [Emit.lowerExpr,Except.bind_isOk_iff,Prod.exists] at h
    obtain ⟨lx,lr,b₁,hl,rx,rr,b₂,hr,y,yr,hop,h⟩ := h
    cases h
    obtain ⟨tl,kl⟩ := lowerExpr_takes l hl
    have k := kl.trans (lowerExpr_takes r hr).2
    rw [← List.length_append] at k
    exact ⟨lowerConn_reads hop tl,k⟩
  | .not e, _, _, _, _, h => by
    simp only [Emit.lowerExpr,Except.bind_isOk_iff,Prod.exists] at h
    obtain ⟨y,yr,b₁,hy,z, -,h⟩ := h
    cases h
    exact ⟨.refl _,(lowerExpr_takes e hy).2⟩
  | .attr e f, _, _, _, _, h => by
    simp only [Emit.lowerExpr,Except.bind_isOk_iff,Prod.exists] at h
    obtain ⟨y,yr,b₁,hy,h⟩ := h
    obtain ⟨t,k⟩ := lowerExpr_takes e hy
    split at h
    · cases h
    · rename_i sh hsh
      split at h <;> cases h
      simp only [nodeRepr,t.shape sh hsh,Option.bind_some,‹_ = some _›,Option.getD_some,exprSites,
        List.length_map]
      exact ⟨.refl _,k⟩
  | .index l r, _, _, _, _, h => by
    simp only [Emit.lowerExpr,Except.bind_isOk_iff,Prod.exists] at h
    obtain ⟨bx,br,b₁,hl,h⟩ := h
    obtain ⟨tl,kl⟩ := lowerExpr_takes l hl
    split at h
    · cases h
    · rename_i s hs
      simp only [Except.bind_isOk_iff,Prod.exists] at h
      obtain ⟨ix,ir,b₂,hr,h⟩ := h
      split_ifs at h
      cases h
      simp only [nodeRepr,tl.elem s hs,exprSites,List.length_append]
      exact ⟨.refl _,(kl.trans (lowerExpr_takes r hr).2).trans
        (.edge b₂.temp.2.temp.2 (.same rfl rfl rfl rfl) (.same rfl rfl rfl rfl))⟩
  | .listLit _ es, _, _, _, _, h => by
    simp only [Emit.lowerExpr,Except.bind_isOk_iff,Prod.exists] at h
    obtain ⟨ys,b₁,hy,h⟩ := h
    cases h
    exact ⟨.refl _,lowerItems_takes es hy⟩
  | .genNew _ _ es, _, _, _, _, h => by
    simp only [Emit.lowerExpr,Except.bind_isOk_iff,Prod.exists] at h
    obtain ⟨ys,b₁,hy,h⟩ := h
    cases h
    refine ⟨⟨rfl,?_,?_⟩,lowerArgs_takes es hy⟩ <;> intro s hs <;> cases hs
  | .call _ es _, _, _, _, _, h => by
    simp only [Emit.lowerExpr,Except.bind_isOk_iff,Prod.exists] at h
    obtain ⟨ys,b₁,hy,h⟩ := h
    cases h
    refine ⟨.refl _,(lowerArgs_takes es hy).trans (k := 0) ?_⟩
    exact .same rfl rfl rfl rfl

theorem lowerArgs_takes : ∀ (es : List Expr) {b b' : Builder} {xs : List Go.Expr},
    Emit.lowerArgs b es = .ok (xs, b') → Takes (exprsSites es).length b b'
  | [], b, _, _, h => by
    cases h
    exact .refl b
  | e :: es, _, _, _, h => by
    simp only [Emit.lowerArgs,Except.bind_isOk_iff,Prod.exists] at h
    obtain ⟨y,yr,b₁,hy,ys,b₂,hys,h⟩ := h
    cases h
    rw [exprsSites,List.length_append]
    exact (lowerExpr_takes e hy).2.trans (lowerArgs_takes es hys)

theorem lowerItems_takes : ∀ (es : List Expr) {b b' : Builder} {s : Scalar} {i : Nat}
    {xs : List Go.Expr}, Emit.lowerItems b s i es = .ok (xs, b') →
    Takes (exprsSites es).length b b'
  | [], b, _, _, _, _, h => by
    cases h
    exact .refl b
  | e :: es, _, _, _, _, _, h => by
    simp only [Emit.lowerItems,Except.bind_isOk_iff,Prod.exists] at h
    obtain ⟨y,yr,b₁,hy,z, -,ys,b₂,hys,h⟩ := h
    cases h
    rw [exprsSites,List.length_append]
    exact (lowerExpr_takes e hy).2.trans (lowerItems_takes es hys)
end

end Unagi.Ir
