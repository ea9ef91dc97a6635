import Unagi.Ir.GuardSites
import Unagi.Ir.Inversion

/-! # The guard census against the emitted code

The edges an emission takes, statement by statement, and when the two walks of
`pkg/ir` count them. -/

namespace Unagi.Ir
open Emit

/-! ### The edges of a statement -/

mutual
private theorem exprSites_emitted : ∀ e, (exprSites e).countP Site.emitted = (exprSites e).length
  | .var _ _ | .recv _ _ | .int _ | .float _ | .bool _ | .str _ => rfl
  | .attr x _ => by
    rw [exprSites,List.length_map,List.countP_map]
    exact List.countP_eq_length.mpr fun _ _ => rfl
  | .not x => exprSites_emitted x
  | .cmp _ l r | .and l r | .or l r => by
    simp only [exprSites,List.countP_append,List.length_append,exprSites_emitted l,
      exprSites_emitted r]
  | .index base idx => by
    simp only [exprSites,List.countP_append,List.length_append,exprSites_emitted base,
      exprSites_emitted idx]
    rfl
  | .call _ es _ | .listLit _ es | .genNew _ _ es => exprsSites_emitted es
  | .bin op l r => by
    simp only [exprSites,List.countP_append,List.length_append,exprSites_emitted l,
      exprSites_emitted r]
    cases overflowing op l r <;> cases slotted l || slotted r <;> rfl

theorem exprsSites_emitted : ∀ es, (exprsSites es).countP Site.emitted = (exprsSites es).length
  | [] => rfl
  | e :: es => by
    simp only [exprsSites,List.countP_append,List.length_append,exprSites_emitted e,
      exprsSites_emitted es]
end

def ownEdges (s : Stmt) : Nat := (ownSites s).countP Site.emitted
def edges (ss : List Stmt) : Nat := (ss.flatMap ownSites).countP Site.emitted
private theorem edges_append (ss ts : List Stmt) : edges (ss ++ ts) = edges ss + edges ts := by
  simp [edges]
theorem edges_cons (s : Stmt) (ss : List Stmt) : edges (s :: ss) = ownEdges s + edges ss := by
  simp [edges,ownEdges]

theorem lowerBindValues_takes : ∀ (es : List Expr) {b b' : Builder} {cast : Bool} {xs : List Go.Expr},
    Emit.lowerBindValues b cast es = .ok (xs, b') → Takes (exprsSites es).length b b'
  | [], b, _, _, _, h => by
    cases h
    exact .refl b
  | e :: es, _, _, _, _, h => by
    simp only [Emit.lowerBindValues,Except.bind_isOk_iff,Prod.exists] at h
    obtain ⟨y,yr,b₁,hy,ys,b₂,hys,h⟩ := h
    cases h
    rw [exprsSites,List.length_append]
    exact (lowerExpr_takes e hy).2.trans (lowerBindValues_takes es hys)

section
variable {b b' : Builder} {out : List Go.Stmt} {x : Go.Ident} {e : Expr}

theorem augSites_emitted {op : Op} {l r res : Repr} (hop : op = .add ∨ op = .sub ∨ op = .mul)
    (h : binResult op l r = .ok res) (hl : l.scalar ≠ .sFloat) :
    (augSites l.scalar r.scalar).countP Site.emitted = if res.scalar = .sInt then 1 else 0 := by
  cases hs : l.scalar <;> cases hv : r.scalar <;> rcases hop with rfl | rfl | rfl <;>
    simp [binResult,numeric,hs,hv,unsupported] at h hl ⊢ <;> cases h <;> rfl

theorem lowerStmt_augAssign_takes {op : Op} {r : Repr} (hop : op = .add ∨ op = .sub ∨ op = .mul)
    (h : Emit.lowerStmt b (.augAssign x op r e) = .ok (out, b')) :
    Takes (ownEdges (.augAssign x op r e)) b b' := by
  have hov : op.overflows = true := by rcases hop with rfl | rfl | rfl <;> rfl
  by_cases hr : r.scalar = .sFloat
  · simp only [Emit.lowerStmt,hr,if_true,Except.bind_isOk_iff,Prod.exists] at h
    obtain ⟨y,yr,b₁,hy,h⟩ := h
    cases h
    have hk : ownEdges (.augAssign x op r e) = (exprSites e).length + 0 := by
      simp only [ownEdges,ownSites,List.countP_append,exprSites_emitted,hr]
      cases (nodeRepr e).scalar <;> rfl
    rw [hk]
    exact (lowerExpr_takes e hy).2.trans (.flush b₁)
  · simp only [Emit.lowerStmt,hr,if_false,Except.bind_isOk_iff,Prod.exists] at h
    obtain ⟨rx,rr,b₁,hrx,y,yr,b₂,hop',h⟩ := h
    cases h
    obtain ⟨hreads,hk₁⟩ := lowerExpr_takes e hrx
    obtain ⟨hbin,hk₂⟩ := lowerBinOp_takes hop'
    have hres := (binResult_congr op rfl hreads.scalar.symm).trans hbin
    rw [ownEdges,ownSites,List.countP_append,exprSites_emitted,augSites_emitted hop hres hr]
    simp only [hov,and_true] at hk₂
    exact (hk₁.trans hk₂).trans (.flush b₂)

private theorem lowerStmt_bind_takes {xs : List Go.Ident} {vs : List Expr} {d : Bool}
    (h : Emit.lowerStmt b (.bind xs vs d) = .ok (out, b')) : Takes (ownEdges (.bind xs vs d)) b b' := by
  simp only [Emit.lowerStmt] at h
  split at h
  · cases h
  · simp only [Except.bind_isOk_iff,Prod.exists] at h
    obtain ⟨ys,b₁,hys,h⟩ := h
    cases h
    rw [ownEdges,ownSites,exprsSites_emitted]
    exact (lowerBindValues_takes vs hys).trans (.flush b₁)

private theorem lowerStmt_discard_takes (h : Emit.lowerStmt b (.discard e) = .ok (out, b')) :
    Takes (ownEdges (.discard e)) b b' := by
  rw [ownEdges,ownSites,exprSites_emitted]
  by_cases hc : ∃ f es r, e = .call f es r
  · obtain ⟨f,es,r,rfl⟩ := hc
    simp only [Emit.lowerStmt,Except.bind_isOk_iff,Prod.exists] at h
    obtain ⟨ys,b₁,hys,h⟩ := h
    cases h
    have hcheck : Takes 0 b₁ b₁.errName.2.flush.2 := fun hb => ⟨⟨hb.1,hb.2,hb.3⟩,rfl⟩
    exact (lowerArgs_takes es hys).trans hcheck
  · rw [Emit.lowerStmt] at h
    · simp only [Except.bind_isOk_iff,Prod.exists] at h
      obtain ⟨y,r,b₁,hy,h⟩ := h
      cases h
      exact (lowerExpr_takes e hy).2.trans (.flush b₁)
    · exact fun f es r he => hc ⟨f,es,r,he⟩

private theorem lowerStmt_ifElse_ok {thn els : List Stmt}
    (h : Emit.lowerStmt b (.ifElse e thn els) = .ok (out, b')) :
    ∃ y r b₁ test t b₂ f, Emit.lowerExpr b e = .ok (y, r, b₁) ∧ truthyExpr y r = .ok test ∧
      Emit.lowerBlock b₁.flush.2 thn = .ok (t, b₂) ∧ Emit.lowerBlock b₂ els = .ok (f, b') := by
  simp only [Emit.lowerStmt,Except.bind_isOk_iff,Prod.exists] at h
  obtain ⟨y,r,b₁,hy,test,htest,t,b₂,ht,f,b₃,hf,h⟩ := h
  cases h
  exact ⟨y,r,b₁,test,t,b₂,f,hy,htest,ht,hf⟩

private theorem lowerStmt_whileLoop_ok {body : List Stmt}
    (h : Emit.lowerStmt b (.whileLoop e body) = .ok (out, b')) :
    ∃ y r b₁ test t, Emit.lowerExpr b e = .ok (y, r, b₁) ∧ truthyExpr y r = .ok test ∧
      Emit.lowerBlock b₁.flush.2 body = .ok (t, b') := by
  simp only [Emit.lowerStmt,Except.bind_isOk_iff,Prod.exists] at h
  obtain ⟨y,r,b₁,hy,test,htest,t,b₂,ht,h⟩ := h
  cases h
  exact ⟨y,r,b₁,test,t,hy,htest,ht⟩

private theorem lowerStmt_forCount_ok {start stop : Expr} {down : Bool} {body : List Stmt}
    (h : Emit.lowerStmt b (.forCount x start stop down body none) = .ok (out, b')) :
    ∃ y r b₁ z zr b₂ t b₃, Emit.lowerExpr b start = .ok (y, r, b₁) ∧
      Emit.lowerExpr b₁ stop = .ok (z, zr, b₂) ∧ Emit.lowerBlock b₂.flush.2 body = .ok (t, b₃) ∧
      b' = { b₃ with resume := b₂.resume } := by
  simp only [Emit.lowerStmt,Except.bind_isOk_iff,Prod.exists] at h
  obtain ⟨y,r,b₁,hy,z,zr,b₂,hz,t,b₃,ht,h⟩ := h
  cases h
  exact ⟨y,r,b₁,z,zr,b₂,t,b₃,hy,hz,ht,rfl⟩

private theorem lowerBlock_cons_ok {s : Stmt} {ss : List Stmt}
    (h : Emit.lowerBlock b (s :: ss) = .ok (out, b')) :
    ∃ o₁ b₁ o₂, Emit.lowerStmt b s = .ok (o₁, b₁) ∧ Emit.lowerBlock b₁ ss = .ok (o₂, b') := by
  simp only [Emit.lowerBlock,Except.bind_isOk_iff,Prod.exists] at h
  obtain ⟨o₁,b₁,h₁,o₂,b₂,h₂,h⟩ := h
  cases h
  exact ⟨o₁,b₁,o₂,h₁,h₂⟩

private theorem lowerStmt_forGen_ok {elem gr : Repr} {g : Go.Ident} {body : List Stmt} {deopt : Bool}
    (h : Emit.lowerStmt b (.forGen x elem (.var g gr) body deopt) = .ok (out, b')) :
    ∃ t b₁, Emit.lowerBlock b.flush.2 body = .ok (t, b₁) ∧
      b' = if deopt then b₁.deoptEdge.2 else b₁ := by
  simp only [Emit.lowerStmt,Emit.lowerExpr,Except.bind_isOk_iff,Prod.exists] at h
  obtain ⟨y,yr,b₁,hy,t,b₂,ht,h⟩ := h
  cases hy
  cases h
  refine ⟨t,b₂,ht,?_⟩
  cases deopt <;> rfl

end

mutual
private theorem lowerStmt_takes : ∀ (s : Stmt) {b b' : Builder} {out : List Go.Stmt},
    bridged s → Emit.lowerStmt b s = .ok (out, b') → Takes (ownEdges s + edges (nested s)) b b'
  | .define x e, b, _, _, _, h | .assign x e, b, _, _, _, h | .ret e, b, _, _, _, h => by
    simp only [Emit.lowerStmt,Except.bind_isOk_iff,Prod.exists] at h
    obtain ⟨y,r,b₁,hy,h⟩ := h
    cases h
    rw [ownEdges,ownSites,exprSites_emitted]
    exact (lowerExpr_takes e hy).2.trans (.flush b₁)
  | .discard e, _, _, _, _, h => lowerStmt_discard_takes h
  | .bind xs vs d, _, _, _, _, h => lowerStmt_bind_takes h
  | .augAssign x op r e, _, _, _, hs, h => by
    apply lowerStmt_augAssign_takes _ h
    simpa [bridged,or_assoc] using hs
  | .varDecl _ _, b, _, _, _, h | .breakStmt, b, _, _, _, h | .continueStmt, b, _, _, _, h => by
    cases h
    exact .flush b
  | .forRange _ _ _ _, _, _, _, hs, _ => by simp [bridged] at hs
  | .forCount _ _ _ _ _ (some _), _, _, _, hs, _ => by simp [bridged] at hs
  | .ifElse c thn els, _, _, _, hs, h => by
    obtain ⟨y,r,b₁,test,t,b₂,f,hy, -,ht,hf⟩ := lowerStmt_ifElse_ok h
    have hs : allBridged thn ∧ allBridged els := by simpa [bridged] using hs
    rw [nested,edges_append,ownEdges,ownSites,exprSites_emitted]
    exact ((lowerExpr_takes c hy).2.trans (.flush b₁)).trans
      ((lowerBlock_takes thn hs.1 ht).trans (lowerBlock_takes els hs.2 hf))
  | .whileLoop c body, _, _, _, hs, h => by
    obtain ⟨y,r,b₁,test,t,hy,-,ht⟩ := lowerStmt_whileLoop_ok h
    rw [nested,ownEdges,ownSites,exprSites_emitted]
    exact ((lowerExpr_takes c hy).2.trans (.flush b₁)).trans (lowerBlock_takes body hs ht)
  | .forCount x start stop down body none, _, _, _, hs, h => by
    obtain ⟨y,r,b₁,z,zr,b₂,t,b₃,hy,hz,ht,rfl⟩ := lowerStmt_forCount_ok h
    rw [nested,ownEdges,ownSites,List.countP_append,exprSites_emitted,
      exprSites_emitted]
    have hhead := (lowerExpr_takes start hy).2.trans (lowerExpr_takes stop hz).2
    have hloop := (hhead.trans (.flush b₂)).trans (lowerBlock_takes body hs ht)
    intro hb
    obtain ⟨hb₃,hk⟩ := hloop hb
    exact ⟨⟨hb₃.1,((hhead.trans (.flush b₂)) hb).1.2,hb₃.3⟩,hk⟩
  | .forGen x elem g body deopt, b, _, _, hs, h => by
    obtain ⟨⟨i,r,rfl⟩,hbody⟩ := bridged_forGen hs
    obtain ⟨t,b₁,ht,rfl⟩ := lowerStmt_forGen_ok h
    have hbody := (Takes.flush b).trans (lowerBlock_takes body hbody ht)
    rw [nested,ownEdges,ownSites]
    cases deopt with
    | false => exact hbody
    | true =>
      have hedge := hbody.trans (.deoptEdge b₁)
      rwa [Nat.add_comm,Nat.zero_add] at hedge

private theorem lowerBlock_takes : ∀ (ss : List Stmt) {b b' : Builder} {out : List Go.Stmt},
    allBridged ss → Emit.lowerBlock b ss = .ok (out, b') → Takes (edges (statements ss)) b b'
  | [], b, _, _, _, h => by
    cases h
    exact .refl b
  | s :: ss, _, _, _, hs, h => by
    obtain ⟨o₁,b₁,o₂,h₁,h₂⟩ := lowerBlock_cons_ok h
    have hs : bridged s ∧ allBridged ss := by simpa [allBridged] using hs
    rw [statements,List.cons_append,edges_cons,edges_append,← Nat.add_assoc]
    exact (lowerStmt_takes s hs.1 h₁).trans (lowerBlock_takes ss hs.2 h₂)
end

/-! ### The statements of the bridge -/

def LowerM.Ensures {α : Type} (m : LowerM α) (Q : α → Prop) : Prop :=
  ∀ s a s', m s = .ok (a, s') → Q a

namespace LowerM.Ensures
variable {α β : Type} {P : α → Prop} {Q : β → Prop} {m : LowerM α} {f : α → LowerM β}

theorem bind (hm : Ensures m P) (hf : ∀ a, P a → Ensures (f a) Q) : Ensures (m >>= f) Q := by
  intro s b s' h
  obtain ⟨a,s₁,ha,hb⟩ := LowerM.bind_ok h
  exact hf a (hm s a s₁ ha) s₁ b s' hb
private theorem step (hf : ∀ a, Ensures (f a) Q) : Ensures (m >>= f) Q :=
  bind (P := fun _ => True) (fun _ _ _ _ => trivial) fun a _ => hf a
private theorem pure {a : α} (h : P a) : Ensures (Pure.pure a) P := by
  intro s b s' hb
  obtain ⟨rfl,-⟩ := LowerM.pure_ok hb
  exact h
private theorem refuse (msg : String) : Ensures (Ir.refuse msg) P := fun _ _ _ h =>
  absurd h LowerM.refuse_ne
private theorem checked {c : Prop} [Decidable c] {msg : String} (h : Ensures m P) :
    Ensures (if c then Ir.refuse msg else m) P := by
  split
  · exact refuse msg
  · exact h

end LowerM.Ensures

open LowerM

private theorem allBridged_append (ss ts : List Stmt) :
    allBridged (ss ++ ts) = (allBridged ss && allBridged ts) := by
  induction ss with
  | nil => rfl
  | cons s ss ih => simp only [List.cons_append,allBridged,ih,Bool.and_assoc]
def Built (o : Lowered) : Prop := allBridged o.stmts
private theorem bindName_built (sc : Scope) (x : String) (v : Emit.Expr) (r : Repr) :
    Ensures (bindName sc x v r) Built := by
  unfold bindName
  split
  · exact .checked (.pure rfl)
  · exact .pure rfl

private theorem lowerTupleAssign_built (ctx : LowerCtx) (sc : Scope) (ts : List Frontend.Expr)
    (e : Frontend.Expr) : Ensures (lowerTupleAssign ctx sc ts e) Built := by
  unfold lowerTupleAssign
  split
  · refine .checked (.checked ?_)
    exact .step fun names => .step fun ⟨vals,reprs⟩ => .step fun _ => .checked (.pure rfl)
  · exact .refuse _

theorem lowerStop_built (ctx : LowerCtx) (sc : Scope) (body : List Frontend.Stmt) (x : String)
    (e : Frontend.Expr) : Ensures (lowerStop ctx sc body x e) fun p => allBridged p.1 := by
  unfold lowerStop
  refine .step fun ⟨v,r⟩ => .checked ?_
  split
  · exact .pure rfl
  · exact .checked (.pure rfl)
  · exact .pure rfl

private theorem lowerGenArgs_built (ctx : LowerCtx) (sc : Scope) (sig : String) :
    ∀ (i : Nat) (ps : List GenParam) (as : List Frontend.Arg),
      Ensures (lowerGenArgs ctx sc sig i ps as) fun p => allBridged p.1
  | _, [], _ | _, _ :: _, [] => .pure rfl
  | i, p :: ps, a :: as => by
    rw [lowerGenArgs]
    refine .step fun ⟨v,r⟩ => .checked ?_
    refine .bind (lowerGenArgs_built ctx sc sig (i + 1) ps as) fun ⟨pre,fields,values⟩ hpre => ?_
    dsimp only
    repeat' split
    all_goals exact .pure hpre

private theorem joinDecls_built (join : Scope) :
    allBridged (join.map fun p => Stmt.varDecl (.py p.1) p.2) = true := by
  induction join with
  | nil => rfl
  | cons p ps ih => exact ih

mutual
theorem lowerStmt_built (ctx : LowerCtx) (sc : Scope) : ∀ st, Ensures (lowerStmt ctx sc st) Built
  | .pass => .pure rfl
  | .breakStmt | .continueStmt => .checked (.pure rfl)
  | .returnStmt none => .refuse _
  | .returnStmt (some e) => by
    rw [lowerStmt]
    exact .step fun _ => .pure rfl
  | .ifStmt c body els => by
    rw [lowerStmt]
    refine .step fun ⟨c,cr⟩ => .checked ?_
    refine .step fun thn => .step fun alt => .step fun join => .step fun _ => .step fun _ =>
      .bind (lowerBodyFrom_built ctx _ _ _ body) fun thn' ht =>
      .bind (lowerBodyFrom_built ctx _ _ _ els) fun alt' ha => .step fun _ => .pure ?_
    have ht : allBridged thn'.stmts = true := ht
    have ha : allBridged alt'.stmts = true := ha
    simp [Built,allBridged_append,joinDecls_built,allBridged,bridged,ht,ha]
  | .whileStmt c body els => by
    rw [lowerStmt]
    refine .checked (.step fun ⟨c,cr⟩ => .checked (.checked ?_))
    exact .bind (lowerBodyFrom_built _ sc none false body) fun b hb => .pure (by
      simpa [Built,Lowered.plain,allBridged,bridged] using hb)
  | .forStmt target iter body els _ => by
    rw [lowerStmt.eq_def]
    dsimp only
    refine .checked ?_
    split
    · refine .checked ?_
      split
      · split
        · unfold lowerForGen
          refine .checked (.checked (.checked ?_))
          refine .bind (lowerGenArgs_built ctx sc _ 0 _ _) fun ⟨pre,fields,values⟩ hpre => ?_
          refine .bind (lowerBodyFrom_built _ _ none false body) fun b hb => .pure ?_
          have hb : allBridged b.stmts = true := hb
          simp [Built,Lowered.plain,allBridged_append,allBridged,bridged,hpre,hb]
        · refine .checked (.checked (.step fun ⟨a,z,down⟩ => .step fun start => ?_))
          refine .bind (lowerStop_built ctx sc body _ z) fun ⟨pre,stop⟩ hpre => .checked ?_
          refine .bind (lowerBodyFrom_built _ _ none false body) fun b hb => .pure ?_
          have hb : allBridged b.stmts = true := hb
          simp [Built,Lowered.plain,allBridged_append,allBridged,bridged,hpre,hb]
      · exact .refuse _
      · exact .refuse _
    · exact .refuse _
  | .assign targets value => by
    rw [lowerStmt.eq_def]
    dsimp only
    split
    · exact lowerTupleAssign_built ctx sc _ value
    · exact .step fun ⟨v,r⟩ => bindName_built sc _ v r
    · exact .refuse _
    · exact .refuse _
  | .annAssign target ann value => by
    rw [lowerStmt.eq_def]
    dsimp only
    split
    · refine .step fun ⟨v,r⟩ => ?_
      dsimp only
      split
      · exact .checked (bindName_built sc _ v r)
      · exact bindName_built sc _ v r
    · exact .refuse _
    · exact .refuse _
  | .augAssign target k value => by
    rw [lowerStmt]
    split
    · exact .refuse _
    · rename_i op hop
      split
      · split
        · exact .refuse _
        · refine .step fun ⟨v,r⟩ => .step fun _ => .pure ?_
          cases k <;> simp [binOp] at hop <;> subst hop <;> rfl
      · exact .refuse _
  | .exprStmt x => by
    rw [lowerStmt]
    refine .step fun ⟨v,r⟩ => ?_
    dsimp only
    split
    · exact .pure rfl
    · exact .pure rfl
  | .withStmt _ _ _ | .matchStmt _ _ | .funcDef _ | .classDef _ _ _ _ _ | .tryStmt _ _ _ _ _
  | .raiseStmt _ _ | .assertStmt _ _ | .typeAlias _ _ | .del _ | .globalStmt _ | .nonlocalStmt _
  | .importStmt _ | .importFrom _ _ _ _ => .refuse _

theorem lowerBodyFrom_built (ctx : LowerCtx) (sc : Scope) (ret : Option Repr) (term : Bool) :
    ∀ ss, Ensures (lowerBodyFrom ctx sc ret term ss) Built
  | [] => .pure rfl
  | s :: ss => by
    rw [lowerBodyFrom]
    refine .bind (lowerStmt_built ctx sc s) fun o ho => .step fun ret => ?_
    refine .bind (lowerBodyFrom_built ctx o.scope ret _ ss) fun rest hrest => .pure ?_
    have ho : allBridged o.stmts = true := ho
    have hrest : allBridged rest.stmts = true := hrest
    simp [Built,allBridged_append,ho,hrest]
end

/-! ### The census of a function -/

def startBuilder (f : Func) : Builder :=
  { fn := f.name, params := f.params.map (·.name), ret := f.ret, deopt := f.deoptHandler }
def emitState (f : Func) : Except String Builder := do
  let (_, b) ← Emit.lowerBlock (startBuilder f) f.body
  .ok (lowerGuards b f.bindingGuards).2
def EmitsEdge (f : Func) : Prop := ∃ b, emitState f = .ok b ∧ 0 < b.nDeopt

def header : Stmt → Stmt
  | .ifElse c _ _ => .ifElse c [] []
  | .whileLoop c _ => .whileLoop c []
  | .forCount x start stop down _ r => .forCount x start stop down [] r
  | .forRange x i xs _ => .forRange x i xs []
  | .forGen x elem g _ d => .forGen x elem g [] d
  | s => s

def EmitsOwnEdge (s : Stmt) : Prop :=
  ∃ b out b', Bare b ∧ Emit.lowerStmt b (header s) = .ok (out, b') ∧ b.nDeopt < b'.nDeopt

/-- Both walks tell the guarded code from the rest. -/
structure CensusAgrees (f : Func) : Prop where
  cost : 0 < (costOf f).guards ↔ EmitsEdge f
  sites : ∀ s ∈ statements f.body, (stmtGuarded s = true ↔ EmitsOwnEdge s)

/-- No guard goes unseen: next to every site a walk misses there is one it counts, and next to
every site that emits nothing there is one that does. -/
structure Accounted (f : Func) : Prop where
  cost : .plain ∈ funcSites f ∨ (.phantom ∈ funcSites f ↔
    .slot ∈ funcSites f ∨ .coerced ∈ funcSites f ∨ .drive ∈ funcSites f ∨ .world ∈ funcSites f)
  sites : ∀ s ∈ statements f.body, .plain ∈ ownSites s ∨ .drive ∈ ownSites s ∨
    .world ∈ ownSites s ∨ (.phantom ∈ ownSites s ↔ .slot ∈ ownSites s ∨ .coerced ∈ ownSites s)

private theorem lowerGuards_takes : ∀ (gs : List BindingGuard) (b : Builder),
    Takes gs.length b (lowerGuards b gs).2
  | [], b => .refl b
  | g :: gs, b => by
    rw [List.length_cons,Nat.add_comm]
    exact (Takes.deoptEdge b).trans (lowerGuards_takes gs _)

section
variable {f : Func} {d : Go.FuncDecl}

private theorem emitFunc_state (he : emitFunc f = .ok d) :
    ∃ out b, Emit.lowerBlock (startBuilder f) f.body = .ok (out, b) ∧
      emitState f = .ok (lowerGuards b f.bindingGuards).2 := by
  simp only [emitFunc,Except.bind_isOk_iff,Prod.exists] at he
  obtain ⟨out,b,hb,-⟩ := he
  have hb : Emit.lowerBlock (startBuilder f) f.body = .ok (out, b) := hb
  exact ⟨out,b,hb,by simp [emitState,hb,bind,Except.bind]⟩

private theorem funcSites_emitted (f : Func) :
    (funcSites f).countP Site.emitted = f.bindingGuards.length + edges (statements f.body) := by
  rw [funcSites,List.countP_append,List.countP_map]
  congr 1
  exact List.countP_eq_length.mpr fun _ _ => rfl

theorem emitsEdge_iff (he : emitFunc f = .ok d) (hs : allBridged f.body) (hh : f.deoptHandler = "") :
    EmitsEdge f ↔ 0 < (funcSites f).countP Site.emitted := by
  obtain ⟨out,b,hb,hstate⟩ := emitFunc_state he
  have hbare : Bare (startBuilder f) := ⟨rfl,rfl,hh⟩
  obtain ⟨-,hk⟩ := (lowerBlock_takes f.body hs hb).trans (lowerGuards_takes f.bindingGuards b) hbare
  have hzero : (startBuilder f).nDeopt = 0 := rfl
  rw [funcSites_emitted,EmitsEdge,hstate]
  constructor
  · rintro ⟨b',hb',hpos⟩
    cases hb'
    omega
  · intro hpos
    exact ⟨_,rfl,by omega⟩

private theorem costOf_guards (hs : allBridged f.body) :
    (costOf f).guards = (funcSites f).countP Site.costed := by
  rw [costOf,costStmts_guards f.body hs,funcSites,List.countP_append,List.countP_map]
  have hworld : f.bindingGuards.countP (Site.costed ∘ fun _ => Site.world) = 0 :=
    List.countP_eq_zero.mpr fun _ _ => by simp [Site.costed]
  rw [hworld,Nat.zero_add]

end

private theorem ownSites_header (s : Stmt) : ownSites (header s) = ownSites s := by
  cases s <;> rfl
private theorem nested_header (s : Stmt) : nested (header s) = [] := by
  cases s <;> rfl

private theorem bridged_header {s : Stmt} (h : bridged s) : bridged (header s) := by
  cases s with
  | forCount _ _ _ _ _ r => cases r <;> first | rfl | simp [bridged] at h
  | forGen _ _ g => obtain ⟨⟨i,r,rfl⟩,-⟩ := bridged_forGen h; rfl
  | _ => first | rfl | exact h

private theorem lowerStmt_header {s : Stmt} {b b' : Builder} {out : List Go.Stmt} (hs : bridged s)
    (h : Emit.lowerStmt b s = .ok (out, b')) :
    ∃ out' b'', Emit.lowerStmt b (header s) = .ok (out', b'') := by
  cases s with
  | ifElse c thn els =>
    obtain ⟨y,r,b₁,test,t,b₂,f,hy,htest,-⟩ := lowerStmt_ifElse_ok h
    simp [header,Emit.lowerStmt,Emit.lowerBlock,hy,htest,bind,Except.bind]
  | whileLoop c body =>
    obtain ⟨y,r,b₁,test,t,hy,htest,-⟩ := lowerStmt_whileLoop_ok h
    simp [header,Emit.lowerStmt,Emit.lowerBlock,hy,htest,bind,Except.bind]
  | forCount x start stop down body r =>
    cases r with
    | some _ => simp [bridged] at hs
    | none =>
      obtain ⟨y,r,b₁,z,zr,b₂,t,b₃,hy,hz,-⟩ := lowerStmt_forCount_ok h
      simp [header,Emit.lowerStmt,Emit.lowerBlock,hy,hz,bind,Except.bind]
  | forGen x elem g body d =>
    obtain ⟨⟨i,r,rfl⟩,-⟩ := bridged_forGen hs
    cases d <;> simp [header,Emit.lowerStmt,Emit.lowerExpr,Emit.lowerBlock,bind,Except.bind]
  | forRange => simp [bridged] at hs
  | _ => exact ⟨out,b',h⟩

def EmittedBare (s : Stmt) : Prop := ∃ b out b', Bare b ∧ Emit.lowerStmt b s = .ok (out, b')

mutual
theorem nested_emitted : ∀ (s : Stmt), bridged s → EmittedBare s →
    ∀ t ∈ nested s, bridged t ∧ EmittedBare t
  | .define _ _, _, _, t, ht | .assign _ _, _, _, t, ht | .varDecl _ _, _, _, t, ht
  | .bind _ _ _, _, _, t, ht | .augAssign _ _ _ _, _, _, t, ht | .ret _, _, _, t, ht
  | .breakStmt, _, _, t, ht | .continueStmt, _, _, t, ht | .discard _, _, _, t, ht => by cases ht
  | .forRange _ _ _ _, hs, _, _, _ | .forCount _ _ _ _ _ (some _), hs, _, _, _ => by
    simp [bridged] at hs
  | .ifElse c thn els, hs, ⟨b,out,b',hb,h⟩, t, ht => by
    obtain ⟨y,r,b₁,test,o,b₂,f,hy, -,hthn,hels⟩ := lowerStmt_ifElse_ok h
    have hs : allBridged thn ∧ allBridged els := by simpa [bridged] using hs
    have hb₁ := ((lowerExpr_takes c hy).2.trans (.flush b₁) hb).1
    have hb₂ := (lowerBlock_takes thn hs.1 hthn hb₁).1
    rcases List.mem_append.mp ht with ht | ht
    · exact statements_emitted thn hs.1 hb₁ hthn t ht
    · exact statements_emitted els hs.2 hb₂ hels t ht
  | .whileLoop c body, hs, ⟨b,out,b',hb,h⟩, t, ht => by
    obtain ⟨y,r,b₁,test,o,hy,-,hbody⟩ := lowerStmt_whileLoop_ok h
    have hb₁ := ((lowerExpr_takes c hy).2.trans (.flush b₁) hb).1
    exact statements_emitted body hs hb₁ hbody t ht
  | .forCount x start stop down body none, hs, ⟨b,out,b',hb,h⟩, t, ht => by
    obtain ⟨y,r,b₁,z,zr,b₂,o,b₃,hy,hz,hbody,-⟩ := lowerStmt_forCount_ok h
    have hb₂ := (((lowerExpr_takes start hy).2.trans (lowerExpr_takes stop hz).2).trans
      (.flush b₂) hb).1
    exact statements_emitted body hs hb₂ hbody t ht
  | .forGen x elem g body d, hs, ⟨b,out,b',hb,h⟩, t, ht => by
    obtain ⟨⟨i,r,rfl⟩,hbody⟩ := bridged_forGen hs
    obtain ⟨o,b₁,hrun,-⟩ := lowerStmt_forGen_ok h
    exact statements_emitted body hbody (Takes.flush b hb).1 hrun t ht

private theorem statements_emitted : ∀ (ss : List Stmt) {b b' : Builder} {out : List Go.Stmt},
    allBridged ss → Bare b → Emit.lowerBlock b ss = .ok (out, b') →
    ∀ t ∈ statements ss, bridged t ∧ EmittedBare t
  | [], _, _, _, _, _, _, t, ht => by cases ht
  | s :: ss, _, _, _, hs, hb, h, t, ht => by
    obtain ⟨o₁,b₁,o₂,h₁,h₂⟩ := lowerBlock_cons_ok h
    have hs : bridged s ∧ allBridged ss := by simpa [allBridged] using hs
    have hmem : t = s ∨ t ∈ nested s ∨ t ∈ statements ss := by
      simpa [statements] using ht
    rcases hmem with rfl | ht | ht
    · exact ⟨hs.1,_,_,_,hb,h₁⟩
    · exact nested_emitted s hs.1 ⟨_,_,_,hb,h₁⟩ t ht
    · exact statements_emitted ss hs.2 (lowerStmt_takes s hs.1 h₁ hb).1 h₂ t ht
end

private theorem emitsOwnEdge_iff {s : Stmt} (hs : bridged s) (he : EmittedBare s) :
    EmitsOwnEdge s ↔ 0 < (ownSites s).countP Site.emitted := by
  have hcount : ∀ {b b' out}, Bare b → Emit.lowerStmt b (header s) = .ok (out, b') →
      b'.nDeopt = b.nDeopt + (ownSites s).countP Site.emitted := by
    intro b b' out hb h
    have hk := (lowerStmt_takes (header s) (bridged_header hs) h hb).2
    rw [nested_header,ownEdges,ownSites_header] at hk
    exact hk
  constructor
  · rintro ⟨b,out,b',hb,h,hlt⟩
    have := hcount hb h
    omega
  · intro hpos
    obtain ⟨b,out,b',hb,h⟩ := he
    obtain ⟨out',b'',h'⟩ := lowerStmt_header hs h
    have := hcount hb h'
    exact ⟨b,out',b'',hb,h',by omega⟩

theorem costed_iff (S : List Site) : 0 < S.countP Site.costed ↔ .plain ∈ S ∨ .phantom ∈ S := by
  rw [List.countP_pos_iff]
  constructor
  · rintro ⟨x,hx,hc⟩
    cases x <;> simp_all [Site.costed]
  · rintro (h | h) <;> exact ⟨_,h,rfl⟩

private theorem marked_iff (S : List Site) :
    S.any Site.marked = true ↔ .plain ∈ S ∨ .phantom ∈ S ∨ .drive ∈ S ∨ .world ∈ S := by
  rw [List.any_eq_true]
  constructor
  · rintro ⟨x,hx,hc⟩
    cases x <;> simp_all [Site.marked]
  · rintro (h | h | h | h) <;> exact ⟨_,h,rfl⟩

private theorem emitted_iff (S : List Site) : 0 < S.countP Site.emitted ↔
    .plain ∈ S ∨ .slot ∈ S ∨ .coerced ∈ S ∨ .drive ∈ S ∨ .world ∈ S := by
  rw [List.countP_pos_iff]
  constructor
  · rintro ⟨x,hx,hc⟩
    cases x <;> simp_all [Site.emitted]
  · rintro (h | h | h | h | h) <;> exact ⟨_,h,rfl⟩

private theorem guardSitesOf_length (f : Func) : (guardSitesOf f).length =
    (if f.bindingGuards.isEmpty then 0 else 1) + (statements f.body).countP stmtGuarded := by
  rw [guardSitesOf,List.length_append,blockSites_length]
  split <;> rfl
private theorem mark_agrees_iff {s : Stmt} (hs : bridged s) (he : EmittedBare s) :
    (stmtGuarded s = true ↔ EmitsOwnEdge s) ↔ .plain ∈ ownSites s ∨ .drive ∈ ownSites s ∨
      .world ∈ ownSites s ∨ (.phantom ∈ ownSites s ↔ .slot ∈ ownSites s ∨ .coerced ∈ ownSites s) := by
  rw [stmtGuarded_eq hs,marked_iff,emitsOwnEdge_iff hs he,emitted_iff]
  tauto
private theorem cost_agrees_iff {f : Func} {d : Go.FuncDecl} (he : emitFunc f = .ok d)
    (hs : allBridged f.body) (hh : f.deoptHandler = "") :
    (0 < (costOf f).guards ↔ EmitsEdge f) ↔ .plain ∈ funcSites f ∨ (.phantom ∈ funcSites f ↔
      .slot ∈ funcSites f ∨ .coerced ∈ funcSites f ∨ .drive ∈ funcSites f ∨ .world ∈ funcSites f) := by
  rw [costOf_guards hs,costed_iff,emitsEdge_iff he hs hh,emitted_iff]
  tauto

section
variable {fn : Frontend.FuncDef} {resolve : Option (String → Option StaticCallee)}
  {globals shapes : Option (String → Option Repr)} {gens : Option (String → Option StaticGenerator)}
  {f : Func} {d : Go.FuncDecl}

private theorem lowerFuncGen_built (h : lowerFuncGen fn resolve globals shapes gens = .ok f) :
    allBridged f.body ∧ f.deoptHandler = "" := by
  obtain ⟨params,sc,out,guards,ret,-,hbody,-,-,rfl⟩ := lowerFuncGen_ok h
  exact ⟨lowerBodyFrom_built _ _ _ _ _ _ _ _ hbody,rfl⟩

/-- For a function the bridge lowers and the emitter accepts, the two walks agree with the
emitted code exactly when no guard goes unseen. -/
theorem census_agrees_iff (h : lowerFuncGen fn resolve globals shapes gens = .ok f)
    (he : emitFunc f = .ok d) :
    (guardSitesOf f).length = (if f.bindingGuards.isEmpty then 0 else 1) +
      (statements f.body).countP stmtGuarded ∧ (CensusAgrees f ↔ Accounted f) := by
  refine ⟨guardSitesOf_length f,?_⟩
  obtain ⟨hs,hh⟩ := lowerFuncGen_built h
  obtain ⟨o,b,hb, -⟩ := emitFunc_state he
  have hemitted := statements_emitted f.body hs ⟨rfl,rfl,hh⟩ hb
  constructor
  · intro hagree
    refine ⟨(cost_agrees_iff he hs hh).mp hagree.cost,fun s hmem => ?_⟩
    obtain ⟨hbs,hes⟩ := hemitted s hmem
    exact (mark_agrees_iff hbs hes).mp (hagree.sites s hmem)
  · intro hacc
    refine ⟨(cost_agrees_iff he hs hh).mpr hacc.cost,fun s hmem => ?_⟩
    obtain ⟨hbs,hes⟩ := hemitted s hmem
    exact (mark_agrees_iff hbs hes).mpr (hacc.sites s hmem)

end

def addTwo : Frontend.FuncDef :=
  .mk "f" [.mk "a" .plain (some (.name "int")) none, .mk "b" .plain (some (.name "int")) none]
    (some (.name "int"))
    [.returnStmt (some (.binOp (.name "a") .add (.name "b")))] [] false
def addTwoIr : Func :=
  { name := "f", params := [⟨.py "a", intRepr⟩, ⟨.py "b", intRepr⟩], ret := intRepr
    body := [.ret (.bin .add (.var (.py "a") intRepr) (.var (.py "b") intRepr))]
    deoptHandler := "", bindingGuards := [] }

theorem addTwo_census :
    lowerFuncGen addTwo none none none none = .ok addTwoIr ∧ (∃ d, emitFunc addTwoIr = .ok d) ∧
      CensusAgrees addTwoIr := by
  have hlower : lowerFuncGen addTwo none none none none = .ok addTwoIr := rfl
  refine ⟨hlower,⟨_,rfl⟩,(census_agrees_iff hlower rfl).2.mpr ⟨.inl (by decide),fun s hs => ?_⟩⟩
  have hs : s = .ret (.bin .add (.var (.py "a") intRepr) (.var (.py "b") intRepr)) := by
    simpa [addTwoIr,statements,nested] using hs
  exact .inl (by subst hs; decide)

def pointRepr : Repr := { go := "P", scalar := .notScalar, shape := some ⟨"P", [("x", .sInt)]⟩ }
def slotPlusOne : Frontend.FuncDef :=
  .mk "f" [.mk "p" .plain (some (.name "P")) none] (some (.name "int"))
    [.returnStmt (some (.binOp (.attribute (.name "p") "x") .add (.intLit 1)))] [] false

def slotPlusOneIr : Func :=
  { name := "f", params := [⟨.py "p", pointRepr⟩], ret := intRepr
    body := [.ret (.bin .add (.attr (.var (.py "p") pointRepr) "x") (.int 1))]
    deoptHandler := "", bindingGuards := [] }

/-- The addition on a slot takes a deopt edge that neither walk sees. -/
theorem slot_guard_unseen :
    lowerFuncGen slotPlusOne none none (some fun n => if n = "P" then some pointRepr else none) none =
        .ok slotPlusOneIr ∧
      (costOf slotPlusOneIr).guards = 0 ∧ guardSitesOf slotPlusOneIr = [] ∧
      EmitsEdge slotPlusOneIr ∧ ¬ CensusAgrees slotPlusOneIr := by
  have hcost : (costOf slotPlusOneIr).guards = 0 := by decide
  have hedge : EmitsEdge slotPlusOneIr := ⟨_,rfl,by decide⟩
  refine ⟨rfl,hcost,by decide,hedge,fun h => ?_⟩
  have hpos := h.cost.mpr hedge
  omega

end Unagi.Ir
