import Unagi.Ir.Inversion
import Unagi.Python.Scoping

/-! # Direct calls of static functions

`staticResolver` offers the guard-free static functions of a module to the bridge under their
bare names, and `lowerExpr` turns a call of such a name into a direct call. The resolver looks at
nothing but the defs that bind the name in the module. -/

namespace Unagi.Build
open Frontend (Stmt FuncDef MatchCase ExceptHandler Module)
open Ir (StaticCallee StaticGenerator LowerCtx lowerExpr lowerFuncGen)
open Emit (Repr)
open Lib (Flow)

structure QualFunc where
  qual : List String
  fn : FuncDef

mutual
def stmtFuncs (path : List String) : Stmt → List QualFunc
  | .funcDef (.mk name params returns body decorators async) =>
    ⟨path ++ [name], .mk name params returns body decorators async⟩ ::
      collectFuncs (path ++ [name]) body
  | .classDef name _ _ body _ => collectFuncs (path ++ [name]) body
  | .ifStmt _ body els | .whileStmt _ body els | .forStmt _ _ body els _ =>
    collectFuncs path body ++ collectFuncs path els
  | .withStmt _ body _ => collectFuncs path body
  | .tryStmt body handlers orElse final _ =>
    collectFuncs path body ++ handlersFuncs path handlers ++ collectFuncs path orElse ++
      collectFuncs path final
  | .matchStmt _ cases => casesFuncs path cases
  | _ => []

def collectFuncs (path : List String) : List Stmt → List QualFunc
  | [] => []
  | s :: ss => stmtFuncs path s ++ collectFuncs path ss
def handlersFuncs (path : List String) : List ExceptHandler → List QualFunc
  | [] => []
  | .mk _ _ body :: hs => collectFuncs path body ++ handlersFuncs path hs

def casesFuncs (path : List String) : List MatchCase → List QualFunc
  | [] => []
  | .mk _ _ body :: cs => collectFuncs path body ++ casesFuncs path cs
end

def redefinedQual (m : Module) (qual : List String) : Bool :=
  1 < (collectFuncs [] m.body).countP fun qf => qf.qual = qual

/-- What a plan is made for: the module, the units that the cost model and the empty deopt plan
let through, the emitted names, and the resolvers for globals, shapes and generators. -/
structure PlanInput where
  module : Module
  verdict : List String → Bool
  names : List String → String
  globals : FuncDef → Option (String → Option Repr)
  shapes : Option (String → Option Repr)
  gens : Option (String → Option StaticGenerator)

/-- The unit is static without guards. A name that several defs bind never is. -/
def PlanInput.staticFree (P : PlanInput) (qual : List String) : Bool :=
  P.verdict qual && !redefinedQual P.module qual

def topLevelName : List String → Option String
  | [name] => some name
  | _ => none

def paramReprs : List Frontend.Param → Option (List Repr)
  | [] => some []
  | .mk _ kind ann dflt :: ps =>
    if (kind = .plain ∨ kind = .posOnly) ∧ dflt.isNone then do
      let r ← ann.bind Ir.annotationRepr
      let rs ← paramReprs ps
      some (r :: rs)
    else none

def signatureFromDef (fn : FuncDef) (goName : String) : Option StaticCallee :=
  if fn.async || !fn.decorators.isEmpty then none
  else do
    let params ← paramReprs fn.params
    let ret ← fn.returns.bind Ir.annotationRepr
    some { goName, params, ret }

def signatureOf (f : Emit.Func) (goName : String) : StaticCallee :=
  { goName, params := f.params.map fun p => p.repr, ret := f.ret }
abbrev Callees := List (String × StaticCallee)
def PlanInput.callable (P : PlanInput) (qf : QualFunc) : Option String :=
  if P.staticFree qf.qual then topLevelName qf.qual else none

def PlanInput.seed (P : PlanInput) (callees : Callees) (qf : QualFunc) : Callees :=
  match P.callable qf with
  | none => callees
  | some bare =>
    match signatureFromDef qf.fn (P.names qf.qual) with
    | none => callees
    | some sig => (bare, sig) :: callees

def PlanInput.grow (P : PlanInput) (callees : Callees) (qf : QualFunc) : Callees :=
  match P.callable qf with
  | none => callees
  | some bare =>
    if (callees.lookup bare).isSome then callees
    else
      match lowerFuncGen qf.fn (some fun x => callees.lookup x) (P.globals qf.fn) P.shapes P.gens with
      | .error _ => callees
      | .ok f => (bare, signatureOf f (P.names qf.qual)) :: callees

/-- Passes over the functions until one adds nothing; a pass that goes on adds one of them. -/
def PlanInput.settle (P : PlanInput) (funcs : List QualFunc) : Nat → Callees → Callees
  | 0, callees => callees
  | n + 1, callees =>
    let grown := funcs.foldl P.grow callees
    if grown.length = callees.length then callees else P.settle funcs n grown

def PlanInput.staticResolver (P : PlanInput) : String → Option StaticCallee :=
  let funcs := collectFuncs [] P.module.body
  fun x => (P.settle funcs (funcs.length + 1) (funcs.foldl P.seed [])).lookup x

/-! ## What the resolver offers -/

/-- The callee is the static form of an undecorated def that binds the bare name alone. -/
def PlanInput.Offered (P : PlanInput) (x : String) (c : StaticCallee) : Prop :=
  ∃ qf ∈ collectFuncs [] P.module.body, qf.qual = [x] ∧
    redefinedQual P.module qf.qual = false ∧ qf.fn.decorators = [] ∧
    c.goName = P.names qf.qual

section Resolver
variable {P : PlanInput}

variable {qf : QualFunc} {x : String} {fn : FuncDef}

theorem callable_eq_some (h : P.callable qf = some x) :
    qf.qual = [x] ∧ redefinedQual P.module qf.qual = false := by
  rw [PlanInput.callable] at h
  split_ifs at h with hfree
  have hred : redefinedQual P.module qf.qual = false := by
    simp only [PlanInput.staticFree,Bool.and_eq_true,Bool.not_eq_true'] at hfree
    exact hfree.2
  refine ⟨?_,hred⟩
  cases hq : qf.qual with
  | nil => simp [topLevelName,hq] at h
  | cons a l =>
    cases l with
    | nil => simpa [topLevelName,hq] using h
    | cons b l => simp [topLevelName,hq] at h

theorem signatureFromDef_decorators {goName : String} {c : StaticCallee}
    (h : signatureFromDef fn goName = some c) : fn.decorators = [] ∧ c.goName = goName := by
  rw [signatureFromDef] at h
  split_ifs at h with hdef
  simp only [Option.bind_eq_bind,Option.bind_eq_some_iff,Option.some.injEq] at h
  obtain ⟨params,-,ret,-,rfl⟩ := h
  simp only [Bool.or_eq_true,Bool.not_eq_true',not_or] at hdef
  exact ⟨by simpa using hdef.2,rfl⟩

theorem lowerFuncGen_decorators {resolve globals shapes gens} {f : Emit.Func}
    (h : lowerFuncGen fn resolve globals shapes gens = .ok f) : fn.decorators = [] := by
  by_contra hne
  have hd : fn.decorators.isEmpty = false := by simpa using hne
  cases ha : fn.async <;> simp [lowerFuncGen,ha,hd,Ir.unsupported] at h

variable {callees : Callees}

theorem seed_offered
    (hqf : qf ∈ collectFuncs [] P.module.body) (h : ∀ p ∈ callees, P.Offered p.1 p.2) :
    ∀ p ∈ P.seed callees qf, P.Offered p.1 p.2 := by
  cases hc : P.callable qf with
  | none => simpa only [PlanInput.seed,hc] using h
  | some x =>
    cases hs : signatureFromDef qf.fn (P.names qf.qual) with
    | none => simpa only [PlanInput.seed,hc,hs] using h
    | some c =>
      simp only [PlanInput.seed,hc,hs,List.forall_mem_cons]
      obtain ⟨hq,hred⟩ := callable_eq_some hc
      obtain ⟨hdec,hname⟩ := signatureFromDef_decorators hs
      exact ⟨⟨qf,hqf,hq,hred,hdec,hname⟩,h⟩

theorem grow_offered
    (hqf : qf ∈ collectFuncs [] P.module.body) (h : ∀ p ∈ callees, P.Offered p.1 p.2) :
    ∀ p ∈ P.grow callees qf, P.Offered p.1 p.2 := by
  cases hc : P.callable qf with
  | none => simpa only [PlanInput.grow,hc] using h
  | some x =>
    simp only [PlanInput.grow,hc]
    split_ifs with hdone
    · exact h
    · cases hl : lowerFuncGen qf.fn (some fun x => callees.lookup x) (P.globals qf.fn) P.shapes
          P.gens with
      | error e => exact h
      | ok f =>
        simp only [List.forall_mem_cons]
        obtain ⟨hq,hred⟩ := callable_eq_some hc
        exact ⟨⟨qf,hqf,hq,hred,lowerFuncGen_decorators hl,rfl⟩,h⟩

theorem foldl_offered {step : Callees → QualFunc → Callees} {funcs : List QualFunc}
    (hstep : ∀ callees, ∀ qf ∈ funcs, (∀ p ∈ callees, P.Offered p.1 p.2) →
      ∀ p ∈ step callees qf, P.Offered p.1 p.2)
    (h : ∀ p ∈ callees, P.Offered p.1 p.2) : ∀ p ∈ funcs.foldl step callees, P.Offered p.1 p.2 := by
  induction funcs generalizing callees with
  | nil => exact h
  | cons qf funcs ih =>
    rw [List.foldl_cons]
    apply ih
    · intro callees qf' hqf'
      exact hstep callees qf' (List.mem_cons_of_mem _ hqf')
    · exact hstep callees qf List.mem_cons_self h

theorem settle_offered {n : Nat} (h : ∀ p ∈ callees, P.Offered p.1 p.2) :
    ∀ p ∈ P.settle (collectFuncs [] P.module.body) n callees, P.Offered p.1 p.2 := by
  induction n generalizing callees with
  | zero => exact h
  | succ n ih =>
    rw [PlanInput.settle]
    split_ifs
    · exact h
    · exact ih (foldl_offered (fun _ _ hqf h => grow_offered hqf h) h)

theorem staticResolver_offered {c : StaticCallee}
    (h : P.staticResolver x = some c) : P.Offered x c := by
  rw [PlanInput.staticResolver] at h
  obtain ⟨l₁,l₂,heq,-⟩ := List.lookup_eq_some_iff.mp h
  have hall := settle_offered (P := P) (n := (collectFuncs [] P.module.body).length + 1)
    (foldl_offered (fun _ _ hqf h => seed_offered hqf h) (List.forall_mem_nil _))
  exact hall (x, c) (by rw [heq]; simp)

end Resolver

/-! ## The defs among the bindings of a module -/

/-- A def below a path has a qualified name below it; one directly at the path that has no decorators
is among given bindings. -/
structure Placed (path : List String) (qf : QualFunc) (bs : List Python.Binding) : Prop where
  qual : ∃ x rest, qf.qual = path ++ x :: rest
  bound : ∀ x, qf.qual = path ++ [x] → qf.fn.decorators = [] → ⟨some x, .function qf.fn⟩ ∈ bs

section Placed
variable {path : List String} {qf : QualFunc} {bs bs' : List Python.Binding}

theorem Placed.left (h : Placed path qf bs) : Placed path qf (bs ++ bs') :=
  ⟨h.qual,fun x hq hd => List.mem_append_left _ (h.bound x hq hd)⟩
theorem Placed.right (h : Placed path qf bs) : Placed path qf (bs' ++ bs) :=
  ⟨h.qual,fun x hq hd => List.mem_append_right _ (h.bound x hq hd)⟩

theorem Placed.nested {name : String} (h : Placed (path ++ [name]) qf bs) : Placed path qf bs' := by
  obtain ⟨y,rest,hq⟩ := h.qual
  rw [List.append_assoc] at hq
  refine ⟨⟨name,y :: rest,hq⟩,fun x hx _ => ?_⟩
  have hlen := congrArg List.length (hq.symm.trans hx)
  simp at hlen

mutual
theorem stmtFuncs_placed : ∀ {path : List String} (s : Stmt), qf ∈ stmtFuncs path s →
    Placed path qf (Python.stmtFlow s).atoms
  | _, .funcDef (.mk name params returns body decorators async), h => by
    rw [stmtFuncs,List.mem_cons] at h
    rcases h with rfl | h
    · refine ⟨⟨name,[],rfl⟩,fun x hq hd => ?_⟩
      have hname : name = x := by simpa using hq
      have hdec : decorators = [] := hd
      simp [Python.stmtFlow,Python.defFlow,Flow.atoms,hname,hdec]
    · exact (collectFuncs_placed body h).nested
  | _, .classDef name _ _ body _, h =>
    (collectFuncs_placed body (by simpa only [stmtFuncs] using h)).nested
  | _, .ifStmt _ body els, h => by
    rw [stmtFuncs,List.mem_append] at h
    rcases h with h | h
    · exact (collectFuncs_placed body h).left.right
    · exact (collectFuncs_placed els h).right.right
  | _, .whileStmt _ body els, h => by
    rw [stmtFuncs,List.mem_append] at h
    rcases h with h | h
    · exact (collectFuncs_placed body h).right.left
    · exact (collectFuncs_placed els h).right
  | _, .forStmt _ _ body els _, h => by
    rw [stmtFuncs,List.mem_append] at h
    rcases h with h | h
    · exact (collectFuncs_placed body h).right.left.right
    · exact (collectFuncs_placed els h).right.right
  | _, .withStmt _ body _, h =>
    (collectFuncs_placed body (by simpa only [stmtFuncs] using h)).right
  | _, .tryStmt body handlers orElse final isStar, h => by
    simp only [stmtFuncs,List.mem_append] at h
    rcases h with ((h | h) | h) | h
    · exact (collectFuncs_placed body h).left
    · exact (handlersFuncs_placed isStar handlers h).left.left.right
    · exact (collectFuncs_placed orElse h).right.left.right
    · exact (collectFuncs_placed final h).right.right
  | _, .matchStmt _ cases, h => (casesFuncs_placed cases (by simpa only [stmtFuncs] using h)).right
  | _, .exprStmt _, h | _, .assign _ _, h | _, .augAssign _ _ _, h | _, .annAssign _ _ _, h
  | _, .raiseStmt _ _, h | _, .assertStmt _ _, h | _, .returnStmt _, h | _, .pass, h
  | _, .typeAlias _ _, h | _, .breakStmt, h | _, .continueStmt, h | _, .del _, h
  | _, .globalStmt _, h | _, .nonlocalStmt _, h | _, .importStmt _, h
  | _, .importFrom _ _ _ _, h => by simp [stmtFuncs] at h

theorem collectFuncs_placed : ∀ {path : List String} (body : List Stmt), qf ∈ collectFuncs path body →
    Placed path qf (Python.bodyFlow body).atoms
  | _, [], h => by simp [collectFuncs] at h
  | _, s :: ss, h => by
    rw [collectFuncs,List.mem_append] at h
    rcases h with h | h
    · exact (stmtFuncs_placed s h).left
    · exact (collectFuncs_placed ss h).right

theorem handlersFuncs_placed : ∀ {path : List String} (isStar : Bool) (hs : List ExceptHandler),
    qf ∈ handlersFuncs path hs → Placed path qf (Python.handlersFlow isStar hs).atoms
  | _, _, [], h => by simp [handlersFuncs] at h
  | _, isStar, .mk _ _ body :: hs, h => by
    rw [handlersFuncs,List.mem_append] at h
    rw [Python.handlersFlow]
    rcases h with h | h
    · cases isStar <;> exact (collectFuncs_placed body h).left.right.left.right
    · cases isStar <;> exact (handlersFuncs_placed _ hs h).right.right

theorem casesFuncs_placed : ∀ {path : List String} (cs : List MatchCase), qf ∈ casesFuncs path cs →
    Placed path qf (Python.casesFlow cs).atoms
  | _, [], h => by simp [casesFuncs] at h
  | _, .mk _ _ body :: cs, h => by
    rw [casesFuncs,List.mem_append] at h
    rcases h with h | h
    · exact (collectFuncs_placed body h).left.right
    · exact (casesFuncs_placed cs h).right.right
end

end Placed

/-! ## What a directly called name denotes -/

open Python (Binding BindEvent ModuleRun bodyFlow bodyNested denotes Unshadowed)

theorem eq_of_countP_le_one {α : Type} {l : List α} {P : α → Bool} (h : l.countP P ≤ 1) {a b : α}
    (ha : a ∈ l) (hb : b ∈ l) (hPa : P a = true) (hPb : P b = true) : a = b := by
  induction l with
  | nil => simp at ha
  | cons c l ih =>
    have hrest : ∀ d ∈ l, P d = true → 1 ≤ l.countP P := by
      intro d hd hPd
      exact List.countP_pos_iff.mpr ⟨d,hd,hPd⟩
    rw [List.countP_cons] at h
    rcases List.mem_cons.mp ha with hac | ha' <;> rcases List.mem_cons.mp hb with hbc | hb'
    · rw [hac,hbc]
    · have hone := hrest b hb' hPb
      rw [if_pos (hac ▸ hPa)] at h
      omega
    · have hone := hrest a ha' hPa
      rw [if_pos (hbc ▸ hPb)] at h
      omega
    · exact ih (by omega) ha' hb'

/-- A binding that leaves the def in the name if it was there. -/
def Leaves (x : String) (fn : FuncDef) (b : Binding) : Prop :=
  (∀ y, b.name = some y → y = x) → b.effect = .function fn ∨ b.effect = .declared

/-- Nothing that can come after the def binds the name otherwise. -/
structure LastBound (m : Module) (written : List Binding) (x : String) (fn : FuncDef) : Prop where
  after : (bodyFlow m.body).Clear fun a b => a.Permits ⟨x, .function fn, true⟩ → Leaves x fn b
  anytime : ∀ b ∈ bodyNested m.body ++ written, Leaves x fn b

section
variable {m : Module} {written : List Binding} {nest : List FuncDef} {evs : List BindEvent}

theorem exists_permits {bs : List Binding} {es : List BindEvent}
    (h : List.Forall₂ Binding.Permits bs es) : ∀ e ∈ es, ∃ b ∈ bs, b.Permits e := by
  induction h with
  | nil => exact fun e he => by cases he
  | cons hb _ ih =>
    intro e he
    rcases List.mem_cons.mp he with rfl | he
    · exact ⟨_,List.mem_cons_self,hb⟩
    · obtain ⟨b,hmem,hpermits⟩ := ih e he
      exact ⟨b,List.mem_cons_of_mem _ hmem,hpermits⟩

theorem def_permits : Binding.Permits ⟨some x, .function fn⟩ ⟨x, .function fn, true⟩ :=
  ⟨rfl,fun _ hy => (Option.some.inj hy).symm⟩

theorem LastBound.denotes (h : LastBound m written x fn) (hnest : Unshadowed nest x)
    (hrun : ModuleRun m written evs) (hmem : ⟨x, .function fn, true⟩ ∈ evs) :
    denotes nest x evs = some (.function fn) := by
  obtain ⟨pre,post,rfl⟩ := List.append_of_mem hmem
  rw [Python.denotes,if_pos (Python.readsModule_iff.mpr hnest)]
  apply Python.moduleName_eq_function
  intro e he hx
  have hleaves {b : Binding} (hb : Leaves x fn b) (hpermits : b.Permits e) :
      e.effect = .function fn ∨ e.effect = .declared := by
    rw [← hpermits.1]
    exact hb fun y hy => (hpermits.2 y hy).trans hx
  cases hown : e.own with
  | false =>
    obtain ⟨b,hb,hpermits⟩ := hrun.anytime e (by simp [he]) hown
    exact hleaves (h.anytime b hb) hpermits
  | true =>
    -- the statements after the def that bind in their turn
    obtain ⟨bs,htrace,hbs⟩ := hrun.inOrder
    rw [List.filter_append,List.filter_cons_of_pos rfl] at hbs
    have htail := List.forall₂_drop_append _ _ _ hbs
    obtain ⟨d,ds,hd,hds,heq⟩ := List.forall₂_cons_right_iff.mp htail
    have hpair := (h.after.pairwise htrace).drop (i := (pre.filter (·.own)).length)
    rw [heq] at hpair
    obtain ⟨b,hb,hpermits⟩ := exists_permits hds e (List.mem_filter.mpr ⟨he,hown⟩)
    exact hleaves ((List.pairwise_cons.mp hpair).1 b hb hd) hpermits

/-- In every run that has executed the def, the name denotes it exactly when the caller reads the
module's name and nothing that can come after the def binds that name. -/
theorem denotes_def_iff (hdef : ⟨some x, .function fn⟩ ∈ (bodyFlow m.body).atoms) :
    (∀ evs, ModuleRun m written evs → ⟨x, .function fn, true⟩ ∈ evs →
        denotes nest x evs = some (.function fn)) ↔
      Unshadowed nest x ∧ LastBound m written x fn := by
  refine ⟨fun hall => ?_,fun h evs hrun hmem => h.2.denotes h.1 hrun hmem⟩
  have hnest : Unshadowed nest x := by
    have hone := hall [⟨x,.function fn,true⟩]
      ⟨⟨_,Flow.trace_singleton hdef,.cons def_permits .nil⟩,by simp⟩ (List.mem_singleton.mpr rfl)
    rw [← Python.readsModule_iff]
    by_contra hno
    simp [Python.denotes,hno] at hone
  -- what a binding right after the def leaves in the name
  have hafter (b : Binding) (own : Bool) (hrun : ModuleRun m written
      [⟨x,.function fn,true⟩,⟨x,b.effect,own⟩]) : b.effect = .function fn ∨ b.effect = .declared := by
    have htwo := hall _ hrun List.mem_cons_self
    rw [Python.denotes,if_pos (Python.readsModule_iff.mpr hnest)] at htwo
    simp only [Python.moduleName,List.foldl_cons,List.foldl_nil,Python.afterEvent,if_true] at htwo
    cases heff : b.effect with
    | function fn' =>
      rw [heff] at htwo
      simp only [Option.some.injEq,Python.Bound.function.injEq] at htwo
      rw [htwo]
      exact .inl rfl
    | declared => exact .inr rfl
    | other | deleted =>
      rw [heff] at htwo
      cases htwo
  refine ⟨hnest,Flow.clear_of_pairs fun a b htrace ha hb => ?_,fun b hb hname => ?_⟩
  · exact hafter b true ⟨⟨_,htrace,.cons ha (.cons ⟨rfl,hb⟩ .nil)⟩,by simp⟩
  · refine hafter b false ⟨⟨_,Flow.trace_singleton hdef,.cons def_permits .nil⟩,?_⟩
    intro e he hown
    simp only [List.mem_cons,List.not_mem_nil,or_false] at he
    rcases he with rfl | rfl
    · cases hown
    · exact ⟨b,hb,rfl,hname⟩

end

def floatDef (name : String) (params : List String) (value : Frontend.Expr) : FuncDef :=
  .mk name (params.map fun x => .mk x .plain (some (.name "float")) none) (some (.name "float"))
    [.returnStmt (some value)] [] false
def squareDef : FuncDef :=
  floatDef "f" ["x"] (.binOp (.binOp (.name "x") .mul (.name "x")) .add (.name "x"))
def squareCall : Frontend.Expr := .call (.name "f") [.mk "" 0 (.name "y")]
def callerDef (name : String) (params : List String) : FuncDef :=
  floatDef name params (.binOp squareCall .mul (.name "y"))
def squareModule (caller : FuncDef) (before after : List Stmt) : Module :=
  ⟨before ++ [.funcDef squareDef, .funcDef caller] ++ after⟩
def bindF : Stmt := .assign [.name "f"] (.intLit 3)
def squarePlan (m : Module) : PlanInput :=
  { module := m, verdict := fun _ => true, names := fun q => "static_" ++ "_".intercalate q,
    globals := fun _ => none, shapes := none, gens := none }
def squareCtx (m : Module) : LowerCtx :=
  { reads := ["f", "y"], inLoop := false, resolve := some (squarePlan m).staticResolver,
    globals := none, shapes := none, gens := none }
def directSquare : Emit.Expr × Repr :=
  (.call "static_f" [.var (.py "y") Emit.floatRepr] Emit.floatRepr, Emit.floatRepr)

/-- The module in which a caller reads the module's `f`, which is bound otherwise before the def only. -/
def reboundModule : Module := squareModule (callerDef "h" ["y"]) [bindF] []

end Unagi.Build
