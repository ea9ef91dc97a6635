import Unagi.Frontend.Ast
import Unagi.Lib.Flow

/-! # Names and scopes

Which statements bind a name in which scope, by the language's rules. A name declared global
in a def or class body is bound in the module. -/

namespace Unagi.Python
open Frontend
open Lib (Flow)

mutual
/-- The names that evaluating an expression can bind in the scope around it. A comprehension
passes them on to that scope, a lambda body does not. -/
def walrusNames : Expr → List String
  | .namedExpr t v => t :: walrusNames v
  | .listLit es | .tupleLit es | .setLit es => walrusList es
  | .dictLit ks vs => walrusOptList ks ++ walrusList vs
  | .comp _ elt val clauses => walrusNames elt ++ walrusOpt val ++ walrusClauses clauses
  | .binOp l _ r => walrusNames l ++ walrusNames r
  | .unaryOp _ x | .await x | .attribute x _ | .starred x => walrusNames x
  | .boolOp _ vs => walrusList vs
  | .compare l _ rs => walrusNames l ++ walrusList rs
  | .call fn args => walrusNames fn ++ walrusArgs args
  | .subscript x i => walrusNames x ++ walrusNames i
  | .sliceExpr lo hi step => walrusOpt lo ++ walrusOpt hi ++ walrusOpt step
  | .ifExp c t e => walrusNames c ++ walrusNames t ++ walrusNames e
  | .lambda ps _ => walrusParams ps
  | .yield v _ => walrusOpt v
  | .fStr ps | .tStr ps => walrusParts ps
  | _ => []

def walrusOpt : Option Expr → List String
  | none => []
  | some e => walrusNames e
def walrusList : List Expr → List String
  | [] => []
  | e :: es => walrusNames e ++ walrusList es
def walrusOptList : List (Option Expr) → List String
  | [] => []
  | e :: es => walrusOpt e ++ walrusOptList es
def walrusArgs : List Arg → List String
  | [] => []
  | .mk _ _ v :: as => walrusNames v ++ walrusArgs as
def walrusParams : List Param → List String
  | [] => []
  | .mk _ _ _ d :: ps => walrusOpt d ++ walrusParams ps
def walrusClauses : List CompClause → List String
  | [] => []
  | .mk _ _ iter ifs :: cs => walrusNames iter ++ walrusList ifs ++ walrusClauses cs

def walrusParts : List FPart → List String
  | [] => []
  | .text _ :: ps => walrusParts ps
  | .interp x spec :: ps => walrusNames x ++ walrusParts spec ++ walrusParts ps
end

mutual
def targetNames : Expr → List String
  | .name x => [x]
  | .starred x => targetNames x
  | .tupleLit es | .listLit es => targetsNames es
  | _ => []

def targetsNames : List Expr → List String
  | [] => []
  | e :: es => targetNames e ++ targetsNames es
end

mutual
def patternNames : Pattern → List String
  | .capture x | .star x => if x = "_" ∨ x = "" then [] else [x]
  | .sequence ps | .or ps => patternsNames ps
  | .mapping _ vs rest => patternsNames vs ++ (if rest = "" then [] else [rest])
  | .class _ pos _ kws => patternsNames pos ++ patternsNames kws
  | .as p x => patternNames p ++ [x]
  | .literal _ | .value _ => []

def patternsNames : List Pattern → List String
  | [] => []
  | p :: ps => patternNames p ++ patternsNames ps
end

/-! ## Bindings -/

/-- What a binding leaves in the name: the function of an undecorated def, some other value, or
nothing after a del. A bare annotation only declares the name. -/
inductive Effect
  | function (fn : FuncDef)
  | other
  | deleted
  | declared

/-- A place in the text that binds a name of its scope; a star import can bind any name. -/
structure Binding where
  name : Option String
  effect : Effect

def Binding.value (x : String) : Binding := ⟨some x, .other⟩
def values (xs : List String) : Flow Binding := .ofList (xs.map .value)

mutual
/-- The bindings of a statement in the order in which it makes them. -/
def stmtFlow : Stmt → Flow Binding
  | .exprStmt x => values (walrusNames x)
  | .assign targets v => values (walrusNames v ++ walrusList targets ++ targetsNames targets)
  | .augAssign t _ v => values (walrusNames t ++ walrusNames v ++ targetNames t)
  | .annAssign t _ none =>
    .seq (values (walrusNames t)) (.ofList ((targetNames t).map (⟨some ·, .declared⟩)))
  | .annAssign t _ (some v) => values (walrusNames v ++ walrusNames t ++ targetNames t)
  | .ifStmt c body els => .seq (values (walrusNames c)) (.alt (bodyFlow body) (bodyFlow els))
  | .whileStmt c body els =>
    .seq (.loop (.seq (values (walrusNames c)) (bodyFlow body))) (bodyFlow els)
  | .forStmt t iter body els _ =>
    .seq (values (walrusNames iter))
      (.seq (.loop (.seq (values (walrusNames t ++ targetNames t)) (bodyFlow body))) (bodyFlow els))
  | .withStmt items body _ =>
    .seq (values (items.flatMap fun i =>
      walrusNames i.context ++ walrusOpt i.target ++ i.target.elim [] targetNames)) (bodyFlow body)
  | .matchStmt subject cases => .seq (values (walrusNames subject)) (casesFlow cases)
  | .funcDef fn => defFlow fn
  | .classDef name bases keywords _ decorators =>
    values (walrusList decorators ++ walrusList bases ++ walrusList (keywords.map Prod.snd) ++ [name])
  | .tryStmt body handlers orElse final isStar =>
    .seq (bodyFlow body) (.seq (.alt (handlersFlow isStar handlers) (bodyFlow orElse)) (bodyFlow final))
  | .raiseStmt exc cause => values (walrusOpt exc ++ walrusOpt cause)
  | .assertStmt test msg => values (walrusNames test ++ walrusOpt msg)
  | .returnStmt v => values (walrusOpt v)
  | .typeAlias name _ => values [name]
  | .del targets =>
    .seq (values (walrusList targets)) (.ofList ((targetsNames targets).map (⟨some ·, .deleted⟩)))
  | .importStmt names => values (names.map fun a => a.bound)
  | .importFrom _ _ names star =>
    .seq (values (names.map fun a => if a.asName ≠ "" then a.asName else a.name))
      (if star then .emit ⟨none, .other⟩ else .skip)
  | .pass | .breakStmt | .continueStmt | .globalStmt _ | .nonlocalStmt _ => .skip

/-- A def binds its name; under decorators the value is theirs. -/
def defFlow : FuncDef → Flow Binding
  | .mk name params returns body decorators async =>
    .seq (values (walrusList decorators ++ walrusParams params)) (.emit ⟨some name,
      if decorators.isEmpty then .function (.mk name params returns body decorators async)
      else .other⟩)

def bodyFlow : List Stmt → Flow Binding
  | [] => .skip
  | s :: ss => .seq (stmtFlow s) (bodyFlow ss)

/-- A pattern binds before its guard is tried, and a guard that fails leaves the names bound. -/
def casesFlow : List MatchCase → Flow Binding
  | [] => .skip
  | .mk p guard body :: cs =>
    .seq (values (patternNames p ++ walrusOpt guard)) (.alt (bodyFlow body) (casesFlow cs))

/-- The name of an except clause is bound on entry and deleted on exit. One clause runs, or under
`except*` one after another. -/
def handlersFlow (isStar : Bool) : List ExceptHandler → Flow Binding
  | [] => .skip
  | .mk type name body :: hs =>
    let clause : Flow Binding := .seq (.ofList (if name = "" then [] else [.value name]))
      (.seq (bodyFlow body) (.ofList (if name = "" then [] else [⟨some name, .deleted⟩])))
    .seq (values (walrusOpt type)) (if isStar then .seq clause (handlersFlow isStar hs)
      else .alt clause (handlersFlow isStar hs))
end

def bodyBindings (body : List Stmt) : List Binding := (bodyFlow body).atoms

mutual
/-- The names a statement declares global, respectively nonlocal, in its own scope. -/
def stmtDeclared (isGlobal : Bool) : Stmt → List String
  | .globalStmt names => if isGlobal then names else []
  | .nonlocalStmt names => if isGlobal then [] else names
  | .ifStmt _ body els | .whileStmt _ body els | .forStmt _ _ body els _ =>
    bodyDeclared isGlobal body ++ bodyDeclared isGlobal els
  | .withStmt _ body _ => bodyDeclared isGlobal body
  | .matchStmt _ cases => casesDeclared isGlobal cases
  | .tryStmt body handlers orElse final _ =>
    bodyDeclared isGlobal body ++ handlersDeclared isGlobal handlers ++
      bodyDeclared isGlobal orElse ++ bodyDeclared isGlobal final
  | _ => []

def bodyDeclared (isGlobal : Bool) : List Stmt → List String
  | [] => []
  | s :: ss => stmtDeclared isGlobal s ++ bodyDeclared isGlobal ss
def casesDeclared (isGlobal : Bool) : List MatchCase → List String
  | [] => []
  | .mk _ _ body :: cs => bodyDeclared isGlobal body ++ casesDeclared isGlobal cs

def handlersDeclared (isGlobal : Bool) : List ExceptHandler → List String
  | [] => []
  | .mk _ _ body :: hs => bodyDeclared isGlobal body ++ handlersDeclared isGlobal hs
end

/-- The bindings of a def or class body that reach the module: those of the names it declares
global. -/
def reachingModule (body : List Stmt) : List Binding :=
  (bodyBindings body).filter fun b => match b.name with
    | none => true
    | some x => (bodyDeclared true body).contains x

mutual
/-- The bindings that the def and class bodies inside a statement make in the module. -/
def stmtNested : Stmt → List Binding
  | .ifStmt _ body els | .whileStmt _ body els | .forStmt _ _ body els _ =>
    bodyNested body ++ bodyNested els
  | .withStmt _ body _ => bodyNested body
  | .matchStmt _ cases => casesNested cases
  | .tryStmt body handlers orElse final _ =>
    bodyNested body ++ handlersNested handlers ++ bodyNested orElse ++ bodyNested final
  | .funcDef (.mk _ _ _ body _ _) => reachingModule body ++ bodyNested body
  | .classDef _ _ _ body _ => reachingModule body ++ bodyNested body
  | _ => []

def bodyNested : List Stmt → List Binding
  | [] => []
  | s :: ss => stmtNested s ++ bodyNested ss
def casesNested : List MatchCase → List Binding
  | [] => []
  | .mk _ _ body :: cs => bodyNested body ++ casesNested cs

def handlersNested : List ExceptHandler → List Binding
  | [] => []
  | .mk _ _ body :: hs => bodyNested body ++ handlersNested hs
end

/-- A binding that a run makes, and whether a statement of the module itself makes it in its turn. -/
structure BindEvent where
  name : String
  effect : Effect
  own : Bool

def Binding.Permits (b : Binding) (e : BindEvent) : Prop :=
  b.effect = e.effect ∧ ∀ x, b.name = some x → x = e.name

/-- A run, as far as the module's names see it. The statements of the module bind in their order. The
def and class bodies bind at any time, and so does what is `written` through the namespace, by
`globals`, `setattr` or an importer. -/
structure ModuleRun (m : Module) (written : List Binding) (evs : List BindEvent) : Prop where
  inOrder : ∃ bs, (bodyFlow m.body).Trace bs ∧ List.Forall₂ Binding.Permits bs (evs.filter (·.own))
  anytime : ∀ e ∈ evs, e.own = false → ∃ b ∈ bodyNested m.body ++ written, b.Permits e

inductive Bound
  | function (fn : FuncDef)
  | other

def afterEvent (x : String) (held : Option Bound) (e : BindEvent) : Option Bound :=
  if e.name = x then
    match e.effect with
    | .function fn => some (.function fn)
    | .other => some .other
    | .deleted => none
    | .declared => held
  else held

def moduleName (x : String) (evs : List BindEvent) : Option Bound := evs.foldl (afterEvent x) none

theorem moduleName_eq_function {x : String} {fn : FuncDef} {own : Bool} {pre post : List BindEvent}
    (hpost : ∀ e ∈ post, e.name = x → e.effect = .function fn ∨ e.effect = .declared) :
    moduleName x (pre ++ ⟨x, .function fn, own⟩ :: post) = some (.function fn) := by
  rw [moduleName,List.foldl_append,List.foldl_cons,afterEvent,if_pos rfl]
  induction post with
  | nil => rfl
  | cons e post ih =>
    have hkeep : afterEvent x (some (.function fn)) e = some (.function fn) := by
      unfold afterEvent
      split
      · next hx => rcases hpost e List.mem_cons_self hx with heff | heff <;> rw [heff]
      · rfl
    rw [List.foldl_cons,hkeep]
    exact ih fun e' he' => hpost e' (List.mem_cons_of_mem _ he')

/-- The name is a local of the def: a parameter, or bound in its body and not declared global
or nonlocal there. -/
def isLocal (fn : FuncDef) (x : String) : Bool :=
  (fn.params.any fun p => p.name = x) ||
    ((bodyBindings fn.body).any fun b => b.name = some x) &&
      !(bodyDeclared true fn.body).contains x && !(bodyDeclared false fn.body).contains x

/-- A name read in the innermost of the nested defs is a name of the module. -/
def readsModule : List FuncDef → String → Bool
  | [], _ => true
  | fn :: outer, x =>
    if (bodyDeclared true fn.body).contains x then true
    else if isLocal fn x then false
    else readsModule outer x

/-- Neither the innermost def nor one around it binds the name, up to one that declares it global. -/
def Unshadowed (nest : List FuncDef) (x : String) : Prop :=
  ∀ fn ∈ nest.takeWhile fun fn => !(bodyDeclared true fn.body).contains x, isLocal fn x = false

theorem readsModule_iff {nest : List FuncDef} {x : String} :
    readsModule nest x = true ↔ Unshadowed nest x := by
  unfold Unshadowed
  induction nest with
  | nil => simp [readsModule]
  | cons fn outer ih =>
    rw [readsModule,List.takeWhile_cons]
    cases (bodyDeclared true fn.body).contains x with
    | true => simp
    | false => cases hlocal : isLocal fn x <;> simp [hlocal,ih]

/-- What the name read in the innermost of the nested defs denotes: `none` where it is a local
of one of them. -/
def denotes (nest : List FuncDef) (x : String) (evs : List BindEvent) : Option Bound :=
  if readsModule nest x then moduleName x evs else none

end Unagi.Python
