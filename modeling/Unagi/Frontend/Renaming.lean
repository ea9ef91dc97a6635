import Unagi.Frontend.Ast

/-! # Renaming identifiers

A pass that rewrites the identifiers of a module where they stand. What it does with one may depend on
the place of the identifier and on the classes around it. -/

namespace Unagi.Frontend

/-- Where an identifier stands: in an annotation, in the value of a class keyword, in a type alias,
in an import, or anywhere else. The names of call arguments are none of them. -/
inductive Place
  | plain | annot | classKeyword | typeAlias | importName
deriving DecidableEq

/-! ## Expressions -/

section
variable (f : Place → String → String)

mutual
def renameExpr (at_ : Place) : Expr → Expr
  | .name id => .name (f at_ id)
  | .intLit v => .intLit v
  | .floatLit v => .floatLit v
  | .imagLit v => .imagLit v
  | .strLit v => .strLit v
  | .bytesLit v => .bytesLit v
  | .boolLit v => .boolLit v
  | .noneLit => .noneLit
  | .ellipsisLit => .ellipsisLit
  | .listLit elts => .listLit (renameExprs at_ elts)
  | .tupleLit elts => .tupleLit (renameExprs at_ elts)
  | .dictLit keys vals => .dictLit (renameOptExprs at_ keys) (renameExprs at_ vals)
  | .setLit elts => .setLit (renameExprs at_ elts)
  | .comp kind elt val clauses =>
    .comp kind (renameExpr at_ elt) (renameOptExpr at_ val) (renameClauses at_ clauses)
  | .binOp l op r => .binOp (renameExpr at_ l) op (renameExpr at_ r)
  | .unaryOp op x => .unaryOp op (renameExpr at_ x)
  | .await x => .await (renameExpr at_ x)
  | .boolOp kind values => .boolOp kind (renameExprs at_ values)
  | .compare l ops rs => .compare (renameExpr at_ l) ops (renameExprs at_ rs)
  | .call fn args => .call (renameExpr at_ fn) (renameArgs at_ args)
  | .attribute x name => .attribute (renameExpr at_ x) (f at_ name)
  | .subscript x i => .subscript (renameExpr at_ x) (renameExpr at_ i)
  | .sliceExpr lo hi step =>
    .sliceExpr (renameOptExpr at_ lo) (renameOptExpr at_ hi) (renameOptExpr at_ step)
  | .ifExp c t e => .ifExp (renameExpr at_ c) (renameExpr at_ t) (renameExpr at_ e)
  | .namedExpr t v => .namedExpr (f at_ t) (renameExpr at_ v)
  | .starred x => .starred (renameExpr at_ x)
  | .lambda ps body => .lambda (renameParams at_ ps) (renameExpr at_ body)
  | .yield v isFrom => .yield (renameOptExpr at_ v) isFrom
  | .fStr parts => .fStr (renameParts at_ parts)
  | .tStr parts => .tStr (renameParts at_ parts)

def renameOptExpr (at_ : Place) : Option Expr → Option Expr
  | none => none
  | some e => some (renameExpr at_ e)
def renameExprs (at_ : Place) : List Expr → List Expr
  | [] => []
  | e :: es => renameExpr at_ e :: renameExprs at_ es
def renameOptExprs (at_ : Place) : List (Option Expr) → List (Option Expr)
  | [] => []
  | e :: es => renameOptExpr at_ e :: renameOptExprs at_ es
def renameArgs (at_ : Place) : List Arg → List Arg
  | [] => []
  | .mk name star value :: as => .mk name star (renameExpr at_ value) :: renameArgs at_ as

def renameParams (at_ : Place) : List Param → List Param
  | [] => []
  | .mk name kind ann dflt :: ps =>
    .mk (f at_ name) kind (renameOptExpr .annot ann) (renameOptExpr at_ dflt) ::
      renameParams at_ ps
def renameClauses (at_ : Place) : List CompClause → List CompClause
  | [] => []
  | .mk async target iter ifs :: cs =>
    .mk async (renameExpr at_ target) (renameExpr at_ iter) (renameExprs at_ ifs) ::
      renameClauses at_ cs

def renameParts (at_ : Place) : List FPart → List FPart
  | [] => []
  | .text s :: ps => .text s :: renameParts at_ ps
  | .interp x spec :: ps =>
    .interp (renameExpr at_ x) (renameParts at_ spec) :: renameParts at_ ps
end

mutual
def renamePattern : Pattern → Pattern
  | .literal v => .literal (renameExpr f .plain v)
  | .value v => .value (renameExpr f .plain v)
  | .capture x => .capture (f .plain x)
  | .star x => .star (f .plain x)
  | .sequence ps => .sequence (renamePatterns ps)
  | .mapping keys vals rest =>
    .mapping (renameExprs f .plain keys) (renamePatterns vals) (f .plain rest)
  | .class cls pos kwNames kwValues =>
    .class (renameExpr f .plain cls) (renamePatterns pos) (kwNames.map (f .plain))
      (renamePatterns kwValues)
  | .or alts => .or (renamePatterns alts)
  | .as p x => .as (renamePattern p) (f .plain x)

def renamePatterns : List Pattern → List Pattern
  | [] => []
  | p :: ps => renamePattern p :: renamePatterns ps
end

def renameItem (i : WithItem) : WithItem :=
  ⟨renameExpr f .plain i.context, renameOptExpr f .plain i.target⟩
def renameAlias (a : ImportAlias) : ImportAlias := ⟨f .importName a.name, f .importName a.asName⟩

end

/-! ## Statements -/

/-- What a pass does with an identifier at a place, and the context that it keeps for the body of a
class of a name. -/
structure Pass (C : Type) where
  rename : C → Place → String → String
  enter : C → String → C

section
variable {C : Type} (P : Pass C)

mutual
def renameStmt (c : C) : Stmt → Stmt
  | .exprStmt x => .exprStmt (renameExpr (P.rename c) .plain x)
  | .assign targets value =>
    .assign (renameExprs (P.rename c) .plain targets) (renameExpr (P.rename c) .plain value)
  | .augAssign target op value =>
    .augAssign (renameExpr (P.rename c) .plain target) op (renameExpr (P.rename c) .plain value)
  | .annAssign target ann value =>
    .annAssign (renameExpr (P.rename c) .plain target) (renameExpr (P.rename c) .annot ann)
      (renameOptExpr (P.rename c) .plain value)
  | .ifStmt cond body els =>
    .ifStmt (renameExpr (P.rename c) .plain cond) (renameStmts c body) (renameStmts c els)
  | .whileStmt cond body els =>
    .whileStmt (renameExpr (P.rename c) .plain cond) (renameStmts c body) (renameStmts c els)
  | .forStmt target iter body els async =>
    .forStmt (renameExpr (P.rename c) .plain target) (renameExpr (P.rename c) .plain iter)
      (renameStmts c body) (renameStmts c els) async
  | .withStmt items body async =>
    .withStmt (items.map (renameItem (P.rename c))) (renameStmts c body) async
  | .matchStmt subject cases =>
    .matchStmt (renameExpr (P.rename c) .plain subject) (renameCases c cases)
  | .funcDef (.mk name params returns body decorators async) =>
    .funcDef (.mk (P.rename c .plain name) (renameParams (P.rename c) .plain params)
      (renameOptExpr (P.rename c) .annot returns) (renameStmts c body)
      (renameExprs (P.rename c) .plain decorators) async)
  | .classDef name bases keywords body decorators =>
    .classDef (P.rename c .plain name) (renameExprs (P.rename c) .plain bases)
      (keywords.map fun k => (k.1, renameExpr (P.rename c) .classKeyword k.2))
      (renameStmts (P.enter c name) body) (renameExprs (P.rename c) .plain decorators)
  | .tryStmt body handlers orElse final isStar =>
    .tryStmt (renameStmts c body) (renameHandlers c handlers) (renameStmts c orElse)
      (renameStmts c final) isStar
  | .raiseStmt exc cause =>
    .raiseStmt (renameOptExpr (P.rename c) .plain exc) (renameOptExpr (P.rename c) .plain cause)
  | .assertStmt test msg =>
    .assertStmt (renameExpr (P.rename c) .plain test) (renameOptExpr (P.rename c) .plain msg)
  | .returnStmt value => .returnStmt (renameOptExpr (P.rename c) .plain value)
  | .pass => .pass
  | .typeAlias name value =>
    .typeAlias (P.rename c .typeAlias name) (renameExpr (P.rename c) .typeAlias value)
  | .breakStmt => .breakStmt
  | .continueStmt => .continueStmt
  | .del targets => .del (renameExprs (P.rename c) .plain targets)
  | .globalStmt names => .globalStmt (names.map (P.rename c .plain))
  | .nonlocalStmt names => .nonlocalStmt (names.map (P.rename c .plain))
  | .importStmt names => .importStmt (names.map (renameAlias (P.rename c)))
  | .importFrom module level names star =>
    .importFrom (P.rename c .importName module) level (names.map (renameAlias (P.rename c))) star

def renameStmts (c : C) : List Stmt → List Stmt
  | [] => []
  | s :: ss => renameStmt c s :: renameStmts c ss
def renameCases (c : C) : List MatchCase → List MatchCase
  | [] => []
  | .mk pattern guard body :: cs =>
    .mk (renamePattern (P.rename c) pattern) (renameOptExpr (P.rename c) .plain guard)
      (renameStmts c body) :: renameCases c cs

def renameHandlers (c : C) : List ExceptHandler → List ExceptHandler
  | [] => []
  | .mk type name body :: hs =>
    .mk (renameOptExpr (P.rename c) .plain type) (P.rename c .plain name) (renameStmts c body) ::
      renameHandlers c hs
end

end

/-! ## Uses of identifiers -/

mutual
def exprUses (at_ : Place) : Expr → List (Place × String)
  | .name id => [(at_, id)]
  | .listLit es | .tupleLit es | .setLit es | .boolOp _ es => exprsUses at_ es
  | .dictLit ks vs => optExprsUses at_ ks ++ exprsUses at_ vs
  | .comp _ elt val clauses => exprUses at_ elt ++ optExprUses at_ val ++ clausesUses at_ clauses
  | .binOp l _ r => exprUses at_ l ++ exprUses at_ r
  | .unaryOp _ x | .await x | .starred x => exprUses at_ x
  | .compare l _ rs => exprUses at_ l ++ exprsUses at_ rs
  | .call fn args => exprUses at_ fn ++ argsUses at_ args
  | .attribute x name => exprUses at_ x ++ [(at_, name)]
  | .subscript x i => exprUses at_ x ++ exprUses at_ i
  | .sliceExpr lo hi step => optExprUses at_ lo ++ optExprUses at_ hi ++ optExprUses at_ step
  | .ifExp c t e => exprUses at_ c ++ exprUses at_ t ++ exprUses at_ e
  | .namedExpr t v => (at_, t) :: exprUses at_ v
  | .lambda ps body => paramsUses at_ ps ++ exprUses at_ body
  | .yield v _ => optExprUses at_ v
  | .fStr ps | .tStr ps => partsUses at_ ps
  | _ => []

def optExprUses (at_ : Place) : Option Expr → List (Place × String)
  | none => []
  | some e => exprUses at_ e
def exprsUses (at_ : Place) : List Expr → List (Place × String)
  | [] => []
  | e :: es => exprUses at_ e ++ exprsUses at_ es
def optExprsUses (at_ : Place) : List (Option Expr) → List (Place × String)
  | [] => []
  | e :: es => optExprUses at_ e ++ optExprsUses at_ es
def argsUses (at_ : Place) : List Arg → List (Place × String)
  | [] => []
  | .mk _ _ value :: as => exprUses at_ value ++ argsUses at_ as

def paramsUses (at_ : Place) : List Param → List (Place × String)
  | [] => []
  | .mk name _ ann dflt :: ps =>
    (at_, name) :: (optExprUses .annot ann ++ optExprUses at_ dflt ++ paramsUses at_ ps)
def clausesUses (at_ : Place) : List CompClause → List (Place × String)
  | [] => []
  | .mk _ target iter ifs :: cs =>
    exprUses at_ target ++ exprUses at_ iter ++ exprsUses at_ ifs ++ clausesUses at_ cs

def partsUses (at_ : Place) : List FPart → List (Place × String)
  | [] => []
  | .text _ :: ps => partsUses at_ ps
  | .interp x spec :: ps => exprUses at_ x ++ partsUses at_ spec ++ partsUses at_ ps
end

section
variable (f g : Place → String → String)

/-- The two renamings give the same for these identifiers. -/
def Agree (us : List (Place × String)) : Prop := ∀ u ∈ us, f u.1 u.2 = g u.1 u.2

@[simp] theorem agree_nil : Agree f g [] := by simp [Agree]
@[simp] theorem agree_cons (u : Place × String) (us : List (Place × String)) :
    Agree f g (u :: us) ↔ f u.1 u.2 = g u.1 u.2 ∧ Agree f g us := List.forall_mem_cons
@[simp] theorem agree_map (a : Place) (names : List String) :
    Agree f g (names.map (a, ·)) ↔ ∀ x ∈ names, f a x = g a x := List.forall_mem_map
@[simp] theorem agree_append (us vs : List (Place × String)) :
    Agree f g (us ++ vs) ↔ Agree f g us ∧ Agree f g vs := List.forall_mem_append

mutual
theorem renameExpr_eq_iff (a : Place) (e : Expr) :
    renameExpr f a e = renameExpr g a e ↔ Agree f g (exprUses a e) := by
  cases e <;>
    simp [renameExpr,exprUses,renameExpr_eq_iff a,renameOptExpr_eq_iff a,renameExprs_eq_iff a,
      renameOptExprs_eq_iff a,renameArgs_eq_iff a,renameParams_eq_iff a,renameClauses_eq_iff a,
      renameParts_eq_iff a]

theorem renameOptExpr_eq_iff (a : Place) (e : Option Expr) :
    renameOptExpr f a e = renameOptExpr g a e ↔ Agree f g (optExprUses a e) := by
  cases e <;> simp [renameOptExpr,optExprUses,renameExpr_eq_iff a]
theorem renameExprs_eq_iff (a : Place) (es : List Expr) :
    renameExprs f a es = renameExprs g a es ↔ Agree f g (exprsUses a es) := by
  cases es <;> simp [renameExprs,exprsUses,renameExpr_eq_iff a,renameExprs_eq_iff a]
theorem renameOptExprs_eq_iff (a : Place) (es : List (Option Expr)) :
    renameOptExprs f a es = renameOptExprs g a es ↔ Agree f g (optExprsUses a es) := by
  cases es <;> simp [renameOptExprs,optExprsUses,renameOptExpr_eq_iff a,renameOptExprs_eq_iff a]
theorem renameArgs_eq_iff (a : Place) : ∀ as : List Arg,
    renameArgs f a as = renameArgs g a as ↔ Agree f g (argsUses a as)
  | [] => by simp [renameArgs,argsUses]
  | .mk _ _ value :: as => by
    simp [renameArgs,argsUses,renameExpr_eq_iff a value,renameArgs_eq_iff a as]
theorem renameParams_eq_iff (a : Place) : ∀ ps : List Param,
    renameParams f a ps = renameParams g a ps ↔ Agree f g (paramsUses a ps)
  | [] => by simp [renameParams,paramsUses]
  | .mk _ _ ann dflt :: ps => by
    simp [renameParams,paramsUses,renameOptExpr_eq_iff .annot ann,renameOptExpr_eq_iff a dflt,
      renameParams_eq_iff a ps,and_assoc]
theorem renameClauses_eq_iff (a : Place) : ∀ cs : List CompClause,
    renameClauses f a cs = renameClauses g a cs ↔ Agree f g (clausesUses a cs)
  | [] => by simp [renameClauses,clausesUses]
  | .mk _ target iter ifs :: cs => by
    simp [renameClauses,clausesUses,renameExpr_eq_iff a target,renameExpr_eq_iff a iter,
      renameExprs_eq_iff a ifs,renameClauses_eq_iff a cs,and_assoc]

theorem renameParts_eq_iff (a : Place) : ∀ ps : List FPart,
    renameParts f a ps = renameParts g a ps ↔ Agree f g (partsUses a ps)
  | [] => by simp [renameParts,partsUses]
  | .text _ :: ps => by simp [renameParts,partsUses,renameParts_eq_iff a ps]
  | .interp x spec :: ps => by
    simp [renameParts,partsUses,renameExpr_eq_iff a x,renameParts_eq_iff a spec,
      renameParts_eq_iff a ps,and_assoc]
end

mutual
def patternUses : Pattern → List (Place × String)
  | .literal v | .value v => exprUses .plain v
  | .capture x | .star x => [(.plain, x)]
  | .sequence ps | .or ps => patternsUses ps
  | .mapping keys vals rest => exprsUses .plain keys ++ patternsUses vals ++ [(.plain, rest)]
  | .class cls pos kwNames kwValues =>
    exprUses .plain cls ++ patternsUses pos ++ kwNames.map (.plain, ·) ++ patternsUses kwValues
  | .as p x => patternUses p ++ [(.plain, x)]

def patternsUses : List Pattern → List (Place × String)
  | [] => []
  | p :: ps => patternUses p ++ patternsUses ps
end

mutual
theorem renamePattern_eq_iff (p : Pattern) :
    renamePattern f p = renamePattern g p ↔ Agree f g (patternUses p) := by
  cases p <;>
    simp [renamePattern,patternUses,renameExpr_eq_iff,renameExprs_eq_iff,renamePattern_eq_iff,
      renamePatterns_eq_iff]

theorem renamePatterns_eq_iff (ps : List Pattern) :
    renamePatterns f ps = renamePatterns g ps ↔ Agree f g (patternsUses ps) := by
  cases ps <;> simp [renamePatterns,patternsUses,renamePattern_eq_iff,renamePatterns_eq_iff]
end

def itemUses (i : WithItem) : List (Place × String) :=
  exprUses .plain i.context ++ optExprUses .plain i.target
def aliasUses (a : ImportAlias) : List (Place × String) :=
  [(.importName, a.name), (.importName, a.asName)]
def keywordUses (k : String × Expr) : List (Place × String) := exprUses .classKeyword k.2

theorem map_eq_iff_uses {α β : Type} {F G : α → β} {uses : α → List (Place × String)}
    (h : ∀ a, F a = G a ↔ Agree f g (uses a)) (l : List α) :
    l.map F = l.map G ↔ Agree f g (l.flatMap uses) := by
  rw [List.map_inj_left]
  simp only [h,Agree,List.mem_flatMap]
  exact ⟨fun h u ⟨a,ha,hu⟩ => h a ha u hu,fun h a ha u hu => h u ⟨a,ha,hu⟩⟩

theorem renameItem_eq_iff (i : WithItem) :
    renameItem f i = renameItem g i ↔ Agree f g (itemUses i) := by
  simp [renameItem,itemUses,renameExpr_eq_iff f g .plain,renameOptExpr_eq_iff f g .plain]
theorem renameAlias_eq_iff (a : ImportAlias) :
    renameAlias f a = renameAlias g a ↔ Agree f g (aliasUses a) := by
  simp [renameAlias,aliasUses]

theorem renameKeyword_eq_iff (k : String × Expr) :
    (k.1, renameExpr f .classKeyword k.2) = (k.1, renameExpr g .classKeyword k.2) ↔
      Agree f g (keywordUses k) := by
  simp [keywordUses,renameExpr_eq_iff f g .classKeyword]

end

section
variable {C : Type} (enter : C → String → C)

mutual
/-- The identifiers of a statement, each with the context that the classes around it give it. -/
def stmtUses (c : C) : Stmt → List (C × Place × String)
  | .exprStmt x => (exprUses .plain x).map (c, ·)
  | .assign targets value => (exprsUses .plain targets ++ exprUses .plain value).map (c, ·)
  | .augAssign target _ value => (exprUses .plain target ++ exprUses .plain value).map (c, ·)
  | .annAssign target ann value =>
    (exprUses .plain target ++ exprUses .annot ann ++ optExprUses .plain value).map (c, ·)
  | .ifStmt cond body els | .whileStmt cond body els =>
    (exprUses .plain cond).map (c, ·) ++ stmtsUses c body ++ stmtsUses c els
  | .forStmt target iter body els _ =>
    (exprUses .plain target ++ exprUses .plain iter).map (c, ·) ++ stmtsUses c body ++
      stmtsUses c els
  | .withStmt items body _ => (items.flatMap itemUses).map (c, ·) ++ stmtsUses c body
  | .matchStmt subject cases => (exprUses .plain subject).map (c, ·) ++ casesUses c cases
  | .funcDef (.mk name params returns body decorators _) =>
    ((.plain, name) :: (paramsUses .plain params ++ optExprUses .annot returns ++
      exprsUses .plain decorators)).map (c, ·) ++ stmtsUses c body
  | .classDef name bases keywords body decorators =>
    ((.plain, name) :: (exprsUses .plain bases ++ keywords.flatMap keywordUses ++
      exprsUses .plain decorators)).map (c, ·) ++ stmtsUses (enter c name) body
  | .tryStmt body handlers orElse final _ =>
    stmtsUses c body ++ handlersUses c handlers ++ stmtsUses c orElse ++ stmtsUses c final
  | .raiseStmt exc cause => (optExprUses .plain exc ++ optExprUses .plain cause).map (c, ·)
  | .assertStmt test msg => (exprUses .plain test ++ optExprUses .plain msg).map (c, ·)
  | .returnStmt value => (optExprUses .plain value).map (c, ·)
  | .typeAlias name value => ((.typeAlias, name) :: exprUses .typeAlias value).map (c, ·)
  | .del targets => (exprsUses .plain targets).map (c, ·)
  | .globalStmt names | .nonlocalStmt names => (names.map (Place.plain, ·)).map (c, ·)
  | .importStmt names => (names.flatMap aliasUses).map (c, ·)
  | .importFrom module _ names _ =>
    ((.importName, module) :: names.flatMap aliasUses).map (c, ·)
  | .pass | .breakStmt | .continueStmt => []

def stmtsUses (c : C) : List Stmt → List (C × Place × String)
  | [] => []
  | s :: ss => stmtUses c s ++ stmtsUses c ss
def casesUses (c : C) : List MatchCase → List (C × Place × String)
  | [] => []
  | .mk pattern guard body :: cs =>
    (patternUses pattern ++ optExprUses .plain guard).map (c, ·) ++ stmtsUses c body ++
      casesUses c cs

def handlersUses (c : C) : List ExceptHandler → List (C × Place × String)
  | [] => []
  | .mk type name body :: hs =>
    (optExprUses .plain type ++ [(Place.plain, name)]).map (c, ·) ++ stmtsUses c body ++
      handlersUses c hs
end

end

section
variable {C : Type} (f g : C → Place → String → String)

/-- As `Agree`, with the context of each identifier. -/
def AgreeIn (us : List (C × Place × String)) : Prop :=
  ∀ u ∈ us, f u.1 u.2.1 u.2.2 = g u.1 u.2.1 u.2.2

@[simp] theorem agreeIn_nil : AgreeIn f g [] := by simp [AgreeIn]
@[simp] theorem agreeIn_cons (u : C × Place × String) (us : List (C × Place × String)) :
    AgreeIn f g (u :: us) ↔ f u.1 u.2.1 u.2.2 = g u.1 u.2.1 u.2.2 ∧ AgreeIn f g us :=
  List.forall_mem_cons
@[simp] theorem agreeIn_append (us vs : List (C × Place × String)) :
    AgreeIn f g (us ++ vs) ↔ AgreeIn f g us ∧ AgreeIn f g vs := List.forall_mem_append
@[simp] theorem agreeIn_map (c : C) (us : List (Place × String)) :
    AgreeIn f g (us.map (c, ·)) ↔ Agree (f c) (g c) us := List.forall_mem_map

end

section
variable {C C₁ C₂ : Type} {enter : C → String → C} {P : Pass C₁} {Q : Pass C₂} {φ : C → C₁}
  {ψ : C → C₂} (hφ : ∀ c n, P.enter (φ c) n = φ (enter c n))
  (hψ : ∀ c n, Q.enter (ψ c) n = ψ (enter c n))

include hφ hψ

set_option linter.unusedSectionVars false in
mutual
/-- Two passes that read their contexts off one agree on a statement exactly if they agree on its
identifiers. -/
theorem renameStmt_eq_iff (c : C) (s : Stmt) :
    renameStmt P (φ c) s = renameStmt Q (ψ c) s ↔
      AgreeIn (P.rename <| φ ·) (Q.rename <| ψ ·) (stmtUses enter c s) := by
  cases s with
  | withStmt items body _ =>
    simp [renameStmt,stmtUses,renameStmts_eq_iff c body,
      map_eq_iff_uses _ _ (renameItem_eq_iff (P.rename (φ c)) (Q.rename (ψ c))) items]
  | funcDef f =>
    obtain ⟨name,params,returns,body,decorators,_⟩ := f
    simp [renameStmt,stmtUses,renameParams_eq_iff,renameOptExpr_eq_iff,renameExprs_eq_iff,
      renameStmts_eq_iff c body]
    tauto
  | classDef name bases keywords body decorators =>
    simp [renameStmt,stmtUses,renameExprs_eq_iff,hφ,hψ,
      map_eq_iff_uses _ _ (renameKeyword_eq_iff (P.rename (φ c)) (Q.rename (ψ c))) keywords,
      renameStmts_eq_iff (enter c name) body]
    tauto
  | globalStmt names | nonlocalStmt names => simp [renameStmt,stmtUses,-List.map_map]
  | importStmt names | importFrom _ _ names _ =>
    simp [renameStmt,stmtUses,
      map_eq_iff_uses _ _ (renameAlias_eq_iff (P.rename (φ c)) (Q.rename (ψ c))) names]
  | _ =>
    simp [renameStmt,stmtUses,renameExpr_eq_iff,renameExprs_eq_iff,renameOptExpr_eq_iff,
      renameStmts_eq_iff c,renameCases_eq_iff c,renameHandlers_eq_iff c]

theorem renameStmts_eq_iff (c : C) (ss : List Stmt) :
    renameStmts P (φ c) ss = renameStmts Q (ψ c) ss ↔
      AgreeIn (P.rename <| φ ·) (Q.rename <| ψ ·) (stmtsUses enter c ss) := by
  cases ss <;> simp [renameStmts,stmtsUses,renameStmt_eq_iff c,renameStmts_eq_iff c]

theorem renameCases_eq_iff (c : C) : ∀ cs : List MatchCase,
    renameCases P (φ c) cs = renameCases Q (ψ c) cs ↔
      AgreeIn (P.rename <| φ ·) (Q.rename <| ψ ·) (casesUses enter c cs)
  | [] => by simp [renameCases,casesUses]
  | .mk pattern guard body :: cs => by
    simp [renameCases,casesUses,renamePattern_eq_iff,renameOptExpr_eq_iff,renameStmts_eq_iff c body,
      renameCases_eq_iff c cs,and_assoc]

theorem renameHandlers_eq_iff (c : C) : ∀ hs : List ExceptHandler,
    renameHandlers P (φ c) hs = renameHandlers Q (ψ c) hs ↔
      AgreeIn (P.rename <| φ ·) (Q.rename <| ψ ·) (handlersUses enter c hs)
  | [] => by simp [renameHandlers,handlersUses]
  | .mk type name body :: hs => by
    simp [renameHandlers,handlersUses,renameOptExpr_eq_iff,renameStmts_eq_iff c body,
      renameHandlers_eq_iff c hs,and_assoc]
end

end

/-! ## One pass after another -/

section
variable (f g : Place → String → String)

mutual
theorem renameExpr_comp (a : Place) (e : Expr) :
    renameExpr f a (renameExpr g a e) = renameExpr (fun a x => f a (g a x)) a e := by
  cases e <;>
    simp only [renameExpr,renameExpr_comp a,renameOptExpr_comp a,renameExprs_comp a,
      renameOptExprs_comp a,renameArgs_comp a,renameParams_comp a,renameClauses_comp a,
      renameParts_comp a]

theorem renameOptExpr_comp (a : Place) (e : Option Expr) :
    renameOptExpr f a (renameOptExpr g a e) = renameOptExpr (fun a x => f a (g a x)) a e := by
  cases e <;> simp only [renameOptExpr,renameExpr_comp a]
theorem renameExprs_comp (a : Place) (es : List Expr) :
    renameExprs f a (renameExprs g a es) = renameExprs (fun a x => f a (g a x)) a es := by
  cases es <;> simp only [renameExprs,renameExpr_comp a,renameExprs_comp a]
theorem renameOptExprs_comp (a : Place) (es : List (Option Expr)) :
    renameOptExprs f a (renameOptExprs g a es) = renameOptExprs (fun a x => f a (g a x)) a es := by
  cases es <;> simp only [renameOptExprs,renameOptExpr_comp a,renameOptExprs_comp a]
theorem renameArgs_comp (a : Place) : ∀ as : List Arg,
    renameArgs f a (renameArgs g a as) = renameArgs (fun a x => f a (g a x)) a as
  | [] => rfl
  | .mk _ _ value :: as => by simp only [renameArgs,renameExpr_comp a value,renameArgs_comp a as]
theorem renameParams_comp (a : Place) : ∀ ps : List Param,
    renameParams f a (renameParams g a ps) = renameParams (fun a x => f a (g a x)) a ps
  | [] => rfl
  | .mk _ _ ann dflt :: ps => by
    simp only [renameParams,renameOptExpr_comp .annot ann,renameOptExpr_comp a dflt,
      renameParams_comp a ps]
theorem renameClauses_comp (a : Place) : ∀ cs : List CompClause,
    renameClauses f a (renameClauses g a cs) = renameClauses (fun a x => f a (g a x)) a cs
  | [] => rfl
  | .mk _ target iter ifs :: cs => by
    simp only [renameClauses,renameExpr_comp a target,renameExpr_comp a iter,
      renameExprs_comp a ifs,renameClauses_comp a cs]

theorem renameParts_comp (a : Place) : ∀ ps : List FPart,
    renameParts f a (renameParts g a ps) = renameParts (fun a x => f a (g a x)) a ps
  | [] => rfl
  | .text _ :: ps => by simp only [renameParts,renameParts_comp a ps]
  | .interp x spec :: ps => by
    simp only [renameParts,renameExpr_comp a x,renameParts_comp a spec,renameParts_comp a ps]
end

mutual
theorem renamePattern_comp (p : Pattern) :
    renamePattern f (renamePattern g p) = renamePattern (fun a x => f a (g a x)) p := by
  cases p <;>
    simp only [renamePattern,renameExpr_comp,renameExprs_comp,renamePattern_comp,
      renamePatterns_comp,List.map_map,Function.comp_def]

theorem renamePatterns_comp (ps : List Pattern) :
    renamePatterns f (renamePatterns g ps) = renamePatterns (fun a x => f a (g a x)) ps := by
  cases ps <;> simp only [renamePatterns,renamePattern_comp,renamePatterns_comp]
end

theorem renameItem_comp (i : WithItem) :
    renameItem f (renameItem g i) = renameItem (fun a x => f a (g a x)) i := by
  simp only [renameItem,renameExpr_comp,renameOptExpr_comp]
theorem renameAlias_comp (a : ImportAlias) :
    renameAlias f (renameAlias g a) = renameAlias (fun a x => f a (g a x)) a := rfl

end

/-- Two passes as one: the second sees the classes under the names that the first gave them. -/
def Pass.after {C₁ C₂ : Type} (P : Pass C₁) (Q : Pass C₂) : Pass (C₁ × C₂) where
  rename c a x := P.rename c.1 a (Q.rename c.2 a x)
  enter c n := (P.enter c.1 (Q.rename c.2 .plain n), Q.enter c.2 n)

section
variable {C₁ C₂ : Type} (P : Pass C₁) (Q : Pass C₂)

mutual
theorem renameStmt_after (c : C₁ × C₂) (s : Stmt) :
    renameStmt P c.1 (renameStmt Q c.2 s) = renameStmt (P.after Q) c s := by
  cases s with
  | funcDef f =>
    obtain ⟨_,_,_,body,_,_⟩ := f
    simp only [renameStmt,renameParams_comp,renameOptExpr_comp,renameExprs_comp,
      renameStmts_after c body,Pass.after]
  | classDef name _ _ body _ =>
    have hbody := renameStmts_after (P.enter c.1 (Q.rename c.2 .plain name), Q.enter c.2 name) body
    simp only [renameStmt,renameExprs_comp,renameExpr_comp,hbody,List.map_map,
      Function.comp_def,Pass.after]
  | _ =>
    simp only [renameStmt,renameExpr_comp,renameExprs_comp,renameOptExpr_comp,renameItem_comp,
      renameAlias_comp,renameStmts_after c,renameCases_after c,renameHandlers_after c,List.map_map,
      Function.comp_def,Pass.after]

theorem renameStmts_after (c : C₁ × C₂) (ss : List Stmt) :
    renameStmts P c.1 (renameStmts Q c.2 ss) = renameStmts (P.after Q) c ss := by
  cases ss <;> simp only [renameStmts,renameStmt_after c,renameStmts_after c]
theorem renameCases_after (c : C₁ × C₂) : ∀ cs : List MatchCase,
    renameCases P c.1 (renameCases Q c.2 cs) = renameCases (P.after Q) c cs
  | [] => rfl
  | .mk _ _ body :: cs => by
    simp only [renameCases,renamePattern_comp,renameOptExpr_comp,renameStmts_after c body,
      renameCases_after c cs,Pass.after]

theorem renameHandlers_after (c : C₁ × C₂) : ∀ hs : List ExceptHandler,
    renameHandlers P c.1 (renameHandlers Q c.2 hs) = renameHandlers (P.after Q) c hs
  | [] => rfl
  | .mk _ _ body :: hs => by
    simp only [renameHandlers,renameOptExpr_comp,renameStmts_after c body,
      renameHandlers_after c hs,Pass.after]
end

end
end Unagi.Frontend
