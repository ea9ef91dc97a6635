import Unagi.Frontend.Ast

/-! # Binding call arguments

A call of a module-level def is bound by `userCall` at compile time, and of a function object by
`FunctionObject.bind` at run time. Both walk one algorithm, over Go expressions in the first case
and over objects in the second. -/

namespace Unagi.Calls
open Frontend (ParamKind)

variable {α β γ : Type}

/-- A parameter with the value of its default, if it has one. -/
structure Param (α : Type) where
  name : String
  kind : ParamKind
  dflt : Option α
  deriving DecidableEq, Repr

namespace Param

def isPositional (p : Param α) : Bool :=
  match p.kind with
  | .posOnly | .plain => true
  | _ => false
def isKeyword (p : Param α) : Bool :=
  match p.kind with
  | .plain | .kwOnly => true
  | _ => false
def isNamed (p : Param α) : Bool :=
  match p.kind with
  | .posOnly | .plain | .kwOnly => true
  | _ => false
def map (f : β → γ) (p : Param β) : Param γ := { name := p.name, kind := p.kind, dflt := p.dflt.map f }

end Param

def kindRank : ParamKind → Nat
  | .posOnly => 0
  | .plain => 1
  | .star => 2
  | .kwOnly => 3
  | .starStar => 4

/-- A def: its parameters come in the grammar's order, under distinct names. -/
structure FuncDef (α : Type) where
  name : String
  params : List (Param α)
  ordered : params.Pairwise fun p q => kindRank p.kind ≤ kindRank q.kind
  distinct : (params.map Param.name).Nodup

/-- What reaches a parameter: one value, the tuple of a starred parameter, or the dict of a
double-starred one. -/
inductive Passed (β : Type)
  | value (v : β)
  | tuple (elts : List β)
  | dict (items : List (String × β))
  deriving DecidableEq, Repr

def Passed.map (f : β → γ) : Passed β → Passed γ
  | .value v => .value (f v)
  | .tuple elts => .tuple (elts.map f)
  | .dict items => .dict (items.map fun kw => (kw.1, f kw.2))

/-- The ways a binder fails, with the data its message is built from; the text is not modelled. -/
inductive BindError
  | posOnlyKw (names : List String)
  | unexpectedKw (kw : String) (candidates : List String)
  | multipleValues (kw : String)
  | tooManyPos (minReq nPosCap given kwonlyGiven : Nat)
  | missingPositional (names : List String)
  | missingKeywordOnly (names : List String)
  deriving DecidableEq, Repr

/-! ## The steps both binders take -/

/-- A parameter list split by kind; `named` holds the parameters with a value slot. -/
structure Signature (β : Type) where
  named : List (Param β) := []
  nPosonly : Nat := 0
  nPosCap : Nat := 0
  star : Bool := false
  starstar : Bool := false

/-- One turn of the loop that splits a parameter list. -/
def Signature.add (s : Signature β) (p : Param β) : Signature β :=
  match p.kind with
  | .posOnly =>
    { s with nPosonly := s.nPosonly + 1, nPosCap := s.nPosCap + 1, named := s.named ++ [p] }
  | .plain => { s with nPosCap := s.nPosCap + 1, named := s.named ++ [p] }
  | .kwOnly => { s with named := s.named ++ [p] }
  | .star => { s with star := true }
  | .starStar => { s with starstar := true }

def splitSig (params : List (Param β)) : Signature β := params.foldl Signature.add {}
def posOnlyViolations (sig : Signature β) (kws : List (String × β)) : List String :=
  ((sig.named.take sig.nPosonly).filter fun p => kws.any fun kw => kw.1 = p.name).map Param.name
def Signature.keywordNames (sig : Signature β) : List String :=
  (sig.named.drop sig.nPosonly).map Param.name
def Signature.keywordIndex (sig : Signature β) (kw : String) : Option Nat :=
  (sig.keywordNames.findIdx? fun n => n = kw).map (sig.nPosonly + ·)

/-- The slots, the number of keyword-only parameters given, and the keywords left over. -/
structure KeywordState (β : Type) where
  slot : List (Option β)
  kwonlyGiven : Nat := 0
  kwExtra : List (String × β) := []

/-- One turn of the keyword loop; the first `bound` slots were filled by position. -/
def bindKeyword (sig : Signature β) (bound : Nat) (st : KeywordState β) (kw : String × β) :
    Except BindError (KeywordState β) :=
  match sig.keywordIndex kw.1 with
  | none =>
    if sig.starstar then .ok { st with kwExtra := st.kwExtra ++ [kw] }
    else .error (.unexpectedKw kw.1 sig.keywordNames)
  | some idx =>
    if idx < bound then .error (.multipleValues kw.1)
    else .ok { st with
      slot := st.slot.set idx (some kw.2)
      kwonlyGiven := if sig.nPosCap ≤ idx then st.kwonlyGiven + 1 else st.kwonlyGiven }

def bindKeywords (sig : Signature β) (bound : Nat) :
    KeywordState β → List (String × β) → Except BindError (KeywordState β)
  | st, [] => .ok st
  | st, kw :: kws =>
    match bindKeyword sig bound st kw with
    | .error e => .error e
    | .ok st => bindKeywords sig bound st kws

def Signature.minReq (sig : Signature β) : Nat :=
  (sig.named.take sig.nPosCap).countP fun p => p.dflt.isNone
def missingNames (slots : List (Param β × Option β)) : List String :=
  (slots.filter fun s => s.2.isNone && s.1.dflt.isNone).map fun s => s.1.name
def fillDefaults (named : List (Param β)) (slot : List (Option β)) : List (Option β) :=
  List.zipWith (fun p v => v.or p.dflt) named slot

/-- The arguments of the call, parameter by parameter; a named one takes the next slot. -/
def finalArgs (extra : List β) (kwExtra : List (String × β)) :
    List (Param β) → List (Option β) → List (Option (Passed β))
  | [], _ => []
  | p :: ps, slot =>
    match p.kind with
    | .star => some (.tuple extra) :: finalArgs extra kwExtra ps slot
    | .starStar => some (.dict kwExtra) :: finalArgs extra kwExtra ps slot
    | _ => (slot.head?.join).map .value :: finalArgs extra kwExtra ps slot.tail

def positionalSlots (n : Nat) (pos : List β) : List (Option β) :=
  pos.map some ++ List.replicate (n - pos.length) none

/-- What follows the keyword loop: the arity checks, the defaults and the final arguments. -/
def finishBind (params : List (Param β)) (sig : Signature β) (pos : List β)
    (st : KeywordState β) : Except BindError (List (Option (Passed β))) :=
  let extra := pos.drop (min pos.length sig.nPosCap)
  if extra ≠ [] ∧ sig.star = false then
    .error (.tooManyPos sig.minReq sig.nPosCap pos.length st.kwonlyGiven)
  else
    let slots := sig.named.zip st.slot
    if missingNames (slots.take sig.nPosCap) ≠ [] then
      .error (.missingPositional (missingNames (slots.take sig.nPosCap)))
    else if missingNames (slots.drop sig.nPosCap) ≠ [] then
      .error (.missingKeywordOnly (missingNames (slots.drop sig.nPosCap)))
    else .ok (finalArgs extra st.kwExtra params (fillDefaults sig.named st.slot))

def bindArgs (params : List (Param β)) (sig : Signature β) (pos : List β)
    (kws : List (String × β)) : Except BindError (List (Option (Passed β))) :=
  let bound := min pos.length sig.nPosCap
  if sig.starstar = false ∧ posOnlyViolations sig kws ≠ [] then
    .error (.posOnlyKw (posOnlyViolations sig kws))
  else
    match bindKeywords sig bound
      { slot := positionalSlots sig.named.length (pos.take bound) } kws with
    | .error e => .error e
    | .ok st => finishBind params sig pos st

structure Arg (α : Type) where
  name : Option String
  value : α
  deriving DecidableEq, Repr

/-- The Go expressions an argument of the emitted call is made of: the temporary that holds
the value of the i-th argument, or the variable that holds the default of a parameter. -/
inductive ArgExpr
  | temp (i : Nat)
  | slotName (pname : String)
  deriving DecidableEq, Repr

def evalPositional : Nat → List (Arg α) → List ArgExpr
  | _, [] => []
  | i, a :: as =>
    match a.name with
    | none => .temp i :: evalPositional (i + 1) as
    | some _ => evalPositional (i + 1) as
def evalKeywords : Nat → List (Arg α) → List (String × ArgExpr)
  | _, [] => []
  | i, a :: as =>
    match a.name with
    | none => evalKeywords (i + 1) as
    | some n => (n, .temp i) :: evalKeywords (i + 1) as

/-- The parameters as the compiler sees them: a default is the variable that holds it. -/
def FuncDef.compileParams (d : FuncDef α) : List (Param ArgExpr) :=
  d.params.map fun p =>
    { name := p.name, kind := p.kind, dflt := p.dflt.map fun _ => .slotName p.name }

/-- The call `userCall` emits: the raise of a binding error, or the arguments of the call. -/
def userCall (d : FuncDef α) (args : List (Arg α)) :
    Except BindError (List (Option (Passed ArgExpr))) :=
  let sig := splitSig d.compileParams
  let hasKw := args.any fun a => a.name.isSome
  let hasDefaults := d.params.any fun p => p.dflt.isSome
  if hasKw = false ∧ hasDefaults = false ∧ sig.star = false ∧ sig.starstar = false ∧
      sig.nPosCap = sig.named.length ∧ args.length = sig.nPosCap then
    .ok ((evalPositional 0 args).map fun e => some (.value e))
  else
    bindArgs d.compileParams sig (evalPositional 0 args) (evalKeywords 0 args)

/-- The value of an argument expression once the arguments and the defaults of `d` have been
evaluated. -/
def ArgExpr.eval (d : FuncDef α) (args : List (Arg α)) : ArgExpr → Option α
  | .temp i => args[i]?.map Arg.value
  | .slotName pname => (d.params.find? fun p => p.name = pname).bind Param.dflt

/-- A function object: the defaults run parallel to the parameters and are absent when no
parameter has one. -/
structure FunctionObject (α : Type) where
  qual : String
  params : List (String × ParamKind)
  defaults : Option (List (Option α))

def FunctionObject.dflt (fn : FunctionObject α) (i : Nat) : Option α :=
  match fn.defaults with
  | none => none
  | some ds => (ds[i]?).join
def FunctionObject.param (fn : FunctionObject α) (i : Nat) : Param α :=
  let p := fn.params.getD i ("", .plain)
  { name := p.1, kind := p.2, dflt := fn.dflt i }

/-- The parameter list split by kind, the named parameters read through their indices. -/
def FunctionObject.signature (fn : FunctionObject α) : Signature α :=
  (List.range fn.params.length).foldl (fun s i => s.add (fn.param i)) {}

def FunctionObject.bind (fn : FunctionObject α) (pos : List α) (kws : List (String × α)) :
    Except BindError (List (Option (Passed α))) :=
  bindArgs ((List.range fn.params.length).map fn.param) fn.signature pos kws
def FuncDef.functionObject (d : FuncDef α) : FunctionObject α :=
  { qual := d.name
    params := d.params.map fun p => (p.name, p.kind)
    defaults := if d.params.any fun p => p.dflt.isSome then some (d.params.map Param.dflt) else none }

def FuncDef.positional (d : FuncDef α) : List String := (d.params.filter Param.isPositional).map Param.name
def FuncDef.keywords (d : FuncDef α) : List String := (d.params.filter Param.isKeyword).map Param.name
def FuncDef.hasKind (d : FuncDef α) (k : ParamKind) : Bool := d.params.any fun p => p.kind = k

/-- What the language passes to one parameter: the positional argument at its place, else the
keyword argument of its name, else its default. The starred parameters collect what is left. -/
def pyArgument (d : FuncDef α) (pos : List α) (kws : List (String × α)) (p : Param α) :
    Option (Passed α) :=
  match p.kind with
  | .posOnly => ((pos[d.positional.idxOf p.name]?).or p.dflt).map .value
  | .plain =>
    ((pos[d.positional.idxOf p.name]?).or ((kws.lookup p.name).or p.dflt)).map .value
  | .kwOnly => ((kws.lookup p.name).or p.dflt).map .value
  | .star => some (.tuple (pos.drop d.positional.length))
  | .starStar => some (.dict (kws.filter fun kw => !d.keywords.contains kw.1))

/-- The calling convention: excess positional arguments need a starred parameter, unknown
keywords a double-starred one, no parameter is filled twice, and every parameter is filled. -/
def pyBind (d : FuncDef α) (pos : List α) (kws : List (String × α)) : Option (List (Passed α)) :=
  if (pos.length ≤ d.positional.length ∨ d.hasKind .star) ∧
      (∀ kw ∈ kws, kw.1 ∈ d.keywords ∨ d.hasKind .starStar) ∧
      (∀ kw ∈ kws, kw.1 ∈ d.keywords → kw.1 ∉ d.positional.take pos.length) then
    d.params.mapM (pyArgument d pos kws)
  else none

end Unagi.Calls
