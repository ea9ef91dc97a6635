import Unagi.Types.UnionMembers

/-! # Narrowing

A test on a place gives the types of the place on its two edges: the meet with the tested class
on the true edge, and what is left without it on the false edge. -/

namespace Unagi.Types

section Algebra
variable (mro : String → List String)

/-- Narrow the members of a union and drop those that fall to the bottom. -/
def meetUnion (meet : Ty → Ty → Ty) (members : List Ty) (t : Ty) : Ty :=
  let parts := (members.map fun m => meet m t).filter fun m => m.kind ≠ .never
  if parts = [] then never else makeUnion mro parts

/-- A container of the elements, or the bottom if one of them is. -/
def containerMeet (elems : List Ty) (container : Ty) : Ty :=
  if elems.any fun t => t.kind = .never then never else container

def structuralMeet (meet : Ty → Ty → Ty) (a b : Ty) : Ty :=
  if a = b then a
  else if isSubtype mro a b then a
  else if isSubtype mro b a then b
  else
    match a, b with
    | .union ts _, b => meetUnion mro meet ts b
    | a, .union us _ => meetUnion mro meet us a
    | .list t _, .list u _ => containerMeet [meet t u] (.list (meet t u) .plain)
    | .set t _, .set u _ => containerMeet [meet t u] (.set (meet t u) .plain)
    | .dict k v _, .dict k' v' _ =>
      containerMeet [meet k k', meet v v'] (.dict (meet k k') (meet v v') .plain)
    | _, _ => never

/-- Meet with the bits of either arm, where the kind stays. -/
def meetUncached (meet : Ty → Ty → Ty) (a b : Ty) : Ty :=
  if a.kind = .dyn then b
  else if b.kind = .dyn then a
  else if a.kind = .never ∨ b.kind = .never then never
  else
    let base := structuralMeet mro meet a.stripRefine b.stripRefine
    let all := a.refine.union b.refine
    if all ≠ .plain ∧ base.kind = a.kind ∧ base.kind = b.kind then base.withRefine all else base

def meetN : Nat → Ty → Ty → Ty
  | 0, _, _ => never
  | n + 1, a, b => if a = b then a else meetUncached mro (meetN n) a b
def meet (a b : Ty) : Ty := meetN mro (a.size + b.size) a b

def subtract (t other : Ty) : Ty :=
  match t with
  | .dyn _ | .never _ => t
  | .union ts _ =>
    let kept := ts.filter fun m => !isSubtype mro m other
    if kept.length = ts.length then t else makeUnion mro kept
  | _ => if isSubtype mro t other then never else t

end Algebra

inductive PlaceScope where
  | local | attr | global
deriving DecidableEq, Repr

structure Place where
  scope : PlaceScope
  path : String
deriving DecidableEq, Repr

structure Span where
  file : String
  line : Int
  col : Int
deriving DecidableEq, Repr

/-- The evidence of a binding: one from elsewhere, by its note, or a narrowing that rests on what
was there before. -/
inductive Evidence where
  | given (note : String)
  | narrowed (type : Ty) (span : Span) (prior : Option Evidence)

structure Binding where
  type : Ty
  ann : Option Evidence

abbrev Env := Place → Option Binding
def Env.typeOf (env : Env) (p : Place) : Ty :=
  match env p with
  | some b => b.type
  | none => dyn
def Env.bind (env : Env) (p : Place) (t : Ty) (ann : Option Evidence) : Env :=
  fun q => if q = p then some ⟨t, ann⟩ else env q

inductive Predicate where
  | isInstance (place : Place) (cls : Ty)
  | isNone (place : Place)
  | truthy (place : Place)
  | typeIs (place : Place) (cls : Ty)
  | not (inner : Predicate)

def Predicate.place : Predicate → Place
  | isInstance p _ | isNone p | truthy p | typeIs p _ => p
  | not inner => inner.place
def Predicate.edges (mro : String → List String) (cur : Ty) : Predicate → Ty × Ty
  | isInstance _ cls => (meet mro cur cls, subtract mro cur cls)
  | isNone _ => (meet mro cur (.atom .none .plain), subtract mro cur (.atom .none .plain))
  | truthy _ => (subtract mro cur (.atom .none .plain), cur)
  | typeIs _ cls => ((meet mro cur cls).withRefine .exact, cur)
  | not inner => ((inner.edges mro cur).2, (inner.edges mro cur).1)
def narrow (mro : String → List String) (env : Env) (pred : Predicate) (span : Span) : Env × Env :=
  let p := pred.place
  let (t, f) := pred.edges mro (env.typeOf p)
  let prior := (env p).bind fun b => b.ann
  (env.bind p t (some (.narrowed t span prior)), env.bind p f (some (.narrowed f span prior)))

end Unagi.Types
