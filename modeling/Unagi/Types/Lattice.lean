import Mathlib.Data.List.Sort

/-! # The type lattice

The elements of the inference lattice, with the join at control-flow merges and the meet at
narrowing sites. Elements are hash-consed in the source, so that two of them are one pointer
exactly when they are structurally equal. The class table is a function from names to MROs. -/

namespace Unagi.Types

structure Refine where
  asciiOnly : Bool
  nonNegative : Bool
  knownLen : Bool
  exactType : Bool
deriving DecidableEq, Repr

namespace Refine

def plain : Refine := ⟨false, false, false, false⟩
def exact : Refine := ⟨false, false, false, true⟩
def inter (r s : Refine) : Refine :=
  ⟨r.asciiOnly && s.asciiOnly, r.nonNegative && s.nonNegative, r.knownLen && s.knownLen,
    r.exactType && s.exactType⟩
def union (r s : Refine) : Refine :=
  ⟨r.asciiOnly || s.asciiOnly, r.nonNegative || s.nonNegative, r.knownLen || s.knownLen,
    r.exactType || s.exactType⟩
def toNat (r : Refine) : Nat :=
  r.asciiOnly.toNat + 2 * r.nonNegative.toNat + 4 * r.knownLen.toNat + 8 * r.exactType.toNat

end Refine

inductive Atom where
  | none | bool | int | float | complex | str | bytes
deriving DecidableEq, Repr

inductive Kind where
  | never | atom (a : Atom) | cls | list | tuple | dict | set | callable | union | proto | dyn
deriving DecidableEq, Repr

/-- A lattice element. A class stands for its entry in the class table, and a signature, which
no operation looks into, for its key. -/
inductive Ty where
  | never (refine : Refine)
  | atom (a : Atom) (refine : Refine)
  | cls (name : String) (refine : Refine)
  | proto (name : String) (refine : Refine)
  | list (elem : Ty) (refine : Refine)
  | set (elem : Ty) (refine : Refine)
  | dict (key value : Ty) (refine : Refine)
  | tuple (elems : List Ty) (refine : Refine)
  | tupleVar (elem : Ty) (refine : Refine)
  | callable (sig : List Char) (refine : Refine)
  | union (elems : List Ty) (refine : Refine)
  | dyn (refine : Refine)

mutual
def Ty.beq : Ty → Ty → Bool
  | .never r, .never s => r = s
  | .atom a r, .atom b s => a = b && r = s
  | .cls n r, .cls m s => n = m && r = s
  | .proto n r, .proto m s => n = m && r = s
  | .list t r, .list u s => t.beq u && r = s
  | .set t r, .set u s => t.beq u && r = s
  | .dict k v r, .dict k' v' s => k.beq k' && v.beq v' && r = s
  | .tuple ts r, .tuple us s => beqList ts us && r = s
  | .tupleVar t r, .tupleVar u s => t.beq u && r = s
  | .callable c r, .callable d s => c = d && r = s
  | .union ts r, .union us s => beqList ts us && r = s
  | .dyn r, .dyn s => r = s
  | _, _ => false

def beqList : List Ty → List Ty → Bool
  | [], [] => true
  | t :: ts, u :: us => t.beq u && beqList ts us
  | _, _ => false
end

mutual
theorem Ty.beq_iff : ∀ t u : Ty, t.beq u = true ↔ t = u := by
  intro t u
  cases t <;> cases u <;>
    simp only [Ty.beq,Bool.and_eq_true,decide_eq_true_eq,reduceCtorEq,Bool.false_eq_true,
      Ty.never.injEq,Ty.atom.injEq,Ty.cls.injEq,Ty.proto.injEq,Ty.list.injEq,Ty.set.injEq,
      Ty.dict.injEq,Ty.tuple.injEq,Ty.tupleVar.injEq,Ty.callable.injEq,Ty.union.injEq,
      Ty.dyn.injEq,Ty.beq_iff,beqList_iff,and_assoc]

theorem beqList_iff : ∀ ts us : List Ty, beqList ts us = true ↔ ts = us
  | [], [] => by simp only [beqList]
  | [], u :: us => by simp only [beqList,Bool.false_eq_true,reduceCtorEq]
  | t :: ts, [] => by simp only [beqList,Bool.false_eq_true,reduceCtorEq]
  | t :: ts, u :: us => by
    simp only [beqList,Bool.and_eq_true,List.cons.injEq,Ty.beq_iff t u,beqList_iff ts us]
end

instance : DecidableEq Ty := fun t u => decidable_of_iff _ (Ty.beq_iff t u)

namespace Ty

def kind : Ty → Kind
  | never _ => .never
  | atom a _ => .atom a
  | cls _ _ => .cls
  | proto _ _ => .proto
  | list _ _ => .list
  | set _ _ => .set
  | dict _ _ _ => .dict
  | tuple _ _ | tupleVar _ _ => .tuple
  | callable _ _ => .callable
  | union _ _ => .union
  | dyn _ => .dyn

section
variable (a : Atom) (n : String) (t u : Ty) (ts : List Ty) (c : List Char) (r : Refine)

@[simp] theorem kind_never : (never r).kind = .never := rfl
@[simp] theorem kind_atom : (atom a r).kind = .atom a := rfl
@[simp] theorem kind_cls : (cls n r).kind = .cls := rfl
@[simp] theorem kind_proto : (proto n r).kind = .proto := rfl
@[simp] theorem kind_list : (list t r).kind = .list := rfl
@[simp] theorem kind_set : (set t r).kind = .set := rfl
@[simp] theorem kind_dict : (dict t u r).kind = .dict := rfl
@[simp] theorem kind_tuple : (tuple ts r).kind = .tuple := rfl
@[simp] theorem kind_tupleVar : (tupleVar t r).kind = .tuple := rfl
@[simp] theorem kind_callable : (callable c r).kind = .callable := rfl
@[simp] theorem kind_union : (union ts r).kind = .union := rfl
@[simp] theorem kind_dyn : (dyn r).kind = .dyn := rfl

theorem kind_eq_never : t.kind = .never ↔ ∃ r, t = never r := by cases t <;> simp
theorem kind_eq_dyn : t.kind = .dyn ↔ ∃ r, t = dyn r := by cases t <;> simp
theorem kind_eq_atom : t.kind = .atom a ↔ ∃ r, t = atom a r := by cases t <;> simp
theorem kind_eq_cls : t.kind = .cls ↔ ∃ n r, t = cls n r := by cases t <;> simp
theorem kind_eq_tuple : t.kind = .tuple ↔ (∃ ts r, t = tuple ts r) ∨ ∃ u r, t = tupleVar u r := by
  cases t <;> simp

end

def refine : Ty → Refine
  | never r | atom _ r | cls _ r | proto _ r | list _ r | set _ r | dict _ _ r | tuple _ r
  | tupleVar _ r | callable _ r | union _ r | dyn r => r

def setRefine (r : Refine) : Ty → Ty
  | never _ => never r
  | atom a _ => atom a r
  | cls n _ => cls n r
  | proto n _ => proto n r
  | list t _ => list t r
  | set t _ => set t r
  | dict k v _ => dict k v r
  | tuple ts _ => tuple ts r
  | tupleVar t _ => tupleVar t r
  | callable c _ => callable c r
  | union ts _ => union ts r
  | dyn _ => dyn r

def withRefine (t : Ty) (r : Refine) : Ty := t.setRefine (t.refine.union r)
def stripRefine (t : Ty) : Ty := t.setRefine .plain

def depth : Ty → Nat
  | list t _ | set t _ | tupleVar t _ => t.depth + 1
  | dict k v _ => max k.depth v.depth + 1
  | tuple ts _ => depthList ts + 1
  | union ts _ => depthList ts
  | _ => 0
where depthList : List Ty → Nat
  | [] => 0
  | t :: ts => max t.depth (depthList ts)

def size : Ty → Nat
  | list t _ | set t _ | tupleVar t _ => t.size + 1
  | dict k v _ => k.size + v.size + 1
  | tuple ts _ | union ts _ => sizeList ts + 1
  | _ => 1
where sizeList : List Ty → Nat
  | [] => 0
  | t :: ts => t.size + sizeList ts

end Ty

def Kind.index : Kind → Nat
  | .never => 0
  | .atom .none => 1
  | .atom .bool => 2
  | .atom .int => 3
  | .atom .float => 4
  | .atom .complex => 5
  | .atom .str => 6
  | .atom .bytes => 7
  | .cls => 8
  | .list => 9
  | .tuple => 10
  | .dict => 11
  | .set => 12
  | .callable => 13
  | .union => 14
  | .proto => 15
  | .dyn => 16

def headKey (k : Kind) (r : Refine) : List Char :=
  Char.ofNat ('A'.toNat + k.index) ::
    if r = .plain then [] else ['#', Char.ofNat ('0'.toNat + r.toNat)]

mutual
def Ty.key : Ty → List Char
  | .cls n r => headKey .cls r ++ ':' :: n.toList
  | .proto n r => headKey .proto r ++ ':' :: n.toList
  | .list t r => headKey .list r ++ '<' :: t.key ++ ['>']
  | .set t r => headKey .set r ++ '<' :: t.key ++ ['>']
  | .dict k v r => headKey .dict r ++ '<' :: k.key ++ ',' :: v.key ++ ['>']
  | .tuple ts r => headKey .tuple r ++ '(' :: keyList ',' ts ++ [')']
  | .tupleVar t r => headKey .tuple r ++ '(' :: t.key ++ "...)".toList
  | .union ts r => headKey .union r ++ '\x7b' :: keyList '|' ts ++ ['\x7d']
  | .callable c r => headKey .callable r ++ '[' :: c ++ [']']
  | .never r => headKey .never r
  | .atom a r => headKey (.atom a) r
  | .dyn r => headKey .dyn r

def keyList (sep : Char) : List Ty → List Char
  | [] => []
  | [t] => t.key
  | t :: ts => t.key ++ sep :: keyList sep ts
end

def sortKeys (ts : List Ty) : List Ty := ts.insertionSort fun t u => ¬ u.key < t.key
def dedupe : List Ty → List Ty
  | [] => []
  | t :: ts => t :: (dedupe ts).filter (· ≠ t)

/-- The name that a builtin kind has in a linearization. -/
def builtinClassName : Kind → Option String
  | .atom .int => some "int"
  | .atom .float => some "float"
  | .atom .str => some "str"
  | .atom .bytes => some "bytes"
  | .atom .bool => some "bool"
  | .atom .complex => some "complex"
  | _ => none

def dyn : Ty := .dyn .plain
def never : Ty := .never .plain
def unionBudget : Nat := 4

section Algebra
variable (mro : String → List String)

def classBelow (name : String) : Ty → Bool
  | .cls m _ => m ∈ mro name
  | b =>
    match builtinClassName b.kind with
    | some m => m ∈ mro name
    | none => false

def isSubtype (a b : Ty) : Bool :=
  a = b ||
    match a with
    | .never _ => true
    | .atom .bool _ => b.kind = .dyn || b.kind = .atom .int
    | .cls name _ => b.kind = .dyn || classBelow mro name b
    | _ => b.kind = .dyn

/-- The nearest class below `object` that both linearizations have, as the first one lists it. -/
def commonAncestor (a b : String) : Ty :=
  match (mro a).find? fun name => name ≠ "object" && name ∈ mro b with
  | some name => .cls name .plain
  | none => dyn

/-- Collapse a union over the budget: classes to their common ancestor, anything else to Dyn. -/
def widen : Ty → List Ty → Ty
  | acc, [] => acc
  | .cls a _, .cls b _ :: ms =>
    match commonAncestor mro a b with
    | .cls c r => widen (.cls c r) ms
    | _ => dyn
  | _, _ :: _ => dyn

def flatten : Ty → List Ty
  | .union ts _ => ts
  | .never _ => []
  | t => [t]
def undominated (uniq : List Ty) : List Ty :=
  uniq.filter fun m => !uniq.any fun other => other ≠ m && isSubtype mro m other

def makeUnion (members : List Ty) : Ty :=
  if members.any fun m => m.kind = .dyn then dyn
  else if members.flatMap flatten = [] then never
  else
    match undominated mro (dedupe (members.flatMap flatten)) with
    | [t] => t
    | kept =>
      if unionBudget < kept.length then
        match kept with
        | acc :: ms => widen mro acc ms
        | [] => never
      else .union (sortKeys kept) .plain

/-- Join two tuples; `join` is the join of their elements. -/
def joinTuples (join : Ty → Ty → Ty) : Ty → Ty → Ty
  | .tuple ts r, .tuple us s =>
    if ts.length = us.length then .tuple (List.zipWith join ts us) .plain
    else .tupleVar ((positions (.tuple ts r) ++ positions (.tuple us s)).foldl join never) .plain
  | a, b => .tupleVar ((positions a ++ positions b).foldl join never) .plain
where positions : Ty → List Ty
  | .tuple ts _ => ts
  | .tupleVar t _ => [t]
  | _ => []

def structuralJoin (join : Ty → Ty → Ty) (a b : Ty) : Ty :=
  if a = b then a
  else if isSubtype mro a b then b
  else if isSubtype mro b a then a
  else
    match a, b with
    | .cls n _, .cls m _ => commonAncestor mro n m
    | .cls _ _, _ | .proto _ _, _ | _, .cls _ _ | _, .proto _ _ => dyn
    | .list t _, .list u _ => .list (join t u) .plain
    | .set t _, .set u _ => .set (join t u) .plain
    | .dict k v _, .dict k' v' _ => .dict (join k k') (join v v') .plain
    | a, b =>
      if a.kind = .tuple ∧ b.kind = .tuple then joinTuples join a b else makeUnion mro [a, b]

/-- Join with the bits that both arms carry, where the kind stays. -/
def joinUncached (join : Ty → Ty → Ty) (a b : Ty) : Ty :=
  if a.kind = .dyn ∨ b.kind = .dyn then dyn
  else if a.kind = .never then b
  else if b.kind = .never then a
  else
    let base := structuralJoin mro join a.stripRefine b.stripRefine
    let common := a.refine.inter b.refine
    if common ≠ .plain ∧ base.kind = a.kind ∧ base.kind = b.kind then base.withRefine common
    else base

def joinN : Nat → Ty → Ty → Ty
  | 0, _, _ => dyn
  | n + 1, a, b => if a = b then a else joinUncached mro (joinN n) a b
def join (a b : Ty) : Ty := joinN mro (max a.depth b.depth + 1) a b

end Algebra
end Unagi.Types
