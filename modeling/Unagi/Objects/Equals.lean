import Unagi.Objects.HashKey
import Unagi.Objects.Rounding

/-! # Equality of objects

`equals` is `==` on builtin objects; it never raises. -/

namespace Unagi.Objects

def asInt : Object → Option Int
  | .bool v => some v.toInt
  | .int _ v => some v
  | _ => none

def cmpI (a b : Int) : Int := if a < b then -1 else if a > b then 1 else 0
def cmpF (v w : Float64) : Int := cmpI v.scaled w.scaled

/-- A double against an int of any size, exactly, and whether they have no order. -/
def floatIntCmp (f : Float64) (i : Int) : Int × Bool :=
  if f.isNaN then (0, true)
  else if f.isInf then (if f.msb then -1 else 1, false)
  else if -(2 ^ 53) ≤ i ∧ i ≤ 2 ^ 53 then (cmpF f (Float64.ofInt i), false)
  else (cmpI f.scaled (i * Float64.one), false)

theorem floatIntCmp_eq (f : Float64) (i : Int) :
    floatIntCmp f i =
      if f.isNaN then (0, true)
      else if f.isInf then (if f.msb then -1 else 1, false)
      else (cmpI f.scaled (i * Float64.one), false) := by
  unfold floatIntCmp cmpF
  by_cases hsmall : -(2 ^ 53) ≤ i ∧ i ≤ 2 ^ 53
  · rw [if_pos hsmall,Float64.scaled_ofInt (by omega)]
  · rw [if_neg hsmall]

def numCmp (a b : Object) : Option (Int × Bool) :=
  match asInt a, asInt b with
  | some i, some j => some (cmpI i j, false)
  | i, j =>
    match a, b with
    | .float _ v, .float _ w =>
      if v.isNaN || w.isNaN then some (0, true) else some (cmpF v w, false)
    | .float _ v, _ => j.map fun j => floatIntCmp v j
    | _, .float _ w => i.map fun i => (-(floatIntCmp w i).1, (floatIntCmp w i).2)
    | _, _ => none

def asComplex : Object → Option (Float64 × Float64)
  | .complex _ re im => some (re, im)
  | .float _ v => some (v, 0)
  | o => (asInt o).map fun i => (Float64.ofInt i, 0)

/-- Equality of the elements of buffers, which are numbers or bytes. -/
def elementEquals (x y : Object) : Bool :=
  Object.same x y ||
    match numCmp x y with
    | some (c, unordered) => !unordered && c = 0
    | none =>
      match x, y with
      | .bytes _ v, .bytes _ w => v = w
      | _, _ => false

def elementsEqual : List Object → List Object → Bool
  | [], [] => true
  | x :: xs, y :: ys => elementEquals x y && elementsEqual xs ys
  | _, _ => false
def bufferElements : Object → Option (List Object)
  | .bytes _ v => some (v.map fun b => .int b.toNat b.toNat)
  | .memoryview _ view _ elements =>
    if view.released || !view.decodes then none else some elements
  | _ => none
def bufferShape (other : Object) (n : Nat) : List Nat :=
  match other with
  | .memoryview _ view _ _ => view.shape
  | _ => [n]

/-- `x.__eq__(other)` of a buffer; none when it declines. -/
def bufferEqDunder (x other : Object) : Option Bool :=
  match x with
  | .bytes _ v =>
    match other with
    | .bytes _ w => some (v = w)
    | _ => none
  | .memoryview _ view _ elements =>
    if view.released then some (Object.same x other)
    else
      match bufferElements other with
      | none => none
      | some others =>
        if view.shape ≠ bufferShape other others.length then some false
        else if !view.decodes then some false
        else some (elementsEqual elements others)
  | _ => none

def bufferEqType : Object → Bool
  | .bytes .. | .memoryview .. => true
  | _ => false

/-- The left operand's equality, then the right's, then identity. -/
def bufferEq (a b : Object) : Bool :=
  (bufferEqDunder a b).getD ((bufferEqDunder b a).getD (Object.same a b))

def coreEquals (xs ys : List Object) : Bool :=
  (keysOf xs).length = (keysOf ys).length && (keysOf xs).all fun k => k ∈ keysOf ys
def unionArgsEqual (xs ys : List Object) : Bool :=
  xs.length = ys.length && xs.all fun a => ys.any (Object.same a)

mutual

def equals (a b : Object) : Bool :=
  match numCmp a b with
  | some (c, unordered) => !unordered && c = 0
  | none =>
    match asComplex a, asComplex b with
    | some (ar, ai), some (br, bi) => ar.eq br && ai.eq bi
    | some _, none | none, some _ => false
    | none, none =>
      if bufferEqType a || bufferEqType b then bufferEq a b
      else
        match a, b with
        | .none, .none => true
        | .str _ v, .str _ w => v = w
        | .list _ xs, .list _ ys => seqEquals xs ys
        | .tuple _ xs, .tuple _ ys => seqEquals xs ys
        | .dict _ xs, .dict _ ys => xs.length = ys.length && entriesEqual xs ys
        | .set _ xs, .set _ ys | .set _ xs, .frozenset _ ys => coreEquals xs ys
        | .frozenset _ xs, .set _ ys | .frozenset _ xs, .frozenset _ ys => coreEquals xs ys
        | .range _ r, .range _ r' => rangeEquals r r'
        | .slice _ x y z, .slice _ x' y' z' => equals x x' && equals y y' && equals z z'
        | .union _ xs, .union _ ys => unionArgsEqual xs ys
        | .genericAlias _ x xs, .genericAlias _ y ys => equals x y && seqEquals xs ys
        | .typeVar p, .typeVar q => p = q
        | .identity p, .identity q => p = q
        | _, _ => false

/-- Element by element; one object counts as equal to itself. -/
def seqEquals : List Object → List Object → Bool
  | [], [] => true
  | x :: xs, y :: ys => (Object.same x y || equals x y) && seqEquals xs ys
  | _, _ => false

/-- Each entry has an equal value under the same key in the other dict. -/
def entriesEqual : List (Object × Object) → List (Object × Object) → Bool
  | [], _ => true
  | (k, v) :: xs, ys =>
    (match ys.find? fun y => (hashKey y.1).toOption = (hashKey k).toOption with
      | some y => equals v y.2
      | none => false) && entriesEqual xs ys

end
end Unagi.Objects
