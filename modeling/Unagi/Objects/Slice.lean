import Unagi.Lib.Int64
import Unagi.Lib.Progression
import Unagi.Objects.Halt

/-! # Slices of lists

`o[lo:hi:step]` on a list: reading, assigning and deleting, with the index arithmetic on 64-bit
words. -/

namespace Unagi.Objects

open Int64 (wrap)

variable {α : Type}

/-- A slice component: omitted, an integer, an object whose `__index__` answers or raises, or
anything else. -/
inductive SlicePart
  | none
  | int (v : Int)
  | index (r : Except Python.Exc Int)
  | other

/-- Bounds past the index range become sentinels that stay clear of the edges. -/
def indexSized (v : Int) : Int :=
  if Int64.InRange v then v else if 0 < v then 2 ^ 62 else -2 ^ 62

def slicePart : SlicePart → Except Halt (Option Int)
  | .none => .ok .none
  | .int v => .ok (some (indexSized v))
  | .index (.ok v) => .ok (some (indexSized v))
  | .index (.error e) => .error (.raise e)
  | .other =>
    raise .typeError "slice indices must be integers or None or have an __index__ method"

def clampSliceIndex (v n step : Int) : Int :=
  let v := if v < 0 then wrap (v + n) else v
  if v < 0 then (if step < 0 then -1 else 0)
  else if n ≤ v then (if step < 0 then n - 1 else n)
  else v
def sliceStep (step : SlicePart) : Except Halt Int := do
  match ← slicePart step with
  | .none => return 1
  | some v => if v = 0 then raise .valueError "slice step cannot be zero" else return v
def sliceBounds (lo hi step : SlicePart) (n : Int) : Except Halt (Int × Int × Int) := do
  let st ← sliceStep step
  let start := (← slicePart lo).elim (if st < 0 then n - 1 else 0) (clampSliceIndex · n st)
  let stop := (← slicePart hi).elim (if st < 0 then -1 else n) (clampSliceIndex · n st)
  return (start, stop, st)
def sliceLength (start stop st : Int) : Int :=
  if 0 < st ∧ start < stop then (stop - start - 1).tdiv st + 1
  else if st < 0 ∧ stop < start then (start - stop - 1).tdiv (wrap (-st)) + 1
  else 0
def sliceIndices (lo hi step : SlicePart) (n : Nat) : Except Halt (Int × Int × Int) := do
  let (start, stop, st) ← sliceBounds lo hi step n
  return (start, st, sliceLength start stop st)
def pickSlice (elts : List α) (step : Int) : Int → Nat → Except Halt (List α)
  | _, 0 => .ok []
  | j, n + 1 => do
    let e ← index elts j
    let out ← pickSlice elts step (wrap (j + step)) n
    return e :: out
def getSlice (elts : List α) (lo hi step : SlicePart) : Except Halt (List α) := do
  let (start, st, n) ← sliceIndices lo hi step elts.length
  pickSlice elts st start n.toNat
def assign (step : Int) : List α → Int → List α → Except Halt Unit × List α
  | elts, _, [] => (.ok (), elts)
  | elts, j, v :: items =>
    if 0 ≤ j ∧ j < elts.length then assign step (elts.set j.toNat v) (wrap (j + step)) items
    else (.error .panic, elts)

/-- Assign to a slice; `val` is what collecting the assigned value gives. The result comes with the
list after the call. -/
def setSlice (elts : List α) (lo hi step : SlicePart) (val : Except Halt (List α)) :
    Except Halt Unit × List α :=
  match sliceIndices lo hi step elts.length with
  | .error h => (.error h, elts)
  | .ok (start, st, n) =>
    match val with
    | .error h => (.error h, elts)
    | .ok items =>
      if st = 1 then
        (.ok (), elts.take start.toNat ++ items ++ elts.drop (start + n).toNat)
      else if items.length ≠ n then
        (raise .valueError ("attempt to assign sequence of size " ++ toString items.length ++
          " to extended slice of size " ++ toString n), elts)
      else assign st elts start items

/-- Walk the doomed indices in ascending order and keep the rest. -/
def sweep (n st : Int) : List α → Int → Int → Int → List α
  | [], _, _, _ => []
  | e :: elts, i, next, dropped =>
    if dropped < n ∧ i = next then sweep n st elts (i + 1) (wrap (next + st)) (dropped + 1)
    else e :: sweep n st elts (i + 1) next dropped

def delSlice (elts : List α) (lo hi step : SlicePart) : Except Halt Unit × List α :=
  match sliceIndices lo hi step elts.length with
  | .error h => (.error h, elts)
  | .ok (start, st, n) =>
    if n = 0 then (.ok (), elts)
    else if st = 1 then (.ok (), elts.take start.toNat ++ elts.drop (start + n).toNat)
    else if st < 0 then
      (.ok (), sweep n (wrap (-st)) elts 0 (wrap (start + wrap ((n - 1) * st))) 0)
    else (.ok (), sweep n st elts 0 start 0)

end Unagi.Objects
