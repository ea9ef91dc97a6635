import Unagi.Objects.Slice

/-! # Range objects

A range keeps its bounds in 64-bit fields; a bound that does not fit spills into a field of its own
and overrides the other. -/

namespace Unagi.Objects

open Int64 (wrap InRange)

structure RangeObject where
  start : Int
  stop : Int
  step : Int
  bigStart : Option Int
  bigStop : Option Int
  bigStep : Option Int
  deriving DecidableEq

def newRangeBig (start stop step : Int) : RangeObject where
  start := if InRange start then start else 0
  stop := if InRange stop then stop else 0
  step := if InRange step then step else 1
  bigStart := if InRange start then none else some start
  bigStop := if InRange stop then none else some stop
  bigStep := if InRange step then none else some step

namespace RangeObject
variable (r : RangeObject)

def big : Bool := r.bigStart.isSome || r.bigStop.isSome || r.bigStep.isSome
def bStart : Int := r.bigStart.getD r.start
def bStop : Int := r.bigStop.getD r.stop
def bStep : Int := r.bigStep.getD r.step

def lengthBig : Int :=
  let (lo, hi, step) :=
    if r.bStep < 0 then (r.bStop, r.bStart, -r.bStep) else (r.bStart, r.bStop, r.bStep)
  if hi ≤ lo then 0 else (hi - lo - 1) / step + 1

/-- The number of elements in words. The operations wrap one by one, which comes to the same as one
wrap of the dividend. -/
def length : Int :=
  if 0 < r.step then
    if r.stop ≤ r.start then 0
    else (wrap (r.stop - r.start + r.step - 1)).tdiv r.step
  else if r.start ≤ r.stop then 0
  else (wrap (r.start - r.stop - r.step - 1)).tdiv (wrap (-r.step))

def lenAsBig : Int := if r.big then r.lengthBig else r.length
def truth : Bool := 0 < r.length

def len : Except Halt Int :=
  if r.big then
    if InRange r.lengthBig then .ok r.lengthBig
    else raise .overflowError "Python int too large to convert to C ssize_t"
  else .ok r.length

def getItem (key : Int) : Except Halt Int :=
  if InRange key then
    if r.big then
      let idx := if key < 0 then key + r.lengthBig else key
      if idx < 0 ∨ r.lengthBig ≤ idx then raise .indexError "range object index out of range"
      else .ok (idx * r.bStep + r.bStart)
    else
      let i := if key < 0 then wrap (key + r.length) else key
      if i < 0 ∨ r.length ≤ i then raise .indexError "range object index out of range"
      else .ok (wrap (r.start + wrap (i * r.step)))
  else raise .indexError "cannot fit 'int' into an index-sized integer"

def getSlice (lo hi step : SlicePart) : Except Halt RangeObject := do
  if r.big then raise .overflowError "Python int too large to convert to C ssize_t"
  else
    let (start, stop, st) ← sliceBounds lo hi step r.length
    return {
      start := wrap (r.start + wrap (start * r.step))
      stop := wrap (r.start + wrap (stop * r.step))
      step := wrap (r.step * st)
      bigStart := none
      bigStop := none
      bigStep := none }

end RangeObject

def rangeEquals (a b : RangeObject) : Bool :=
  if a.big || b.big then
    if a.lenAsBig ≠ b.lenAsBig then false
    else if a.lenAsBig = 0 then true
    else if a.bStart ≠ b.bStart then false
    else a.lenAsBig = 1 || a.bStep = b.bStep
  else
    if a.length ≠ b.length then false
    else if a.length = 0 then true
    else if a.start ≠ b.start then false
    else a.length = 1 || a.step = b.step

/-- An iterator counts in words or walks up or down to the bound in arbitrary precision. -/
inductive RangeIter
  | counting (r : RangeObject) (i n : Int)
  | walking (cur stop step : Int) (up : Bool)

/-- The next element, if there is one, and the iterator after it. -/
def RangeIter.next : RangeIter → Option Int × RangeIter
  | .counting r i n =>
    if n ≤ i then (none, .counting r i n)
    else (some (wrap (r.start + wrap (i * r.step))), .counting r (i + 1) n)
  | .walking cur stop step up =>
    if (if up then stop ≤ cur else cur ≤ stop) then (none, .walking cur stop step up)
    else (some cur, .walking (cur + step) stop step up)

def RangeObject.iter (r : RangeObject) : RangeIter :=
  if r.big then .walking r.bStart r.bStop r.bStep (0 < r.bStep) else .counting r 0 r.length

/-- What the call number `n` of `next` gives. -/
def RangeIter.nth (it : RangeIter) : Nat → Option Int
  | 0 => it.next.1
  | n + 1 => nth it.next.2 n

end Unagi.Objects
