import Unagi.Lib.GoSlice
import Unagi.Objects.Slice

/-! # Lists and their iterators

A list holds a Go slice, and `Iter` copies its header: the iterator keeps the array and the length of
the moment it was made. The methods of the list write in place where they can and move to a new array
where they must. -/

namespace Unagi.Objects

open Lib (Slice Arrays overwrite)

variable {α : Type}

/-- An index argument: an int of any size, an object whose `__index__` answers or raises, or an object
of a type that is none. -/
inductive IndexArg
  | int (v : Int)
  | index (typeName : String) (r : Except Python.Exc Int)
  | other (typeName : String)

def methodIndex : IndexArg → Except Halt Int
  | .int v =>
    if Int64.InRange v then .ok v
    else raise .overflowError "Python int too large to convert to C ssize_t"
  | .index typeName _ | .other typeName =>
    raise .typeError ("'" ++ typeName ++ "' object cannot be interpreted as an integer")

def subscriptIndex : IndexArg → Except Halt Int
  | .int v | .index _ (.ok v) =>
    if Int64.InRange v then .ok v
    else raise .indexError "cannot fit 'int' into an index-sized integer"
  | .index _ (.error e) => .error (.raise e)
  | .other typeName =>
    raise .typeError ("list indices must be integers or slices, not " ++ typeName)

def seqIndex (i : Int) (n : Nat) (msg : String) : Except Halt Nat :=
  let i := if i < 0 then i + n else i
  if i < 0 ∨ n ≤ i then raise .indexError msg else .ok i.toNat

inductive ListOp (α : Type)
  | append (v : α)
  | insert (i : IndexArg) (v : α)
  | pop (i : Option IndexArg)
  | remove (v : α)
  | clear
  | reverse
  | setItem (i : IndexArg) (v : α)
  | setSlice (lo hi step : SlicePart) (val : Except Halt (List α))

structure ListState (α : Type) where
  arrays : Arrays α
  list : Slice
  iter : Slice
  i : Nat

namespace ListState
variable (s : ListState α)

def elts : List α := s.arrays.elts s.list

/-- `(*sliceIter).Next`: an element, or nothing when exhausted. -/
def next : Except Halt (Option α) × ListState α :=
  if s.iter.len ≤ s.i then (.ok none, s)
  else
    match (s.arrays.elts s.iter)[s.i]? with
    | some v => (.ok (some v), { s with i := s.i + 1 })
    | none => (.error .panic, s)

def inPlace (cs : List α) (len : Nat) : ListState α :=
  { s with arrays := s.arrays.store s.list cs, list := { s.list with len := len } }
def moved (cs : List α) (len : Nat) : ListState α :=
  let (arrays, list) := s.arrays.alloc cs
  { s with arrays := arrays, list := { list with len := len } }

section
variable (same : α → α → Bool) (grow : Nat → Nat → Nat) (nil : α)

/-- Go's `append` of one element: in place where the array has room, else in a new array that has
some capacity to spare, as `grow` says. -/
def appendElt (v : α) : ListState α :=
  let cs := s.arrays.cells s.list
  let len := s.list.len
  if len < cs.length then s.inPlace (cs.set len v) (len + 1)
  else s.moved (s.elts ++ v :: List.replicate (grow cs.length (len + 1) - (len + 1)) nil) (len + 1)

/-- Go's `append(elts[:i], elts[i+1:]...)`: the elements behind an index move down in place. -/
def removeAt (i : Nat) : ListState α :=
  s.inPlace (overwrite (s.arrays.cells s.list) i (s.elts.drop (i + 1))) (s.list.len - 1)

def insertAt (i : Nat) (v : α) : ListState α :=
  let s := s.appendElt grow nil nil
  let cs := overwrite (s.arrays.cells s.list) (i + 1) ((s.elts.drop i).take (s.list.len - (i + 1)))
  s.inPlace (cs.set i v) s.list.len

/-- A change of the list: what it returns or raises, and the state after it. -/
def apply : ListOp α → Except Halt (Option α) × ListState α
  | .append v => (.ok none, s.appendElt grow nil v)
  | .insert i v =>
    match methodIndex i with
    | .error h => (.error h, s)
    | .ok i =>
      let i := if i < 0 then i + s.list.len else i
      (.ok none, s.insertAt grow nil (min i.toNat s.list.len) v)
  | .pop arg =>
    match arg.elim (.ok ((s.list.len : Int) - 1)) methodIndex with
    | .error h => (.error h, s)
    | .ok i =>
      if s.list.len = 0 then (raise .indexError "pop from empty list", s)
      else
        match seqIndex i s.list.len "pop index out of range" with
        | .error h => (.error h, s)
        | .ok i => (.ok s.elts[i]?, s.removeAt i)
  | .remove v =>
    match s.elts.findIdx? (same · v) with
    | some i => (.ok none, s.removeAt i)
    | none => (raise .valueError "list.remove(x): x not in list", s)
  | .clear => (.ok none, s.moved [] 0)
  | .reverse =>
    (.ok none, s.inPlace (overwrite (s.arrays.cells s.list) 0 s.elts.reverse) s.list.len)
  | .setItem i v =>
    match subscriptIndex i with
    | .error h => (.error h, s)
    | .ok i =>
      match seqIndex i s.list.len "list assignment index out of range" with
      | .error h => (.error h, s)
      | .ok i => (.ok none, s.inPlace ((s.arrays.cells s.list).set i v) s.list.len)
  | .setSlice lo hi step val =>
    match sliceIndices lo hi step s.list.len with
    | .error h => (.error h, s)
    | .ok (_, st, _) =>
      let (r, elts) := setSlice s.elts lo hi step val
      match r with
      | .error h => (.error h, s)
      | .ok () =>
        -- a contiguous slice is spliced into a new array, the others are stored into one by one
        (.ok none, if st = 1 then s.moved elts elts.length
          else s.inPlace (overwrite (s.arrays.cells s.list) 0 elts) s.list.len)

end

/-! ## Runs -/

/-- A step of a program that iterates over a list: it asks for the next element, or it changes the
list. -/
inductive Step (α : Type)
  | next
  | change (op : ListOp α)

section
variable (same : α → α → Bool) (grow : Nat → Nat → Nat) (nil : α)

/-- The iteration is live: each `Next`, the `k`-th one first, returns the element that the list then
has at its index, and nothing once the index is past the end. -/
def Live (k : Nat) : ListState α → List (Step α) → Prop
  | _, [] => True
  | s, .next :: steps => s.next.1 = .ok s.elts[k]? ∧ Live (k + 1) s.next.2 steps
  | s, .change op :: steps => Live k (s.apply same grow nil op).2 steps

/-- A change that raises, or that stores into the elements without adding or removing any. -/
def keeps : ListOp α → Bool
  | .append _ | .clear => false
  | .insert i _ => !(methodIndex i).isOk
  | .pop arg =>
    match arg.elim (.ok ((s.list.len : Int) - 1)) methodIndex with
    | .error _ => true
    | .ok i => s.list.len = 0 || !(seqIndex i s.list.len "pop index out of range").isOk
  | .remove v => (s.elts.findIdx? (same · v)).isNone
  | .reverse | .setItem .. => true
  | .setSlice lo hi step val =>
    match sliceIndices lo hi step s.list.len with
    | .error _ => true
    | .ok (_, st, _) => st ≠ 1 || !val.isOk

/-- Between the start of the iteration and its last `Next`, every change is one that keeps the
elements in place. -/
def Steady : ListState α → List (Step α) → Prop
  | _, [] => True
  | s, .next :: steps => Steady s.next.2 steps
  | s, .change op :: steps =>
    (s.keeps same op = true ∨ ∀ t ∈ steps, t ≠ .next) ∧ Steady (s.apply same grow nil op).2 steps

end

/-- The iterator and the list have one header, and the next index is `k` up to the end. -/
structure InStep (k : Nat) : Prop where
  header : s.iter = s.list
  valid : s.arrays.Valid s.list
  index : s.i = min k s.list.len

end ListState

section
variable {same : α → α → Bool} {grow : Nat → Nat → Nat} {nil : α} {s : ListState α} {k : Nat}

theorem length_assign (st : Int) (elts : List α) (j : Int) (items : List α) :
    (assign st elts j items).2.length = elts.length := by
  induction items generalizing elts j with
  | nil => rfl
  | cons v items ih =>
    unfold assign
    split
    · rw [ih,List.length_set]
    · rfl

theorem length_setSlice {elts : List α} {lo hi step : SlicePart} {start st n : Int}
    (hidx : sliceIndices lo hi step elts.length = .ok (start, st, n)) (hst : st ≠ 1)
    (val : Except Halt (List α)) : (setSlice elts lo hi step val).2.length = elts.length := by
  rw [setSlice,hidx]
  cases val with
  | error e => rfl
  | ok items =>
    dsimp only
    rw [if_neg hst]
    split
    · rfl
    · exact length_assign ..

namespace ListState

theorem length_elts (h : s.arrays.Valid s.list) : s.elts.length = s.list.len := by
  rw [elts,Arrays.elts,List.length_take,Nat.min_eq_left h.len]

theorem InStep.inPlace (h : s.InStep k) {cs : List α}
    (hcs : cs.length = (s.arrays.cells s.list).length) : (s.inPlace cs s.list.len).InStep k := by
  have hcells : (s.arrays.store s.list cs).cells s.list = cs := by
    rw [Arrays.cells_store h.valid.array,if_pos rfl]
  have hvalid : (s.arrays.store s.list cs).Valid s.list := by
    constructor
    · rw [Arrays.length_store]
      exact h.valid.array
    · rw [hcells,hcs]
      exact h.valid.len
  exact { header := h.header, valid := hvalid, index := h.index }

theorem InStep.next (h : s.InStep k) :
    s.next.1 = .ok s.elts[k]? ∧ s.next.2.InStep (k + 1) := by
  have hlen := length_elts h.valid
  have hindex := h.index
  have hiter : s.arrays.elts s.iter = s.elts := by rw [h.header,elts]
  have hend : s.iter.len = s.list.len := by rw [h.header]
  by_cases hk : k < s.list.len
  · have hi : s.i = k := by omega
    have hsome : s.elts[k]? = some s.elts[k] := List.getElem?_eq_getElem (by omega)
    have hnext : s.next = (.ok (some s.elts[k]), { s with i := s.i + 1 }) := by
      rw [ListState.next,if_neg (by omega),hiter,hi,hsome]
    rw [hnext,hsome]
    exact ⟨rfl,h.header,h.valid,by change s.i + 1 = min (k + 1) s.list.len; omega⟩
  · have hnext : s.next = (.ok none, s) := by
      rw [ListState.next,if_pos (by omega)]
    rw [hnext,List.getElem?_eq_none (by omega)]
    exact ⟨rfl,h.header,h.valid,by change s.i = min (k + 1) s.list.len; omega⟩

theorem InStep.change (h : s.InStep k) {op : ListOp α} (hop : s.keeps same op = true) :
    (s.apply same grow nil op).2.InStep k := by
  have hlen := length_elts h.valid
  have hcap := h.valid.len
  cases op with
  | append v => cases hop
  | clear => cases hop
  | insert i v =>
    simp only [keeps] at hop
    simp only [apply]
    cases hi : methodIndex i with
    | error e => exact h
    | ok i => rw [hi] at hop; cases hop
  | pop arg =>
    simp only [keeps] at hop
    simp only [apply]
    cases hi : arg.elim (.ok ((s.list.len : Int) - 1)) methodIndex with
    | error e => exact h
    | ok i =>
      rw [hi] at hop
      dsimp only at hop ⊢
      split
      · exact h
      · rename_i hne
        cases hseq : seqIndex i s.list.len "pop index out of range" with
        | error e => exact h
        | ok j =>
          rw [hseq] at hop
          simp [hne,Except.isOk,Except.toBool] at hop
  | remove v =>
    simp only [keeps] at hop
    simp only [apply]
    rw [Option.isNone_iff_eq_none.mp hop]
    exact h
  | reverse =>
    apply h.inPlace
    rw [Lib.length_overwrite]
    rw [List.length_reverse]
    omega
  | setItem i v =>
    simp only [apply]
    cases subscriptIndex i with
    | error e => exact h
    | ok i =>
      dsimp only
      cases seqIndex i s.list.len "list assignment index out of range" with
      | error e => exact h
      | ok i => exact h.inPlace (List.length_set ..)
  | setSlice lo hi step val =>
    simp only [keeps] at hop
    simp only [apply]
    cases hidx : sliceIndices lo hi step s.list.len with
    | error e => exact h
    | ok p =>
      obtain ⟨start,st,n⟩ := p
      rw [hidx] at hop
      dsimp only at hop ⊢
      cases val with
      | error e =>
        rw [setSlice,hlen,hidx]
        exact h
      | ok items =>
        have hst : st ≠ 1 := by simpa [Except.isOk,Except.toBool] using hop
        rw [← hlen] at hidx
        have hkept := length_setSlice hidx hst (.ok items)
        generalize setSlice s.elts lo hi step (.ok items) = p at hkept ⊢
        obtain ⟨r,elts⟩ := p
        cases r with
        | error e => exact h
        | ok u =>
          dsimp only
          rw [if_neg hst]
          apply h.inPlace
          rw [Lib.length_overwrite]
          change elts.length = s.elts.length at hkept
          omega

theorem live_of_no_next {steps : List (Step α)} (h : ∀ t ∈ steps, t ≠ .next) :
    Live same grow nil k s steps := by
  induction steps generalizing s with
  | nil => trivial
  | cons t steps ih =>
    rw [List.forall_mem_cons] at h
    cases t with
    | next => exact absurd rfl h.1
    | change op => exact ih h.2

theorem InStep.live (h : s.InStep k) {steps : List (Step α)} (hsteady : Steady same grow nil s steps) :
    Live same grow nil k s steps := by
  induction steps generalizing s k with
  | nil => trivial
  | cons t steps ih =>
    cases t with
    | next =>
      obtain ⟨hresult,hstep⟩ := h.next
      exact ⟨hresult,ih hstep hsteady⟩
    | change op =>
      rcases hsteady.1 with hop | hlast
      · exact ih (h.change hop) hsteady.2
      · change Live same grow nil k (s.apply same grow nil op).2 steps
        exact live_of_no_next hlast

end ListState

def iter (arrays : Arrays α) (list : Slice) : ListState α := ⟨arrays, list, list, 0⟩

/-- In every run from a new iterator in which the changes before the last `Next` raise or add and remove
nothing, each `Next` returns the element that the list then has at its index, or reports its end. -/
theorem list_iteration_live {arrays : Arrays α} {list : Slice} (hlist : arrays.Valid list)
    {steps : List (ListState.Step α)}
    (hsteady : ListState.Steady same grow nil (iter arrays list) steps) :
    ListState.Live same grow nil 0 (iter arrays list) steps := by
  have hstart : (iter arrays list).InStep 0 :=
    { header := rfl, valid := hlist, index := (Nat.zero_min _).symm }
  exact hstart.live hsteady

end

/-- Reversing a list of two elements under its iterator. -/
theorem reversed_iteration_live :
    ListState.Live (fun a b : Nat => a == b) (fun _ n => n) 0 0 (iter [[1, 2]] ⟨0, 2⟩)
      [.next, .change .reverse, .next, .next] :=
  list_iteration_live ⟨by decide,by decide⟩ ⟨.inl rfl,trivial⟩

/-- An iterator does not see an element that is appended after it was made, and it returns one that
has been popped. -/
theorem stale_iteration :
    ¬ ListState.Live (fun a b : Nat => a == b) (fun _ n => n) 0 0 (iter [[1]] ⟨0, 1⟩)
      [.next, .change (.append 2), .next] ∧
    ¬ ListState.Live (fun a b : Nat => a == b) (fun _ n => n) 0 0 (iter [[1, 2]] ⟨0, 2⟩)
      [.next, .change (.pop none), .next] := by
  constructor
  · intro h
    have hmissed : (Except.ok none : Except Halt (Option Nat)) = .ok (some 2) := h.2.1
    cases hmissed
  · intro h
    have hstale : (Except.ok (some 2) : Except Halt (Option Nat)) = .ok none := h.2.1
    cases hstale

end Unagi.Objects
