import Unagi.Lib.Except
import Unagi.Runtime.Struct

/-! # Records as cells

A format lays out a record as a row of cells: pad bytes, values of a fixed width, and strings. Packing
and unpacking a record is packing and unpacking its cells one after the other. -/

namespace Unagi.Runtime

open Lib (overwrite toBytes ofBytes)
open Objects (Bytes Halt)

/-- A part of a record: pad bytes, one value, or a string field. -/
inductive Cell
  | pad (n : Nat)
  | value (code : StructCode) (width : Nat)
  | field (n : Nat) (pascal : Bool)

def Cell.size : Cell → Nat
  | pad n => n
  | value _ width => width
  | field n _ => n

def cellsSize (cells : List Cell) : Nat := (cells.map Cell.size).sum
@[simp] theorem cellsSize_nil : cellsSize [] = 0 := rfl
@[simp] theorem cellsSize_cons (c : Cell) (cells : List Cell) :
    cellsSize (c :: cells) = c.size + cellsSize cells := List.sum_cons
@[simp] theorem cellsSize_append (cells cells' : List Cell) :
    cellsSize (cells ++ cells') = cellsSize cells + cellsSize cells' := by
  rw [cellsSize,List.map_append,List.sum_append,cellsSize,cellsSize]

def StructItem.cells (native : Bool) (it : StructItem) : List Cell :=
  match it.code with
  | .x => [.pad it.count]
  | .s => [.field it.count false]
  | .p => [.field it.count true]
  | code => List.replicate it.count (.value code (code.elemSize native))
def cellsOf (native : Bool) : List StructItem → Nat → List Cell
  | [], _ => []
  | it :: items, off =>
    let start := aligned native off it.code
    .pad (start - off) :: (it.cells native ++ cellsOf native items (itemEnd native start it))

theorem cellsSize_cells (native : Bool) (it : StructItem) :
    cellsSize (it.cells native) = it.count * it.code.elemSize native := by
  have hrow : ∀ code : StructCode, cellsSize (List.replicate it.count (Cell.value code (code.elemSize native))) =
      it.count * code.elemSize native := by
    intro code
    rw [cellsSize,List.map_replicate,List.sum_replicate_nat]
    rfl
  unfold StructItem.cells
  cases hcode : it.code <;> first
    | exact hrow _
    | exact (Nat.mul_one _).symm

section
variable (packFloat : Bool → StructCode → StructValue → Except Halt Bytes) (big : Bool)

/-- Pack one cell over its old bytes; the values that are left come with its bytes. -/
def packCell (c : Cell) (old : Bytes) (vals : List StructValue) :
    Except Halt (Bytes × List StructValue) :=
  match c, vals with
  | .pad n, vals => .ok (List.replicate n 0, vals)
  | _, [] => .error .panic
  | .value code width, v :: vals => do return (← packOne packFloat big code width v, vals)
  | .field _ pascal, v :: vals => do return (← packBytesField old v pascal, vals)

def packCells : List Cell → Bytes → List StructValue → Except Halt (Bytes × List StructValue)
  | [], _, vals => .ok ([], vals)
  | c :: cells, old, vals => do
    let (bs, vals) ← packCell packFloat big c (old.take c.size) vals
    let (rest, vals) ← packCells cells (old.drop c.size) vals
    return (bs ++ rest, vals)

end

section
variable (unpackFloat : Bool → StructCode → Bytes → StructValue) (big : Bool)

def unpackCell (c : Cell) (bs : Bytes) : List StructValue :=
  match c with
  | .pad _ => []
  | .value code width => [unpackOne unpackFloat big code width bs]
  | .field _ false => [.bytes bs]
  | .field n true =>
    [.bytes (match bs with
      | [] => []
      | len :: data => data.take (min len.toNat (n - 1)))]

def unpackCells : List Cell → Bytes → List StructValue
  | [], _ => []
  | c :: cells, bs => unpackCell unpackFloat big c (bs.take c.size) ++ unpackCells cells (bs.drop c.size)

end

section
variable {packFloat : Bool → StructCode → StructValue → Except Halt Bytes} {big native : Bool}

/-- A value that has a fixed number of bytes and is no float. -/
def Cell.Plain (c : Cell) : Prop :=
  ∀ code width, c = .value code width → code.isFloat = false ∧ ∃ native, width = code.elemSize native

theorem packCells_append (cells cells' : List Cell) (old : Bytes) (vals : List StructValue) :
    packCells packFloat big (cells ++ cells') old vals = (do
      let (bs, vals) ← packCells packFloat big cells old vals
      let (rest, vals) ← packCells packFloat big cells' (old.drop (cellsSize cells)) vals
      return (bs ++ rest, vals)) := by
  induction cells generalizing old vals with
  | nil =>
    rw [List.nil_append]
    cases h : packCells packFloat big cells' old vals <;> simp [packCells,bind,Except.bind,h,pure,Except.pure]
  | cons c cells ih =>
    rw [List.cons_append,packCells,packCells]
    cases hc : packCell packFloat big c (old.take c.size) vals with
    | error e => rfl
    | ok p =>
      obtain ⟨bs,vals⟩ := p
      simp only [bind,Except.bind,ih,List.drop_drop,cellsSize_cons]
      cases packCells packFloat big cells (old.drop c.size) vals with
      | error e => rfl
      | ok q =>
        obtain ⟨bs',vals⟩ := q
        simp only [pure,Except.pure]
        cases packCells packFloat big cells' (old.drop (c.size + cellsSize cells)) vals with
        | error e => rfl
        | ok r => simp [List.append_assoc]

theorem cellsSize_cellsOf_cons (it : StructItem) (items : List StructItem) (off : Nat) :
    cellsSize (cellsOf native (it :: items) off) =
      aligned native off it.code - off + it.count * it.code.elemSize native +
        cellsSize (cellsOf native items (itemEnd native (aligned native off it.code) it)) := by
  rw [cellsOf,cellsSize_cons,cellsSize_append,cellsSize_cells,Cell.size,Nat.add_assoc]
theorem le_aligned (native : Bool) (off : Nat) (code : StructCode) : off ≤ aligned native off code := by
  unfold aligned
  split <;> omega

theorem plain_cells {it : StructItem} (hcode : it.code.isFloat = false) :
    ∀ c ∈ it.cells native, c.Plain := by
  have hrow : ∀ c ∈ List.replicate it.count (Cell.value it.code (it.code.elemSize native)), c.Plain := by
    intro c hc code width heq
    rw [List.eq_of_mem_replicate hc] at heq
    cases heq
    exact ⟨hcode,native,rfl⟩
  obtain ⟨code,count⟩ := it
  cases code with
  | x | s | p =>
    intro c hc code width heq
    rw [List.mem_singleton.mp hc] at heq
    cases heq
  | _ => exact hrow

theorem plain_cellsOf {items : List StructItem} (hitems : ∀ it ∈ items, it.code.isFloat = false)
    (off : Nat) : ∀ c ∈ cellsOf native items off, c.Plain := by
  induction items generalizing off with
  | nil => exact fun c hc => absurd hc List.not_mem_nil
  | cons it items ih =>
    rw [List.forall_mem_cons] at hitems
    have hpad : ∀ n, (Cell.pad n).Plain := by
      intro n code width heq
      cases heq
    rw [cellsOf,List.forall_mem_cons,List.forall_mem_append]
    exact ⟨hpad _,plain_cells hitems.1,ih hitems.2 _⟩

end

section
variable {unpackFloat : Bool → StructCode → Bytes → StructValue} {big native : Bool}

theorem unpackCells_append (cells cells' : List Cell) (bs : Bytes) :
    unpackCells unpackFloat big (cells ++ cells') bs =
      unpackCells unpackFloat big cells bs ++
        unpackCells unpackFloat big cells' (bs.drop (cellsSize cells)) := by
  induction cells generalizing bs with
  | nil => rfl
  | cons c cells ih =>
    rw [List.cons_append,unpackCells,unpackCells,ih,cellsSize_cons,List.drop_drop,
      List.append_assoc]

theorem unpackElems_eq (code : StructCode) (width count off : Nat) (b : Bytes) :
    unpackElems unpackFloat big code width count off b =
      unpackCells unpackFloat big (List.replicate count (.value code width)) (b.drop off) := by
  induction count generalizing off with
  | zero => rfl
  | succ count ih =>
    rw [unpackElems,ih,List.replicate_succ,unpackCells,List.drop_drop]
    rfl

theorem unpackItem_eq (it : StructItem) (off : Nat) (b : Bytes) :
    unpackItem unpackFloat big native it off b =
      unpackCells unpackFloat big (it.cells native) (b.drop off) := by
  obtain ⟨code,count⟩ := it
  cases code with
  | x | s | p => rfl
  | _ => exact unpackElems_eq ..

theorem unpackItems_eq (items : List StructItem) (off : Nat) (b : Bytes) :
    unpackItems unpackFloat big native items off b =
      unpackCells unpackFloat big (cellsOf native items off) (b.drop off) := by
  induction items generalizing off with
  | nil => rfl
  | cons it items ih =>
    have hle := le_aligned native off it.code
    have hstart : off + (aligned native off it.code - off) = aligned native off it.code := by omega
    rw [unpackItems,ih,unpackItem_eq,cellsOf,unpackCells,unpackCells_append,List.drop_drop,
      List.drop_drop,Cell.size,hstart,cellsSize_cells]
    rfl

end
end Unagi.Runtime
