import Mathlib.Data.List.Basic

/-! # Slices over shared arrays

A slice is a length over an array that other slices may share. Writing below a length changes what
every slice of the array sees; growing past the end of an array moves to a new one. -/

namespace Unagi.Lib

variable {α : Type}

structure Slice where
  array : Nat
  len : Nat
  deriving DecidableEq

abbrev Arrays (α : Type) := List (List α)

namespace Arrays
variable (h : Arrays α) (s : Slice)

def cells : List α := h.getD s.array []
def elts : List α := (h.cells s).take s.len
def store (cs : List α) : Arrays α := h.set s.array cs
def alloc (cs : List α) : Arrays α × Slice := (h ++ [cs], ⟨h.length, cs.length⟩)

structure Valid : Prop where
  array : s.array < h.length
  len : s.len ≤ (h.cells s).length

end Arrays

def overwrite (cs : List α) (i : Nat) (src : List α) : List α :=
  cs.take i ++ src ++ cs.drop (i + src.length)
@[simp] theorem length_overwrite {cs src : List α} {i : Nat} (h : i + src.length ≤ cs.length) :
    (overwrite cs i src).length = cs.length := by
  simp only [overwrite,List.length_append,List.length_take,List.length_drop]
  omega
@[simp] theorem overwrite_nil (cs : List α) (i : Nat) : overwrite cs i [] = cs := by
  rw [overwrite,List.append_nil,List.length_nil,Nat.add_zero,List.take_append_drop]
theorem drop_overwrite {cs src : List α} {i : Nat} (h : i ≤ cs.length) :
    (overwrite cs i src).drop (i + src.length) = cs.drop (i + src.length) := by
  have hlen : (cs.take i ++ src).length = i + src.length := by
    rw [List.length_append,List.length_take,Nat.min_eq_left h]
  rw [overwrite,← hlen,List.drop_left]

theorem overwrite_append {cs src src' : List α} {i : Nat} (h : i ≤ cs.length) :
    overwrite (overwrite cs i src) (i + src.length) src' = overwrite cs i (src ++ src') := by
  have hlen : (cs.take i ++ src).length = i + src.length := by
    rw [List.length_append,List.length_take,Nat.min_eq_left h]
  have htake : (overwrite cs i src).take (i + src.length) = cs.take i ++ src := by
    rw [overwrite,← hlen,List.take_left]
  rw [overwrite,htake,← List.drop_drop,drop_overwrite h,overwrite,List.drop_drop,
    List.length_append,Nat.add_assoc]
  simp only [List.append_assoc]

namespace Arrays
variable {h : Arrays α} {s t : Slice}

@[simp] theorem length_store (cs : List α) : (h.store s cs).length = h.length := List.length_set ..

theorem cells_store (hs : s.array < h.length) (cs : List α) :
    (h.store s cs).cells t = if t.array = s.array then cs else h.cells t := by
  unfold cells store
  rw [List.getD_eq_getElem?_getD,List.getElem?_set]
  by_cases heq : s.array = t.array
  · rw [if_pos heq,if_pos heq.symm,if_pos (heq ▸ hs)]
    rfl
  · rw [if_neg heq,if_neg (Ne.symm heq),← List.getD_eq_getElem?_getD]

end Arrays
end Unagi.Lib
