import Mathlib.Logic.Equiv.Basic

/-! # Heap order with a hole

An array is a binary tree whose node `i` has the parent `(i - 1) / 2`. While an element is on its way along
a path, the order is broken around its place only. The array is a function of the place, which has no
value outside of the array, so an edge out of it is in order by itself. -/

namespace Unagi.Lib

variable {α : Type*} (le : α → α → Prop)

def parent (i : Nat) : Nat := (i - 1) / 2
theorem parent_lt {i : Nat} (h : 0 < i) : parent i < i := by
  unfold parent
  omega
def Edge (f : Nat → Option α) (p i : Nat) : Prop := ∀ x ∈ f p, ∀ y ∈ f i, le x y

/-- The tree is in order from a place on: every edge out of a place from `s` on is. -/
def HeapFrom (s : Nat) (f : Nat → Option α) : Prop :=
  ∀ i, 0 < i → s ≤ parent i → Edge le f (parent i) i

/-- The tree from `s` on is in order but for the edges at one place, and there the parent of the place is
in order with its children. -/
structure Hole (s : Nat) (f : Nat → Option α) (pos : Nat) : Prop where
  edges : ∀ i, 0 < i → s ≤ parent i → i ≠ pos → parent i ≠ pos → Edge le f (parent i) i
  past : s < pos → ∀ c, 0 < c → parent c = pos → Edge le f (parent pos) c

def Tops (f : Nat → Option α) (pos : Nat) : Prop := ∀ c, 0 < c → parent c = pos → Edge le f pos c

inductive Below (s : Nat) : Nat → Prop
  | root : Below s s
  | child {c : Nat} (hc : 0 < c) (h : Below s (parent c)) : Below s c

theorem Below.start_le {s i : Nat} (h : Below s i) : s ≤ i := by
  induction h with
  | root => exact Nat.le_refl s
  | child hc _ ih => exact Nat.le_trans ih (Nat.le_of_lt (parent_lt hc))
theorem Below.parent {s i : Nat} (h : Below s i) (hi : s < i) : Below s (parent i) := by
  cases h with
  | root => exact absurd hi (Nat.lt_irrefl s)
  | child hc h => exact h
def exchange (f : Nat → Option α) (i j : Nat) : Nat → Option α := fun k => f (Equiv.swap i j k)

variable {le} {f : Nat → Option α} {s pos : Nat}

@[simp] theorem exchange_left (i j : Nat) : exchange f i j i = f j := by simp [exchange]
@[simp] theorem exchange_right (i j : Nat) : exchange f i j j = f i := by simp [exchange]
theorem exchange_of_ne {i j k : Nat} (hi : k ≠ i) (hj : k ≠ j) : exchange f i j k = f k := by
  simp [exchange,Equiv.swap_apply_of_ne_of_ne hi hj]
theorem HeapFrom.hole (h : HeapFrom le (s + 1) f) : Hole le s f s where
  edges i hi hs _ hp := h i hi (by omega)
  past hs := absurd hs (Nat.lt_irrefl s)

theorem Hole.down (h : Hole le s f pos) {c : Nat} (hc : 0 < c) (hpos : parent c = pos)
    (hs : s ≤ pos) (hleast : ∀ d, 0 < d → parent d = pos → d ≠ c → Edge le f c d) :
    Hole le s (exchange f pos c) c where
  edges := by
    intro i hi hsi hic hpc
    have hposc : pos ≠ c := hpos ▸ Nat.ne_of_lt (parent_lt hc)
    by_cases hip : i = pos
    · subst hip
      have hne := Nat.ne_of_lt (parent_lt hi)
      rw [Edge,exchange_left,exchange_of_ne hne hpc]
      exact h.past (Nat.lt_of_le_of_lt hsi (parent_lt hi)) c hc hpos
    · rw [Edge,exchange_of_ne hip hic]
      by_cases hpp : parent i = pos
      · rw [hpp,exchange_left]
        exact hleast i hi hpp hic
      · rw [exchange_of_ne hpp hpc]
        exact h.edges i hi hsi hip hpp
  past := by
    intro _ d hd hdc
    have hdne : d ≠ c := hdc ▸ (Nat.ne_of_lt (parent_lt hd)).symm
    have hcd := parent_lt hd
    have hpc := parent_lt hc
    have hdpos : d ≠ pos := by omega
    have hcpos : c ≠ pos := by omega
    rw [Edge,hpos,exchange_left,exchange_of_ne hdpos hdne]
    have hedge := h.edges d hd (by omega) hdpos (by rwa [hdc])
    rwa [hdc] at hedge

theorem Hole.up (htrans : ∀ x y z, le x y → le y z → le x z) (h : Hole le s f pos)
    (hbelow : Below s pos) (hpos : s < pos) {x p : α} (hx : f pos = some x)
    (hp : f (parent pos) = some p) (hxp : le x p) :
    Hole le s (exchange f pos (parent pos)) (parent pos) ∧
      Tops le (exchange f pos (parent pos)) (parent pos) := by
  have hlt : parent pos < pos := parent_lt (Nat.zero_lt_of_lt hpos)
  have hq : Below s (parent pos) := hbelow.parent hpos
  -- the parent's value is in order with everything below the parent, also after the exchange
  have hchild (c : Nat) (hc : 0 < c) (hcq : parent c = parent pos) :
      c = pos ∧ exchange f pos (parent pos) c = some p ∨
        c ≠ pos ∧ ∀ y ∈ exchange f pos (parent pos) c, le p y := by
    by_cases hcpos : c = pos
    · exact .inl ⟨hcpos,by rw [hcpos,exchange_left,hp]⟩
    · refine .inr ⟨hcpos,fun y hy => ?_⟩
      have hcne : c ≠ parent pos := hcq ▸ (Nat.ne_of_lt (parent_lt hc)).symm
      rw [exchange_of_ne hcpos hcne] at hy
      have hedge := h.edges c hc (hcq ▸ hq.start_le) hcpos (by omega)
      rw [hcq] at hedge
      exact hedge p hp y hy
  refine ⟨⟨?_,?_⟩,?_⟩
  · intro i hi hsi hiq hpq
    have hipos : i ≠ pos := fun heq => hpq (by rw [heq])
    rw [Edge,exchange_of_ne hipos hiq]
    by_cases hpp : parent i = pos
    · rw [hpp,exchange_left]
      exact h.past hpos i hi hpp
    · rw [exchange_of_ne hpp hpq]
      exact h.edges i hi hsi hipos hpp
  · intro hsq c hc hcq z hz y hy
    have hqlt : parent (parent pos) < parent pos := parent_lt (Nat.zero_lt_of_lt hsq)
    rw [exchange_of_ne (by omega) (by omega)] at hz
    have hzp : le z p := h.edges (parent pos) (Nat.zero_lt_of_lt hsq) (hq.parent hsq).start_le
      (by omega) (by omega) z hz p hp
    rcases hchild c hc hcq with ⟨-,hval⟩ | ⟨-,hval⟩
    · rw [hval] at hy
      cases hy
      exact hzp
    · exact htrans z p y hzp (hval y hy)
  · intro c hc hcq z hz y hy
    rw [exchange_right,hx] at hz
    cases hz
    rcases hchild c hc hcq with ⟨-,hval⟩ | ⟨-,hval⟩
    · rw [hval] at hy
      cases hy
      exact hxp
    · exact htrans x p y hxp (hval y hy)

theorem Hole.close (h : Hole le s f pos) (htops : Tops le f pos)
    (hstop : s < pos → Edge le f (parent pos) pos) : HeapFrom le s f := by
  intro i hi hsi
  by_cases hip : i = pos
  · subst hip
    exact hstop (Nat.lt_of_le_of_lt hsi (parent_lt hi))
  · by_cases hpp : parent i = pos
    · rw [hpp]
      exact htops i hi hpp
    · exact h.edges i hi hsi hip hpp

theorem HeapFrom.root_le (hrefl : ∀ x, le x x) (htrans : ∀ x y z, le x y → le y z → le x z)
    (h : HeapFrom le 0 f) (hfull : ∀ i j, i ≤ j → (f j).isSome → (f i).isSome) (i : Nat) :
    Edge le f 0 i := by
  induction i using Nat.strongRecOn with
  | _ i ih =>
    intro x hx y hy
    by_cases hi : i = 0
    · subst hi
      cases hx.symm.trans hy
      exact hrefl x
    · have hlt := parent_lt (Nat.pos_of_ne_zero hi)
      obtain ⟨z,hz⟩ := Option.isSome_iff_exists.mp
        (hfull (parent i) i (Nat.le_of_lt hlt) (Option.isSome_of_mem hy))
      exact htrans x z y (ih _ hlt x hx z hz)
        (h i (Nat.pos_of_ne_zero hi) (Nat.zero_le _) z hz y hy)

end Unagi.Lib
