import Mathlib.Algebra.BigOperators.Group.List.Basic
import Mathlib.Algebra.GroupWithZero.Nat

/-! # Worklists

A walk over a graph that keeps the nodes still to be looked at on a stack and those seen in a list
finds what can be reached through kept nodes, on any graph with finitely many of them. -/

namespace Unagi.Lib

variable {α : Type*}

def Leads (keep : α → Bool) (next : α → List α) (x y : α) : Prop := y ∈ next x ∧ keep y = true

/-- What holds of the stack and of the seen nodes in a walk from the node `o`. -/
structure Walk (keep : α → Bool) (next : α → List α) (o : α) (stack seen : List α) : Prop where
  nodup : seen.Nodup
  sound : ∀ x ∈ seen, Relation.TransGen (Leads keep next) o x
  waiting : ∀ x ∈ stack, keep x = true → Relation.TransGen (Leads keep next) o x
  closed : ∀ x y, x = o ∨ x ∈ seen → Leads keep next x y → y ∈ seen ∨ y ∈ stack

namespace Walk
variable {keep : α → Bool} {next : α → List α} {o x : α} {stack seen : List α}

theorem start (o : α) : Walk keep next o (next o).reverse [] where
  nodup := List.nodup_nil
  sound x hx := absurd hx List.not_mem_nil
  waiting x hx hk := .single ⟨List.mem_reverse.mp hx,hk⟩
  closed x y hx hy := by
    obtain rfl : x = o := by simpa using hx
    exact .inr (List.mem_reverse.mpr hy.1)

theorem skip (h : Walk keep next o (x :: stack) seen) (hx : x ∈ seen ∨ keep x = false) :
    Walk keep next o stack seen where
  nodup := h.nodup
  sound := h.sound
  waiting y hy := h.waiting y (List.mem_cons_of_mem _ hy)
  closed z y hz hy := by
    rcases h.closed z y hz hy with hs | hs
    · exact .inl hs
    · rcases List.mem_cons.mp hs with rfl | hs
      · rcases hx with hx | hx
        · exact .inl hx
        · exact absurd hy.2 (by simp [hx])
      · exact .inr hs

theorem visit (h : Walk keep next o (x :: stack) seen) (hx : x ∉ seen) (hk : keep x = true) :
    Walk keep next o ((next x).reverse ++ stack) (x :: seen) where
  nodup := List.nodup_cons.mpr ⟨hx,h.nodup⟩
  sound := List.forall_mem_cons.mpr ⟨h.waiting x List.mem_cons_self hk,h.sound⟩
  waiting y hy hky := by
    rcases List.mem_append.mp hy with hy | hy
    · exact (h.waiting x List.mem_cons_self hk).tail ⟨List.mem_reverse.mp hy,hky⟩
    · exact h.waiting y (List.mem_cons_of_mem _ hy) hky
  closed z y hz hy := by
    by_cases hzx : z = x
    · subst hzx
      exact .inr (List.mem_append_left _ (List.mem_reverse.mpr hy.1))
    · rcases h.closed z y (by simpa [hzx] using hz) hy with hs | hs
      · exact .inl (List.mem_cons_of_mem _ hs)
      · rcases List.mem_cons.mp hs with rfl | hs
        · exact .inl List.mem_cons_self
        · exact .inr (List.mem_append_right _ hs)

theorem mem_iff (h : Walk keep next o [] seen) (x : α) :
    x ∈ seen ↔ Relation.TransGen (Leads keep next) o x := by
  constructor
  · exact h.sound x
  · intro hx
    have hnext : ∀ z y, z = o ∨ z ∈ seen → Leads keep next z y → y ∈ seen := by
      intro z y hz hy
      simpa using h.closed z y hz hy
    induction hx with
    | single hy => exact hnext _ _ (.inl rfl) hy
    | tail _ hy ih => exact hnext _ _ (.inr ih) hy

end Walk

section
variable [DecidableEq α] (keep : α → Bool) (next : α → List α)

def worklist : Nat → List α → List α → Option (List α)
  | _, [], seen => some seen
  | 0, _ :: _, _ => none
  | fuel + 1, x :: stack, seen =>
    if x ∈ seen ∨ keep x = false then worklist fuel stack seen
    else worklist fuel ((next x).reverse ++ stack) (x :: seen)

/-- The edges out of the nodes that are not seen. -/
def pending (nodes seen : List α) : Nat :=
  ((nodes.filter (· ∉ seen)).map fun x => (next x).length).sum

variable {keep}

theorem pending_cons {nodes seen : List α} {x : α} (hnodes : nodes.Nodup) (hx : x ∈ nodes)
    (hseen : x ∉ seen) :
    pending next nodes (x :: seen) + (next x).length = pending next nodes seen := by
  unfold pending
  induction nodes with
  | nil => exact absurd hx List.not_mem_nil
  | cons y nodes ih =>
    obtain ⟨hy,hnodes⟩ := List.nodup_cons.mp hnodes
    rcases List.mem_cons.mp hx with rfl | hx
    · have hrest : nodes.filter (· ∉ x :: seen) = nodes.filter (· ∉ seen) := by
        apply List.filter_congr
        intro z hz
        have hne : z ≠ x := fun h => hy (h ▸ hz)
        simp [hne]
      simp only [List.filter_cons]
      rw [hrest]
      simp [hseen,Nat.add_comm]
    · have hne : y ≠ x := fun h => hy (h ▸ hx)
      have ih := ih hnodes hx
      simp only [List.filter_cons]
      by_cases hys : y ∈ seen
      · simpa [hys,hne] using ih
      · simp only [List.mem_cons,hne,hys,or_self,not_false_eq_true,decide_true,if_true,
          List.map_cons,List.sum_cons] at ih ⊢
        omega

variable {next}

theorem Walk.runs {o : α} {stack seen nodes : List α} (hnodes : nodes.Nodup) (hkeep : ∀ x, keep x = true → x ∈ nodes)
    (h : Walk keep next o stack seen) {fuel : Nat}
    (hfuel : stack.length + pending next nodes seen ≤ fuel) :
    ∃ found, worklist keep next fuel stack seen = some found ∧ Walk keep next o [] found := by
  induction fuel generalizing stack seen with
  | zero =>
    obtain rfl : stack = [] := List.eq_nil_of_length_eq_zero (by omega)
    exact ⟨seen,by rw [worklist],h⟩
  | succ fuel ih =>
    cases stack with
    | nil => exact ⟨seen,by rw [worklist],h⟩
    | cons x stack =>
      rw [List.length_cons] at hfuel
      rw [worklist]
      split
      · rename_i hskip
        exact ih (h.skip hskip) (by omega)
      · rename_i hnew
        obtain ⟨hx,hk⟩ := not_or.mp hnew
        replace hk : keep x = true := by simpa using hk
        have hpending := pending_cons next hnodes (hkeep x hk) hx
        apply ih (h.visit hx hk)
        rw [List.length_append,List.length_reverse]
        omega

theorem worklist_reaches (keep : α → Bool) (next : α → List α) {nodes : List α} (hnodes : nodes.Nodup)
    (hkeep : ∀ x, keep x = true → x ∈ nodes) (o : α) :
    ∃ found, worklist keep next ((next o).length + pending next nodes []) (next o).reverse [] =
      some found ∧ found.Nodup ∧ ∀ x, x ∈ found ↔ Relation.TransGen (Leads keep next) o x := by
  obtain ⟨found,hrun,hwalk⟩ := (Walk.start o).runs hnodes hkeep
    (Nat.le_of_eq (congrArg (· + pending next nodes []) List.length_reverse))
  exact ⟨found,hrun,hwalk.nodup,hwalk.mem_iff⟩

end
end Unagi.Lib
