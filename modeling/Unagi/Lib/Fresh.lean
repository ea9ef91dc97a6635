import Mathlib.Data.List.Nodup
import Mathlib.Data.List.Perm.Subperm

/-! # Fresh names

A walk names one thing after the other. Each thing comes with its candidates in order, and
takes the first of them that is not taken yet. -/

namespace Unagi.Lib.Fresh

variable {ι α : Type*} [DecidableEq α]

/-- The first candidate from the `n`th on that is not taken, after at most `tries` taken ones. -/
def firstFree (cand : Nat → α) (taken : List α) : Nat → Nat → α
  | 0, n => cand n
  | tries + 1, n => if cand n ∈ taken then firstFree cand taken tries (n + 1) else cand n

/-- The first candidate that is not taken. Distinct candidates need no more tries than there
are names taken. -/
def fresh (cand : Nat → α) (taken : List α) : α := firstFree cand taken taken.length 0

/-- The names of the things of a list, each with the candidates of its own. -/
def assign (cand : ι → Nat → α) : List α → List ι → List (ι × α)
  | _, [] => []
  | taken, i :: is =>
    (i, fresh (cand i) taken) :: assign cand (fresh (cand i) taken :: taken) is

theorem firstFree_spec (cand : Nat → α) (taken : List α) (tries n : Nat) :
    ∃ k ≤ tries, firstFree cand taken tries n = cand (n + k) ∧
      (∀ i < k, cand (n + i) ∈ taken) ∧ (cand (n + k) ∈ taken → k = tries) := by
  induction tries generalizing n with
  | zero => exact ⟨0,Nat.le_refl 0,rfl,fun i hi => absurd hi (Nat.not_lt_zero i),fun _ => rfl⟩
  | succ tries ih =>
    by_cases hn : cand n ∈ taken
    · obtain ⟨k,hk,heq,hbefore,hlast⟩ := ih (n + 1)
      refine ⟨k + 1,by omega,?_,?_,?_⟩
      · rw [firstFree,if_pos hn,heq,Nat.add_right_comm,Nat.add_assoc]
      · intro i hi
        cases i with
        | zero => exact hn
        | succ i =>
          rw [← Nat.add_assoc,Nat.add_right_comm]
          exact hbefore i (by omega)
      · intro h
        rw [← Nat.add_assoc,Nat.add_right_comm] at h
        rw [hlast h]
    · refine ⟨0,by omega,?_,fun i hi => absurd hi (Nat.not_lt_zero i),fun h => absurd h hn⟩
      rw [firstFree,if_neg hn,Nat.add_zero]

theorem fresh_eq_cand (cand : Nat → α) (taken : List α) : ∃ k, fresh cand taken = cand k := by
  obtain ⟨k,-,heq,-⟩ := firstFree_spec cand taken taken.length 0
  exact ⟨0 + k,heq⟩

variable {taken : List α}

theorem fresh_eq_first {cand : Nat → α} (h : cand 0 ∉ taken) :
    fresh cand taken = cand 0 := by
  rw [fresh]
  cases taken.length with
  | zero => rfl
  | succ n => rw [firstFree,if_neg h]

theorem fresh_not_mem {cand : Nat → α} (hinj : Function.Injective cand) (taken : List α) :
    fresh cand taken ∉ taken := by
  intro hmem
  obtain ⟨k,-,heq,hbefore,hlast⟩ := firstFree_spec cand taken taken.length 0
  rw [fresh,heq] at hmem
  have hk := hlast hmem
  -- all of the first `taken.length + 1` candidates would be taken
  have hall : ∀ i ∈ List.range (taken.length + 1), cand i ∈ taken := by
    intro i hi
    rcases Nat.lt_succ_iff_lt_or_eq.mp (List.mem_range.mp hi) with hlt | rfl
    · simpa using hbefore i (hk ▸ hlt)
    · simpa [hk] using hmem
  have hsub : (List.range (taken.length + 1)).map cand ⊆ taken := by
    intro a ha
    obtain ⟨i,hi,rfl⟩ := List.mem_map.mp ha
    exact hall i hi
  have hnd : ((List.range (taken.length + 1)).map cand).Nodup := List.nodup_range.map hinj
  have hlen := (List.subperm_of_subset hnd hsub).length_le
  rw [List.length_map,List.length_range] at hlen
  exact Nat.not_succ_le_self _ hlen

section Assign
variable (cand : ι → Nat → α)

theorem assign_map_fst (taken : List α) (is : List ι) :
    (assign cand taken is).map Prod.fst = is := by
  induction is generalizing taken with
  | nil => rfl
  | cons i is ih => rw [assign,List.map_cons,ih]

variable {is : List ι}

theorem assign_eq_cand {p : ι × α}
    (hp : p ∈ assign cand taken is) : ∃ k, p.2 = cand p.1 k := by
  induction is generalizing taken with
  | nil => exact absurd hp List.not_mem_nil
  | cons i is ih =>
    rw [assign,List.mem_cons] at hp
    rcases hp with rfl | hp
    · exact fresh_eq_cand (cand i) taken
    · exact ih hp

theorem assign_nodup (hinj : ∀ i, Function.Injective (cand i)) (taken : List α) (is : List ι) :
    ((assign cand taken is).map Prod.snd).Nodup ∧
      ∀ a ∈ (assign cand taken is).map Prod.snd, a ∉ taken := by
  induction is generalizing taken with
  | nil => exact ⟨List.nodup_nil,fun a ha => absurd ha List.not_mem_nil⟩
  | cons i is ih =>
    obtain ⟨hnd,hfree⟩ := ih (fresh (cand i) taken :: taken)
    rw [assign,List.map_cons]
    refine ⟨List.nodup_cons.mpr ⟨?_,hnd⟩,?_⟩
    · intro hmem
      exact hfree _ hmem List.mem_cons_self
    · intro a ha
      rcases List.mem_cons.mp ha with rfl | ha
      · exact fresh_not_mem (hinj i) taken
      · intro htaken
        exact hfree a ha (List.mem_cons_of_mem _ htaken)

theorem first_mem_assign {i : ι} (hi : i ∈ is) :
    cand i 0 ∈ taken ∨ cand i 0 ∈ (assign cand taken is).map Prod.snd := by
  induction is generalizing taken with
  | nil => exact absurd hi List.not_mem_nil
  | cons j is ih =>
    rw [assign,List.map_cons]
    rcases List.mem_cons.mp hi with rfl | hi
    · by_cases hfree : cand i 0 ∈ taken
      · exact .inl hfree
      · refine .inr (List.mem_cons.mpr (.inl ?_))
        exact (fresh_eq_first hfree).symm
    · rcases @ih (fresh (cand j) taken :: taken) hi with h | h
      · rcases List.mem_cons.mp h with h | h
        · exact .inr (List.mem_cons.mpr (.inl h))
        · exact .inl h
      · exact .inr (List.mem_cons_of_mem _ h)

theorem assign_eq_first
    (hnd : (is.map fun i => cand i 0).Nodup) (hfree : ∀ i ∈ is, cand i 0 ∉ taken)
    {p : ι × α} (hp : p ∈ assign cand taken is) : p.2 = cand p.1 0 := by
  induction is generalizing taken with
  | nil => exact absurd hp List.not_mem_nil
  | cons i is ih =>
    have hi : fresh (cand i) taken = cand i 0 := fresh_eq_first (hfree i List.mem_cons_self)
    rw [List.map_cons,List.nodup_cons] at hnd
    rw [assign,List.mem_cons] at hp
    rcases hp with rfl | hp
    · exact hi
    · apply ih hnd.2 ?_ hp
      intro j hj hmem
      rw [hi,List.mem_cons] at hmem
      rcases hmem with h | h
      · exact hnd.1 (List.mem_map.mpr ⟨j,hj,h⟩)
      · exact hfree j (List.mem_cons_of_mem _ hj) h

end Assign
end Unagi.Lib.Fresh
