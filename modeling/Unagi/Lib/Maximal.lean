import Mathlib.Data.Finset.Card

/-! # Maximal members of a list

A finite list with a strict order on its members has a maximal member above each of them. -/

namespace Unagi.Lib

theorem exists_maximal_above {α : Type*} [DecidableEq α] (r : α → α → Prop) [DecidableRel r]
    (l : List α) (htrans : ∀ x ∈ l, ∀ y ∈ l, ∀ z ∈ l, r x y → r y z → r x z)
    (hirrefl : ∀ x ∈ l, ¬ r x x) {x : α} (hx : x ∈ l) :
    ∃ y ∈ l, (x = y ∨ r x y) ∧ ∀ z ∈ l, ¬ r y z := by
  -- the members above decrease along the order
  induction hcard : (l.toFinset.filter fun y => r x y).card using Nat.strong_induction_on
    generalizing x with
  | _ n ih =>
    by_cases hmax : ∀ z ∈ l, ¬ r x z
    · exact ⟨x,hx,.inl rfl,hmax⟩
    · push Not at hmax
      obtain ⟨y,hy,hxy⟩ := hmax
      have hlt : (l.toFinset.filter fun z => r y z).card < n := by
        rw [← hcard]
        apply Finset.card_lt_card
        rw [Finset.ssubset_iff_of_subset]
        · exact ⟨y,by simp [hy,hxy],by simp [hy,hirrefl y hy]⟩
        · intro z hz
          simp only [Finset.mem_filter,List.mem_toFinset] at hz ⊢
          exact ⟨hz.1,htrans x hx y hy z hz.1 hxy hz.2⟩
      obtain ⟨z,hz,hyz,hzmax⟩ := ih _ hlt hy rfl
      refine ⟨z,hz,.inr ?_,hzmax⟩
      rcases hyz with rfl | hyz
      · exact hxy
      · exact htrans x hx y hy z hz hxy hyz

end Unagi.Lib
