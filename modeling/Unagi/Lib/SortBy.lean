import Mathlib.Data.List.Sort
import Mathlib.Data.Prod.Lex

/-! # Sorting by a key

A sort that is not stable leaves the elements of one key in any order. What can be read off its
result whatever that order is, is what the keys determine. -/

namespace Unagi.Lib

variable {α β κ : Type*}

theorem insertionSort_eq_iff {r : α → α → Prop} [DecidableRel r] [Std.Total r] [IsTrans α r]
    (hanti : ∀ a b, r a b → r b a → a = b) {l l' : List α} :
    l.insertionSort r = l'.insertionSort r ↔ l.Perm l' := by
  constructor
  · intro h
    exact (List.perm_insertionSort r l).symm.trans (h ▸ List.perm_insertionSort r l')
  · intro h
    apply List.Perm.eq_of_pairwise (fun a b _ _ => hanti a b) (List.pairwise_insertionSort r l)
      (List.pairwise_insertionSort r l')
    exact ((List.perm_insertionSort r l).trans h).trans (List.perm_insertionSort r l').symm

/-- A sort by a key, in which elements of one key may come in any order. -/
structure SortBy [LE κ] (key : α → κ) where
  sort : List α → List α
  perm : ∀ l, (sort l).Perm l
  sorted : ∀ l, (sort l).Pairwise fun a b => key a ≤ key b

namespace SortBy
variable [LinearOrder κ] {key : α → κ}

def insertion (key : α → κ) : SortBy key where
  sort l := l.insertionSort fun a b => key a ≤ key b
  perm l := List.perm_insertionSort _ l
  sorted l := by
    have htotal : Std.Total fun a b => key a ≤ key b := ⟨fun a b => le_total (key a) (key b)⟩
    have htrans : IsTrans α fun a b => key a ≤ key b := ⟨fun _ _ _ => le_trans⟩
    exact List.pairwise_insertionSort _ l

def update [DecidableEq α] (S : SortBy key) (l p : List α) (hperm : p.Perm l)
    (hsorted : p.Pairwise fun a b => key a ≤ key b) : SortBy key where
  sort l' := if l' = l then p else S.sort l'
  perm l' := by
    split
    · rename_i h
      exact h ▸ hperm
    · exact S.perm l'
  sorted l' := by
    split
    · exact hsorted
    · exact S.sorted l'

section
variable {f : α → β} {k : β → κ} {l l' : List α}

theorem map_sort_eq (S : SortBy fun a => k (f a)) (hperm : (l.map f).Perm (l'.map f))
    (hkeys : ∀ a ∈ l, ∀ b ∈ l, k (f a) = k (f b) → f a = f b) :
    (S.sort l).map f = (S.sort l').map f := by
  have hsorted : ∀ l, ((S.sort l).map f).Pairwise fun x y => k x ≤ k y :=
    fun l => List.pairwise_map.mpr (S.sorted l)
  have hmem : ∀ x, x ∈ (S.sort l).map f ∨ x ∈ (S.sort l').map f → ∃ a ∈ l, f a = x := by
    rintro x (hx | hx)
    · exact List.mem_map.mp (((S.perm l).map f).mem_iff.mp hx)
    · exact List.mem_map.mp (hperm.mem_iff.mpr (((S.perm l').map f).mem_iff.mp hx))
  apply List.Perm.eq_of_pairwise _ (hsorted l) (hsorted l')
  · exact (((S.perm l).map f).trans hperm).trans ((S.perm l').map f).symm
  · intro x y hx hy hxy hyx
    obtain ⟨a,ha,rfl⟩ := hmem x (.inl hx)
    obtain ⟨b,hb,rfl⟩ := hmem y (.inr hy)
    exact hkeys a ha b hb (le_antisymm hxy hyx)

theorem exists_map_sort_eq [LinearOrder β] (key : α → κ) (f : α → β) :
    ∃ S : SortBy key, ∀ l l', (l.map fun a => toLex (key a, f a)).Perm
      (l'.map fun a => toLex (key a, f a)) → (S.sort l).map f = (S.sort l').map f := by
  let T : SortBy fun a => toLex (key a, f a) := insertion _
  refine ⟨⟨T.sort,T.perm,fun l => (T.sorted l).imp fun h => ?_⟩,fun l l' h => ?_⟩
  · exact (Prod.Lex.le_iff.mp h).elim le_of_lt fun h => h.1.le
  · have heq := @map_sort_eq α _ _ _ (fun a => toLex (key a, f a)) id l l' T h fun _ _ _ _ => id
    simpa [Function.comp_def] using congrArg (List.map fun x => (ofLex x).2) heq

end

theorem filter_orderedInsert (x : α) (c : κ) (l : List α) :
    (l.orderedInsert (fun a b => key a ≤ key b) x).filter (fun a => decide (key a = c)) =
      (x :: l).filter fun a => decide (key a = c) := by
  induction l with
  | nil => rfl
  | cons y ys ih =>
    rw [List.orderedInsert_cons]
    split
    · rfl
    · rename_i hlt
      -- an element that stands before `x` has a smaller key
      have hne : key x = c → ¬ key y = c := fun hx hy => hlt (hx.trans hy.symm).le
      rw [List.filter_cons,ih,List.filter_cons,List.filter_cons,List.filter_cons]
      by_cases hx : key x = c
      · simp [hx,hne hx]
      · simp [hx]

theorem filter_insertion (c : κ) (l : List α) :
    ((insertion key).sort l).filter (fun a => decide (key a = c)) =
      l.filter fun a => decide (key a = c) := by
  induction l with
  | nil => rfl
  | cons x l ih =>
    have hstep : (insertion key).sort (x :: l) =
        ((insertion key).sort l).orderedInsert (fun a b => key a ≤ key b) x := rfl
    rw [hstep,filter_orderedInsert,List.filter_cons,ih,List.filter_cons]

theorem exists_map_ne [DecidableEq α] {f : α → β} {k : β → κ} {l : List α} {a b : α} (ha : a ∈ l)
    (hb : b ∈ l) (hkey : k (f a) = k (f b)) (hne : f a ≠ f b) :
    ∃ p q : List α, p.Perm l ∧ q.Perm l ∧ (p.Pairwise fun a b => k (f a) ≤ k (f b)) ∧
      (q.Pairwise fun a b => k (f a) ≤ k (f b)) ∧ p.map f ≠ q.map f := by
  let S : SortBy fun a => k (f a) := insertion _
  let rest := (l.erase a).erase b
  have hb' : b ∈ l.erase a := (List.mem_erase_of_ne fun h => hne (congrArg f h.symm)).mpr hb
  have hl : (a :: b :: rest).Perm l :=
    ((List.perm_cons_erase hb').symm.cons a).trans (List.perm_cons_erase ha).symm
  have hl' : (b :: a :: rest).Perm l := (List.Perm.swap a b rest).trans hl
  refine ⟨S.sort (a :: b :: rest),S.sort (b :: a :: rest),(S.perm _).trans hl,
    (S.perm _).trans hl',S.sorted _,S.sorted _,fun heq => hne ?_⟩
  have hfilter : ∀ l : List α, ((S.sort l).map f).filter (fun x => decide (k x = k (f b))) =
      (l.filter fun a => decide (k (f a) = k (f b))).map f := by
    intro l
    rw [List.filter_map]
    exact congrArg (List.map f) (filter_insertion (k (f b)) l)
  have hfirst := hfilter (a :: b :: rest)
  rw [heq,hfilter] at hfirst
  simp only [List.filter_cons,hkey,decide_true,if_true,List.map_cons] at hfirst
  exact (List.cons.inj hfirst).1.symm

end SortBy
end Unagi.Lib
