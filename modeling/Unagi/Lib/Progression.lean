import Mathlib.Data.List.Basic
import Mathlib.Tactic.Linarith
import Mathlib.Tactic.Ring

/-! # Arithmetic progressions

The terms `start, start + step, …` of a progression, and how many of them come before a bound. -/

namespace Unagi.Lib.Progression

def terms (start step : Int) : Nat → List Int
  | 0 => []
  | n + 1 => start :: terms (start + step) step n
def count (start stop step : Int) : Nat :=
  if 0 < step then ((stop - start + step - 1) / step).toNat
  else if step < 0 then ((start - stop - step - 1) / -step).toNat
  else 0

variable {start stop step : Int} {n : Nat}

@[simp] theorem length_terms : (terms start step n).length = n := by
  induction n generalizing start with
  | zero => rfl
  | succ n ih => rw [terms,List.length_cons,ih]

theorem getElem?_terms {i : Nat} (h : i < n) : (terms start step n)[i]? = some (start + i * step) := by
  induction n generalizing start i with
  | zero => omega
  | succ n ih =>
    cases i with
    | zero => simp [terms]
    | succ i =>
      rw [terms,List.getElem?_cons_succ,ih (by omega)]
      congr 1
      push_cast
      ring

theorem mem_terms {x : Int} : x ∈ terms start step n ↔ ∃ i < n, x = start + (i : Nat) * step := by
  rw [List.mem_iff_getElem?]
  constructor
  · rintro ⟨i,hi⟩
    have hlt : i < n := by
      have h := (List.getElem?_eq_some_iff.mp hi).1
      rwa [length_terms] at h
    rw [getElem?_terms hlt] at hi
    exact ⟨i,hlt,(Option.some.inj hi).symm⟩
  · rintro ⟨i,hi,rfl⟩
    exact ⟨i,getElem?_terms hi⟩

theorem terms_eq_iff {start' step' : Int} {n' : Nat} :
    terms start step n = terms start' step' n' ↔
      n = n' ∧ (n = 0 ∨ start = start' ∧ (n = 1 ∨ step = step')) := by
  constructor
  · intro h
    have hn : n = n' := by
      have hlen := congrArg List.length h
      rwa [length_terms,length_terms] at hlen
    subst hn
    have hget : ∀ i < n, start + (i : Nat) * step = start' + (i : Nat) * step' := by
      intro i hi
      have hi' := congrArg (·[i]?) h
      simp only [getElem?_terms hi] at hi'
      exact Option.some.inj hi'
    refine ⟨rfl,?_⟩
    by_cases hzero : n = 0
    · exact .inl hzero
    · have h₀ := hget 0 (by omega)
      simp only [Nat.cast_zero,zero_mul,add_zero] at h₀
      refine .inr ⟨h₀,?_⟩
      by_cases hone : n = 1
      · exact .inl hone
      · have h₁ := hget 1 (by omega)
        simp only [Nat.cast_one,one_mul] at h₁
        exact .inr (by omega)
  · rintro ⟨rfl,rfl | ⟨rfl,rfl | rfl⟩⟩ <;> rfl

theorem mem_terms_reverse {x : Int} :
    x ∈ terms (start + (n - 1) * step) (-step) n ↔ x ∈ terms start step n := by
  rw [mem_terms,mem_terms]
  constructor
  · rintro ⟨i,hi,rfl⟩
    refine ⟨n - 1 - i,by omega,?_⟩
    push_cast [show i ≤ n - 1 by omega,show 1 ≤ n by omega]
    ring
  · rintro ⟨i,hi,rfl⟩
    refine ⟨n - 1 - i,by omega,?_⟩
    push_cast [show i ≤ n - 1 by omega,show 1 ≤ n by omega]
    ring

theorem lt_count_of_pos (h : 0 < step) {i : Nat} :
    i < count start stop step ↔ start + i * step < stop := by
  rw [count,if_pos h,Int.lt_toNat,← Int.add_one_le_iff,Int.le_ediv_iff_mul_le h]
  constructor <;> intro hi <;> linarith
theorem lt_count_of_neg (h : step < 0) {i : Nat} :
    i < count start stop step ↔ stop < start + i * step := by
  rw [count,if_neg (by omega),if_pos h,Int.lt_toNat,← Int.add_one_le_iff,
    Int.le_ediv_iff_mul_le (by omega)]
  constructor <;> intro hi <;> linarith
theorem count_eq_of_pos (h : 0 < step) (hlt : start < stop) :
    (count start stop step : Int) = (stop - start - 1) / step + 1 := by
  have hsum : stop - start + step - 1 = stop - start - 1 + 1 * step := by ring
  have hdiv : 0 ≤ (stop - start - 1) / step := Int.ediv_nonneg (by omega) h.le
  rw [count,if_pos h,hsum,Int.add_mul_ediv_right _ _ h.ne']
  omega
theorem count_eq_of_neg (h : step < 0) (hlt : stop < start) :
    (count start stop step : Int) = (start - stop - 1) / -step + 1 := by
  have hsum : start - stop - step - 1 = start - stop - 1 + 1 * -step := by ring
  have hdiv : 0 ≤ (start - stop - 1) / -step := Int.ediv_nonneg (by omega) (by omega)
  rw [count,if_neg (by omega),if_pos h,hsum,Int.add_mul_ediv_right _ _ (by omega)]
  omega

theorem count_eq_zero (hpos : 0 < step → stop ≤ start) (hneg : step < 0 → start ≤ stop) :
    count start stop step = 0 := by
  by_contra hne
  have hlt : 0 < count start stop step := Nat.pos_of_ne_zero hne
  rcases lt_trichotomy step 0 with h | h | h
  · have hterm := (lt_count_of_neg h).mp hlt
    have := hneg h
    simp only [Nat.cast_zero,zero_mul,add_zero] at hterm
    omega
  · simp [count,h] at hne
  · have hterm := (lt_count_of_pos h).mp hlt
    have := hpos h
    simp only [Nat.cast_zero,zero_mul,add_zero] at hterm
    omega

theorem count_add (a : Int) : count (a + start) (a + stop) step = count start stop step := by
  unfold count
  rw [add_sub_add_left_eq_sub,add_sub_add_left_eq_sub]

theorem map_terms (a s : Int) :
    (terms start step n).map (fun i => a + i * s) = terms (a + start * s) (step * s) n := by
  induction n generalizing start with
  | zero => rfl
  | succ n ih =>
    rw [terms,List.map_cons,ih,terms]
    congr 2
    ring

end Unagi.Lib.Progression
