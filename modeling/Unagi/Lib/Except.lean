import Mathlib.Logic.Basic

/-! # Computations that may fail -/

@[simp] theorem Except.ok_bind {ε α β : Type} (a : α) (f : α → Except ε β) :
    (.ok a : Except ε α) >>= f = f a := rfl
theorem Except.bind_isOk_iff {ε α β : Type} (x : Except ε α) (f : α → Except ε β) (r : β) :
    x >>= f = .ok r ↔ ∃ a, x = .ok a ∧ f a = .ok r := by
  rcases x with e | a <;> simp [bind,Except.bind]
