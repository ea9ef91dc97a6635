import Mathlib.Logic.Basic

/-! # Machines driven by events

An event takes a state to a state where it can happen. An invariant that each event keeps holds
along every run; where only some events keep it, along the runs that have no others. -/

namespace Unagi.Lib

structure Machine (σ ε : Type*) where
  step : σ → ε → Option σ

namespace Machine
variable {σ ε : Type*} (M : Machine σ ε)

def run : σ → List ε → Option σ
  | s, [] => some s
  | s, e :: es => (M.step s e).bind fun s' => run s' es

/-- Every event of a run meets a condition in the state it happens in. -/
def Along (ok : σ → ε → Prop) : σ → List ε → Prop
  | _, [] => True
  | s, e :: es => ∀ s', M.step s e = some s' → ok s e ∧ Along ok s' es

/-- Every state of a run has a property, and every step of it another. -/
def Always (P : σ → Prop) (Q : σ → ε → σ → Prop) : σ → List ε → Prop
  | s, [] => P s
  | s, e :: es => P s ∧ ∀ s', M.step s e = some s' → Q s e s' ∧ Always P Q s' es

variable {M}

variable {s s' : σ} {es : List ε} {ok : σ → ε → Prop} {I P : σ → Prop} {Q : σ → ε → σ → Prop}

theorem run_cons {e : ε} (h : M.run s (e :: es) = some s') :
    ∃ m, M.step s e = some m ∧ M.run m es = some s' :=
  Option.bind_eq_some_iff.mp h
theorem Along.cons {m : σ} {e : ε} (hstep : M.step s e = some m)
    (hok : ok s e) (h : M.Along ok m es) : M.Along ok s (e :: es) := by
  intro s' hs'
  cases hstep.symm.trans hs'
  exact ⟨hok,h⟩

theorem run_invariant_along
    (hstep : ∀ s e s', M.step s e = some s' → ok s e → I s → I s')
    (hok : M.Along ok s es) (hrun : M.run s es = some s') (h : I s) : I s' := by
  induction es generalizing s with
  | nil =>
    cases hrun
    exact h
  | cons e es ih =>
    obtain ⟨m,hm,hrun⟩ := run_cons hrun
    exact ih (hok m hm).2 hrun (hstep s e m hm (hok m hm).1 h)

theorem along_of_forall {ok : ε → Prop} (h : ∀ e ∈ es, ok e) (s : σ) : M.Along (fun _ => ok) s es := by
  induction es generalizing s with
  | nil => trivial
  | cons e es ih =>
    rw [List.forall_mem_cons] at h
    exact fun s' _ => ⟨h.1,ih h.2 s'⟩
theorem along_true (s : σ) (es : List ε) : M.Along (fun _ _ => True) s es :=
  along_of_forall (fun _ _ => trivial) s
theorem run_invariant (hstep : ∀ s e s', M.step s e = some s' → I s → I s') (hrun : M.run s es = some s') (h : I s) : I s' :=
  run_invariant_along (fun s e s' hs _ => hstep s e s' hs) (along_true s es) hrun h

theorem always_of_along
    (hkeep : ∀ s e s', M.step s e = some s' → P s → ok s e → Q s e s' ∧ P s')
    (h : P s) (halong : M.Along ok s es) : M.Always P Q s es := by
  induction es generalizing s with
  | nil => exact h
  | cons e es ih =>
    refine ⟨h,fun s' hs' => ?_⟩
    obtain ⟨hok,hrest⟩ := halong s' hs'
    obtain ⟨hQ,h'⟩ := hkeep s e s' hs' h hok
    exact ⟨hQ,ih h' hrest⟩

theorem Always.mono {P' : σ → Prop} (hP : ∀ s, P s → P' s) (h : M.Always P Q s es) : M.Always P' Q s es := by
  induction es generalizing s with
  | nil => exact hP s h
  | cons e es ih => exact ⟨hP s h.1,fun s' hs' => ⟨(h.2 s' hs').1,ih (h.2 s' hs').2⟩⟩
theorem Always.head
    (h : M.Always P Q s es) : P s := by
  cases es with
  | nil => exact h
  | cons e es => exact h.1

/-- A property that exactly the events of a condition keep: it holds along a run if and only if
every event of the run meets the condition. -/
theorem always_iff_along
    (hI : ∀ s e s', M.step s e = some s' → I s → I s')
    (hkeep : ∀ s e s', M.step s e = some s' → I s → P s → ok s e → Q s e s' ∧ P s')
    (hbreak : ∀ s e s', M.step s e = some s' → I s → P s → Q s e s' → P s' → ok s e) (h : I s) (hP : P s) : M.Always P Q s es ↔ M.Along ok s es := by
  constructor
  · intro halways
    induction es generalizing s with
    | nil => trivial
    | cons e es ih =>
      intro s' hs'
      obtain ⟨hQ,hrest⟩ := halways.2 s' hs'
      exact ⟨hbreak s e s' hs' h hP hQ hrest.head,ih (hI s e s' hs' h) hrest.head hrest⟩
  · intro halong
    apply Always.mono (P := fun s => I s ∧ P s) fun s hs => hs.2
    refine always_of_along (fun s e s' hs' hs hok => ?_) ⟨h,hP⟩ halong
    obtain ⟨hQ,hP'⟩ := hkeep s e s' hs' hs.1 hs.2 hok
    exact ⟨hQ,hI s e s' hs' hs.1,hP'⟩

end Machine
end Unagi.Lib
