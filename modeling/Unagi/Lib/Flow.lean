import Mathlib.Data.List.Basic

/-! # Flows of events

What a program text may do, and in which order: one thing after another, one of two things, or one
thing again and again. A trace may leave out what an exception or a jump skips. -/

namespace Unagi.Lib

inductive Flow (α : Type) where
  | skip
  | emit (a : α)
  | seq (p q : Flow α)
  | alt (p q : Flow α)
  | loop (p : Flow α)

namespace Flow
variable {α : Type}

def ofList : List α → Flow α
  | [] => skip
  | a :: as => seq (emit a) (ofList as)

def atoms : Flow α → List α
  | skip => []
  | emit a => [a]
  | seq p q | alt p q => p.atoms ++ q.atoms
  | loop p => p.atoms

inductive Trace : Flow α → List α → Prop
  | nil {p} : Trace p []
  | emit {a} : Trace (.emit a) [a]
  | seq {p q as bs} : Trace p as → Trace q bs → Trace (.seq p q) (as ++ bs)
  | left {p q as} : Trace p as → Trace (.alt p q) as
  | right {p q as} : Trace q as → Trace (.alt p q) as
  | loop {p as bs} : Trace p as → Trace (.loop p) bs → Trace (.loop p) (as ++ bs)

/-- Whatever can come after something stands in the relation to it. -/
def Clear (R : α → α → Prop) : Flow α → Prop
  | skip | emit _ => True
  | seq p q => p.Clear R ∧ q.Clear R ∧ ∀ a ∈ p.atoms, ∀ b ∈ q.atoms, R a b
  | alt p q => p.Clear R ∧ q.Clear R
  | loop p => ∀ a ∈ p.atoms, ∀ b ∈ p.atoms, R a b

variable {p : Flow α} {R : α → α → Prop} {as : List α} {a : α}

theorem Trace.mem_atoms (h : Trace p as) : ∀ a ∈ as, a ∈ p.atoms := by
  induction h with
  | nil => exact fun a ha => by cases ha
  | emit => exact fun a ha => ha
  | seq _ _ ihp ihq =>
    intro a ha
    exact List.mem_append.mpr ((List.mem_append.mp ha).imp (ihp a) (ihq a))
  | left _ ih => exact fun a ha => List.mem_append_left _ (ih a ha)
  | right _ ih => exact fun a ha => List.mem_append_right _ (ih a ha)
  | loop _ _ ih ih' => exact fun a ha => (List.mem_append.mp ha).elim (ih a) (ih' a)

theorem trace_singleton (ha : a ∈ p.atoms) : Trace p [a] := by
  induction p with
  | skip => cases ha
  | emit b =>
    rw [List.mem_singleton.mp ha]
    exact .emit
  | seq p q ihp ihq =>
    rcases List.mem_append.mp ha with ha | ha
    · exact .seq (ihp ha) .nil
    · exact .seq .nil (ihq ha)
  | alt p q ihp ihq =>
    rcases List.mem_append.mp ha with ha | ha
    · exact .left (ihp ha)
    · exact .right (ihq ha)
  | loop p ih => exact .loop (ih ha) .nil

theorem Clear.pairwise (h : p.Clear R) (ht : Trace p as) : as.Pairwise R := by
  induction ht with
  | nil => exact .nil
  | emit => exact List.pairwise_singleton _ _
  | seq hp hq ihp ihq =>
    obtain ⟨hcp,hcq,hcross⟩ := h
    refine List.pairwise_append.mpr ⟨ihp hcp,ihq hcq,fun a ha b hb => ?_⟩
    exact hcross a (hp.mem_atoms a ha) b (hq.mem_atoms b hb)
  | left _ ih => exact ih h.1
  | right _ ih => exact ih h.2
  | loop hp hq _ ihq =>
    refine List.pairwise_append.mpr ⟨?_,ihq h,fun a ha b hb => ?_⟩
    · exact List.pairwise_of_forall_mem_list fun a ha b hb =>
        h a (hp.mem_atoms a ha) b (hp.mem_atoms b hb)
    · exact h a (hp.mem_atoms a ha) b (hq.mem_atoms b hb)

/-- What breaks the relation does so in a trace of two events. -/
theorem clear_of_pairs (h : ∀ a b, Trace p [a, b] → R a b) : p.Clear R := by
  induction p with
  | skip | emit _ => trivial
  | seq p q ihp ihq =>
    exact ⟨ihp fun a b ht => h a b (.seq ht .nil),ihq fun a b ht => h a b (.seq .nil ht),
      fun a ha b hb => h a b (.seq (trace_singleton ha) (trace_singleton hb))⟩
  | alt p q ihp ihq => exact ⟨ihp fun a b ht => h a b (.left ht),ihq fun a b ht => h a b (.right ht)⟩
  | loop p _ =>
    exact fun a ha b hb => h a b (.loop (trace_singleton ha) (.loop (trace_singleton hb) .nil))

end Flow
end Unagi.Lib
