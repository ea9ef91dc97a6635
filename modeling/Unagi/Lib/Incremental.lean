import Mathlib.Data.List.Basic
import Unagi.Lib.Except

/-! # Incremental decoders

A decoder looks at the front of its input and reads a few elements, finds them illegal, or finds that
more are needed. Run to the end, it keeps what it could not decide when more input may come. -/

namespace Unagi.Lib

variable {α β σ ρ ε : Type}

/-- Induction along a run that reads an element and any number more at each step. -/
theorem List.dropRec {motive : List α → Prop} (nil : motive [])
    (cons : ∀ a rest, (∀ extra, motive (rest.drop extra)) → motive (a :: rest)) (data : List α) :
    motive data := by
  induction hn : data.length using Nat.strongRecOn generalizing data with
  | ind n ih =>
    cases data with
    | nil => exact nil
    | cons a rest =>
      refine cons a rest fun extra => ih _ ?_ _ rfl
      rw [← hn,List.length_drop,List.length_cons]
      omega

/-- What a decoder does at the front of its input: one element and `extra` more are read or illegal. -/
inductive DecodeStep (σ ρ β : Type)
  | emit (out : List β) (extra : Nat) (s : σ)
  | illegal (extra : Nat) (reason : ρ)
  | incomplete (reason : ρ)

section
variable (step : σ → α → List α → DecodeStep σ ρ β) (bad : Nat → Nat → ρ → Except ε (List β))

/-- Decode from a state and a position on; what replaces illegal input comes from `bad`. The output
comes with the input that is kept for later and the state. -/
def decodeRun (final : Bool) (s : σ) (pos : Nat) (data : List α) :
    Except ε (List β × List α × σ) :=
  match data with
  | [] => .ok ([], [], s)
  | a :: rest =>
    match step s a rest with
    | .emit out extra s =>
      (decodeRun final s (pos + extra + 1) (rest.drop extra)).map fun r => (out ++ r.1, r.2)
    | .illegal extra reason => do
      let out ← bad pos (pos + extra + 1) reason
      let r ← decodeRun final s (pos + extra + 1) (rest.drop extra)
      return (out ++ r.1, r.2)
    | .incomplete reason =>
      if final then do
        let out ← bad pos (pos + rest.length + 1) reason
        return (out, [], s)
      else .ok ([], a :: rest, s)
termination_by data.length
decreasing_by all_goals
  simp only [List.length_drop,List.length_cons]
  omega

variable {step bad}

@[simp] theorem decodeRun_nil (final : Bool) (s : σ) (pos : Nat) :
    decodeRun step bad final s pos [] = .ok ([], [], s) := by
  rw [decodeRun]

variable {pos : Nat} {a : α} {rest data : List α} {out : List β} {γ : Type}

theorem decodeRun_emit {final : Bool} {s s' : σ} {extra : Nat} (h : step s a rest = .emit out extra s') :
    decodeRun step bad final s pos (a :: rest) =
      (decodeRun step bad final s' (pos + extra + 1) (rest.drop extra)).map
        fun r => (out ++ r.1, r.2) := by
  rw [decodeRun,h]

end

/-- Input that a decoder reads through from one state to another, whatever follows it. -/
def Reads (step : σ → α → List α → DecodeStep σ ρ β) (s : σ) (data : List α) (out : List β) (s' : σ) :
    Prop :=
  ∀ (ε : Type) (bad : Nat → Nat → ρ → Except ε (List β)) (final : Bool) (pos : Nat) (tail : List α),
    decodeRun step bad final s pos (data ++ tail) =
      (decodeRun step bad final s' (pos + data.length) tail).map fun r => (out ++ r.1, r.2)

namespace Reads
variable {step : σ → α → List α → DecodeStep σ ρ β} {s s' s'' : σ}

theorem refl (s : σ) : Reads step s [] [] s := by
  intro ε bad final pos tail
  rw [List.nil_append,List.length_nil,Nat.add_zero]
  cases decodeRun step bad final s pos tail <;> rfl

theorem trans {data' : List α} {out' : List β} (h : Reads step s data out s')
    (h' : Reads step s' data' out' s'') : Reads step s (data ++ data') (out ++ out') s'' := by
  intro ε bad final pos tail
  rw [List.append_assoc,h,h',List.length_append,Nat.add_assoc]
  cases decodeRun step bad final s'' (pos + (data.length + data'.length)) tail with
  | error e => rfl
  | ok r => exact congrArg (fun o => Except.ok (o, r.2)) (List.append_assoc ..).symm

theorem of_step
    (h : ∀ tail, step s a (rest ++ tail) = .emit out rest.length s') :
    Reads step s (a :: rest) out s' := by
  intro ε bad final pos tail
  rw [List.cons_append,decodeRun_emit (h tail),List.drop_left,List.length_cons,Nat.add_assoc]

theorem decodeRun_eq (h : Reads step s data out s')
    (bad : Nat → Nat → ρ → Except ε (List β)) (final : Bool) (pos : Nat) :
    decodeRun step bad final s pos data = .ok (out, [], s') := by
  have hread := h ε bad final pos []
  rw [List.append_nil,decodeRun_nil] at hread
  rw [hread]
  exact congrArg (fun o => Except.ok (o, [], s')) (List.append_nil out)

end Reads

/-! ## Cutting the input -/

/-- What one decoder does with some input another does with more of it, unless it asks for more. -/
structure Extends (step step' : σ → α → List α → DecodeStep σ ρ β) : Prop where
  emit : ∀ {s a rest out extra s'}, step s a rest = .emit out extra s' →
    extra ≤ rest.length ∧ ∀ more, step' s a (rest ++ more) = .emit out extra s'
  illegal : ∀ {s a rest extra reason}, step s a rest = .illegal extra reason →
    extra ≤ rest.length ∧ ∀ more, step' s a (rest ++ more) = .illegal extra reason

/-- The replacement of illegal input does not depend on where it is. -/
def Uniform (bad bad' : Nat → Nat → ρ → Except ε (List β)) : Prop :=
  ∀ p q p' q' reason, (bad p q reason).toOption = (bad' p' q' reason).toOption

section
variable {step step' : σ → α → List α → DecodeStep σ ρ β}
  {bad bad' : Nat → Nat → ρ → Except ε (List β)}

theorem toOption_map {δ : Type} (x : Except ε γ) (f : γ → δ) :
    (x.map f).toOption = x.toOption.map f := by
  cases x <;> rfl
theorem toOption_bind {δ : Type} (x : Except ε γ) (f : γ → Except ε δ) :
    (x >>= f).toOption = x.toOption.bind fun c => (f c).toOption := by
  cases x <;> rfl

theorem decodeRun_illegal {final : Bool} {s : σ} {extra : Nat} {reason : ρ}
    (h : step s a rest = .illegal extra reason) :
    (decodeRun step bad final s pos (a :: rest)).toOption =
      (bad pos (pos + extra + 1) reason).toOption.bind fun out =>
        (decodeRun step bad final s (pos + extra + 1) (rest.drop extra)).toOption.map
          fun r => (out ++ r.1, r.2) := by
  rw [decodeRun,h]
  dsimp only
  rw [toOption_bind]
  congr 1
  funext out
  cases decodeRun step bad final s (pos + extra + 1) (rest.drop extra) <;> rfl

theorem decodeRun_toOption_congr (hbad : Uniform bad bad') (final : Bool) (s : σ) (pos pos' : Nat)
    (data : List α) :
    (decodeRun step bad final s pos data).toOption =
      (decodeRun step bad' final s pos' data).toOption := by
  induction data using List.dropRec generalizing s pos pos' with
  | nil => rw [decodeRun_nil,decodeRun_nil]
  | cons a rest ih =>
    cases hstep : step s a rest with
    | emit out extra s' =>
      rw [decodeRun_emit hstep,decodeRun_emit hstep,toOption_map,toOption_map,
        ih extra s']
    | illegal extra reason =>
      rw [decodeRun_illegal hstep,decodeRun_illegal hstep,hbad _ _ (pos' + 0) (pos' + extra + 1),
        ih extra s]
      rfl
    | incomplete reason =>
      rw [decodeRun,decodeRun,hstep]
      cases final with
      | false => rfl
      | true =>
        simp only [if_true]
        rw [toOption_bind,toOption_bind,hbad]

theorem decodeRun_append (hext : Extends step step') (hbad : Uniform bad bad') (final : Bool) (s : σ)
    (pos pos' : Nat) (data more : List α) :
    (decodeRun step' bad final s pos (data ++ more)).toOption =
      (decodeRun step bad' false s pos' data).toOption.bind fun r =>
        (decodeRun step' bad final r.2.2 0 (r.2.1 ++ more)).toOption.map fun r' => (r.1 ++ r'.1, r'.2) := by
  have hself : Uniform bad bad := by
    intro p q p' q' reason
    rw [hbad p q p q,hbad p' q' p q]
  have hid : ∀ o : Option (List β × List α × σ), o.map (fun r' => ([] ++ r'.1, r'.2)) = o := by
    intro o
    cases o <;> rfl
  induction data using List.dropRec generalizing s pos pos' with
  | nil =>
    rw [decodeRun_nil,List.nil_append,decodeRun_toOption_congr hself final s pos 0]
    exact (hid _).symm
  | cons a rest ih =>
    cases hstep : step s a rest with
    | emit out extra s' =>
      obtain ⟨hle,hmore⟩ := hext.emit hstep
      rw [List.cons_append,decodeRun_emit (hmore more),decodeRun_emit hstep,toOption_map,
        toOption_map,List.drop_append_of_le_length hle,ih extra s' _ (pos' + extra + 1)]
      cases (decodeRun step bad' false s' (pos' + extra + 1) (rest.drop extra)).toOption with
      | none => rfl
      | some r =>
        simp only [Option.bind_some,Option.map_some,Option.map_map,Function.comp_def,
          List.append_assoc]
    | illegal extra reason =>
      obtain ⟨hle,hmore⟩ := hext.illegal hstep
      rw [List.cons_append,decodeRun_illegal (hmore more),decodeRun_illegal hstep,
        List.drop_append_of_le_length hle,hbad _ _ pos' (pos' + extra + 1),
        ih extra s _ (pos' + extra + 1)]
      cases (bad' pos' (pos' + extra + 1) reason).toOption with
      | none => rfl
      | some out =>
        cases (decodeRun step bad' false s (pos' + extra + 1) (rest.drop extra)).toOption with
        | none => rfl
        | some r =>
          simp only [Option.bind_some,Option.map_some,Option.map_map,Function.comp_def,
            List.append_assoc]
    | incomplete reason =>
      have hkept : decodeRun step bad' false s pos' (a :: rest) = .ok ([], a :: rest, s) := by
        rw [decodeRun,hstep]
        rfl
      rw [hkept,decodeRun_toOption_congr hself final s pos 0]
      exact (hid _).symm

end

theorem decodeRun_kept {step : σ → α → List α → DecodeStep σ ρ β}
    {bad : Nat → Nat → ρ → Except ε (List β)} {P : α → Prop}
    (hstep : ∀ s a rest reason, step s a rest = .incomplete reason → ∀ b ∈ a :: rest, P b) {s s' : σ} {kept : List α}
    (h : decodeRun step bad false s pos data = .ok (out, kept, s')) : ∀ b ∈ kept, P b := by
  induction data using List.dropRec generalizing s pos out with
  | nil =>
    rw [decodeRun_nil] at h
    cases h
    exact fun b hb => absurd hb List.not_mem_nil
  | cons a rest ih =>
    rw [decodeRun] at h
    cases hfirst : step s a rest with
    | emit out₁ extra s₁ =>
      rw [hfirst] at h
      dsimp only at h
      cases hrest : decodeRun step bad false s₁ (pos + extra + 1) (rest.drop extra) with
      | error e => rw [hrest] at h; cases h
      | ok r =>
        obtain ⟨out₂,kept₂,s₂⟩ := r
        rw [hrest] at h
        cases h
        exact ih extra hrest
    | illegal extra reason =>
      rw [hfirst] at h
      obtain ⟨out₁,-,h⟩ := (Except.bind_isOk_iff ..).mp h
      obtain ⟨⟨out₂,kept₂,s₂⟩,hrest,h⟩ := (Except.bind_isOk_iff ..).mp h
      cases h
      exact ih extra hrest
    | incomplete reason =>
      have hkept := hstep s a rest reason hfirst
      rw [hfirst] at h
      cases h
      exact hkept

section
variable {τ : Type} {run : Bool → τ → List α → Except ε (List β × τ)}

def feed (run : Bool → τ → List α → Except ε (List β × τ)) :
    τ → List (List α) → List α → Except ε (List β)
  | st, [], last => (run true st last).map (·.1)
  | st, chunk :: chunks, last => do
    let (out, st) ← run false st chunk
    let rest ← feed run st chunks last
    return out ++ rest

/-- Cutting a chunk off the final input changes nothing. -/
def Seamless (run : Bool → τ → List α → Except ε (List β × τ)) : Prop :=
  ∀ st chunk more, (run true st (chunk ++ more)).toOption =
    (run false st chunk).toOption.bind fun r =>
      (run true r.2 more).toOption.map fun r' => (r.1 ++ r'.1, r'.2)

theorem Seamless.feed_eq (h : Seamless run) (st : τ) (chunks : List (List α)) (last : List α) :
    (feed run st chunks last).toOption =
      (run true st (chunks.flatten ++ last)).toOption.map (·.1) := by
  induction chunks generalizing st with
  | nil => exact toOption_map ..
  | cons chunk chunks ih =>
    rw [List.flatten_cons,List.append_assoc,h,feed,toOption_bind]
    cases (run false st chunk).toOption with
    | none => rfl
    | some r =>
      simp only [Option.bind_some]
      rw [toOption_bind,ih]
      cases (run true r.2 (chunks.flatten ++ last)).toOption <;> rfl

theorem Seamless.map (h : Seamless run) {text : List β → List γ}
    (htext : ∀ out out', text (out ++ out') = text out ++ text out') :
    Seamless fun final st data => (run final st data).map fun r => (text r.1, r.2) := by
  intro st chunk more
  simp only [toOption_map]
  rw [h]
  cases (run false st chunk).toOption with
  | none => rfl
  | some r =>
    simp only [Option.bind_some,Option.map_some,Option.map_map,Function.comp_def,htext]

/-- A decoder that keeps its undecided input between chunks. -/
def decodeChunk (step : Bool → σ → α → List α → DecodeStep σ ρ β)
    (bad : List α → Nat → Nat → ρ → Except ε (List β)) (final : Bool) (st : List α × σ) (chunk : List α) :
    Except ε (List β × List α × σ) :=
  decodeRun (step final) (bad (st.1 ++ chunk)) final st.2 0 (st.1 ++ chunk)

theorem seamless_decodeChunk {step : Bool → σ → α → List α → DecodeStep σ ρ β}
    {bad : List α → Nat → Nat → ρ → Except ε (List β)} (hext : Extends (step false) (step true))
    (hbad : ∀ data data', Uniform (bad data) (bad data')) : Seamless (decodeChunk step bad) := by
  intro st chunk more
  unfold decodeChunk
  rw [← List.append_assoc,decodeRun_append hext (hbad _ (st.1 ++ chunk)) true st.2 0 0]
  congr 1
  funext r
  rw [decodeRun_toOption_congr (hbad _ (r.2.1 ++ more)) true r.2.2 0 0]

end
end Unagi.Lib
