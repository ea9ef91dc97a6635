import Mathlib.Data.Fintype.Basic

/-! # The stack of handled exceptions

One stack holds the exception that each active `except`, `finally` or `__exit__` region handles.
Every thread pushes and pops on it, and a generator takes the entries of its body off it while it
is suspended. A bare `raise` and the implicit context of a new exception read the top. -/

namespace Unagi.Objects.Handled

/-- An entry: the exception, nil for an error that is no Python exception, and the thread that
put the entry there. No operation reads the thread. -/
structure Slot (T E : Type) where
  exc : Option E
  thread : T
deriving DecidableEq

inductive Op (T G E : Type) where
  | push (t : T) (exc : Option E)
  | pop (t : T)
  | resume (t : T) (g : G)
  /-- The innermost generator that the thread runs yields or ends. -/
  | suspend (t : T)
  /-- `CurrentHandled`, for a bare `raise` or the context of a new exception. -/
  | current (t : T)
deriving DecidableEq

def Op.thread {T G E : Type} : Op T G E → T
  | .push t _ | .pop t | .resume t _ | .suspend t | .current t => t

inductive Reply (T E : Type) where
  | nothing
  | removed (slots : List (Slot T E))
  | handled (exc : Option E)
deriving DecidableEq

variable {T G E : Type}

def pushHandledExc (t : T) (exc : Option E) (stack : List (Slot T E)) : List (Slot T E) :=
  stack ++ [⟨exc, t⟩]
def popHandledExc (stack : List (Slot T E)) : List (Slot T E) := stack.dropLast

def currentHandled (stack : List (Slot T E)) : Option E :=
  match stack.getLast? with
  | some slot => slot.exc
  | none => none

/-- The entries of a generator go back on top of the stack. -/
def pushHandledSegment (t : T) (seg : List (Option E)) (stack : List (Slot T E)) :
    List (Slot T E) :=
  stack ++ seg.map (Slot.mk · t)

def cutHandledSegment (base : Nat) (stack : List (Slot T E)) :
    List (Slot T E) × List (Slot T E) :=
  if base ≥ stack.length then ([], stack) else (stack.drop base, stack.take base)

/-- The stack, the entries that each suspended generator keeps, the flag of each generator that
it runs, and for each thread the calls of `step` that it is in, with their boundaries. -/
structure State (T G E : Type) where
  handledStack : List (Slot T E)
  excSeg : G → List (Option E)
  running : G → Bool
  steps : T → List (G × Nat)

variable [DecidableEq T] [DecidableEq G]

def State.init : State T G E := ⟨[], fun _ => [], fun _ => false, fun _ => []⟩

/-- One operation. A generator that is running is not entered: `step` raises `ValueError`. -/
def State.step (s : State T G E) : Op T G E → State T G E × Reply T E
  | .push t exc => ({ s with handledStack := pushHandledExc t exc s.handledStack }, .nothing)
  | .pop _ =>
    ({ s with handledStack := popHandledExc s.handledStack },
      .removed s.handledStack.getLast?.toList)
  | .resume t g =>
    if s.running g then (s, .nothing)
    else
      ({ handledStack := pushHandledSegment t (s.excSeg g) s.handledStack
         excSeg := Function.update s.excSeg g []
         running := Function.update s.running g true
         steps := Function.update s.steps t ((g, s.handledStack.length) :: s.steps t) }, .nothing)
  | .suspend t =>
    match s.steps t with
    | [] => (s, .nothing)
    | (g, base) :: rest =>
      let (seg, stack) := cutHandledSegment base s.handledStack
      ({ handledStack := stack
         excSeg := Function.update s.excSeg g (seg.map Slot.exc)
         running := Function.update s.running g false
         steps := Function.update s.steps t rest }, .removed seg)
  | .current _ => (s, .handled (currentHandled s.handledStack))

/-- The regions that a chain of frames has active, innermost last: those of the thread's own
frames, then those of each generator that it runs (given innermost first). -/
def chain (own : List (Option E)) : List (G × List (Option E)) → List (Option E)
  | [] => own
  | (_, regions) :: rest => chain own rest ++ regions

/-- The regions of each thread's own frames, the generators that it runs with the regions of
their bodies, and the regions of the suspended generators. -/
structure Frames (T G E : Type) where
  own : T → List (Option E)
  running : T → List (G × List (Option E))
  stashed : G → List (Option E)
  busy : G → Bool

def Frames.init : Frames T G E := ⟨fun _ => [], fun _ => [], fun _ => [], fun _ => false⟩
def Frames.regions (c : Frames T G E) (t : T) : List (Option E) := chain (c.own t) (c.running t)
def Frames.innermost (c : Frames T G E) (t : T) : Option E := (c.regions t).getLast?.join

/-- The frames after an operation, if the thread can make it: only a region of the innermost
frame ends, and only a generator is suspended. -/
def Frames.step (c : Frames T G E) : Op T G E → Option (Frames T G E)
  | .push t exc =>
    match c.running t with
    | [] => some { c with own := Function.update c.own t (c.own t ++ [exc]) }
    | (g, regions) :: rest =>
      some { c with running := Function.update c.running t ((g, regions ++ [exc]) :: rest) }
  | .pop t =>
    match c.running t with
    | [] =>
      if c.own t = [] then none
      else some { c with own := Function.update c.own t (c.own t).dropLast }
    | (g, regions) :: rest =>
      if regions = [] then none
      else some { c with running := Function.update c.running t ((g, regions.dropLast) :: rest) }
  | .resume t g =>
    if c.busy g then some c
    else some { c with
      running := Function.update c.running t ((g, c.stashed g) :: c.running t)
      stashed := Function.update c.stashed g []
      busy := Function.update c.busy g true }
  | .suspend t =>
    match c.running t with
    | [] => none
    | (g, regions) :: rest =>
      some { c with
        running := Function.update c.running t rest
        stashed := Function.update c.stashed g regions
        busy := Function.update c.busy g false }
  | .current _ => some c

/-- The reply is right: the exception of the innermost region, or entries of the thread's own. -/
def Frames.Answers (c : Frames T G E) (t : T) : Reply T E → Prop
  | .nothing => True
  | .removed slots => ∀ slot ∈ slots, slot.thread = t
  | .handled exc => exc = c.innermost t

def Isolated (c : Frames T G E) (s : State T G E) : List (Op T G E) → Prop
  | [] => True
  | op :: ops =>
    ∀ c', c.step op = some c' →
      c.Answers op.thread (s.step op).2 ∧ Isolated c' (s.step op).1 ops

/-- A thread touches the stack only while no other thread has a region active. -/
def Exclusive (c : Frames T G E) : List (Op T G E) → Prop
  | [] => True
  | op :: ops =>
    (∀ t, t ≠ op.thread → c.regions t = []) ∧ ∀ c', c.step op = some c' → Exclusive c' ops

/-! ## The stack of a thread that is alone -/

/-- The boundaries that the calls of `step` took: the regions below each generator. -/
def bounds (own : List (Option E)) : List (G × List (Option E)) → List (G × Nat)
  | [] => []
  | (g, _) :: rest => (g, (chain own rest).length) :: bounds own rest

structure Inv (c : Frames T G E) (s : State T G E) : Prop where
  stack : ∀ t, c.regions t ≠ [] → s.handledStack = (c.regions t).map (Slot.mk · t)
  empty : (∀ t, c.regions t = []) → s.handledStack = []
  seg : s.excSeg = c.stashed
  busy : s.running = c.busy
  steps : ∀ t, s.steps t = bounds (c.own t) (c.running t)

omit [DecidableEq T] [DecidableEq G] in
theorem Inv.init : Inv (Frames.init : Frames T G E) State.init where
  stack _ h := absurd rfl h
  empty _ := rfl
  seg := rfl
  busy := rfl
  steps _ := rfl

section Step
variable {c c' : Frames T G E} {s s' : State T G E} {t : T}

section
omit [DecidableEq G]

theorem Inv.alone (h : Inv c s) (hothers : ∀ t', t' ≠ t → c.regions t' = []) :
    s.handledStack = (c.regions t).map (Slot.mk · t) := by
  by_cases hown : c.regions t = []
  · rw [hown,List.map_nil]
    apply h.empty
    intro t'
    by_cases ht : t' = t
    · rw [ht,hown]
    · exact hothers t' ht
  · exact h.stack t hown

theorem Inv.after (hothers : ∀ t', t' ≠ t → c'.regions t' = [])
    (hstack : s'.handledStack = (c'.regions t).map (Slot.mk · t)) (hseg : s'.excSeg = c'.stashed)
    (hbusy : s'.running = c'.busy)
    (hsteps : ∀ t, s'.steps t = bounds (c'.own t) (c'.running t)) : Inv c' s' where
  stack t' h := by
    by_cases ht : t' = t
    · rw [ht,hstack]
    · exact absurd (hothers t' ht) h
  empty h := by rw [hstack,h t,List.map_nil]
  seg := hseg
  busy := hbusy
  steps := hsteps

theorem bounds_update (own : T → List (Option E)) (running : T → List (G × List (Option E)))
    (steps : T → List (G × Nat)) (t : T) (frames : List (G × List (Option E)))
    (calls : List (G × Nat)) (h : ∀ t, steps t = bounds (own t) (running t))
    (hcalls : calls = bounds (own t) frames) (t' : T) :
    Function.update steps t calls t' = bounds (own t') (Function.update running t frames t') := by
  by_cases ht : t' = t
  · subst ht
    rw [Function.update_self,Function.update_self,hcalls]
  · rw [Function.update_of_ne ht,Function.update_of_ne ht,h t']

theorem regions_running_of_ne {frames : List (G × List (Option E))} {t' : T} (h : t' ≠ t)
    (stashed : G → List (Option E)) (busy : G → Bool) :
    Frames.regions ⟨c.own, Function.update c.running t frames, stashed, busy⟩ t' =
      c.regions t' := by
  rw [Frames.regions,Frames.regions]
  simp only [Function.update_of_ne h]
theorem regions_running_self (frames : List (G × List (Option E)))
    (stashed : G → List (Option E)) (busy : G → Bool) :
    Frames.regions ⟨c.own, Function.update c.running t frames, stashed, busy⟩ t =
      chain (c.own t) frames := by
  rw [Frames.regions]
  simp only [Function.update_self]
theorem regions_own_of_ne {own : List (Option E)} {t' : T} (h : t' ≠ t) :
    Frames.regions { c with own := Function.update c.own t own } t' = c.regions t' := by
  rw [Frames.regions,Frames.regions]
  simp only [Function.update_of_ne h]
theorem regions_own_self (own : List (Option E)) :
    Frames.regions { c with own := Function.update c.own t own } t = chain own (c.running t) := by
  rw [Frames.regions]
  simp only [Function.update_self]

end

theorem push_regions {exc : Option E} (hc : c.step (.push t exc) = some c') :
    c'.regions t = c.regions t ++ [exc] ∧ (∀ t', t' ≠ t → c'.regions t' = c.regions t') ∧
      c'.stashed = c.stashed ∧ c'.busy = c.busy ∧
      ∀ t', bounds (c'.own t') (c'.running t') = bounds (c.own t') (c.running t') := by
  rw [Frames.step] at hc
  cases hrun : c.running t with
  | nil =>
    simp only [hrun,Option.some.injEq] at hc
    subst hc
    refine ⟨?_,fun t' h => regions_own_of_ne h,rfl,rfl,?_⟩
    · rw [regions_own_self,Frames.regions,hrun,chain,chain]
    · intro t'
      by_cases ht : t' = t
      · rw [ht,hrun]; rfl
      · simp only [Function.update_of_ne ht]
  | cons frame rest =>
    obtain ⟨g,regions⟩ := frame
    simp only [hrun,Option.some.injEq] at hc
    subst hc
    refine ⟨?_,fun t' h => regions_running_of_ne h _ _,rfl,rfl,?_⟩
    · rw [regions_running_self,Frames.regions,hrun,chain,chain,List.append_assoc]
    · intro t'
      by_cases ht : t' = t
      · subst ht
        simp only [Function.update_self,hrun,bounds]
      · simp only [Function.update_of_ne ht]

theorem push_of_pop (hc : c.step (.pop t) = some c') : ∃ exc, c'.step (.push t exc) = some c := by
  rw [Frames.step] at hc
  cases hrun : c.running t with
  | nil =>
    simp only [hrun] at hc
    split_ifs at hc with hown
    simp only [Option.some.injEq] at hc
    subst hc
    refine ⟨(c.own t).getLast hown,?_⟩
    simp only [Frames.step,hrun,Function.update_self,List.dropLast_concat_getLast,
      Function.update_idem,Function.update_eq_self]
  | cons frame rest =>
    obtain ⟨g,regions⟩ := frame
    simp only [hrun] at hc
    split_ifs at hc with hregions
    simp only [Option.some.injEq] at hc
    subst hc
    refine ⟨regions.getLast hregions,?_⟩
    simp only [Frames.step,Function.update_self,List.dropLast_concat_getLast,
      Function.update_idem,← hrun,Function.update_eq_self]

omit [DecidableEq T] in
theorem cut_append (below above : List (Slot T E)) {base : Nat} (h : below.length = base) :
    cutHandledSegment base (below ++ above) = (above, below) := by
  rw [cutHandledSegment]
  split_ifs with hlen
  · have habove : above = [] := by
      rw [List.length_append,h] at hlen
      exact List.eq_nil_of_length_eq_zero (by omega)
    rw [habove,List.append_nil]
  · rw [← h,List.drop_left,List.take_left]

theorem step_alone (h : Inv c s) {op : Op T G E}
    (hothers : ∀ t', t' ≠ op.thread → c.regions t' = []) (hc : c.step op = some c') :
    c.Answers op.thread (s.step op).2 ∧ Inv c' (s.step op).1 := by
  have hstack := h.alone hothers
  cases op with
  | push t exc =>
    obtain ⟨hself,hne,hseg,hbusy,hbounds⟩ := push_regions hc
    refine ⟨trivial,Inv.after (t := t) (fun t' ht => (hne t' ht).trans (hothers t' ht)) ?_
      (h.seg.trans hseg.symm) (h.busy.trans hbusy.symm)
      fun t' => (h.steps t').trans (hbounds t').symm⟩
    rw [State.step,pushHandledExc,hstack,hself,List.map_append]
    rfl
  | pop t =>
    obtain ⟨exc,hpush⟩ := push_of_pop hc
    obtain ⟨hself,hne,hseg,hbusy,hbounds⟩ := push_regions hpush
    have htop : s.handledStack = (c'.regions t).map (Slot.mk · t) ++ [⟨exc,t⟩] := by
      rw [hstack,Op.thread,hself,List.map_append,List.map_cons,List.map_nil]
    constructor
    · intro slot hslot
      rw [htop,List.getLast?_concat,Option.toList_some,List.mem_singleton] at hslot
      rw [hslot,Op.thread]
    · refine Inv.after (t := t) (fun t' ht => (hne t' ht).symm.trans (hothers t' ht)) ?_
        (h.seg.trans hseg) (h.busy.trans hbusy) fun t' => (h.steps t').trans (hbounds t')
      rw [State.step,popHandledExc,htop,List.dropLast_concat]
  | resume t g =>
    rw [Frames.step] at hc
    rw [State.step,h.busy]
    split_ifs at hc with hbusy
    · rw [Option.some.injEq] at hc
      rw [if_pos hbusy,← hc]
      exact ⟨trivial,h⟩
    · rw [Option.some.injEq] at hc
      rw [if_neg hbusy,← hc]
      refine ⟨trivial,Inv.after (t := t) ?_ ?_ ?_ ?_ ?_⟩
      · intro t' ht
        rw [regions_running_of_ne ht]
        exact hothers t' ht
      · rw [regions_running_self,chain,List.map_append,pushHandledSegment,hstack,h.seg]
        rfl
      · rw [h.seg]
      · rfl
      · apply bounds_update _ _ _ _ _ _ h.steps
        rw [bounds,h.steps t,hstack,List.length_map]
        rfl
  | suspend t =>
    rw [Frames.step] at hc
    cases hrun : c.running t with
    | nil => simp only [hrun] at hc; cases hc
    | cons frame rest =>
      obtain ⟨g,regions⟩ := frame
      simp only [hrun,Option.some.injEq] at hc
      subst hc
      have hsteps : s.steps t = (g, (chain (c.own t) rest).length) :: bounds (c.own t) rest := by
        rw [h.steps t,hrun,bounds]
      have hcut : cutHandledSegment (chain (c.own t) rest).length s.handledStack =
          (regions.map (Slot.mk · t), (chain (c.own t) rest).map (Slot.mk · t)) := by
        rw [hstack,Op.thread,Frames.regions,hrun,chain,List.map_append]
        exact cut_append _ _ (List.length_map _)
      simp only [State.step,hsteps,hcut]
      refine ⟨?_,Inv.after (t := t) ?_ ?_ ?_ ?_ ?_⟩
      · intro slot hslot
        obtain ⟨exc,-,rfl⟩ := List.mem_map.mp hslot
        rfl
      · intro t' ht
        rw [regions_running_of_ne ht]
        exact hothers t' ht
      · rw [regions_running_self]
      · simp only [h.seg,List.map_map,Function.comp_def,List.map_id']
      · rw [h.busy]
      · exact bounds_update _ _ _ _ _ _ h.steps rfl
  | current t =>
    rw [Frames.step,Option.some.injEq] at hc
    subst hc
    refine ⟨?_,h⟩
    rw [State.step,Frames.Answers,currentHandled,hstack,List.getLast?_map,Frames.innermost,
      Op.thread]
    cases (c.regions t).getLast? <;> rfl

end Step

variable {c : Frames T G E} {s : State T G E}

theorem isolated_of_inv (h : Inv c s) (ops : List (Op T G E)) (hex : Exclusive c ops) :
    Isolated c s ops := by
  induction ops generalizing c s with
  | nil => trivial
  | cons op ops ih =>
    intro c' hc
    obtain ⟨hothers,hrest⟩ := hex
    obtain ⟨hanswer,hinv⟩ := step_alone h hothers hc
    exact ⟨hanswer,ih hinv (hrest c' hc)⟩

/-! ## Two threads -/

def Frames.run (c : Frames T G E) : List (Op T G E) → Option (Frames T G E)
  | [] => some c
  | op :: ops =>
    match c.step op with
    | none => none
    | some c' => c'.run ops

omit [DecidableEq T] [DecidableEq G] in
theorem Inv.foreign (h : Inv c s) {t t' : T} (hne : t' ≠ t) (hhandled : c.innermost t' ≠ none) :
    c.innermost t = none ∧ currentHandled s.handledStack = c.innermost t' := by
  have hregions : c.regions t' ≠ [] := by
    intro hnil
    rw [Frames.innermost,hnil] at hhandled
    exact hhandled rfl
  have hstack := h.stack t' hregions
  constructor
  · have hnil : c.regions t = [] := by
      by_contra hown
      -- the entries would be those of both threads
      have heq := (h.stack t hown).symm.trans hstack
      have hthread := congrArg (List.map Slot.thread) heq
      rw [List.map_map,List.map_map] at hthread
      obtain ⟨e,es,hes⟩ := List.exists_cons_of_ne_nil hown
      obtain ⟨e',es',hes'⟩ := List.exists_cons_of_ne_nil hregions
      rw [hes,hes',List.map_cons,List.map_cons] at hthread
      exact hne (List.cons.inj hthread).1.symm
    rw [Frames.innermost,hnil]
    rfl
  · rw [currentHandled,hstack,List.getLast?_map,Frames.innermost]
    cases (c.regions t').getLast? <;> rfl

theorem not_isolated_of_inv {c' : Frames T G E} (h : Inv c s) (ops : List (Op T G E))
    (hex : Exclusive c ops) (hrun : c.run ops = some c') {t t' : T} (hne : t' ≠ t)
    (hhandled : c'.innermost t' ≠ none) : ¬ Isolated c s (ops ++ [.current t]) := by
  induction ops generalizing c s with
  | nil =>
    intro hiso
    obtain rfl := Option.some.inj hrun
    obtain ⟨hown,hread⟩ := h.foreign hne hhandled
    have hanswer := (hiso c rfl).1
    rw [State.step,Frames.Answers,hread,Op.thread,hown] at hanswer
    exact hhandled hanswer
  | cons op ops ih =>
    intro hiso
    rw [Frames.run] at hrun
    cases hc : c.step op with
    | none => rw [hc] at hrun; cases hrun
    | some c₁ =>
      rw [hc] at hrun
      exact ih (step_alone h hex.1 hc).2 (hex.2 c₁ hc) hrun (hiso c₁ hc).2

/-- In every run in which a thread touches the stack only while no other thread has a region
active, every read gives the exception of the thread's innermost region, and every entry is
removed by the thread that put it there. A read by any other thread is then wrong. -/
theorem exclusive_isolated (ops : List (Op T G E)) (hex : Exclusive Frames.init ops) :
    Isolated Frames.init State.init ops ∧
      ∀ c t t', Frames.init.run ops = some c → t' ≠ t → c.innermost t' ≠ none →
        ¬ Isolated Frames.init State.init (ops ++ [.current t]) :=
  ⟨isolated_of_inv Inv.init ops hex,
    fun _ _ _ hrun hne hhandled => not_isolated_of_inv Inv.init ops hex hrun hne hhandled⟩

section Decide
variable [Fintype T] [DecidableEq E]

instance (c : Frames T G E) (t : T) : (r : Reply T E) → Decidable (c.Answers t r)
  | .nothing => isTrue trivial
  | .removed slots => inferInstanceAs (Decidable (∀ slot ∈ slots, slot.thread = t))
  | .handled exc => inferInstanceAs (Decidable (exc = c.innermost t))

instance decidableExclusive :
    (c : Frames T G E) → (ops : List (Op T G E)) → Decidable (Exclusive c ops)
  | _, [] => isTrue trivial
  | c, op :: ops =>
    match h : c.step op with
    | none =>
      decidable_of_iff (∀ t, t ≠ op.thread → c.regions t = [])
        ⟨fun hothers => ⟨hothers, fun c' hc => by rw [h] at hc; cases hc⟩, fun hex => hex.1⟩
    | some c₁ =>
      have := decidableExclusive c₁ ops
      decidable_of_iff ((∀ t, t ≠ op.thread → c.regions t = []) ∧ Exclusive c₁ ops)
        ⟨fun hex => ⟨hex.1, fun c' hc => Option.some.inj (h.symm.trans hc) ▸ hex.2⟩,
          fun hex => ⟨hex.1, hex.2 c₁ h⟩⟩

instance decidableIsolated :
    (c : Frames T G E) → (s : State T G E) → (ops : List (Op T G E)) → Decidable (Isolated c s ops)
  | _, _, [] => isTrue trivial
  | c, s, op :: ops =>
    match h : c.step op with
    | none => isTrue fun c' hc => by rw [h] at hc; cases hc
    | some c₁ =>
      have := decidableIsolated c₁ (s.step op).1 ops
      decidable_of_iff (c.Answers op.thread (s.step op).2 ∧ Isolated c₁ (s.step op).1 ops)
        ⟨fun hiso c' hc => Option.some.inj (h.symm.trans hc) ▸ hiso, fun hiso => hiso c₁ h⟩

end Decide

/-- A handler that drives a generator, and then a handler in another thread. -/
def turns : List (Op Bool Unit String) :=
  [.push true (some "KeyError"), .resume true (), .push true (some "ValueError"), .current true,
    .suspend true, .current true, .pop true, .push false (some "OSError"), .resume false (),
    .current false, .pop false, .suspend false, .current false]

theorem turns_isolated : Isolated Frames.init State.init turns :=
  (exclusive_isolated turns (by decide)).1

/-- A thread that handles nothing raises what another thread handles, and one that leaves its
handler takes that away. -/
theorem two_threads_interfere :
    ¬ Isolated (Frames.init : Frames Bool Unit String) State.init
        [.push true (some "KeyError"), .current false] ∧
      ¬ Isolated (Frames.init : Frames Bool Unit String) State.init
        [.push true (some "KeyError"), .push false (some "OSError"), .pop true] ∧
      (((((State.init : State Bool Unit String).step (.push true (some "KeyError"))).1.step
          (.push false (some "OSError"))).1.step (.pop true)).1.step (.current false)).2 =
        .handled (some "KeyError") := by
  decide

end Unagi.Objects.Handled
