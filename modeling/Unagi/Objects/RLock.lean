import Unagi.Lib.Machine
import Mathlib.Logic.Function.Basic

/-! # The reentrant lock

The owner is read and written without a mutex: the threads interleave between the single accesses of
`acquire` and `release`, and of the two functions with which a `Condition` gives the lock up. A call works
for the ident it is passed, which a method read from the lock and called later takes from the main thread. -/

namespace Unagi.Objects.RLock

open Function

/-- The next access of a thread. A `Condition` carries the count it saved until it restores it. -/
inductive Pc
  | idle | bump | drop | save
  | receive (saved : Option Nat)
  | store (saved : Option Nat)
  | setCount (saved : Option Nat)
  | clear (saved : Option Nat)
  | send (saved : Option Nat)
  deriving DecidableEq

/-- A thread, with the ident that its call was passed and the number of levels it has acquired and not
released. -/
structure Thread where
  pc : Pc := .idle
  depth : Nat := 0
  caller : Nat := 0

/-- The lock, with the messages of the errors that were raised. -/
structure Lock where
  token : Bool := true
  owner : Nat := 0
  count : Nat := 0
  raised : List (Nat × String) := []

/-- A call with the ident it passes; an `acquire` that does not block, or whose time is up, gives up. -/
inductive Action
  | acquire (caller : Nat)
  | release (caller : Nat)
  | condReleaseSave (caller : Nat)
  | giveUp
  | next

/-- The ident of a thread: `allocIdent` counts from 1, so that 0 is no thread's. -/
def ident (t : Nat) : Nat := t + 1

def Lock.fail (l : Lock) (t : Nat) (msg : String) : Lock := { l with raised := l.raised ++ [(t, msg)] }

def access (l : Lock) (t : Nat) (p : Thread) : Option (Lock × Thread) :=
  match p.pc with
  | .idle => none
  | .bump => some ({ l with count := l.count + 1 }, { p with pc := .idle, depth := p.depth + 1 })
  | .receive saved =>
    if l.token then some ({ l with token := false }, { p with pc := .store saved }) else none
  | .store saved => some ({ l with owner := p.caller }, { p with pc := .setCount saved })
  | .setCount saved =>
    some ({ l with count := saved.getD 1 },
      { p with pc := .idle, depth := if saved.isSome then p.depth else p.depth + 1 })
  | .drop =>
    some ({ l with count := l.count - 1 },
      { p with pc := if l.count - 1 = 0 then .clear none else .idle, depth := p.depth - 1 })
  | .save => some ({ l with count := 0 }, { p with pc := .clear (some l.count) })
  | .clear saved => some ({ l with owner := 0 }, { p with pc := .send saved })
  | .send saved =>
    if l.token then some (l.fail t "release unlocked lock", { p with pc := .idle })
    else some ({ l with token := true }, { p with pc := if saved.isSome then .receive saved else .idle })

def ifOwner (l : Lock) (t : Nat) (p : Thread) (caller : Nat) (pc : Pc) : Lock × Thread :=
  if l.owner = caller then (l, ⟨pc, p.depth, caller⟩)
  else (l.fail t "cannot release un-acquired lock", p)

/-- A call begins with a look at the owner. -/
def act (l : Lock) (t : Nat) (p : Thread) : Action → Option (Lock × Thread)
  | .acquire caller =>
    if p.pc = .idle then
      some (l, ⟨if l.owner = caller then .bump else .receive none, p.depth, caller⟩)
    else none
  | .release caller => if p.pc = .idle then some (ifOwner l t p caller .drop) else none
  | .condReleaseSave caller => if p.pc = .idle then some (ifOwner l t p caller .save) else none
  | .giveUp => if p.pc = .receive none then some (l, { p with pc := .idle }) else none
  | .next => access l t p

/-- A call passes the ident of the thread it runs in. -/
def Own (e : Nat × Action) : Prop :=
  match e.2 with
  | .acquire caller | .release caller | .condReleaseSave caller => caller = ident e.1
  | .giveUp | .next => True

abbrev State := Lock × (Nat → Thread)

def machine : Lib.Machine State (Nat × Action) where
  step s e := (act s.1 e.1 (s.2 e.1) e.2).map fun r => (r.1, update s.2 e.1 r.2)

/-- A thread that carries no count holds no level; one that waits for the lock to come back holds as many
as it saved. -/
def Fits : Option Nat → Nat → Prop
  | none, depth => depth = 0
  | some n, depth => depth = n ∧ 0 < n

def Outside (p : Thread) : Prop :=
  match p.pc with
  | .idle => Fits none p.depth
  | .receive saved => Fits saved p.depth
  | _ => False

def Inside (l : Lock) (t : Nat) (p : Thread) : Prop :=
  match p.pc with
  | .idle | .bump | .drop | .save => l.owner = ident t ∧ Fits (some l.count) p.depth
  | .receive _ => False
  | .setCount saved | .clear saved => l.owner = ident t ∧ Fits saved p.depth
  | .store saved | .send saved => l.owner = 0 ∧ Fits saved p.depth

/-- The token is in the channel, or one thread is inside in its place. -/
structure Guarded (l : Lock) (ps : Nat → Thread) (holder : Option Nat) : Prop where
  caller : ∀ t, (ps t).pc ≠ .idle → (ps t).caller = ident t
  outside : ∀ t, holder ≠ some t → Outside (ps t)
  inside : ∀ t, holder = some t → l.token = false ∧ Inside l t (ps t)
  free : holder = none → l.token = true ∧ l.owner = 0

variable {l l' : Lock} {t : Nat} {p p' : Thread} {a : Action} {ps : Nat → Thread} {holder : Option Nat}

theorem act_caller (hown : Own (t, a)) (hcaller : p.pc ≠ .idle → p.caller = ident t)
    (hact : act l t p a = some (l', p')) : p'.pc ≠ .idle → p'.caller = ident t := by
  obtain ⟨pc,depth,caller⟩ := p
  cases a <;> simp only [act,ifOwner,Option.ite_none_right_eq_some,Option.some.injEq] at hact
  case next =>
    have hkeep : pc ≠ .idle ∧ p'.caller = caller := by
      cases pc with
      | idle => cases hact
      | receive saved =>
        obtain ⟨-,hact⟩ := Option.ite_none_right_eq_some.mp hact
        cases hact
        simp
      | send saved =>
        simp only [access] at hact
        split at hact <;> cases hact <;> simp
      | _ =>
        cases hact
        simp
    exact fun _ => hkeep.2.trans (hcaller hkeep.1)
  all_goals obtain ⟨hidle,hact⟩ := hact
  case acquire =>
    cases hact
    exact fun _ => hown
  case giveUp =>
    cases hact
    exact absurd rfl
  all_goals
    split at hact <;> cases hact
    · exact fun _ => hown
    · exact absurd hidle

/-- A thread outside leaves the lock as it was but for an error, or takes the token. -/
theorem act_outside (hown : Own (t, a)) (hout : Outside p) (howner : l.owner ≠ ident t)
    (hact : act l t p a = some (l', p')) : (l' = l ∧ Outside p') ∨
      (l' = l.fail t "cannot release un-acquired lock" ∧ p' = p ∧ p.depth = 0) ∨
      (l.token = true ∧ l' = { l with token := false } ∧
        ∃ saved, p' = { p with pc := .store saved } ∧ Fits saved p.depth) := by
  obtain ⟨pc,depth,caller⟩ := p
  cases a with
  | next =>
    cases pc with
    | receive saved =>
      simp only [act,access,Option.ite_none_right_eq_some,Option.some.injEq,Prod.mk.injEq] at hact
      obtain ⟨htoken,rfl,rfl⟩ := hact
      exact .inr (.inr ⟨htoken,rfl,saved,rfl,hout⟩)
    | idle => cases hact
    | _ => cases hout
  | giveUp =>
    obtain ⟨rfl,hact⟩ := Option.ite_none_right_eq_some.mp hact
    cases hact
    exact .inl ⟨rfl,hout⟩
  | acquire i =>
    obtain rfl : i = ident t := hown
    obtain ⟨rfl,hact⟩ := Option.ite_none_right_eq_some.mp hact
    rw [if_neg howner] at hact
    cases hact
    exact .inl ⟨rfl,hout⟩
  | release i | condReleaseSave i =>
    obtain rfl : i = ident t := hown
    obtain ⟨rfl,hact⟩ := Option.ite_none_right_eq_some.mp hact
    rw [ifOwner,if_neg howner] at hact
    cases hact
    exact .inr (.inl ⟨rfl,rfl,hout⟩)

/-- A thread inside raises nothing; it stays there, or gives the token back. -/
theorem act_inside (hown : Own (t, a)) (hcaller : p.pc ≠ .idle → p.caller = ident t)
    (hin : Inside l t p) (htoken : l.token = false) (hact : act l t p a = some (l', p')) :
    l'.raised = l.raised ∧ ((l'.token = false ∧ Inside l' t p') ∨
      (l'.token = true ∧ l'.owner = 0 ∧ Outside p')) := by
  obtain ⟨pc,depth,caller⟩ := p
  cases a with
  | giveUp =>
    obtain ⟨rfl,-⟩ := Option.ite_none_right_eq_some.mp hact
    cases hin
  | next =>
    simp only [act,access,htoken] at hact
    cases pc with
    | idle => cases hact
    | receive saved => cases hin
    | bump =>
      cases hact
      exact ⟨rfl,.inl ⟨rfl,hin.1,congrArg (· + 1) hin.2.1,Nat.succ_pos _⟩⟩
    | drop =>
      cases hact
      obtain ⟨howner,hdepth,hpos⟩ := hin
      refine ⟨rfl,.inl ⟨rfl,?_⟩⟩
      dsimp only at hdepth hpos
      split <;> refine ⟨howner,?_⟩ <;> simp only [Fits] <;> omega
    | setCount saved =>
      cases hact
      refine ⟨rfl,.inl ⟨rfl,hin.1,?_⟩⟩
      cases saved with
      | none => exact ⟨congrArg (· + 1) hin.2,Nat.one_pos⟩
      | some n => exact hin.2
    | send saved =>
      cases hact
      refine ⟨rfl,.inr ⟨rfl,hin.1,?_⟩⟩
      cases saved <;> exact hin.2
    | save =>
      cases hact
      exact ⟨rfl,.inl ⟨rfl,hin⟩⟩
    | store saved =>
      cases hact
      exact ⟨rfl,.inl ⟨rfl,hcaller Pc.noConfusion,hin.2⟩⟩
    | clear saved =>
      cases hact
      exact ⟨rfl,.inl ⟨rfl,rfl,hin.2⟩⟩
  | acquire i | release i | condReleaseSave i =>
    obtain rfl : i = ident t := hown
    obtain ⟨rfl,hact⟩ := Option.ite_none_right_eq_some.mp hact
    simp only [ifOwner,if_pos hin.1] at hact
    cases hact
    exact ⟨rfl,.inl ⟨htoken,hin⟩⟩

theorem Guarded.owner_ne (h : Guarded l ps holder) (ht : holder ≠ some t) : l.owner ≠ ident t := by
  cases holder with
  | none => exact (h.free rfl).2 ▸ (Nat.succ_ne_zero t).symm
  | some u =>
    have hu : ident u ≠ ident t := fun heq => ht (congrArg some (Nat.succ.inj heq))
    have hin := (h.inside u rfl).2
    unfold Inside at hin
    split at hin
    case h_5 => cases hin
    case h_8 | h_9 => exact hin.1 ▸ (Nat.succ_ne_zero t).symm
    all_goals exact hin.1 ▸ hu

/-- A thread that acts takes the place of the token, gives it back, or leaves it where it is. -/
theorem act_guarded (hown : Own (t, a)) (h : Guarded l ps holder) (hact : act l t (ps t) a = some (l', p')) :
    (l'.raised = l.raised ∨
      (ps t).depth = 0 ∧ l' = l.fail t "cannot release un-acquired lock" ∧ p' = ps t) ∧
    ∃ holder, Guarded l' (update ps t p') holder := by
  have hcaller : ∀ u, (update ps t p' u).pc ≠ .idle → (update ps t p' u).caller = ident u :=
    (forall_update_iff ps fun u q => q.pc ≠ .idle → q.caller = ident u).mpr
      ⟨act_caller hown (h.caller t) hact,fun u _ => h.caller u⟩
  have hupdate (holder' : Option Nat) (hp : holder' ≠ some t → Outside p')
      (hps : ∀ u ≠ t, holder' ≠ some u → Outside (ps u)) :
      ∀ u, holder' ≠ some u → Outside (update ps t p' u) :=
    (forall_update_iff ps fun u q => holder' ≠ some u → Outside q).mpr ⟨hp,hps⟩
  by_cases ht : holder = some t
  · subst ht
    have hps (u : Nat) (hu : u ≠ t) : Outside (ps u) := h.outside u fun heq => hu (Option.some.inj heq).symm
    obtain ⟨hraised,⟨htoken,hin⟩ | ⟨htoken,howner,hp⟩⟩ :=
      act_inside hown (h.caller t) (h.inside t rfl).2 (h.inside t rfl).1 hact
    · refine ⟨.inl hraised,some t,hcaller,hupdate _ (absurd rfl) fun u hu _ => hps u hu,fun u hu => ?_,
        fun hu => by cases hu⟩
      cases hu
      rw [update_self]
      exact ⟨htoken,hin⟩
    · exact ⟨.inl hraised,none,hcaller,hupdate _ (fun _ => hp) fun u hu _ => hps u hu,
        fun u hu => (by cases hu),fun _ => ⟨htoken,howner⟩⟩
  rcases act_outside hown (h.outside t ht) (h.owner_ne ht) hact with
    ⟨rfl,hp⟩ | ⟨rfl,rfl,hdepth⟩ | ⟨htoken,rfl,saved,rfl,hfits⟩
  · refine ⟨.inl rfl,holder,hcaller,hupdate _ (fun _ => hp) fun u _ => h.outside u,fun u hu => ?_,h.free⟩
    rw [update_of_ne fun heq : u = t => ht (heq ▸ hu)]
    exact h.inside u hu
  · rw [update_eq_self]
    exact ⟨.inr ⟨hdepth,rfl,rfl⟩,holder,h.caller,h.outside,h.inside,h.free⟩
  · -- the token was there, so no thread is inside
    have hfree : holder = none := by
      cases holder with
      | none => rfl
      | some u =>
        rw [(h.inside u rfl).1] at htoken
        cases htoken
    subst hfree
    refine ⟨.inl rfl,some t,hcaller,
      hupdate _ (absurd rfl) fun u _ _ => h.outside u (Option.some_ne_none u).symm,
      fun u hu => ?_,fun hu => by cases hu⟩
    cases hu
    rw [update_self]
    exact ⟨rfl,(h.free rfl).2,hfits⟩

/-- Between its calls the owner holds as many levels as the lock counts, and any other thread none; the
lock is free when no thread holds a level. -/
structure Exclusive (s : State) : Prop where
  depth : ∀ t, (s.2 t).pc = .idle →
    if s.1.owner = ident t then (s.2 t).depth = s.1.count ∧ 0 < s.1.count else (s.2 t).depth = 0
  free : (∀ t, (s.2 t).pc = .idle ∧ (s.2 t).depth = 0) → s.1.token = true

theorem Guarded.exclusive {s : State} (h : Guarded s.1 s.2 holder) : Exclusive s := by
  have hheld {t : Nat} (ht : holder = some t) (hpc : (s.2 t).pc = .idle) :
      s.1.owner = ident t ∧ (s.2 t).depth = s.1.count ∧ 0 < s.1.count := by
    have hin := (h.inside t ht).2
    rwa [Inside,hpc] at hin
  refine ⟨fun t hpc => ?_,fun hall => ?_⟩
  · by_cases ht : holder = some t
    · rw [if_pos (hheld ht hpc).1]
      exact (hheld ht hpc).2
    · have hout := h.outside t ht
      rw [Outside,hpc] at hout
      rw [if_neg (h.owner_ne ht)]
      exact hout
  · cases hholder : holder with
    | none => exact (h.free hholder).1
    | some t =>
      have hcount := (hheld hholder (hall t).1).2
      exact absurd ((hall t).2.symm.trans hcount.1) (Nat.ne_of_lt hcount.2)

/-- An error is raised where the thread holds no level, and changes nothing. -/
def Honest (s : State) (e : Nat × Action) (s' : State) : Prop :=
  s'.1.raised = s.1.raised ∨
    (s.2 e.1).depth = 0 ∧ s' = (s.1.fail e.1 "cannot release un-acquired lock", s.2)

theorem step_guarded (s : State) (e : Nat × Action) (s' : State)
    (hstep : machine.step s e = some s') (h : ∃ holder, Guarded s.1 s.2 holder) (hown : Own e) :
    Honest s e s' ∧ ∃ holder, Guarded s'.1 s'.2 holder := by
  obtain ⟨holder,h⟩ := h
  obtain ⟨⟨l',p'⟩,hact,rfl⟩ := Option.map_eq_some_iff.mp hstep
  obtain ⟨hraised | ⟨hdepth,rfl,rfl⟩,hguarded⟩ := act_guarded hown h hact
  · exact ⟨.inl hraised,hguarded⟩
  · refine ⟨.inr ⟨hdepth,?_⟩,hguarded⟩
    rw [update_eq_self]

/-- In every run of any number of threads, each calling under its own ident, at most one holds the lock, at
the depth of its own calls; it is never refused a release, and no other thread is granted one. -/
theorem rlock_exclusive {es : List (Nat × Action)} (hown : ∀ e ∈ es, Own e) :
    machine.Always Exclusive Honest ({}, fun _ => {}) es := by
  have hstart : Guarded {} (fun _ => {}) none :=
    ⟨fun _ h => absurd rfl h,fun _ _ => (rfl : Fits none 0),fun _ ht => (by cases ht),
      fun _ => ⟨rfl,rfl⟩⟩
  apply (Lib.Machine.always_of_along step_guarded ⟨none,hstart⟩ (Lib.Machine.along_of_forall hown _)).mono
  rintro s ⟨holder,h⟩
  exact h.exclusive

/-- Thread 1 is refused a release and an acquire while thread 0 holds the lock twice. -/
def contended : List (Nat × Action) :=
  [(0, .acquire 1), (0, .next), (0, .next), (0, .next), (0, .acquire 1), (0, .next),
    (1, .release 2), (1, .acquire 2), (1, .giveUp), (0, .release 1), (0, .next)]

theorem contended_exclusive : machine.Always Exclusive Honest ({}, fun _ => {}) contended ∧
    (machine.run ({}, fun _ => {}) contended).map (fun s => (s.1.owner, s.1.count, s.1.raised)) =
      some (1, 1, [(1, "cannot release un-acquired lock")]) :=
  ⟨rlock_exclusive (by simp [contended,Own,ident]),by decide⟩

end Unagi.Objects.RLock
