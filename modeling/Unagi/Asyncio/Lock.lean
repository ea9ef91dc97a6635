import Mathlib.Data.List.Nodup
import Unagi.Asyncio.Parking

/-! # The lock

`asyncio.Lock` on the event loop. A release wakes the first pending waiter and leaves it in the
queue; the woken task takes the lock when it runs, unless it is cancelled. -/

namespace Unagi.Asyncio

variable {C : Type}

/-- The loop with a lock. Beside the lock stand the completed acquires of each task without a
release. -/
structure LockLoop (C : Type) extends Parking C where
  locked : Bool
  waiters : List FutId
  holds : TaskId → Nat

namespace LockLoop
variable (s : LockLoop C)

def start : LockLoop C := { Parking.start with locked := false, waiters := [], holds := fun _ => 0 }
def take (t : TaskId) : LockLoop C :=
  { s with locked := true, holds := Function.update s.holds t (s.holds t + 1) }

/-- The body of `acquireCoro` up to its end or its suspension. -/
def acquire (t : TaskId) : LockLoop C :=
  if !s.locked && s.waiters.isEmpty then s.take t
  else { s with toParking := s.toParking.park t, waiters := s.waiters ++ [s.loop.nfut] }

def removeWaiter (t : TaskId) (fut : FutId) : LockLoop C :=
  { s with toParking := s.toParking.unpark t, waiters := s.waiters.erase fut }
def resume (t : TaskId) (fut : FutId) : LockLoop C :=
  if s.granted fut then (s.removeWaiter t fut).take t else s.removeWaiter t fut

/-- Resolve the first pending waiter, which stays in the queue. -/
def wakeFirst : LockLoop C :=
  match s.waiters.find? fun fut => !s.loop.doneP fut with
  | some fut => { s with toParking := s.toParking.wake fut (.obj 1) }
  | none => s

def release (t : TaskId) : LockLoop C :=
  if s.locked then
    wakeFirst { s with
      locked := false, holds := Function.update s.holds t (s.holds t - 1) }
  else s

/-- After an event of the loop: a task that was suspended in an acquire goes on with it. -/
def ticked (p : Parking C) : LockLoop C :=
  match p.resumed with
  | some (t, fut) => { s with toParking := p }.resume t fut
  | none => { s with toParking := p }

end LockLoop

inductive LockEvent (C : Type) where
  | loop (e : Event C)
  | acquire
  | release

namespace LockLoop

/-- What an event does. Only a holder releases. -/
def step (s : LockLoop C) : LockEvent C → Option (LockLoop C)
  | .loop e => (s.toParking.step e).map s.ticked
  | .acquire => s.loop.current.map s.acquire
  | .release =>
    match s.loop.current with
    | some t => if 0 < s.holds t then some (s.release t) else none
    | none => none

end LockLoop

def lockMachine (C : Type) : Lib.Machine (LockLoop C) (LockEvent C) := ⟨LockLoop.step⟩

namespace LockLoop

/-! ## The invariant -/

/-- The invariant of the lock; the loop has resumed the task in `x`. -/
structure InvBut (s : LockLoop C) (x : Option TaskId) : Prop extends s.toParking.Lined s.waiters where
  parking : s.toParking.InvBut x
  free : ∀ f ∈ s.waiters, s.loop.Woken f → s.locked = false
  one : ∀ f ∈ s.waiters, ∀ g ∈ s.waiters, s.loop.Woken f → s.loop.Woken g → f = g
  held : ∀ t, 0 < s.holds t → s.locked = true
  single : ∀ t, s.holds t ≤ 1
  sole : ∀ t u, 0 < s.holds t → 0 < s.holds u → t = u

abbrev Inv (s : LockLoop C) : Prop := s.InvBut none
theorem start_inv : (start : LockLoop C).Inv := by
  refine ⟨⟨?_,List.nodup_nil⟩,Parking.start_inv,?_,?_,?_,?_,?_⟩
  all_goals simp [start,Parking.start]

section
variable {s s' : LockLoop C} {p : Parking C} {x : Option TaskId} {t : TaskId} {f : FutId}

theorem InvBut.made (h : s.InvBut x) (hf : f ∈ s.waiters) : f ∈ s.made := h.toLined.made h.parking hf

theorem loop_inv {e : Event C} (h : s.Inv) (hstep : s.toParking.step e = some p) :
    ({ s with toParking := p } : LockLoop C).InvBut p.loop.current := by
  have hwoken (f : FutId) (hf : f ∈ s.waiters) : p.loop.Woken f → s.loop.Woken f :=
    (h.parking.awake_iff hstep (h.made hf)).1.mp
  exact ⟨h.toLined.step hstep,h.parking.step hstep,fun f hf hw => h.free f hf (hwoken f hf hw),
    fun f hf g hg hwf hwg => h.one f hf g hg (hwoken f hf hwf) (hwoken g hg hwg),
    h.held,h.single,h.sole⟩

theorem InvBut.no_holder (h : s.InvBut x) (hfree : s.locked = false)
    (t : TaskId) : s.holds t = 0 := by
  by_contra hne
  rw [h.held t (Nat.pos_of_ne_zero hne)] at hfree
  cases hfree

theorem take_inv (h : s.InvBut x) (hfree : s.locked = false)
    (hwoken : ∀ f ∈ s.waiters, ¬ s.loop.Woken f) (t : TaskId) : (s.take t).InvBut x := by
  have hother : ∀ u, u ≠ t → (s.take t).holds u = 0 := by
    intro u hu
    simp [take,hu,h.no_holder hfree u]
  have hself : (s.take t).holds t = 1 := by simp [take,h.no_holder hfree t]
  refine ⟨h.toLined,h.parking,fun f hf hw => absurd hw (hwoken f hf),h.one,fun _ _ => rfl,
    fun u => ?_,fun u v hu hv => ?_⟩
  · by_cases hut : u = t
    · rw [hut,hself]
    · rw [hother u hut]
      exact Nat.zero_le _
  · have heq : ∀ u, 0 < (s.take t).holds u → u = t := by
      intro u hu
      by_contra hut
      rw [hother u hut] at hu
      exact lt_irrefl 0 hu
    rw [heq u hu,heq v hv]

theorem removeWaiter_inv (h : s.InvBut (some t)) (hf : s.parked t = some f) :
    (s.removeWaiter t f).Inv := by
  have hmem : ∀ g, g ∈ s.waiters.erase f → g ∈ s.waiters := fun g => List.mem_of_mem_erase
  exact ⟨h.toLined.unpark h.parking hf,h.parking.unpark,fun g hg => h.free g (hmem g hg),
    fun g hg k hk => h.one g (hmem g hg) k (hmem k hk),h.held,h.single,h.sole⟩

theorem resume_inv (h : s.InvBut (some t)) (hf : s.parked t = some f) :
    (s.resume t f).Inv := by
  have hmem : f ∈ s.waiters := (h.waiting f).mpr ⟨t,hf⟩
  unfold resume
  split
  · rename_i hgranted
    have hwoken : s.loop.Woken f := (Parking.granted_iff.mp hgranted).2
    refine take_inv (removeWaiter_inv h hf) (h.free f hmem hwoken) ?_ t
    -- no other waiter is woken
    intro g hg hw
    obtain ⟨hgf,hg⟩ := (h.nodup.mem_erase_iff).mp hg
    exact hgf (h.one g hg f hmem hw hwoken)
  · exact removeWaiter_inv h hf

theorem acquire_inv (h : s.Inv) (hcur : s.loop.current = some t) :
    (s.acquire t).Inv := by
  unfold acquire
  split
  · rename_i hfast
    simp only [Bool.and_eq_true,Bool.not_eq_true',List.isEmpty_iff] at hfast
    apply take_inv h hfast.1
    rw [hfast.2]
    exact fun f hf => by cases hf
  · obtain ⟨-,hout,hfut,-⟩ := h.parking.park_frame hcur
    -- the new waiter is not woken, and the others are as they were
    have hwoken {g : FutId} (hg : g ∈ s.waiters ++ [s.loop.nfut])
        (hw : (s.toParking.park t).loop.Woken g) : g ∈ s.waiters ∧ s.loop.Woken g := by
      rcases List.mem_append.mp hg with hg | hg
      · exact ⟨hg,by rwa [Loop.Woken,hfut g (h.made hg)] at hw⟩
      · obtain ⟨v,hv⟩ := hw
        rw [List.mem_singleton.mp hg,hout] at hv
        cases hv
    refine ⟨h.toLined.park h.parking hcur,h.parking.park hcur,
      fun g hg hw => h.free g (hwoken hg hw).1 (hwoken hg hw).2,fun g hg k hk hwg hwk => ?_,h.held,
      h.single,h.sole⟩
    obtain ⟨hg,hwg⟩ := hwoken hg hwg
    obtain ⟨hk,hwk⟩ := hwoken hk hwk
    exact h.one g hg k hk hwg hwk

theorem wake_inv (h : s.Inv) (hfree : s.locked = false)
    (hwoken : ∀ g ∈ s.waiters, ¬ s.loop.Woken g) (hf : f ∈ s.waiters)
    (hpending : s.loop.doneP f = false) (v : Val) :
    ({ s with toParking := s.toParking.wake f v } : LockLoop C).Inv := by
  have hone : ∀ g ∈ s.waiters, (s.toParking.wake f v).loop.Woken g → g = f := by
    intro g hg hw
    by_contra hgf
    apply hwoken g hg
    rwa [Loop.Woken,Parking.wake_ne hgf] at hw
  refine ⟨⟨h.waiting,h.nodup⟩,h.parking.wake (h.made hf) hpending v,fun _ _ _ => hfree,
    fun g hg k hk hwg hwk => ?_,h.held,h.single,h.sole⟩
  rw [hone g hg hwg,hone k hk hwk]

theorem release_inv (h : s.Inv) (ht : 0 < s.holds t) : (s.release t).Inv := by
  have hlocked := h.held t ht
  have hnone : ∀ u, Function.update s.holds t (s.holds t - 1) u = 0 := by
    intro u
    by_cases hut : u = t
    · subst hut
      have hle := h.single u
      simp
      omega
    · have hzero : s.holds u = 0 := by
        by_contra hne
        exact hut (h.sole u t (Nat.pos_of_ne_zero hne) ht)
      simp [hut,hzero]
  have hwoken : ∀ g ∈ s.waiters, ¬ s.loop.Woken g := by
    intro g hg hw
    rw [h.free g hg hw] at hlocked
    cases hlocked
  have hopen : ({ s with
      locked := false, holds := Function.update s.holds t (s.holds t - 1) } : LockLoop C).Inv := by
    refine ⟨h.toLined,h.parking,fun _ _ _ => rfl,h.one,fun u hu => ?_,fun u => ?_,fun u v hu _ => ?_⟩
    · exact absurd hu (hnone u).not_gt
    · exact (hnone u).le.trans (Nat.zero_le 1)
    · exact absurd hu (hnone u).not_gt
  rw [release,if_pos hlocked,wakeFirst]
  split
  · rename_i f hfind
    have hpending := List.find?_some hfind
    exact wake_inv hopen rfl hwoken (List.mem_of_find?_eq_some hfind) (by simpa using hpending) _
  · exact hopen

variable {e : LockEvent C}

theorem step_cases (hstep : s.step e = some s') :
    (∃ e' p, e = .loop e' ∧ s.toParking.step e' = some p ∧
      (p.resumed = none ∧ s' = { s with toParking := p } ∨
        ∃ t f, p.resumed = some (t, f) ∧ s' = { s with toParking := p }.resume t f)) ∨
    (∃ t, e = .acquire ∧ s.loop.current = some t ∧ s' = s.acquire t) ∨
    ∃ t, e = .release ∧ s.loop.current = some t ∧ 0 < s.holds t ∧ s' = s.release t := by
  cases e with
  | loop e =>
    obtain ⟨p,hp,rfl⟩ := Option.map_eq_some_iff.mp hstep
    refine .inl ⟨e,p,rfl,hp,?_⟩
    unfold ticked
    split
    · rename_i t f hres
      exact .inr ⟨t,f,hres,rfl⟩
    · rename_i hres
      exact .inl ⟨hres,rfl⟩
  | acquire =>
    obtain ⟨t,ht,rfl⟩ := Option.map_eq_some_iff.mp hstep
    exact .inr (.inl ⟨t,rfl,ht,rfl⟩)
  | release =>
    simp only [step] at hstep
    split at hstep
    · rename_i t hcur
      split at hstep
      · rename_i hholds
        exact .inr (.inr ⟨t,rfl,hcur,hholds,(Option.some.inj hstep).symm⟩)
      · cases hstep
    · cases hstep

theorem step_inv (hstep : s.step e = some s') (h : s.Inv) : s'.Inv := by
  rcases step_cases hstep with ⟨e,p,rfl,hp,⟨hres,rfl⟩ | ⟨t,f,hres,rfl⟩⟩ | ⟨t,rfl,hcur,rfl⟩ |
    ⟨t,rfl,-,hholds,rfl⟩
  · have hev := loop_inv h hp
    exact ⟨hev.toLined,hev.parking.resume fun t ht => Parking.resumed_eq_none hres ht,hev.free,hev.one,
      hev.held,hev.single,hev.sole⟩
  · obtain ⟨hcur,hpark⟩ := Parking.resumed_eq_some hres
    have hev := loop_inv h hp
    rw [hcur] at hev
    exact resume_inv hev hpark
  · exact acquire_inv h hcur
  · exact release_inv h hholds

end
end LockLoop
end Unagi.Asyncio
