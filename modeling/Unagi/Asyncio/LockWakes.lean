import Unagi.Asyncio.Lock

/-! # Wake-ups of the lock

While the lock is free and a waiter is pending, a woken waiter is on its way to take the lock, as long
as no cancellation comes between. -/

namespace Unagi.Asyncio

variable {C : Type}

namespace LockLoop

/-- A woken waiter stands in for the pending waiters of a free lock, and its task takes the
lock. -/
structure Served (s : LockLoop C) : Prop where
  served : s.locked = false → s.toParking.Serving s.waiters
  armed : s.toParking.Armed

def Careful (s : LockLoop C) : LockEvent C → Prop
  | .loop (.cancel t) => ∀ f, s.parked t = some f → ¬ s.loop.Woken f
  | .acquire =>
    s.locked = true ∨ s.waiters ≠ [] → ∀ t, s.loop.current = some t →
      (s.loop.tasks t).mustCancel = false ∧ (s.locked = true ∨ ∃ f ∈ s.waiters, s.loop.Woken f)
  | _ => True
theorem start_served : (start : LockLoop C).Served := by
  constructor
  · rintro - ⟨f,hf,-⟩
    cases hf
  · intro t f hf
    cases hf

section
variable {s s' : LockLoop C} {p : Parking C} {t : TaskId}

theorem spares {e : Event C} (hok : s.Careful (.loop e)) : s.toParking.Spares e := by
  rintro t f rfl hf
  exact hok f hf

theorem resume_served {f : FutId} (h : s.InvBut (some t))
    (hserved : s.locked = false → s.toParking.Serving s.waiters) (ha : (s.toParking.unpark t).Armed)
    (hgranted : s.loop.Woken f → s.granted f = true) : (s.resume t f).Served := by
  unfold resume
  split
  · exact ⟨fun hfree => (by cases hfree),ha⟩
  · rename_i hnot
    -- the task of a woken waiter would have taken the lock
    exact ⟨fun hfree => h.toLined.serving_unpark (hserved hfree) fun hw => hnot (hgranted hw),ha⟩

theorem acquire_served (h : s.Inv) (hs : s.Served) (hok : s.Careful .acquire)
    (hcur : s.loop.current = some t) : (s.acquire t).Served := by
  unfold acquire
  split
  · exact ⟨fun hfree => (by cases hfree),hs.armed⟩
  · rename_i hslow
    have hwait : s.locked = true ∨ s.waiters ≠ [] := by
      by_contra hnot
      simp only [not_or,not_not,Bool.not_eq_true] at hnot
      simp [hnot.1,hnot.2] at hslow
    obtain ⟨hfree,hopen⟩ := hok hwait t hcur
    refine ⟨fun hunlocked => ?_,hs.armed.park h.parking hcur hfree⟩
    rcases hopen with hlocked | hwoken
    · rw [hlocked] at hunlocked
      cases hunlocked
    · exact h.toLined.serving_park h.parking hcur hwoken

theorem release_served (h : s.Inv) (hs : s.Served) (ht : 0 < s.holds t) :
    (s.release t).Served := by
  rw [release,if_pos (h.held t ht),wakeFirst]
  split
  · rename_i f hfind
    have hpending : s.loop.doneP f = false := by simpa using List.find?_some hfind
    exact ⟨fun _ => Parking.serving_wake (List.mem_of_find?_eq_some hfind) hpending _,
      hs.armed.wake hpending _⟩
  · rename_i hfind
    exact ⟨fun _ => Parking.serving_of_done fun f hf => by simpa using List.find?_eq_none.mp hfind f hf,
      hs.armed⟩

theorem step_served {e : LockEvent C} (hstep : s.step e = some s')
    (hok : s.Careful e) (h : s.Inv) (hs : s.Served) : s'.Served := by
  rcases step_cases hstep with ⟨e,p,rfl,hp,hcases⟩ | ⟨t,rfl,hcur,rfl⟩ | ⟨t,rfl,-,hholds,rfl⟩
  · obtain ⟨harmed,hgranted⟩ := hs.armed.step h.parking (spares hok) hp
    have hserved (hfree : s.locked = false) : p.Serving s.waiters :=
      h.toLined.serving_step h.parking (hs.served hfree) hp
    rcases hcases with ⟨hres,rfl⟩ | ⟨t,f,hres,rfl⟩
    · exact ⟨hserved,harmed hres⟩
    · have hev := loop_inv h hp
      rw [(Parking.resumed_eq_some hres).1] at hev
      exact resume_served hev hserved (hgranted t f hres).1 (hgranted t f hres).2
  · exact acquire_served h hs hok hcur
  · exact release_served h hs hholds

end

def Exclusive (s : LockLoop C) : Prop :=
  (∀ t, s.holds t ≤ 1) ∧ ∀ t u, 0 < s.holds t → 0 < s.holds u → t = u

/-- A loop that has nothing to run leaves no task waiting at a free lock. -/
def NoneStranded (s : LockLoop C) : Prop :=
  s.loop.ready = [] → s.locked = false → ∀ t, s.parked t = none

end LockLoop

/-- In every run at most one task holds the lock; in every run whose events lose no wake-up, no task
is left waiting at a free lock. -/
theorem lock_exclusive_and_woken {es : List (LockEvent C)} {s : LockLoop C}
    (hrun : (lockMachine C).run .start es = some s) :
    s.Exclusive ∧ ((lockMachine C).Along LockLoop.Careful .start es → s.NoneStranded) := by
  have hinv : s.Inv := Lib.Machine.run_invariant (M := lockMachine C) (I := LockLoop.Inv)
    (fun _ e _ hs h => LockLoop.step_inv (e := e) hs h) hrun LockLoop.start_inv
  refine ⟨⟨hinv.single,hinv.sole⟩,fun hok hidle hfree => ?_⟩
  have hserved : s.Inv ∧ s.Served := Lib.Machine.run_invariant_along (M := lockMachine C)
    (I := fun s => s.Inv ∧ s.Served)
    (fun _ e _ hs hok h =>
      ⟨LockLoop.step_inv (e := e) hs h.1,LockLoop.step_served (e := e) hs hok h.1 h.2⟩)
    hok hrun ⟨LockLoop.start_inv,LockLoop.start_served⟩
  exact hinv.toLined.none_parked hinv.parking (hserved.2.served hfree) hidle

/-- Three tasks contend for the lock; the second one is cancelled while it waits. -/
def contended : List (LockEvent Unit) :=
  [.loop .createTask, .loop .createTask, .loop .createTask, .loop .tick, .acquire,
    .loop (.yields .none), .loop .tick, .acquire, .loop .tick, .acquire, .loop .tick,
    .loop (.cancel 1), .release, .loop (.yields (.ended (.result (.obj 0)))), .loop .tick,
    .loop (.yields (.ended (.exc asyncioCancelledError))), .loop .tick, .release,
    .loop (.yields (.ended (.result (.obj 0))))]

theorem contended_lock_is_free : ∃ s, (lockMachine Unit).run .start contended = some s ∧
    s.loop.ready = [] ∧ s.locked = false ∧ s.Exclusive ∧ ∀ t, s.parked t = none := by
  suffices hcareful : (lockMachine Unit).Along LockLoop.Careful .start contended by
    refine ⟨_,rfl,rfl,rfl,?_⟩
    have h := @lock_exclusive_and_woken Unit contended _ rfl
    exact ⟨h.1,h.2 hcareful rfl rfl⟩
  have queues : ∀ {s : LockLoop Unit}, s.locked = true →
      (∀ t, s.loop.current = some t → (s.loop.tasks t).mustCancel = false) → s.Careful .acquire :=
    fun hlocked hfree _ t ht => ⟨hfree t ht,.inl hlocked⟩
  refine .cons rfl trivial (.cons rfl trivial (.cons rfl trivial (.cons rfl trivial (.cons rfl ?_
    (.cons rfl trivial (.cons rfl trivial (.cons rfl ?_ (.cons rfl trivial (.cons rfl ?_
    (.cons rfl trivial (.cons rfl ?_ (.cons rfl trivial (.cons rfl trivial (.cons rfl trivial
    (.cons rfl trivial (.cons rfl trivial (.cons rfl trivial (.cons rfl trivial
    trivial))))))))))))))))))
  · rintro (hlocked | hqueue)
    · cases hlocked
    · exact absurd rfl hqueue
  · exact queues rfl fun t ht => by cases ht; rfl
  · exact queues rfl fun t ht => by cases ht; rfl
  · rintro f hf ⟨v,hv⟩
    cases hf
    cases hv

/-- A task that a release woke is cancelled before it runs: the next waiter is never woken. So it is
with a task that has cancelled itself, and behind a cancelled waiter of a free lock. -/
theorem waiter_stranded :
    (∃ s, (lockMachine Unit).run .start [.loop .createTask, .loop .createTask, .loop .createTask,
        .loop .tick, .acquire, .loop (.yields .none), .loop .tick, .acquire, .loop .tick, .acquire,
        .loop .tick, .release, .loop (.cancel 1), .loop (.yields (.ended (.result (.obj 0)))),
        .loop .tick, .loop (.yields (.ended (.exc asyncioCancelledError)))] = some s ∧
      s.loop.ready = [] ∧ s.locked = false ∧ s.parked 2 = some 4) ∧
    (∃ s, (lockMachine Unit).run .start [.loop .createTask, .loop .createTask, .loop .createTask,
        .loop .tick, .acquire, .loop (.yields .none), .loop .tick, .loop (.cancel 1), .acquire,
        .loop .tick, .acquire, .loop .tick, .release,
        .loop (.yields (.ended (.result (.obj 0)))), .loop .tick,
        .loop (.yields (.ended (.exc asyncioCancelledError)))] = some s ∧
      s.loop.ready = [] ∧ s.locked = false ∧ s.parked 2 = some 4) ∧
    (∃ s, (lockMachine Unit).run .start [.loop .createTask, .loop .createTask, .loop .createTask,
        .loop .tick, .acquire, .loop (.yields .none), .loop .tick, .acquire, .loop .tick,
        .loop (.yields .none), .loop .tick, .loop (.cancel 1), .release,
        .loop (.yields (.ended (.result (.obj 0)))), .loop .tick, .acquire, .loop .tick,
        .loop (.yields (.ended (.exc asyncioCancelledError)))] = some s ∧
      s.loop.ready = [] ∧ s.locked = false ∧ s.parked 2 = some 4) := by
  refine ⟨⟨_,rfl,?_,?_,?_⟩,⟨_,rfl,?_,?_,?_⟩,⟨_,rfl,?_,?_,?_⟩⟩ <;> decide

end Unagi.Asyncio
