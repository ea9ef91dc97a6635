import Unagi.Lib.Int64
import Unagi.Lib.Machine
import Unagi.Objects.Halt

/-! # The threading semaphore

The sections that hold the mutex are the events. A release adds its permits to the counter and closes
the channels of waiters; a woken waiter competes for a permit with whoever comes. -/

namespace Unagi.Objects

open Int64 (wrap wrap_of_inRange)

/-- The channel of a waiter, by the thread that made it; a thread waits on one channel at a time. -/
structure Waiter where
  thread : Nat
  hasTimeout : Bool
  deriving DecidableEq

/-- The semaphore, with the threads that were woken and have not taken the mutex again, what the calls
of `acquire` have reported, and the number of permits that were released. -/
structure ThreadSemaphore where
  value : Int
  initial : Int
  bounded : Bool
  waiters : List Waiter := []
  woken : List Waiter := []
  reports : List Bool := []
  released : Int := 0

namespace ThreadSemaphore

/-- The loop of `acquire` from taking the mutex on: until the thread parks, or to the end. -/
def loop (s : ThreadSemaphore) (w : Waiter) (expired : Bool) : ThreadSemaphore :=
  if s.value = 0 then
    if w.hasTimeout && expired then { s with reports := s.reports ++ [false] }
    else { s with waiters := s.waiters ++ [w] }
  else { s with value := wrap (s.value - 1), reports := s.reports ++ [true] }

def acquire (s : ThreadSemaphore) (w : Waiter) (block expired : Bool) : ThreadSemaphore :=
  if s.value = 0 ∧ block = false then { s with reports := s.reports ++ [false] }
  else s.loop w expired

/-- A waiter whose timer has fired; one that a release has popped goes on to the loop. -/
def reclaim (s : ThreadSemaphore) (w : Waiter) : ThreadSemaphore :=
  if w ∈ s.waiters then { s with waiters := s.waiters.erase w, reports := s.reports ++ [false] } else s

def release (s : ThreadSemaphore) (n : Int) : Except Halt ThreadSemaphore :=
  if n < 1 then raise .valueError "n must be one or more"
  else if s.bounded = true ∧ s.initial < wrap (s.value + n) then
    raise .valueError "Semaphore released too many times"
  else
    .ok { s with
      value := wrap (s.value + n)
      waiters := s.waiters.drop n.toNat
      woken := s.woken ++ s.waiters.take n.toNat
      released := s.released + n }

end ThreadSemaphore

/-- Whether a deadline has passed is up to the clock. -/
inductive SemaphoreEvent
  | acquire (w : Waiter) (block expired : Bool)
  | timer (w : Waiter)
  | wake (w : Waiter) (expired : Bool)
  | release (n : Int)

namespace ThreadSemaphore

def step (s : ThreadSemaphore) : SemaphoreEvent → Option ThreadSemaphore
  | .acquire w block expired =>
    if ∀ v ∈ s.waiters ++ s.woken, v.thread ≠ w.thread then some (s.acquire w block expired) else none
  | .timer w =>
    if w.hasTimeout = true ∧ w ∈ s.waiters ++ s.woken then some (s.reclaim w) else none
  | .wake w expired =>
    if w ∈ s.woken then some ({ s with woken := s.woken.erase w }.loop w expired) else none
  | .release n => some ((s.release n).toOption.getD s)

def machine : Lib.Machine ThreadSemaphore SemaphoreEvent := ⟨step⟩

/-- `NewSemaphore` and `NewBoundedSemaphore`. -/
def new (value : Nat) (bounded : Bool) : ThreadSemaphore := { value, initial := value, bounded }

/-- The permits of a semaphore: none is lost or made, a bounded one has no more than at first, and while
a waiter is parked the woken ones have a claim to all that are free. -/
structure Conserves (value : Nat) (bounded : Bool) (s : ThreadSemaphore) : Prop where
  start : s.initial = value ∧ s.bounded = bounded
  balance : s.value + s.reports.count true = value + s.released
  fits : value + s.released < 2 ^ 63
  nonneg : 0 ≤ s.value
  most : bounded = true → s.value ≤ value
  claimed : s.waiters ≠ [] → s.value ≤ s.woken.length

/-- The permits stay in the range of the counter. -/
def Fits (s : ThreadSemaphore) : SemaphoreEvent → Prop
  | .release n => s.initial + s.released + n < 2 ^ 63
  | _ => True

variable {value : Nat} {bounded : Bool} {s s' : ThreadSemaphore}

/-- A thread that takes the mutex may be a woken waiter; its claim is then still counted. -/
theorem loop_conserves (woken : List Waiter) (h : { s with woken }.Conserves value bounded)
    (hlength : woken.length ≤ s.woken.length + 1) (w : Waiter) (expired : Bool) :
    (s.loop w expired).Conserves value bounded := by
  have hbalance : s.value + s.reports.count true = value + s.released := h.balance
  have hfits : value + s.released < 2 ^ 63 := h.fits
  have hnonneg : 0 ≤ s.value := h.nonneg
  unfold loop
  split
  · rename_i hzero
    have hfree : s.value ≤ s.woken.length := by omega
    split
    · exact ⟨h.start,by simpa using hbalance,h.fits,h.nonneg,h.most,fun _ => hfree⟩
    · exact ⟨h.start,hbalance,h.fits,h.nonneg,h.most,fun _ => hfree⟩
  · have hwrap : wrap (s.value - 1) = s.value - 1 := wrap_of_inRange ⟨by omega,by omega⟩
    refine ⟨h.start,?_,h.fits,?_,fun hb => ?_,fun hw => ?_⟩ <;> simp only [hwrap]
    · rw [List.count_append]
      simp only [List.count_singleton_self,Nat.cast_add,Nat.cast_one]
      omega
    · omega
    · exact (Int.sub_le_self _ (by decide)).trans (h.most hb)
    · have hclaimed : s.value ≤ woken.length := h.claimed hw
      omega

theorem release_conserves (h : s.Conserves value bounded) {n : Int}
    (hfit : s.initial + s.released + n < 2 ^ 63) (hrel : s.release n = .ok s') :
    s'.Conserves value bounded := by
  unfold release at hrel
  split at hrel
  · cases hrel
  have hbalance := h.balance
  have hnonneg := h.nonneg
  rw [h.start.1] at hfit
  rw [h.start.1,h.start.2,wrap_of_inRange (z := s.value + n) ⟨by omega,by omega⟩] at hrel
  split at hrel
  · cases hrel
  rename_i hmost
  cases hrel
  refine ⟨⟨rfl,rfl⟩,?_,?_,?_,fun hb => ?_,fun hw => ?_⟩ <;> simp only at *
  · omega
  · omega
  · omega
  · exact Int.not_lt.mp fun hlt => hmost ⟨hb,hlt⟩
  · -- waiters are left only if each permit has woken one
    have hlong : n.toNat < s.waiters.length := by
      by_contra hshort
      exact hw (List.drop_eq_nil_of_le (Nat.le_of_not_lt hshort))
    have hclaimed := h.claimed (List.ne_nil_of_length_pos (Nat.zero_lt_of_lt hlong))
    rw [List.length_append,List.length_take]
    omega

theorem step_conserves (s : ThreadSemaphore) (e : SemaphoreEvent) (s' : ThreadSemaphore)
    (hstep : s.step e = some s') (hfit : s.Fits e) (h : s.Conserves value bounded) :
    s'.Conserves value bounded := by
  cases e with
  | acquire w block expired =>
    simp only [step,Option.ite_none_right_eq_some,Option.some.injEq,acquire] at hstep
    obtain ⟨-,rfl⟩ := hstep
    split
    · exact ⟨h.start,by simpa using h.balance,h.fits,h.nonneg,h.most,h.claimed⟩
    · exact loop_conserves s.woken h (Nat.le_succ _) w expired
  | timer w =>
    simp only [step,Option.ite_none_right_eq_some,Option.some.injEq,reclaim] at hstep
    obtain ⟨-,rfl⟩ := hstep
    split
    · rename_i hmem
      exact ⟨h.start,by simpa using h.balance,h.fits,h.nonneg,h.most,
        fun _ => h.claimed (List.ne_nil_of_mem hmem)⟩
    · exact h
  | wake w expired =>
    simp only [step,Option.ite_none_right_eq_some,Option.some.injEq] at hstep
    obtain ⟨hmem,rfl⟩ := hstep
    refine loop_conserves (s := { s with woken := s.woken.erase w }) s.woken h ?_ w expired
    rw [List.length_erase_of_mem hmem]
    omega
  | release n =>
    cases hstep
    cases hrel : s.release n with
    | error e => exact h
    | ok s'' => exact release_conserves h hfit hrel

theorem loop_failed {w : Waiter} {expired : Bool}
    (h : (s.loop w expired).reports = s.reports ++ [false]) :
    (s.loop w expired).value = s.value ∧ (s.loop w expired).released = s.released := by
  unfold loop at *
  split
  · split <;> exact ⟨rfl,rfl⟩
  · rename_i hvalue
    simp [hvalue] at h

/-- A call that reports a failure has changed the reports and the waiters, and nothing else. -/
theorem step_failed {e : SemaphoreEvent} (hstep : s.step e = some s')
    (hreports : s'.reports = s.reports ++ [false]) : s'.value = s.value ∧ s'.released = s.released := by
  cases e with
  | acquire w block expired =>
    simp only [step,Option.ite_none_right_eq_some,Option.some.injEq,acquire] at hstep
    obtain ⟨-,rfl⟩ := hstep
    split
    · exact ⟨rfl,rfl⟩
    · rename_i hpass
      rw [if_neg hpass] at hreports
      exact loop_failed hreports
  | timer w =>
    simp only [step,Option.ite_none_right_eq_some,Option.some.injEq,reclaim] at hstep
    obtain ⟨-,rfl⟩ := hstep
    split <;> exact ⟨rfl,rfl⟩
  | wake w expired =>
    simp only [step,Option.ite_none_right_eq_some,Option.some.injEq] at hstep
    obtain ⟨-,rfl⟩ := hstep
    exact loop_failed (s := { s with woken := s.woken.erase w }) hreports
  | release n =>
    -- a release reports nothing
    cases hstep
    have hkeep : ((s.release n).toOption.getD s).reports = s.reports := by
      unfold release
      split
      · rfl
      · split <;> rfl
    simp [hkeep] at hreports

/-- In every run of a semaphore whose permits fit the counter, the free permits and the successful calls
add up to the initial and the released permits. -/
theorem run_conserves (value : Nat) (bounded : Bool) (hvalue : value < 2 ^ 63)
    (es : List SemaphoreEvent) (hfits : machine.Along Fits (new value bounded) es)
    (hrun : machine.run (new value bounded) es = some s) :
    s.value + s.reports.count true = value + s.released ∧
      (s.reports.count true : Int) ≤ value + s.released ∧ 0 ≤ s.value ∧
      (bounded = true → s.value ≤ value) ∧ (s.waiters ≠ [] → s.value ≤ s.woken.length) ∧
      ∀ e s', s.step e = some s' → s'.reports = s.reports ++ [false] →
        s'.value = s.value ∧ s'.released = s.released := by
  have h : s.Conserves value bounded :=
    Lib.Machine.run_invariant_along step_conserves hfits hrun
      ⟨⟨rfl,rfl⟩,by simp [new],by simp [new]; omega,by simp [new],by simp [new],by simp [new]⟩
  have hbalance := h.balance
  have hnonneg := h.nonneg
  exact ⟨hbalance,by omega,hnonneg,h.most,h.claimed,fun e s' => step_failed⟩

/-- Two waiters park, a release wakes one of them and it takes the permit; the other one is left. -/
theorem run_conserves_release :
    let es : List SemaphoreEvent := [.acquire ⟨1,false⟩ true false,.acquire ⟨2,false⟩ true false,
      .release 1,.wake ⟨1,false⟩ false]
    ∃ s, machine.run (new 0 false) es = some s ∧ s.reports = [true] ∧ s.waiters = [⟨2,false⟩] ∧
      s.value + s.reports.count true = (0 : Nat) + s.released := by
  intro es
  refine ⟨_,rfl,rfl,rfl,(run_conserves 0 false (by decide) es ?_ rfl).1⟩
  exact .cons rfl trivial (.cons rfl trivial (.cons rfl
    (show (0 : Int) + 0 + 1 < 2 ^ 63 by decide) (.cons rfl trivial trivial)))

/-- A release wakes one of two waiters; its permit is there for anyone, with the other one parked. -/
theorem release_leaves_permit :
    ∃ s, machine.run (new 0 false)
        [.acquire ⟨1, false⟩ true false, .acquire ⟨2, false⟩ true false, .release 1] = some s ∧
      s.value = 1 ∧ s.waiters = [⟨2, false⟩] ∧ s.woken = [⟨1, false⟩] ∧
      s.value + s.reports.count true + s.woken.length ≠ 0 + s.released :=
  ⟨_,rfl,rfl,rfl,rfl,by decide⟩

end ThreadSemaphore
end Unagi.Objects
