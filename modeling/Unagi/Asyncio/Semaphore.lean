import Mathlib.Data.List.Nodup
import Unagi.Asyncio.Parking

/-! # The semaphore

`asyncio.Semaphore` on the event loop. A permit is handed over when the waiter is woken: the count
goes down, and the woken task has its permit when it runs. A task that is cancelled in between takes
the permit with it. -/

namespace Unagi.Asyncio

variable {C : Type}

/-- The loop with a semaphore. Beside it stand the permits that the tasks hold, each under the task
that acquired it. -/
structure SemLoop (C : Type) extends Parking C where
  value : Int
  initial : Nat
  bounded : Bool
  waiters : List FutId
  holders : List TaskId

namespace SemLoop
variable (s : SemLoop C)

def start (value : Nat) (bounded : Bool) : SemLoop C :=
  { Parking.start with value := value, initial := value, bounded := bounded, waiters := [], holders := [] }
def locked : Bool := s.value == 0 || !s.waiters.isEmpty

def wakeUpNext : SemLoop C :=
  match s.waiters.find? fun fut => !s.loop.doneP fut with
  | some fut => { s with toParking := s.toParking.wake fut (.obj 1), value := s.value - 1 }
  | none => s

def acquire (t : TaskId) : SemLoop C :=
  if !s.locked then { s with value := s.value - 1, holders := t :: s.holders }
  else { s with toParking := s.toParking.park t, waiters := s.waiters ++ [s.loop.nfut] }
def removeWaiter (t : TaskId) (fut : FutId) : SemLoop C :=
  { s with toParking := s.toParking.unpark t, waiters := s.waiters.erase fut }

def resume (t : TaskId) (fut : FutId) : SemLoop C :=
  if s.granted fut then
    let s₁ := { s.removeWaiter t fut with holders := t :: s.holders }
    if s₁.value > 0 then s₁.wakeUpNext else s₁
  else s.removeWaiter t fut
def release (t : TaskId) : SemLoop C :=
  if s.bounded && s.value ≥ s.initial then s
  else wakeUpNext { s with value := s.value + 1, holders := s.holders.erase t }

/-- After an event of the loop: a task that was suspended in an acquire goes on with it. -/
def ticked (p : Parking C) : SemLoop C :=
  match p.resumed with
  | some (t, fut) => { s with toParking := p }.resume t fut
  | none => { s with toParking := p }

end SemLoop

inductive SemEvent (C : Type) where
  | loop (e : Event C)
  | acquire
  | release

namespace SemLoop

def step (s : SemLoop C) : SemEvent C → Option (SemLoop C)
  | .loop e => (s.toParking.step e).map s.ticked
  | .acquire => s.loop.current.map s.acquire
  | .release =>
    match s.loop.current with
    | some t => if t ∈ s.holders then some (s.release t) else none
    | none => none

end SemLoop

def semMachine (C : Type) : Lib.Machine (SemLoop C) (SemEvent C) := ⟨SemLoop.step⟩

namespace SemLoop

/-- The permits that are free, held, or on the way to a woken waiter. -/
def balance (s : SemLoop C) : Int :=
  s.value + s.holders.length + s.waiters.countP s.loop.wokenP

/-- No waiter is woken before one that was queued earlier and still waits. -/
def Fifo (s : SemLoop C) : Prop :=
  s.waiters.Pairwise fun f g => s.loop.Woken g → s.loop.doneP f = true

structure InvBut (s : SemLoop C) (x : Option TaskId) : Prop extends s.toParking.Lined s.waiters where
  parking : s.toParking.InvBut x
  fifo : s.Fifo
  nonneg : 0 ≤ s.value
  bound : s.balance ≤ s.initial

abbrev Inv (s : SemLoop C) : Prop := s.InvBut none

/-- What also holds as long as no permit and no wake-up is lost: all permits are there, and a free
one has a woken waiter before a pending one. -/
structure Kept (s : SemLoop C) : Prop where
  full : s.balance = s.initial
  armed : s.toParking.Armed
  served : 0 < s.value → s.toParking.Serving s.waiters

theorem start_inv (value : Nat) (bounded : Bool) : (start value bounded : SemLoop C).Inv := by
  refine ⟨⟨?_,List.nodup_nil⟩,Parking.start_inv,List.Pairwise.nil,?_,?_⟩
  all_goals simp [start,Parking.start,balance]
theorem start_kept (value : Nat) (bounded : Bool) : (start value bounded : SemLoop C).Kept := by
  refine ⟨?_,?_,?_⟩
  all_goals simp [start,Parking.start,balance,Parking.Armed,Parking.Serving]

section
variable {s s' : SemLoop C} {p : Parking C} {t : TaskId} {f : FutId} {x : Option TaskId}

theorem InvBut.made (h : s.InvBut x) (hf : f ∈ s.waiters) : f ∈ s.made := h.toLined.made h.parking hf

/-! ## Waking a waiter -/

theorem wakeUpNext_cases (s : SemLoop C) :
    (∃ as f bs, s.waiters = as ++ f :: bs ∧ (∀ a ∈ as, s.loop.doneP a = true) ∧
      s.loop.doneP f = false ∧ s.wakeUpNext =
        { s with toParking := s.toParking.wake f (.obj 1), value := s.value - 1 }) ∨
    (∀ f ∈ s.waiters, s.loop.doneP f = true) ∧ s.wakeUpNext = s := by
  unfold wakeUpNext
  split
  · rename_i f hfind
    obtain ⟨hpending,as,bs,heq,has⟩ := List.find?_eq_some_iff_append.mp hfind
    exact .inl ⟨as,f,bs,heq,fun a ha => by simpa using has a ha,by simpa using hpending,rfl⟩
  · rename_i hfind
    exact .inr ⟨fun f hf => by simpa using List.find?_eq_none.mp hfind f hf,rfl⟩

theorem wake_balance (h : s.InvBut x) (hf : f ∈ s.waiters) (hpending : s.loop.doneP f = false) :
    balance { s with toParking := s.toParking.wake f (.obj 1), value := s.value - 1 } = s.balance := by
  have hasleep : s.loop.wokenP f = false := by
    rw [← Bool.not_eq_true,Loop.wokenP_iff]
    exact h.parking.not_woken (h.made hf) hpending
  have hawake : (s.toParking.wake f (.obj 1)).loop.wokenP f = true :=
    Loop.wokenP_iff.mpr ⟨_,(Parking.wake_self hpending _).2⟩
  have hrest : (s.waiters.erase f).countP (s.toParking.wake f (.obj 1)).loop.wokenP =
      (s.waiters.erase f).countP s.loop.wokenP := by
    refine List.countP_congr fun g hg => ?_
    rw [Loop.wokenP,Parking.wake_ne ((h.nodup.mem_erase_iff).mp hg).1]
    exact Iff.rfl
  have hperm := List.perm_cons_erase hf
  simp only [balance,hperm.countP_eq,List.countP_cons,hasleep,hawake,hrest]
  simp
  omega

theorem wake_fifo (h : s.InvBut x) {as bs : List FutId} (heq : s.waiters = as ++ f :: bs)
    (has : ∀ a ∈ as, s.loop.doneP a = true) (hpending : s.loop.doneP f = false) :
    Fifo { s with toParking := s.toParking.wake f (.obj 1), value := s.value - 1 } := by
  have hfifo := h.fifo
  have hnodup := h.nodup
  rw [Fifo] at hfifo ⊢
  simp only [heq,List.pairwise_append,List.pairwise_cons] at hfifo hnodup ⊢
  obtain ⟨has',⟨-,hbs⟩,-⟩ := hfifo
  have hdone : ∀ a ∈ as, (s.toParking.wake f (.obj 1)).loop.doneP a = true := by
    intro a ha
    rw [Loop.doneP,Parking.wake_ne]
    · exact has a ha
    · rintro rfl
      exact absurd ((has a ha).symm.trans hpending) (by decide)
  refine ⟨has'.imp_of_mem fun ha _ _ _ => hdone _ ha,⟨?_,?_⟩,fun a ha b _ _ => hdone a ha⟩
  · exact fun b _ _ => (Parking.wake_self hpending _).1
  · have hne (b : FutId) (hb : b ∈ bs) : b ≠ f := by
      rintro rfl
      exact (List.nodup_cons.mp (List.nodup_append.mp hnodup).2.1).1 hb
    refine hbs.imp_of_mem fun {a b} ha hb hab hw => ?_
    rw [Loop.doneP,Parking.wake_ne (hne a ha)]
    apply hab
    rwa [Loop.Woken,Parking.wake_ne (hne b hb)] at hw

theorem InvBut.wakeUpNext (h : s.InvBut x) (hpos : 0 < s.value) :
    s.wakeUpNext.InvBut x ∧ s.wakeUpNext.balance = s.balance := by
  rcases wakeUpNext_cases s with ⟨as,f,bs,heq,has,hpending,hwake⟩ | ⟨-,hwake⟩
  · have hf : f ∈ s.waiters := by simp [heq]
    have hbal := wake_balance h hf hpending
    rw [hwake]
    exact ⟨⟨⟨h.waiting,h.nodup⟩,h.parking.wake (h.made hf) hpending _,wake_fifo h heq has hpending,
      Int.sub_nonneg.mpr hpos,hbal.trans_le h.bound⟩,hbal⟩
  · rw [hwake]
    exact ⟨h,rfl⟩

theorem wakeUpNext_kept (h : s.InvBut x) (hpos : 0 < s.value) (hfull : s.balance = s.initial)
    (harmed : s.toParking.Armed) : s.wakeUpNext.Kept := by
  have hbal := (h.wakeUpNext hpos).2
  rcases wakeUpNext_cases s with ⟨as,f,bs,heq,-,hpending,hwake⟩ | ⟨hdone,hwake⟩
  · rw [hwake] at hbal ⊢
    exact ⟨hbal.trans hfull,harmed.wake hpending _,
      fun _ => Parking.serving_wake (by simp [heq]) hpending _⟩
  · rw [hwake]
    exact ⟨hfull,harmed,fun _ => Parking.serving_of_done hdone⟩

theorem InvBut.acquire (h : s.Inv) (hcur : s.loop.current = some t) :
    (s.acquire t).Inv ∧ (s.acquire t).balance = s.balance := by
  unfold SemLoop.acquire
  split
  · rename_i hfree
    have hvalue : s.value ≠ 0 := by
      intro hz
      simp [locked,hz] at hfree
    have hpos := h.nonneg
    have hbal : balance { s with value := s.value - 1, holders := t :: s.holders } = s.balance := by
      simp only [balance,List.length_cons]
      omega
    exact ⟨⟨h.toLined,h.parking,h.fifo,by show 0 ≤ s.value - 1; omega,
      hbal.trans_le h.bound⟩,hbal⟩
  · obtain ⟨hpending,hout,hfut,-⟩ := h.parking.park_frame hcur
    have hfresh : s.loop.nfut ∉ s.waiters := fun hmem => h.parking.fresh (h.made hmem)
    have hnew : ¬ (s.toParking.park t).loop.Woken s.loop.nfut := by
      rintro ⟨v,hv⟩
      rw [hout] at hv
      cases hv
    have hbal : balance
        { s with toParking := s.toParking.park t, waiters := s.waiters ++ [s.loop.nfut] } =
        s.balance := by
      have hcount : s.waiters.countP (s.toParking.park t).loop.wokenP =
          s.waiters.countP s.loop.wokenP := by
        refine List.countP_congr fun f hf => ?_
        rw [Loop.wokenP,hfut f (h.made hf)]
        exact Iff.rfl
      rw [← Loop.wokenP_iff] at hnew
      simp [balance,hcount,hnew]
    refine ⟨⟨h.toLined.park h.parking hcur,h.parking.park hcur,?_,h.nonneg,hbal.trans_le h.bound⟩,hbal⟩
    rw [Fifo,List.pairwise_append]
    refine ⟨h.fifo.imp_of_mem fun {a b} ha hb hab hw => ?_,List.pairwise_singleton _ _,?_⟩
    · rw [Loop.doneP,hfut a (h.made ha)]
      apply hab
      rwa [Loop.Woken,hfut b (h.made hb)] at hw
    · intro a _ b hb hw
      rw [List.mem_singleton.mp hb] at hw
      exact absurd hw hnew

theorem InvBut.freed (h : s.Inv) (ht : t ∈ s.holders) :
    ({ s with value := s.value + 1, holders := s.holders.erase t } : SemLoop C).Inv ∧
    balance { s with value := s.value + 1, holders := s.holders.erase t } = s.balance := by
  have hlen := List.length_erase_of_mem ht
  have hpos := List.length_pos_of_mem ht
  have hbal : balance { s with value := s.value + 1, holders := s.holders.erase t } = s.balance := by
    simp only [balance,hlen]
    omega
  have hnonneg := h.nonneg
  exact ⟨⟨h.toLined,h.parking,h.fifo,by show 0 ≤ s.value + 1; omega,
    hbal.trans_le h.bound⟩,hbal⟩

theorem InvBut.release (h : s.Inv) (ht : t ∈ s.holders) : (s.release t).Inv := by
  unfold SemLoop.release
  split
  · exact h
  · exact ((h.freed ht).1.wakeUpNext (Int.lt_add_one_of_le h.nonneg)).1

/-! ## Events of the loop -/

theorem loop_inv {e : Event C} (h : s.Inv) (hstep : s.toParking.step e = some p) :
    ({ s with toParking := p } : SemLoop C).InvBut p.loop.current ∧
    balance { s with toParking := p } = s.balance := by
  have hawake (f : FutId) (hf : f ∈ s.waiters) := h.parking.awake_iff hstep (h.made hf)
  have hbal : balance { s with toParking := p } = s.balance := by
    have hcount : s.waiters.countP p.loop.wokenP = s.waiters.countP s.loop.wokenP := by
      refine List.countP_congr fun f hf => ?_
      rw [Loop.wokenP_iff,Loop.wokenP_iff]
      exact (hawake f hf).1
    simp only [balance,hcount]
  refine ⟨⟨h.toLined.step hstep,h.parking.step hstep,?_,h.nonneg,hbal.trans_le h.bound⟩,hbal⟩
  refine h.fifo.imp_of_mem fun {a b} ha hb hab hw => ?_
  by_contra hpending
  rw [Bool.not_eq_true] at hpending
  have hdone := hab ((hawake b hb).1.mp hw)
  rw [(hawake a ha).2 hpending] at hdone
  cases hdone

theorem InvBut.removeWaiter (h : s.InvBut (some t)) (hf : s.parked t = some f) :
    (s.removeWaiter t f).Inv ∧
    (s.removeWaiter t f).balance + (if s.loop.wokenP f then 1 else 0) = s.balance := by
  have hmem : f ∈ s.waiters := (h.waiting f).mpr ⟨t,hf⟩
  have hbal : (s.removeWaiter t f).balance + (if s.loop.wokenP f then 1 else 0) = s.balance := by
    simp only [balance,(List.perm_cons_erase hmem).countP_eq,List.countP_cons]
    show s.value + s.holders.length + ((s.waiters.erase f).countP s.loop.wokenP : Int) + _ = _
    split
    · simp
      omega
    · simp
  have hbound := h.bound
  refine ⟨⟨h.toLined.unpark h.parking hf,h.parking.unpark,h.fifo.sublist List.erase_sublist,
    h.nonneg,?_⟩,hbal⟩
  show (s.removeWaiter t f).balance ≤ s.initial
  split at hbal <;> omega

theorem InvBut.taken (h : s.InvBut (some t)) (hf : s.parked t = some f)
    (hgranted : s.granted f = true) :
    ({ s.removeWaiter t f with holders := t :: s.holders } : SemLoop C).Inv ∧
    balance { s.removeWaiter t f with holders := t :: s.holders } = s.balance := by
  obtain ⟨hinv,hbal⟩ := h.removeWaiter hf
  rw [if_pos (Loop.wokenP_iff.mpr (Parking.granted_iff.mp hgranted).2)] at hbal
  have hbal' : balance { s.removeWaiter t f with holders := t :: s.holders } = s.balance := by
    rw [← hbal]
    simp only [balance,SemLoop.removeWaiter,List.length_cons]
    omega
  exact ⟨⟨hinv.toLined,hinv.parking,hinv.fifo,hinv.nonneg,
    hbal'.trans_le h.bound⟩,hbal'⟩

theorem InvBut.resume (h : s.InvBut (some t)) (hf : s.parked t = some f) : (s.resume t f).Inv := by
  unfold SemLoop.resume
  split
  · rename_i hgranted
    obtain ⟨hheld,-⟩ := h.taken hf hgranted
    dsimp only
    split
    · rename_i hpos
      exact (hheld.wakeUpNext hpos).1
    · exact hheld
  · exact (h.removeWaiter hf).1

variable {e : SemEvent C}

theorem step_cases (hstep : s.step e = some s') :
    (∃ e' p, e = .loop e' ∧ s.toParking.step e' = some p ∧
      (p.resumed = none ∧ s' = { s with toParking := p } ∨
        ∃ t f, p.resumed = some (t, f) ∧ s' = { s with toParking := p }.resume t f)) ∨
    (∃ t, e = .acquire ∧ s.loop.current = some t ∧ s' = s.acquire t) ∨
    ∃ t, e = .release ∧ s.loop.current = some t ∧ t ∈ s.holders ∧ s' = s.release t := by
  cases e with
  | loop e =>
    obtain ⟨p,hp,rfl⟩ := Option.map_eq_some_iff.mp hstep
    refine .inl ⟨e,p,rfl,hp,?_⟩
    unfold ticked
    split
    · rename_i t f hres
      exact .inr ⟨t,f,hres,rfl⟩
    · rename_i hres
      exact .inl ⟨hres,rfl⟩
  | acquire =>
    obtain ⟨t,ht,rfl⟩ := Option.map_eq_some_iff.mp hstep
    exact .inr (.inl ⟨t,rfl,ht,rfl⟩)
  | release =>
    simp only [step] at hstep
    split at hstep
    · rename_i t ht
      split at hstep
      · rename_i hmem
        cases hstep
        exact .inr (.inr ⟨t,rfl,ht,hmem,rfl⟩)
      · cases hstep
    · cases hstep

@[simp] theorem wakeUpNext_initial (s : SemLoop C) : s.wakeUpNext.initial = s.initial := by
  rcases wakeUpNext_cases s with ⟨as,f,bs,-,-,-,hwake⟩ | ⟨-,hwake⟩
  all_goals rw [hwake]

theorem step_initial (hstep : s.step e = some s') : s'.initial = s.initial := by
  rcases step_cases hstep with ⟨e,p,-,-,⟨-,rfl⟩ | ⟨t,f,-,rfl⟩⟩ | ⟨t,-,-,rfl⟩ |
    ⟨t,-,-,-,rfl⟩
  · rfl
  · simp only [resume,removeWaiter]
    split
    · by_cases hpos : 0 < s.value <;> simp [hpos]
    · rfl
  · simp only [acquire]
    split_ifs <;> rfl
  · simp only [release]
    split_ifs <;> simp

theorem step_inv (hstep : s.step e = some s') (h : s.Inv) : s'.Inv := by
  rcases step_cases hstep with ⟨e,p,rfl,hp,⟨hres,rfl⟩ | ⟨t,f,hres,rfl⟩⟩ |
    ⟨t,rfl,hcur,rfl⟩ | ⟨t,rfl,-,ht,rfl⟩
  · have hev := (loop_inv h hp).1
    exact ⟨hev.toLined,hev.parking.resume fun t ht => Parking.resumed_eq_none hres ht,
      hev.fifo,hev.nonneg,hev.bound⟩
  · obtain ⟨hcur,hf⟩ := Parking.resumed_eq_some hres
    have hev := (loop_inv h hp).1
    rw [hcur] at hev
    exact hev.resume hf
  · exact (h.acquire hcur).1
  · exact h.release ht

/-! ## Runs that lose no permit -/

/-- No task is cancelled after it was woken, and one that has to wait is not to be cancelled and finds
no free permit, or finds a woken waiter. -/
def Careful (s : SemLoop C) : SemEvent C → Prop
  | .loop e => s.toParking.Spares e
  | .acquire => s.locked = true → ∀ t, s.loop.current = some t →
      (s.loop.tasks t).mustCancel = false ∧ (s.value = 0 ∨ ∃ f ∈ s.waiters, s.loop.Woken f)
  | .release => True

theorem acquire_kept (h : s.Inv) (hk : s.Kept) (hok : s.Careful .acquire)
    (hcur : s.loop.current = some t) : (s.acquire t).Kept := by
  have hbal := (h.acquire hcur).2
  revert hbal
  unfold acquire
  split
  · rename_i hfree
    have hnone : s.waiters = [] := by
      simp only [locked,Bool.not_eq_true',Bool.or_eq_false_iff] at hfree
      simpa using hfree.2
    refine fun hbal => ⟨hbal.trans hk.full,hk.armed,fun _ hf => ?_⟩
    obtain ⟨f,hf,-⟩ := hf
    rw [hnone] at hf
    cases hf
  · rename_i hlocked
    obtain ⟨hfree,hwoken⟩ := hok (by simpa using hlocked) t hcur
    exact fun hbal => ⟨hbal.trans hk.full,hk.armed.park h.parking hcur hfree,fun hpos =>
      h.toLined.serving_park h.parking hcur (hwoken.resolve_left (Int.ne_of_gt hpos))⟩

theorem release_kept (h : s.Inv) (hk : s.Kept) (ht : t ∈ s.holders) : (s.release t).Kept := by
  unfold release
  split
  · exact hk
  · obtain ⟨hfreed,hbal⟩ := h.freed ht
    exact wakeUpNext_kept hfreed (Int.lt_add_one_of_le h.nonneg) (hbal.trans hk.full) hk.armed

/-- A task that was woken and is resumed with its permit gives a second one on; one that was not woken
leaves the woken waiters as they are. -/
theorem resume_kept (h : s.InvBut (some t)) (hf : s.parked t = some f)
    (hfull : s.balance = s.initial) (harmed : (s.toParking.unpark t).Armed)
    (hserved : 0 < s.value → s.toParking.Serving s.waiters)
    (hkeep : s.loop.Woken f → s.granted f = true) : (s.resume t f).Kept := by
  unfold resume
  split
  · rename_i hgranted
    obtain ⟨hheld,hbal⟩ := h.taken hf hgranted
    dsimp only
    split
    · rename_i hpos
      exact wakeUpNext_kept hheld hpos (hbal.trans hfull) harmed
    · rename_i hzero
      exact ⟨hbal.trans hfull,harmed,fun hpos => absurd hpos hzero⟩
  · rename_i hdenied
    have hasleep : ¬ s.loop.Woken f := fun hw => hdenied (hkeep hw)
    obtain ⟨-,hbal⟩ := h.removeWaiter hf
    rw [if_neg fun hw => hasleep (Loop.wokenP_iff.mp hw),Int.add_zero] at hbal
    exact ⟨hbal.trans hfull,harmed,fun hpos => h.toLined.serving_unpark (hserved hpos) hasleep⟩

theorem step_kept (hstep : s.step e = some s') (hok : s.Careful e) (h : s.Inv)
    (hk : s.Kept) : s'.Kept := by
  rcases step_cases hstep with ⟨e,p,rfl,hp,hcases⟩ | ⟨t,rfl,hcur,rfl⟩ | ⟨t,rfl,-,ht,rfl⟩
  · obtain ⟨hev,hbal⟩ := loop_inv h hp
    obtain ⟨harmed,hkeep⟩ := hk.armed.step h.parking hok hp
    have hserved (hpos : 0 < s.value) : p.Serving s.waiters :=
      h.toLined.serving_step h.parking (hk.served hpos) hp
    rcases hcases with ⟨hres,rfl⟩ | ⟨t,f,hres,rfl⟩
    · exact ⟨hbal.trans hk.full,harmed hres,hserved⟩
    · obtain ⟨hcur,hf⟩ := Parking.resumed_eq_some hres
      rw [hcur] at hev
      exact resume_kept hev hf (hbal.trans hk.full) (hkeep t f hres).1 hserved (hkeep t f hres).2
  · exact acquire_kept h hk hok hcur
  · exact release_kept h hk ht

theorem InvBut.balance_idle (h : s.Inv) (hidle : s.loop.ready = []) :
    s.balance = s.value + s.holders.length := by
  have hcount : s.waiters.countP s.loop.wokenP = 0 := by
    refine List.countP_eq_zero.mpr fun f hf hw => ?_
    exact h.toLined.asleep h.parking hidle hf (Loop.wokenP_iff.mp hw)
  simp [balance,hcount]

end

/-- In an idle loop all permits are free or held, and no task waits for a free one. -/
def Conserved (s : SemLoop C) : Prop :=
  s.loop.ready = [] →
    s.value + s.holders.length = s.initial ∧ (0 < s.value → ∀ t, s.parked t = none)

end SemLoop

/-- In every run the count stays between zero and its initial value and the waiters are served in
order; in every run whose events lose no permit and no wake-up, the permits are conserved. -/
theorem semaphore_conserves_permits {value : Nat} {bounded : Bool} {es : List (SemEvent C)}
    {s : SemLoop C} (hrun : (semMachine C).run (.start value bounded) es = some s) :
    s.initial = value ∧ 0 ≤ s.value ∧ s.value ≤ value ∧ s.Fifo ∧
    ((semMachine C).Along SemLoop.Careful (.start value bounded) es → s.Conserved) := by
  obtain ⟨hinv,hinit⟩ : s.Inv ∧ s.initial = value :=
    Lib.Machine.run_invariant (M := semMachine C) (I := fun s => s.Inv ∧ s.initial = value)
      (fun _ e _ hs h => ⟨SemLoop.step_inv (e := e) hs h.1,(SemLoop.step_initial hs).trans h.2⟩)
      hrun ⟨SemLoop.start_inv value bounded,rfl⟩
  have hbound := hinv.bound
  refine ⟨hinit,hinv.nonneg,?_,hinv.fifo,fun hok hidle => ?_⟩
  · rw [SemLoop.balance] at hbound
    omega
  · obtain ⟨-,hkept⟩ : s.Inv ∧ s.Kept := Lib.Machine.run_invariant_along (M := semMachine C)
      (I := fun s => s.Inv ∧ s.Kept)
      (fun _ e _ hs hok h =>
        ⟨SemLoop.step_inv (e := e) hs h.1,SemLoop.step_kept (e := e) hs hok h.1 h.2⟩)
      hok hrun ⟨SemLoop.start_inv value bounded,SemLoop.start_kept value bounded⟩
    exact ⟨(hinv.balance_idle hidle).symm.trans hkept.full,
      fun hpos => hinv.toLined.none_parked hinv.parking (hkept.served hpos) hidle⟩

def handedOver : List (SemEvent Unit) :=
  [.loop .createTask, .loop .createTask, .loop .tick, .acquire, .loop (.yields .none), .loop .tick,
    .acquire, .loop .tick, .release, .loop (.yields (.ended (.result (.obj 0)))), .loop .tick]

theorem handed_over_permit_is_held : ∃ s, (semMachine Unit).run (.start 1 true) handedOver = some s ∧
    s.holders = [1] ∧ 0 ≤ s.value ∧ s.value ≤ 1 ∧ s.Conserved := by
  suffices hcareful : (semMachine Unit).Along SemLoop.Careful (.start 1 true) handedOver by
    have h := @semaphore_conserves_permits Unit 1 true handedOver _ rfl
    exact ⟨_,rfl,rfl,h.2.1,h.2.2.1,h.2.2.2.2 hcareful⟩
  have spares {s : SemLoop Unit} {e : Event Unit} (he : ∀ t, e ≠ .cancel t) : s.Careful (.loop e) :=
    fun t _ hc => absurd hc (he t)
  refine .cons rfl (spares nofun) (.cons rfl (spares nofun) (.cons rfl (spares nofun) (.cons rfl ?_
    (.cons rfl (spares nofun) (.cons rfl (spares nofun) (.cons rfl ?_ (.cons rfl (spares nofun)
    (.cons rfl trivial (.cons rfl (spares nofun) (.cons rfl (spares nofun) trivial))))))))))
  · exact fun hlocked => absurd hlocked (by decide)
  · rintro - t ht
    cases ht
    exact ⟨rfl,.inl rfl⟩

/-- A task that a release woke is cancelled before it runs: the permit is gone. A task that queues
behind a cancelled waiter is not woken when that one leaves, though a permit is free. -/
theorem permit_lost_and_waiter_stranded :
    (∃ s, (semMachine Unit).run (.start 1 false) [.loop .createTask, .loop .createTask, .loop .tick,
        .acquire, .loop (.yields .none), .loop .tick, .acquire, .loop .tick, .release,
        .loop (.cancel 1), .loop (.yields (.ended (.result (.obj 0)))), .loop .tick,
        .loop (.yields (.ended (.exc asyncioCancelledError)))] = some s ∧
      s.loop.ready = [] ∧ s.value = 0 ∧ s.holders = []) ∧
    (∃ s, (semMachine Unit).run (.start 1 false) [.loop .createTask, .loop .createTask,
        .loop .createTask, .loop .tick, .acquire, .loop (.yields .none), .loop .tick, .acquire,
        .loop .tick, .loop (.yields .none), .loop .tick, .loop (.cancel 1), .release,
        .loop (.yields (.ended (.result (.obj 0)))), .loop .tick, .acquire, .loop .tick,
        .loop (.yields (.ended (.exc asyncioCancelledError)))] = some s ∧
      s.loop.ready = [] ∧ s.value = 1 ∧ s.parked 2 = some 4) := by
  refine ⟨⟨_,rfl,?_,?_,?_⟩,⟨_,rfl,?_,?_,?_⟩⟩ <;> decide

end Unagi.Asyncio
