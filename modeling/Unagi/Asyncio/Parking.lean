import Unagi.Asyncio.Completion
import Unagi.Asyncio.Steps

/-! # Parked tasks

A primitive of the runtime suspends the running task on a future of its own and resolves it later. The
task that waits is resumed with the result, or with a cancellation. -/

namespace Unagi.Asyncio

variable {C : Type}

def Loop.Woken (l : Loop C) (f : FutId) : Prop := ∃ v, (l.futures f).outcome = some (.result v)
def Loop.wokenP (l : Loop C) (f : FutId) : Bool :=
  match (l.futures f).outcome with
  | some (.result _) => true
  | _ => false

theorem Loop.wokenP_iff {l : Loop C} {f : FutId} : l.wokenP f = true ↔ l.Woken f := by
  unfold Loop.wokenP Loop.Woken
  split
  · rename_i v hout
    simp [hout]
  · rename_i hnot
    simpa using hnot

/-- The loop, the future on which a primitive has suspended a task, and the futures it has made. -/
structure Parking (C : Type) where
  loop : Loop C
  parked : TaskId → Option FutId
  made : List FutId

namespace Parking
variable (p : Parking C)

def start : Parking C := ⟨.start, fun _ => none, []⟩
def park (t : TaskId) : Parking C where
  loop := p.loop.newFuture.endStep t (.future p.loop.nfut)
  parked := Function.update p.parked t (some p.loop.nfut)
  made := p.loop.nfut :: p.made

def unpark (t : TaskId) : Parking C := { p with parked := Function.update p.parked t none }
def wake (f : FutId) (v : Val) : Parking C := { p with loop := p.loop.setResult f v }

/-- What the await of a future gives to the resumed task: nothing is thrown in, and the future has a
result. -/
def granted (f : FutId) : Bool :=
  match p.loop.signal, (p.loop.futures f).outcome with
  | .value, some (.result _) => true
  | _, _ => false

def step (e : Event C) : Option (Parking C) :=
  if ∀ f ∈ e.touches, f ∉ p.made then (p.loop.step e).map fun l => { p with loop := l } else none

/-- The running task, if it was suspended by the primitive, and its future. -/
def resumed : Option (TaskId × FutId) :=
  p.loop.current.bind fun t => (p.parked t).map fun f => (t, f)

/-- The invariant of the parked tasks; the loop has resumed the task in `x`. -/
structure InvBut (x : Option TaskId) : Prop where
  wf : p.loop.Wf
  single : p.loop.Single
  owned : ∀ f ∈ p.made, p.loop.Private f
  settled : ∀ f ∈ p.made, p.loop.doneP f = (p.loop.futures f).outcome.isSome
  queued : ∀ t f, p.parked t = some f → f ∈ p.made ∧ t < p.loop.ntask
  suspended : ∀ t f, p.parked t = some f → x ≠ some t →
    (p.loop.tasks t).coro = .suspended ∧ (p.loop.tasks t).futWaiter = some f
  inj : ∀ t u f, p.parked t = some f → p.parked u = some f → t = u

abbrev Inv : Prop := p.InvBut none

/-- No cancellation is to be thrown into a task whose future is pending or has a result. -/
def Armed : Prop := ∀ t f, p.parked t = some f → p.loop.doneP f = false ∨ p.loop.Woken f →
  (p.loop.tasks t).mustCancel = false

variable {p} {p' : Parking C} {e : Event C} {x : Option TaskId} {t : TaskId} {f : FutId}

theorem start_inv : (start : Parking C).Inv := by
  refine ⟨Loop.start_wf,Loop.start_single,?_,?_,?_,?_,?_⟩
  all_goals simp [start]
theorem InvBut.resume (h : p.InvBut x) (hx : ∀ t, x = some t → p.parked t = none) : p.Inv := by
  refine ⟨h.wf,h.single,h.owned,h.settled,h.queued,fun t f hf _ => h.suspended t f hf ?_,h.inj⟩
  intro he
  rw [hx t he] at hf
  cases hf

theorem InvBut.running_free (h : p.Inv) (hcur : p.loop.current = some t) : p.parked t = none := by
  cases hpark : p.parked t with
  | none => rfl
  | some f =>
    obtain ⟨hsusp,-⟩ := h.suspended t f hpark fun he => by cases he
    rw [(h.wf.task t (h.queued t f hpark).2).running.mpr hcur] at hsusp
    cases hsusp

theorem InvBut.not_woken (h : p.InvBut x) (hf : f ∈ p.made) (hpending : p.loop.doneP f = false) :
    ¬ p.loop.Woken f := by
  rintro ⟨v,hv⟩
  rw [h.settled f hf,hv] at hpending
  cases hpending

theorem InvBut.pending_of_idle (h : p.Inv) (hidle : p.loop.ready = []) (hf : p.parked t = some f) :
    p.loop.doneP f = false := by
  obtain ⟨hsusp,hwait⟩ := h.suspended t f hf fun he => by cases he
  rcases h.wf.waits t (h.queued t f hf).2 (fun he => by cases he) hsusp with
    hready | ⟨g,hg,hpending,-⟩
  · rw [hidle] at hready
    cases hready
  · cases hwait.symm.trans hg
    exact hpending

/-- The loop resumes a parked task when its future is done. -/
theorem InvBut.done_of_ready (h : p.Inv) (hf : p.parked t = some f) (hready : .step t ∈ p.loop.ready) :
    p.loop.doneP f = true := by
  obtain ⟨hmade,ht⟩ := h.queued t f hf
  obtain ⟨hsusp,hwait⟩ := h.suspended t f hf fun he => by cases he
  exact h.single.done_of_ready ht hsusp hwait (h.owned f hmade).lt hready

theorem step_cases (hstep : p.step e = some p') :
    ∃ l, p.loop.step e = some l ∧ (∀ f ∈ e.touches, f ∉ p.made) ∧ p' = { p with loop := l } := by
  rw [step] at hstep
  split at hstep
  · next htouch =>
    obtain ⟨l,hl,rfl⟩ := Option.map_eq_some_iff.mp hstep
    exact ⟨l,hl,htouch,rfl⟩
  · cases hstep

theorem InvBut.keeps (h : p.Inv) (hstep : p.step e = some p') (hf : f ∈ p.made) :
    Loop.Keeps p.loop p'.loop f := by
  obtain ⟨l,hl,htouch,rfl⟩ := step_cases hstep
  exact Loop.step_keeps hl h.wf (h.owned f hf) fun ht => htouch f ht hf

theorem InvBut.awake_iff (h : p.Inv) (hstep : p.step e = some p') (hf : f ∈ p.made) :
    (p'.loop.Woken f ↔ p.loop.Woken f) ∧ (p'.loop.doneP f = false → p.loop.doneP f = false) := by
  rcases h.keeps hstep hf with ⟨hdone,hout⟩ | ⟨hpending,-,hout⟩
  · rw [Loop.Woken,Loop.Woken,hout,hdone]
    exact ⟨Iff.rfl,id⟩
  · refine ⟨iff_of_false ?_ (h.not_woken hf hpending),fun _ => hpending⟩
    rintro ⟨v,hv⟩
    rw [hout] at hv
    cases hv

theorem InvBut.step (h : p.Inv) (hstep : p.step e = some p') : p'.InvBut p'.loop.current := by
  have hkeeps (f : FutId) (hf : f ∈ p.made) : Loop.Keeps p.loop p'.loop f := h.keeps hstep hf
  obtain ⟨l,hl,htouch,rfl⟩ := step_cases hstep
  refine ⟨Loop.step_wf hl h.wf,Loop.step_single hl h.wf h.single,
    fun f hf => Loop.step_private hl h.wf (h.owned f hf),?_,?_,?_,h.inj⟩
  · intro f hf
    show l.doneP f = (l.futures f).outcome.isSome
    rcases hkeeps f hf with ⟨hdone,hout⟩ | ⟨-,hdone,hout⟩
    · rw [hdone,hout,h.settled f hf]
    · rw [hdone,hout]
      rfl
  · intro t f hf
    exact ⟨(h.queued t f hf).1,(h.queued t f hf).2.trans_le (Loop.step_ntask hl h.wf)⟩
  · intro t f hf hcur
    obtain ⟨hsusp,hwait⟩ := h.suspended t f hf fun he => by cases he
    obtain ⟨hsusp',hwait'⟩ := Loop.step_suspended hl h.wf (h.queued t f hf).2 hsusp hcur
    exact ⟨hsusp',hwait'.trans hwait⟩

theorem resumed_eq_some (hres : p.resumed = some (t, f)) :
    p.loop.current = some t ∧ p.parked t = some f := by
  obtain ⟨u,hu,hmap⟩ := Option.bind_eq_some_iff.mp hres
  obtain ⟨g,hg,heq⟩ := Option.map_eq_some_iff.mp hmap
  cases heq
  exact ⟨hu,hg⟩
theorem resumed_eq_none (hres : p.resumed = none) (hcur : p.loop.current = some t) :
    p.parked t = none := by
  rw [resumed,hcur] at hres
  simpa using hres

variable {u : TaskId} {g : FutId}

theorem unpark_eq_some (hu : (p.unpark t).parked u = some f) :
    u ≠ t ∧ p.parked u = some f := by
  by_cases hut : u = t
  · subst hut
    simp [Parking.unpark] at hu
  · exact ⟨hut,by simpa [Parking.unpark,hut] using hu⟩
theorem InvBut.unpark (h : p.InvBut (some t)) : (p.unpark t).Inv := by
  refine ⟨h.wf,h.single,h.owned,h.settled,fun u g hu => h.queued u g (unpark_eq_some hu).2,
    fun u g hu _ => ?_,fun u v g hu hv => h.inj u v g (unpark_eq_some hu).2 (unpark_eq_some hv).2⟩
  exact h.suspended u g (unpark_eq_some hu).2 fun he =>
    (unpark_eq_some hu).1 (Option.some.inj he).symm

/-! ## Parking and waking -/

theorem InvBut.fresh (h : p.InvBut x) : p.loop.nfut ∉ p.made :=
  fun hmem => Nat.lt_irrefl _ (h.owned _ hmem).lt

theorem InvBut.park_frame (h : p.Inv) (hcur : p.loop.current = some t) :
    (p.park t).loop.doneP p.loop.nfut = false ∧
    ((p.park t).loop.futures p.loop.nfut).outcome = none ∧
    (∀ f ∈ p.made, (p.park t).loop.futures f = p.loop.futures f) ∧
    ∀ u, ((p.park t).loop.tasks u).mustCancel = (p.loop.tasks u).mustCancel := by
  have hpending : p.loop.newFuture.doneP p.loop.nfut = false := by
    simp [Loop.newFuture,Loop.doneP,Future.pending]
  refine ⟨?_,?_,fun f hf => ?_,fun u => ?_⟩
  · rw [park,Loop.endStep,Loop.doneP_addDoneCallback]
    exact hpending
  · rw [park,Loop.endStep,Loop.addDoneCallback,if_neg (by rw [Bool.not_eq_true]; exact hpending)]
    simp [Loop.modFut,Loop.leave,Loop.modTask,Loop.newFuture,Future.pending]
  · have hlt := (h.owned f hf).lt
    have hpriv := (h.owned f hf).task t (h.wf.current_lt t hcur)
    refine (Loop.endStep_ne (s := p.loop.newFuture) t ?_ hpriv.symm).trans (Loop.newFuture_ne hlt)
    intro g hg
    cases hg
    exact hlt.ne
  · show ((p.loop.newFuture.endStep t (.future p.loop.nfut)).tasks u).mustCancel = _
    by_cases hut : u = t
    · subst hut
      rw [Loop.endStep,Loop.addDoneCallback_tasks,Loop.leave_task]
      rfl
    · rw [Loop.endStep_other hut]
      rfl

theorem park_eq_some (hu : (p.park t).parked u = some g) :
    u = t ∧ g = p.loop.nfut ∨ u ≠ t ∧ p.parked u = some g := by
  by_cases hut : u = t
  · subst hut
    exact .inl ⟨rfl,by simpa [Parking.park] using hu.symm⟩
  · exact .inr ⟨hut,by simpa [Parking.park,hut] using hu⟩

theorem park_of_ne (hfree : p.parked t = none) (hu : p.parked u = some g) :
    u ≠ t ∧ (p.park t).parked u = some g := by
  have hut : u ≠ t := by
    rintro rfl
    rw [hfree] at hu
    cases hu
  exact ⟨hut,by simpa [Parking.park,hut] using hu⟩

theorem parked_park (hfree : p.parked t = none) :
    (∃ u, (p.park t).parked u = some f) ↔ (∃ u, p.parked u = some f) ∨ f = p.loop.nfut := by
  constructor
  · rintro ⟨u,hu⟩
    exact (park_eq_some hu).symm.imp (fun hu => ⟨u,hu.2⟩) And.right
  · rintro (⟨u,hu⟩ | rfl)
    · exact ⟨u,(park_of_ne hfree hu).2⟩
    · exact ⟨t,by simp [Parking.park]⟩

theorem InvBut.park (h : p.Inv) (hcur : p.loop.current = some t) : (p.park t).Inv := by
  have hfresh := h.fresh
  -- the two events that make the future and suspend the task
  have hmake : p.step .newFuture = some { p with loop := p.loop.newFuture } := by
    rw [Parking.step,if_pos (fun f hf => by cases hf)]
    rfl
  have hnew := (h.step hmake).resume fun u hu => h.running_free hu
  have hstep : ({ p with loop := p.loop.newFuture } : Parking C).step (.yields (.future p.loop.nfut)) =
      some { p with loop := p.loop.newFuture.endStep t (.future p.loop.nfut) } := by
    rw [Parking.step,if_pos (by
      intro f hf
      rw [List.mem_singleton.mp hf]
      exact hfresh),Loop.step_suspend (s := p.loop.newFuture) hcur (Nat.lt_succ_self _)]
    rfl
  have hwait := (hnew.step hstep).resume fun u hu => by
    rw [Loop.endStep_current] at hu
    cases hu
  have htask : (p.loop.newFuture.endStep t (.future p.loop.nfut)).tasks t =
      { p.loop.tasks t with coro := .suspended, futWaiter := some p.loop.nfut } := by
    rw [Loop.endStep,Loop.addDoneCallback_tasks,Loop.leave_task]
    rfl
  have hpriv : (p.park t).loop.Private p.loop.nfut := by
    obtain ⟨l,hl,-,heq⟩ := step_cases hstep
    cases heq
    exact Loop.step_private hl hnew.wf (Loop.newFuture_private h.wf)
  have hlt : t < (p.park t).loop.ntask := by
    have ht : t < p.loop.newFuture.ntask := h.wf.current_lt t hcur
    exact (Loop.endStep_moves ht (.future p.loop.nfut)).ntask ▸ ht
  obtain ⟨hpending,hout,-⟩ := h.park_frame hcur
  have hold {u : TaskId} (hu : p.parked u = some p.loop.nfut) : False := hfresh (h.queued u _ hu).1
  refine ⟨hwait.wf,hwait.single,fun f hf => ?_,fun f hf => ?_,fun u g hu => ?_,fun u g hu _ => ?_,
    fun u v g hu hv => ?_⟩
  · rcases List.mem_cons.mp hf with rfl | hf
    · exact hpriv
    · exact hwait.owned f hf
  · rcases List.mem_cons.mp hf with rfl | hf
    · rw [hpending,hout]
      rfl
    · exact hwait.settled f hf
  · rcases park_eq_some hu with ⟨rfl,rfl⟩ | ⟨-,hu⟩
    · exact ⟨List.mem_cons_self,hlt⟩
    · exact ⟨List.mem_cons_of_mem _ (h.queued u g hu).1,(hwait.queued u g hu).2⟩
  · rcases park_eq_some hu with ⟨rfl,rfl⟩ | ⟨-,hu⟩
    · exact ⟨by rw [Parking.park,htask],by rw [Parking.park,htask]⟩
    · exact hwait.suspended u g hu fun he => by cases he
  · rcases park_eq_some hu with ⟨rfl,rfl⟩ | ⟨-,hug⟩
    · rcases park_eq_some hv with ⟨rfl,-⟩ | ⟨-,hvg⟩
      · rfl
      · exact (hold hvg).elim
    · rcases park_eq_some hv with ⟨rfl,rfl⟩ | ⟨-,hvg⟩
      · exact (hold hug).elim
      · exact h.inj u v g hug hvg

/-- The futures of the parked tasks in a queue, each of them once. -/
structure Lined (p : Parking C) (waiters : List FutId) : Prop where
  waiting : ∀ f, f ∈ waiters ↔ ∃ t, p.parked t = some f
  nodup : waiters.Nodup

section
variable {waiters : List FutId}

theorem Lined.made (hl : p.Lined waiters) (h : p.InvBut x) (hf : f ∈ waiters) : f ∈ p.made := by
  obtain ⟨t,ht⟩ := (hl.waiting f).mp hf
  exact (h.queued t f ht).1

theorem Lined.park (hl : p.Lined waiters) (h : p.Inv) (hcur : p.loop.current = some t) :
    (p.park t).Lined (waiters ++ [p.loop.nfut]) := by
  refine ⟨fun f => ?_,List.nodup_append.mpr ⟨hl.nodup,List.nodup_singleton _,?_⟩⟩
  · rw [List.mem_append,List.mem_singleton,hl.waiting f,parked_park (h.running_free hcur)]
  · rintro a ha b hb rfl
    exact h.fresh (hl.made h (List.mem_singleton.mp hb ▸ ha))

theorem Lined.unpark (hl : p.Lined waiters) (h : p.InvBut x) (hf : p.parked t = some f) :
    (p.unpark t).Lined (waiters.erase f) := by
  refine ⟨fun g => ?_,hl.nodup.erase f⟩
  rw [hl.nodup.mem_erase_iff,hl.waiting g]
  constructor
  · rintro ⟨hne,u,hu⟩
    have hut : u ≠ t := by
      rintro rfl
      exact hne (Option.some.inj (hu.symm.trans hf))
    exact ⟨u,by simpa [Parking.unpark,hut] using hu⟩
  · rintro ⟨u,hu⟩
    obtain ⟨hut,hu⟩ := unpark_eq_some hu
    refine ⟨?_,u,hu⟩
    rintro rfl
    exact hut (h.inj u t g hu hf)

theorem Lined.step (hl : p.Lined waiters) (hstep : p.step e = some p') : p'.Lined waiters := by
  obtain ⟨l,-,-,rfl⟩ := step_cases hstep
  exact ⟨hl.waiting,hl.nodup⟩

end

theorem wake_self (hpending : p.loop.doneP f = false) (v : Val) :
    (p.wake f v).loop.doneP f = true ∧ ((p.wake f v).loop.futures f).outcome = some (.result v) := by
  have hd : (p.loop.futures f).done = false := hpending
  simp [wake,Loop.setResult,Loop.resolve,Loop.doneP,Loop.modFut,Loop.schedule,hd]

theorem wake_ne (hg : g ≠ f) (v : Val) :
    (p.wake f v).loop.futures g = p.loop.futures g := Loop.resolve_ne hg _
theorem wake_tasks (v : Val) : (p.wake f v).loop.tasks = p.loop.tasks := Loop.resolve_tasks _ _ _

theorem InvBut.wake (h : p.InvBut x) (hf : f ∈ p.made) (hpending : p.loop.doneP f = false) (v : Val) :
    (p.wake f v).InvBut x := by
  have m : Loop.Moves p.loop (p.wake f v).loop := .resolve f _
  refine ⟨h.wf.of_moves m,h.single.of_hands h.wf.task m (.resolve (h.owned f hf).lt _),
    fun g hg => (h.owned g hg).of_moves m,fun g hg => ?_,fun t g hg => ?_,
    fun t g hg hx => ?_,h.inj⟩
  · by_cases hgf : g = f
    · subst hgf
      rw [(wake_self hpending v).1,(wake_self hpending v).2]
      rfl
    · rw [Loop.doneP,wake_ne hgf]
      exact h.settled g hg
  · exact ⟨(h.queued t g hg).1,m.ntask ▸ (h.queued t g hg).2⟩
  · rw [wake_tasks]
    exact h.suspended t g hg hx

/-! ## Cancellations -/

theorem granted_iff : p.granted f = true ↔ p.loop.signal = .value ∧ p.loop.Woken f := by
  unfold granted Loop.Woken
  split
  · rename_i v hsig hout
    simp [hsig,hout]
  · rename_i hnot
    simp only [Bool.false_eq_true,false_iff,not_and,not_exists]
    exact fun hsig v hv => hnot v hsig hv

theorem tick_signal {l l' : Loop C} (hstep : l.step .tick = some l') (hcur : l'.current = some t)
    (hfree : (l.tasks t).mustCancel = false) : l'.signal = .value := by
  obtain ⟨rest,-,hlive,rfl⟩ := Loop.tick_resumed hstep hcur
  rw [Loop.beginStep,if_neg (by rw [Bool.not_eq_true]; exact hlive)]
  exact if_neg (by rw [Bool.not_eq_true]; exact hfree)

/-- A cancellation of a task that was not woken cancels its future, or finds the task done. -/
theorem Armed.cancel (ha : p.Armed) (h : p.Inv) (hf : p.parked t = some f) (hasleep : ¬ p.loop.Woken f)
    (hawake : (p.loop.cancel t).doneP f = false ∨ (p.loop.cancel t).Woken f) :
    ((p.loop.cancel t).tasks t).mustCancel = false := by
  have hkeeps : Loop.Keeps p.loop (p.loop.cancel t) f := Loop.cancel_keeps t
  have hwait := (h.suspended t f hf fun he => by cases he).2
  -- the future is pending before and after, so a live task would have cancelled it
  have hpending : (p.loop.cancel t).doneP f = false := by
    refine hawake.resolve_right fun ⟨v,hv⟩ => ?_
    rcases hkeeps with ⟨-,hout⟩ | ⟨-,-,hout⟩
    · exact hasleep ⟨v,hout ▸ hv⟩
    · rw [hout] at hv
      cases hv
  have hbefore : p.loop.doneP f = false := by
    rcases hkeeps with ⟨heq,-⟩ | ⟨hb,-⟩
    · exact heq.symm.trans hpending
    · exact hb
  have hended : p.loop.doneP (p.loop.tasks t).doneFut = true := by
    rw [Loop.doneP_cancel,hbefore,hwait] at hpending
    simpa using hpending
  rw [Loop.cancel,if_pos hended]
  exact ha t f hf (.inl hbefore)

def Spares (p : Parking C) (e : Event C) : Prop :=
  ∀ t f, e = .cancel t → p.parked t = some f → ¬ p.loop.Woken f

/-- The tasks that an event does not resume stay armed, and one that it resumes after its future was
resolved goes on with the result. -/
theorem Armed.step (ha : p.Armed) (h : p.Inv) (hok : p.Spares e) (hstep : p.step e = some p') :
    (p'.resumed = none → p'.Armed) ∧ ∀ t f, p'.resumed = some (t, f) →
      (p'.unpark t).Armed ∧ (p'.loop.Woken f → p'.granted f = true) := by
  have hawake (f : FutId) (hf : f ∈ p.made) := h.awake_iff hstep hf
  obtain ⟨l,hl,-,rfl⟩ := step_cases hstep
  have harmed (t : TaskId) (f : FutId) (hcur : l.current ≠ some t) (hf : p.parked t = some f)
      (hopen : l.doneP f = false ∨ l.Woken f) : (l.tasks t).mustCancel = false := by
    have hlt := (h.queued t f hf).2
    obtain ⟨hsusp,-⟩ := h.suspended t f hf fun he => by cases he
    have hiff := hawake f (h.queued t f hf).1
    by_cases hcancel : e = .cancel t
    · subst hcancel
      have hlc : p.loop.cancel t = l := by simpa [Loop.step,hlt] using hl
      subst hlc
      exact ha.cancel h hf (hok t f rfl hf) hopen
    · have hsame : (l.tasks t).mustCancel = (p.loop.tasks t).mustCancel := by
        by_cases huncancel : e = .uncancel t
        · subst huncancel
          have hlu : p.loop.uncancel t = l := by simpa [Loop.step,hlt] using hl
          subst hlu
          simp [Loop.uncancel,Loop.modTask]
        · rw [Loop.step_task_eq hl h.wf hlt hsusp hcur hcancel huncancel]
      exact hsame.trans (ha t f hf (hopen.imp hiff.2 hiff.1.mp))
  refine ⟨fun hres t f hf => harmed t f (fun hcur => ?_) hf,fun t f hres => ?_⟩
  · rw [resumed_eq_none hres hcur] at hf
    cases hf
  obtain ⟨hcur,hf⟩ := resumed_eq_some hres
  refine ⟨fun u g hu => ?_,fun hw => granted_iff.mpr ⟨?_,hw⟩⟩
  · obtain ⟨hut,hu⟩ := unpark_eq_some hu
    exact harmed u g (fun he => hut (Option.some.inj (he.symm.trans hcur))) hu
  · by_cases htick : e = .tick
    · subst htick
      exact tick_signal hl hcur (ha t f hf (.inr ((hawake f (h.queued t f hf).1).1.mp hw)))
    · rcases Loop.step_current hl htick with heq | heq
      · rw [h.running_free (heq.symm.trans hcur)] at hf
        cases hf
      · rw [heq] at hcur
        cases hcur

theorem Armed.park (ha : p.Armed) (h : p.Inv) (hcur : p.loop.current = some t)
    (hfree : (p.loop.tasks t).mustCancel = false) : (p.park t).Armed := by
  obtain ⟨-,-,hfut,hmust⟩ := h.park_frame hcur
  intro u g hu hopen
  rw [hmust u]
  rcases park_eq_some hu with ⟨rfl,-⟩ | ⟨-,hug⟩
  · exact hfree
  · apply ha u g hug
    rwa [Loop.doneP,Loop.Woken,hfut g (h.queued u g hug).1] at hopen

theorem Armed.wake (ha : p.Armed) (hpending : p.loop.doneP f = false) (v : Val) :
    (p.wake f v).Armed := by
  intro u g hu hopen
  rw [wake_tasks]
  apply ha u g hu
  by_cases hgf : g = f
  · exact .inl (hgf ▸ hpending)
  · rwa [Loop.doneP,Loop.Woken,wake_ne hgf] at hopen

/-! ## Queues that are served -/

/-- A woken waiter stands in for the pending ones of a queue. -/
def Serving (p : Parking C) (waiters : List FutId) : Prop :=
  (∃ f ∈ waiters, p.loop.doneP f = false) → ∃ f ∈ waiters, p.loop.Woken f

section
variable {waiters : List FutId}

theorem Lined.serving_step (hl : p.Lined waiters) (h : p.Inv) (hs : p.Serving waiters)
    (hstep : p.step e = some p') : p'.Serving waiters := by
  have hawake (f : FutId) (hf : f ∈ waiters) := h.awake_iff hstep (hl.made h hf)
  rintro ⟨f,hf,hpending⟩
  obtain ⟨g,hg,hw⟩ := hs ⟨f,hf,(hawake f hf).2 hpending⟩
  exact ⟨g,hg,(hawake g hg).1.mpr hw⟩

theorem Lined.serving_park (hl : p.Lined waiters) (h : p.Inv) (hcur : p.loop.current = some t)
    (hw : ∃ f ∈ waiters, p.loop.Woken f) : (p.park t).Serving (waiters ++ [p.loop.nfut]) := by
  obtain ⟨f,hf,hw⟩ := hw
  refine fun _ => ⟨f,List.mem_append_left _ hf,?_⟩
  rwa [Loop.Woken,(h.park_frame hcur).2.2.1 f (hl.made h hf)]

theorem Lined.serving_unpark (hl : p.Lined waiters) (hs : p.Serving waiters)
    (hasleep : ¬ p.loop.Woken f) : (p.unpark t).Serving (waiters.erase f) := by
  rintro ⟨g,hg,hpending⟩
  obtain ⟨k,hk,hw⟩ := hs ⟨g,List.mem_of_mem_erase hg,hpending⟩
  refine ⟨k,hl.nodup.mem_erase_iff.mpr ⟨?_,hk⟩,hw⟩
  rintro rfl
  exact hasleep hw

theorem serving_wake (hf : f ∈ waiters) (hpending : p.loop.doneP f = false) (v : Val) :
    (p.wake f v).Serving waiters :=
  fun _ => ⟨f,hf,v,(wake_self hpending v).2⟩
theorem serving_of_done (hdone : ∀ f ∈ waiters, p.loop.doneP f = true) : p.Serving waiters := by
  rintro ⟨f,hf,hpending⟩
  exact absurd ((hdone f hf).symm.trans hpending) (by decide)

theorem Lined.asleep (hl : p.Lined waiters) (h : p.Inv) (hidle : p.loop.ready = [])
    (hf : f ∈ waiters) : ¬ p.loop.Woken f := by
  obtain ⟨t,ht⟩ := (hl.waiting f).mp hf
  exact h.not_woken (hl.made h hf) (h.pending_of_idle hidle ht)

/-- A loop that has nothing to run leaves no task in a queue that is served. -/
theorem Lined.none_parked (hl : p.Lined waiters) (h : p.Inv) (hs : p.Serving waiters)
    (hidle : p.loop.ready = []) (t : TaskId) : p.parked t = none := by
  cases hpark : p.parked t with
  | none => rfl
  | some f =>
    obtain ⟨g,hg,hw⟩ := hs ⟨f,(hl.waiting f).mpr ⟨t,hpark⟩,h.pending_of_idle hidle hpark⟩
    exact absurd hw (hl.asleep h hidle hg)

end
end Parking
end Unagi.Asyncio
