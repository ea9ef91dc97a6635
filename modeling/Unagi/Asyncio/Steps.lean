import Mathlib.Algebra.BigOperators.Group.Finset.Basic
import Unagi.Asyncio.Frame

/-! # One step at a time

A task has at most one step outstanding, in the ready queue or among the callbacks of a future, and
none while it runs. So a task whose step is ready does not wait for a pending future. -/

namespace Unagi.Asyncio

variable {C : Type}

def Callback.isStep (t : TaskId) : Callback C → Bool
  | .step u => u = t
  | _ => false

namespace Loop

def stepsAt (s : Loop C) (t : TaskId) (f : FutId) : Nat :=
  (s.futures f).callbacks.countP (Callback.isStep t)
def steps (s : Loop C) (t : TaskId) : Nat :=
  s.ready.countP (Callback.isStep t) + ∑ f ∈ Finset.range s.nfut, s.stepsAt t f

/-- The steps stay where they are, or go from a future that is resolved into the ready queue. -/
structure Hands (s s' : Loop C) : Prop where
  nfut : s.nfut ≤ s'.nfut
  pending : ∀ f < s.nfut, s'.doneP f = false → s.doneP f = false
  parked : ∀ t, ∀ f < s.nfut, s'.doneP f = false → s'.stepsAt t f = s.stepsAt t f
  steps : ∀ t, s'.steps t = s.steps t

structure Single (s : Loop C) : Prop where
  once : ∀ t, s.steps t ≤ 1
  running : ∀ t, s.current = some t → s.steps t = 0
  parked : ∀ t < s.ntask, (s.tasks t).coro = .suspended → ∀ f, (s.tasks t).futWaiter = some f →
    s.doneP f = false → 0 < s.stepsAt t f

section
variable {s s' : Loop C} {t u : TaskId} {f g : FutId}

theorem mem_iff_countP {cbs : List (Callback C)} :
    .step t ∈ cbs ↔ 0 < cbs.countP (Callback.isStep t) := by
  rw [List.countP_pos_iff]
  constructor
  · exact fun h => ⟨_,h,by simp [Callback.isStep]⟩
  · rintro ⟨cb,hcb,hstep⟩
    cases cb with
    | step u =>
      obtain rfl : u = t := by simpa [Callback.isStep] using hstep
      exact hcb
    | _ => cases hstep

theorem steps_eq_zero (h : ¬ s.HasStep t) : s.steps t = 0 := by
  have hat (f : FutId) : s.stepsAt t f = 0 :=
    Nat.eq_zero_of_not_pos fun hpos => h (.inr ⟨f,mem_iff_countP.mpr hpos⟩)
  have hready : s.ready.countP (Callback.isStep t) = 0 :=
    Nat.eq_zero_of_not_pos fun hpos => h (.inl (mem_iff_countP.mpr hpos))
  simp [steps,hat,hready]

theorem steps_eq (hf : f < s.nfut) : s.steps t = s.ready.countP (Callback.isStep t) +
    (s.stepsAt t f + ∑ g ∈ (Finset.range s.nfut).erase f, s.stepsAt t g) := by
  rw [Finset.add_sum_erase _ _ (Finset.mem_range.mpr hf)]
  rfl

/-- A task whose step is ready waits for no pending future. -/
theorem Single.done_of_ready (h : s.Single) (ht : t < s.ntask) (hsusp : (s.tasks t).coro = .suspended)
    (hwait : (s.tasks t).futWaiter = some f) (hf : f < s.nfut) (hready : .step t ∈ s.ready) :
    s.doneP f = true := by
  by_contra hpending
  have hat := h.parked t ht hsusp f hwait (by simpa using hpending)
  have hmem := mem_iff_countP.mp hready
  have honce := h.once t
  rw [steps_eq hf] at honce
  omega

/-! ## What hands the steps on -/

namespace Hands

theorem of_eq (hready : s'.ready = s.ready) (hfut : s'.futures = s.futures) (hn : s'.nfut = s.nfut) :
    Hands s s' := by
  refine ⟨hn.ge,fun f _ => ?_,fun t f _ _ => ?_,fun t => ?_⟩
  · rw [doneP,doneP,hfut]
    exact id
  · rw [stepsAt,stepsAt,hfut]
  · simp only [Loop.steps,stepsAt,hready,hfut,hn]

theorem trans {s₁ s₂ s₃ : Loop C} (h : Hands s₁ s₂) (h' : Hands s₂ s₃) : Hands s₁ s₃ where
  nfut := h.nfut.trans h'.nfut
  pending f hf hp := h.pending f hf (h'.pending f (hf.trans_le h.nfut) hp)
  parked t f hf hp := by
    have hf' := hf.trans_le h.nfut
    exact (h'.parked t f hf' hp).trans (h.parked t f hf (h'.pending f hf' hp))
  steps t := (h'.steps t).trans (h.steps t)

theorem schedule {cbs : List (Callback C)} (h : ∀ t, cbs.countP (Callback.isStep t) = 0) :
    Hands s (s.schedule cbs) := by
  refine ⟨le_rfl,fun _ _ => id,fun _ _ _ _ => rfl,fun t => ?_⟩
  show (s.ready ++ cbs).countP _ + _ = _
  rw [List.countP_append,h t]
  rfl

theorem stepsAt_modFut {k : Future C → Future C} (hk : ∀ fut t,
    (k fut).callbacks.countP (Callback.isStep t) = fut.callbacks.countP (Callback.isStep t)) :
    (s.modFut g k).stepsAt t f = s.stepsAt t f := by
  by_cases hfg : f = g
  · subst hfg
    simpa [stepsAt,Loop.modFut] using hk (s.futures f) t
  · rw [stepsAt,modFut_ne hfg]
    rfl

theorem modFut (g : FutId) {k : Future C → Future C} (hdone : ∀ fut, (k fut).done = fut.done)
    (hk : ∀ fut t, (k fut).callbacks.countP (Callback.isStep t) =
      fut.callbacks.countP (Callback.isStep t)) : Hands s (s.modFut g k) := by
  refine ⟨le_rfl,fun f _ => ?_,fun t f _ _ => stepsAt_modFut hk,fun t => ?_⟩
  · rw [s.doneP_modFut g f k hdone]
    exact id
  · exact congrArg _ (Finset.sum_congr rfl fun f _ => stepsAt_modFut hk)

theorem resolve (hg : g < s.nfut) (o : Outcome) : Hands s (s.resolve g o) := by
  unfold Loop.resolve
  split
  · exact of_eq rfl rfl rfl
  · set s' := (s.modFut g fun fut => { fut with done := true, outcome := some o, callbacks := [] }).schedule
      (s.futures g).callbacks
    have hself (t : TaskId) : s'.stepsAt t g = 0 := by
      simp [s',stepsAt,Loop.modFut,Loop.schedule]
    have hother (t : TaskId) (f : FutId) (hf : f ≠ g) : s'.stepsAt t f = s.stepsAt t f := by
      simp [s',stepsAt,Loop.modFut,Loop.schedule,hf]
    have hne (f : FutId) (hp : s'.doneP f = false) : f ≠ g := by
      rintro rfl
      simp [s',doneP,Loop.modFut,Loop.schedule] at hp
    refine ⟨le_rfl,fun f _ hp => ?_,fun t f _ hp => hother t f (hne f hp),fun t => ?_⟩
    · have hfg := hne f hp
      simpa [s',doneP,Loop.modFut,Loop.schedule,hfg] using hp
    · have hrest : ∑ f ∈ (Finset.range s'.nfut).erase g, s'.stepsAt t f =
          ∑ f ∈ (Finset.range s.nfut).erase g, s.stepsAt t f :=
        Finset.sum_congr rfl fun f hf => hother t f (Finset.ne_of_mem_erase hf)
      have hready : s'.ready = s.ready ++ (s.futures g).callbacks := rfl
      rw [steps_eq (s := s') hg,steps_eq hg,hrest,hself,hready,List.countP_append,stepsAt]
      omega

theorem pyCancel (hg : g < s.nfut) : Hands s (s.pyCancel g).2 := by
  unfold Loop.pyCancel
  split
  · exact of_eq rfl rfl rfl
  · refine (modFut g ?_ ?_).trans (resolve (g := g) (s := s.modFut g _) hg _)
    · exact fun _ => rfl
    · exact fun _ _ => rfl

theorem addDoneCallback (g : FutId) {cb : Callback C} (hcb : ∀ t, cb.isStep t = false) :
    Hands s (s.addDoneCallback g cb) := by
  have hnone (t : TaskId) : [cb].countP (Callback.isStep t) = 0 := by simp [hcb t]
  unfold Loop.addDoneCallback
  split
  · exact schedule hnone
  · apply modFut g
    · exact fun _ => rfl
    · intro fut t
      rw [List.countP_append,hnone t]
      rfl

theorem removeDoneCallback (g : FutId) (keep : C → Bool) : Hands s (s.removeDoneCallback g keep) := by
  apply modFut g
  · exact fun _ => rfl
  · intro fut t
    simp only [List.countP_filter]
    refine List.countP_congr fun cb _ => ?_
    cases cb <;> simp [Callback.isStep]

theorem newFuture : Hands s s.newFuture := by
  have hat (t : TaskId) (f : FutId) (hf : f < s.nfut) : s.newFuture.stepsAt t f = s.stepsAt t f := by
    rw [stepsAt,newFuture_ne hf]
    rfl
  refine ⟨Nat.le_succ _,fun f hf => ?_,fun t f hf _ => hat t f hf,fun t => ?_⟩
  · rw [doneP,newFuture_ne hf]
    exact id
  · have hnew : s.newFuture.stepsAt t s.nfut = 0 := by simp [stepsAt,Loop.newFuture,Future.pending]
    show _ + ∑ f ∈ Finset.range (s.nfut + 1), s.newFuture.stepsAt t f = _
    rw [Finset.sum_range_succ,hnew,Nat.add_zero]
    exact congrArg _ (Finset.sum_congr rfl fun f hf => hat t f (Finset.mem_range.mp hf))

theorem gather (watch : List FutId) (re : Bool) : Hands s (s.gather watch re) := by
  have hnew (gs : FutId → Option Gather) : Hands s { s.newFuture with gathers := gs } :=
    newFuture.trans (of_eq rfl rfl rfl)
  unfold Loop.gather
  simp only
  split
  · exact (hnew _).trans (resolve (Nat.lt_succ_self _) _)
  · exact List.foldlRecOn _ _ (hnew _) fun _ hs w _ => hs.trans (addDoneCallback w.1 fun _ => rfl)

theorem gatherDone (hg : (s.gathers g).isSome → g < s.nfut) (idx : Nat) :
    Hands s (s.gatherDone g idx) := by
  obtain heq | ⟨hsome,gs,-,heq | ⟨o,heq⟩⟩ := s.gatherDone_cases g idx
  · exact of_eq (by rw [heq]) (by rw [heq]) (by rw [heq])
  · exact of_eq (by rw [heq]) (by rw [heq]) (by rw [heq])
  · rw [heq]
    have hkeep : Hands s { s with gathers := gs } := of_eq rfl rfl rfl
    exact hkeep.trans (resolve (s := { s with gathers := gs }) (hg hsome) o)

theorem cancel (ht : ∀ f, (s.tasks t).futWaiter = some f → f < s.nfut) : Hands s (s.cancel t) := by
  obtain heq | ⟨k,-,heq | ⟨f,hf,-,heq⟩⟩ := s.cancel_cases t
  · exact of_eq (by rw [heq]) (by rw [heq]) (by rw [heq])
  · rw [heq]
    exact of_eq rfl rfl rfl
  · rw [heq]
    have hmod : Hands s (s.modTask t k) := of_eq rfl rfl rfl
    exact hmod.trans (pyCancel (ht f hf))

end Hands

theorem step_hands {e : Event C} (hstep : s.step e = some s') (hwf : s.Wf) (hact : isAct e = true) :
    Hands s s' := by
  have heq := step_act hstep hact
  cases e with
  | tick | createTask | yields _ => cases hact
  | newFuture => exact heq ▸ .newFuture
  | callSoon c => exact heq ▸ .schedule fun _ => rfl
  | setResult f _ | setException f _ =>
    simp only [step,Option.ite_none_right_eq_some] at hstep
    exact heq ▸ .resolve hstep.1 _
  | cancelFuture f =>
    simp only [step,Option.ite_none_right_eq_some] at hstep
    exact heq ▸ .pyCancel hstep.1
  | addDoneCallback f c => exact heq ▸ .addDoneCallback f fun _ => rfl
  | removeDoneCallback f keep => exact heq ▸ .removeDoneCallback f keep
  | gather watch re => exact heq ▸ .gather watch re
  | cancel t =>
    simp only [step,Option.ite_none_right_eq_some] at hstep
    exact heq ▸ .cancel (hwf.task t hstep.1).waiter_lt
  | uncancel t => exact heq ▸ .of_eq rfl rfl rfl

/-! ## The invariant -/

theorem start_single : (start : Loop C).Single := by
  refine ⟨?_,?_,?_⟩
  all_goals simp [start,steps]

theorem Single.of_hands (h : s.Single)
    (hwf : ∀ t < s.ntask, TaskWf s.nfut s.current t (s.tasks t)) (m : Moves s s') (k : Hands s s') :
    s'.Single := by
  refine ⟨fun t => k.steps t ▸ h.once t,fun t hcur => ?_,fun t ht hsusp f hf hpending => ?_⟩
  · rw [k.steps t]
    exact h.running t (m.current ▸ hcur)
  · rw [(m.task t).coro] at hsusp
    rw [(m.task t).waiter] at hf
    have ht : t < s.ntask := m.ntask ▸ ht
    have hlt := (hwf t ht).waiter_lt f hf
    rw [k.parked t f hlt hpending]
    exact h.parked t ht hsusp f hf (k.pending f hlt hpending)

/-- Taking a callback from the ready queue takes the step that it is. -/
theorem steps_take {cb : Callback C} {rest : List (Callback C)} (hready : s.ready = cb :: rest) :
    ({ s with ready := rest } : Loop C).steps t + (if cb.isStep t then 1 else 0) = s.steps t := by
  show rest.countP _ + _ + _ = _
  rw [steps,hready,List.countP_cons]
  exact Nat.add_right_comm _ _ _

theorem runCallback_single (h : s.Single) (hwf : s.Wf) (hcur : s.current = none) {cb : Callback C}
    {rest : List (Callback C)} (hready : s.ready = cb :: rest) :
    ({ s with ready := rest }.runCallback cb).Single := by
  have hle (t : TaskId) : ({ s with ready := rest } : Loop C).steps t ≤ 1 :=
    (Nat.le_of_add_right_le (steps_take hready).le).trans (h.once t)
  have hrest : ({ s with ready := rest } : Loop C).Single := by
    refine ⟨hle,fun t ht => ?_,h.parked⟩
    rw [show ({ s with ready := rest } : Loop C).current = none from hcur] at ht
    cases ht
  cases cb with
  | step t =>
    simp only [runCallback,beginStep]
    split
    · exact hrest
    · have htake := steps_take (t := t) hready
      have honce := h.once t
      rw [if_pos (by simp [Callback.isStep])] at htake
      refine ⟨hle,fun u hu => ?_,fun u hu hsusp f hf hpending => ?_⟩
      · cases hu
        show ({ s with ready := rest } : Loop C).steps t = 0
        omega
      · by_cases hut : u = t
        · subst hut
          simp [modTask] at hsusp
        · simp only [modTask,Function.update_of_ne hut] at hsusp hf
          exact h.parked u hu hsusp f hf hpending
  | gathered g idx =>
    have hwf' := take_wf hwf hready none fun t ht => by cases ht
    exact hrest.of_hands hwf'.task (.gatherDone g idx)
      (.gatherDone (fun hg => (hwf'.gather_lt g hg).1) idx)
  | other c => exact hrest

theorem steps_schedule : (s.callSoon (.step t)).steps u = s.steps u + if u = t then 1 else 0 := by
  have hsum : ∑ f ∈ Finset.range (s.callSoon (.step t)).nfut, (s.callSoon (.step t)).stepsAt u f =
      ∑ f ∈ Finset.range s.nfut, s.stepsAt u f := rfl
  have hready : (s.callSoon (.step t)).ready = s.ready ++ [.step t] := rfl
  rw [steps,steps,hsum,hready,List.countP_append]
  by_cases hut : u = t
  · simp [Callback.isStep,hut,Nat.add_right_comm]
  · simp [Callback.isStep,hut,Ne.symm hut]

theorem steps_addDoneCallback (hf : f < s.nfut) :
    (s.addDoneCallback f (.step t)).steps u = s.steps u + if u = t then 1 else 0 := by
  unfold addDoneCallback
  split
  · exact steps_schedule
  · set s' := s.modFut f fun fut => { fut with callbacks := fut.callbacks ++ [.step t] }
    have hself : s'.stepsAt u f = s.stepsAt u f + if u = t then 1 else 0 := by
      by_cases hut : u = t
      · simp [s',stepsAt,modFut,Callback.isStep,hut]
      · simp [s',stepsAt,modFut,Callback.isStep,hut,Ne.symm hut]
    have hrest : ∑ g ∈ (Finset.range s'.nfut).erase f, s'.stepsAt u g =
        ∑ g ∈ (Finset.range s.nfut).erase f, s.stepsAt u g := by
      refine Finset.sum_congr rfl fun g hg => ?_
      rw [stepsAt,modFut_ne (Finset.ne_of_mem_erase hg)]
      rfl
    have hready : s'.ready = s.ready := rfl
    rw [steps_eq (s := s') hf,steps_eq hf,hrest,hself,hready]
    omega

theorem stepsAt_addDoneCallback : s.stepsAt u g ≤ (s.addDoneCallback f (.step t)).stepsAt u g := by
  unfold addDoneCallback
  split
  · exact le_rfl
  · by_cases hgf : g = f
    · subst hgf
      simp [stepsAt,modFut]
    · rw [stepsAt,stepsAt,modFut_ne hgf]

theorem scheduleTask_single (h : s.Single) (hwf : s.Wf) : s.scheduleTask.Single := by
  have hsteps (t : TaskId) : s.scheduleTask.steps t = s.steps t + if t = s.ntask then 1 else 0 := by
    rw [← (Hands.newFuture (s := s)).steps t]
    exact steps_schedule (s := s.newFuture)
  have hnone : s.steps s.ntask = 0 :=
    steps_eq_zero fun hstep => lt_irrefl _ (hwf.step_lt _ hstep)
  refine ⟨fun t => ?_,fun t hcur => ?_,fun t ht hsusp f hf hpending => ?_⟩
  · have honce := h.once t
    rw [hsteps]
    split
    · subst t
      omega
    · omega
  · have hlt := hwf.current_lt t hcur
    rw [hsteps,if_neg hlt.ne]
    exact h.running t hcur
  · rcases Nat.lt_succ_iff_lt_or_eq.mp ht with ht | rfl
    · have htask : s.scheduleTask.tasks t = s.tasks t := by simp [scheduleTask,ht.ne]
      rw [htask] at hsusp hf
      have hlt := (hwf.task t ht).waiter_lt f hf
      have hfut : s.scheduleTask.futures f = s.futures f := newFuture_ne hlt
      rw [doneP,hfut] at hpending
      rw [stepsAt,hfut]
      exact h.parked t ht hsusp f hf hpending
    · simp [scheduleTask] at hf

/-- The end of a step parks or schedules at most one step, that of its task. -/
theorem endStep_steps (hwf : s.Wf) (hcur : s.current = some t) {y : Yielded}
    (hy : ∀ f, y = .future f → f < s.nfut) :
    (∀ u, (s.endStep t y).steps u ≤ s.steps u + if u = t then 1 else 0) ∧
      ∀ u, ∀ f < s.nfut, (s.endStep t y).doneP f = false →
        s.doneP f = false ∧ s.stepsAt u f ≤ (s.endStep t y).stepsAt u f := by
  cases y with
  | future f =>
    refine ⟨fun u => ?_,fun u g _ hpending => ?_⟩
    · exact (steps_addDoneCallback (s := s.leave t _) (hy f rfl)).le
    · rw [endStep,doneP_addDoneCallback] at hpending
      exact ⟨hpending,stepsAt_addDoneCallback (s := s.leave t _)⟩
  | none =>
    exact ⟨fun u => (steps_schedule (s := s.leave t _)).le,fun u g _ hpending => ⟨hpending,le_rfl⟩⟩
  | bad => exact ⟨fun u => Nat.le_add_right _ _,fun u g _ hpending => ⟨hpending,le_rfl⟩⟩
  | ended o =>
    have k : Hands (s.leave t (Yielded.ended o).leaves) (s.endStep t (.ended o)) := by
      rw [endStep_ended]
      refine .trans (.modFut _ ?_ ?_) (.resolve ?_ o)
      · exact fun _ => rfl
      · exact fun _ _ => rfl
      · exact (hwf.task t (hwf.current_lt t hcur)).fut_lt
    refine ⟨fun u => ?_,fun u g hg hpending => ?_⟩
    · exact (k.steps u).le.trans (Nat.le_add_right _ _)
    · exact ⟨k.pending g hg hpending,(k.parked u g hg hpending).ge⟩

theorem endStep_single (h : s.Single) (hwf : s.Wf) (hcur : s.current = some t) {y : Yielded}
    (hy : ∀ f, y = .future f → f < s.nfut) : (s.endStep t y).Single := by
  have ht := hwf.current_lt t hcur
  have hzero := h.running t hcur
  have m := endStep_moves ht y
  obtain ⟨hsteps,hat⟩ := endStep_steps hwf hcur hy
  refine ⟨fun u => (hsteps u).trans ?_,fun u hu => ?_,fun u hu hsusp f hf hpending => ?_⟩
  · have honce := h.once u
    split
    · subst u
      omega
    · omega
  · rw [endStep_current] at hu
    cases hu
  · replace hu : u < s.ntask := m.ntask ▸ hu
    rw [(m.task u).coro] at hsusp
    rw [(m.task u).waiter] at hf
    by_cases hut : u = t
    · subst hut
      rw [leave_task] at hsusp hf
      cases y with
      | future g =>
        cases hf
        rw [endStep,doneP_addDoneCallback] at hpending
        rw [endStep,addDoneCallback,if_neg (by rw [Bool.not_eq_true]; exact hpending)]
        simp [stepsAt,modFut,Callback.isStep]
      | none =>
        have hfree := (hwf.task u ht).free ((hwf.task u ht).running.mpr hcur)
        rw [Yielded.leaves,hfree] at hf
        cases hf
      | bad | ended _ => cases hsusp
    · rw [leave_other s _ hut] at hsusp hf
      obtain ⟨hp,hle⟩ := hat u f ((hwf.task u hu).waiter_lt f hf) hpending
      exact (h.parked u hu hsusp f hf hp).trans_le hle

theorem step_single {e : Event C} (hstep : s.step e = some s') (hwf : s.Wf) (h : s.Single) :
    s'.Single := by
  obtain hact | ⟨-,rfl⟩ | ⟨y,t,-,hcur,rfl,hy⟩ | ⟨-,hcur,cb,rest,hready,rfl⟩ := step_cases hstep
  · exact h.of_hands hwf.task (step_moves hstep hact) (step_hands hstep hwf hact)
  · exact scheduleTask_single h hwf
  · exact endStep_single h hwf hcur hy
  · exact runCallback_single h hwf hcur hready

end
end Loop
end Unagi.Asyncio
