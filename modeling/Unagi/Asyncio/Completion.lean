import Unagi.Asyncio.Wakes

/-! # A task is done when its coroutine has ended

The completion future of a task is done exactly when its coroutine has ended, as long as no task is
cancelled that waits for another one: the cancellation resolves the future that the task waits for. -/

namespace Unagi.Asyncio

variable {C : Type}

namespace Loop

/-- What waiting for a future waits for: a task through its completion future, and what a gather
watches. -/
inductive Watches (s : Loop C) : FutId → TaskId → Prop
  | task {t : TaskId} : t < s.ntask → Watches s (s.tasks t).doneFut t
  | gather {f g : FutId} {d : Gather} {t : TaskId} :
    s.gathers g = some d → f ∈ d.watch → Watches s f t → Watches s g t

/-- A live task is suspended on a pending future, and through it waits for a task. -/
structure Awaits (s : Loop C) (t : TaskId) (f : FutId) (u : TaskId) : Prop where
  live : s.doneP (s.tasks t).doneFut = false
  suspended : (s.tasks t).coro = .suspended
  waiter : (s.tasks t).futWaiter = some f
  pending : s.doneP f = false
  watches : s.Watches f u

/-- A task is done exactly when its coroutine has ended; the coroutine of a task that is done does
not run; and who waits for a task that has ended is woken. -/
structure Sound (s : Loop C) : Prop where
  done_iff : ∀ t < s.ntask, s.doneP (s.tasks t).doneFut = true ↔ (s.tasks t).coro.Ended
  idle : ∀ t, s.current = some t → s.doneP (s.tasks t).doneFut = false
  wakes : ∀ u < s.ntask, (s.tasks u).coro.Ended → ∀ t < s.ntask, (s.tasks t).coro = .suspended →
    (s.tasks t).futWaiter = some (s.tasks u).doneFut → .step t ∈ s.ready

/-- Cancelling a task that waits for others requests the cancellation of those that have not
ended, and the task goes on waiting. -/
def CancelWaits (s : Loop C) : Event C → Loop C → Prop
  | .cancel t, s' => ∀ f u, s.Awaits t f u → ¬ (s.tasks u).coro.Ended →
    (s.tasks u).numCancelsRequested < (s'.tasks u).numCancelsRequested ∧ s'.doneP f = false
  | _, _ => True

/-- No task is cancelled that waits for one that has not ended, no completion future is resolved by
hand, and no coroutine yields what no task understands. -/
def Considerate (s : Loop C) : Event C → Prop
  | .cancel t => ∀ f u, s.Awaits t f u → (s.tasks u).coro.Ended
  | .setResult f _ | .setException f _ | .cancelFuture f =>
    ∀ t < s.ntask, f = (s.tasks t).doneFut → s.doneP f = true
  | .yields .bad => False
  | _ => True

section
variable {s s' : Loop C}

theorem Wf.sound (h : s.Wf)
    (hdone : ∀ t < s.ntask, s.doneP (s.tasks t).doneFut = true ↔ (s.tasks t).coro.Ended) :
    s.Sound := by
  refine ⟨hdone,fun t hcur => ?_,fun u hu hended t ht hsusp hwaiter => ?_⟩
  · have ht := h.current_lt t hcur
    rw [← Bool.not_eq_true,hdone t ht]
    exact not_ended_of_running ((h.task t ht).running.mpr hcur)
  · rcases h.waits t ht (fun he => by cases he) hsusp with hready | ⟨f,hf,hpending,-⟩
    · exact hready
    · rw [hwaiter] at hf
      obtain rfl := Option.some.inj hf
      rw [(hdone u hu).mpr hended] at hpending
      cases hpending

theorem Sound.of_moves (h : s.Sound) (hwf : s'.Wf) (m : Moves s s')
    (hsame : ∀ t < s.ntask, s'.doneP (s.tasks t).doneFut = s.doneP (s.tasks t).doneFut) :
    s'.Sound := by
  apply hwf.sound
  intro t ht
  rw [m.ntask] at ht
  rw [(m.task t).fut,(m.task t).coro,hsame t ht]
  exact h.done_iff t ht

variable {f : FutId} {e : Event C}

theorem doneP_newFuture (hf : f < s.nfut) : s.newFuture.doneP f = s.doneP f := by
  simp [newFuture,doneP,hf.ne]

theorem doneP_gather (watch : List FutId) (re : Bool) (hf : f < s.nfut) :
    (s.gather watch re).doneP f = s.doneP f := by
  have hnew : ∀ gs, ({ s.newFuture with gathers := gs } : Loop C).doneP f = s.doneP f :=
    fun gs => doneP_newFuture hf
  unfold gather
  simp only
  split
  · rw [setResult,doneP_resolve,hnew]
    simp [hf.ne]
  · exact List.foldlRecOn (motive := fun s' : Loop C => s'.doneP f = s.doneP f) _ _ (hnew _)
      fun s' hs w _ => (s'.doneP_addDoneCallback w.1 _ f).trans hs

theorem doneP_gatherDone {f g : FutId} (hfg : (s.gathers g).isSome → f ≠ g) (idx : Nat) :
    (s.gatherDone g idx).doneP f = s.doneP f := by
  obtain heq | ⟨hg,gs,-,heq | ⟨o,heq⟩⟩ := s.gatherDone_cases g idx
  · rw [heq]
  · rw [heq]
    rfl
  · rw [heq,doneP_resolve,decide_eq_false (hfg hg),Bool.or_false]
    rfl

theorem doneP_modTask (t : TaskId) (g : Task → Task) (f : FutId) :
    (s.modTask t g).doneP f = s.doneP f := rfl

theorem doneP_cancel (t : TaskId) (f : FutId) :
    (s.cancel t).doneP f = (s.doneP f || (!s.doneP (s.tasks t).doneFut &&
      (s.tasks t).futWaiter = some f)) := by
  unfold cancel
  cases hlive : s.doneP (s.tasks t).doneFut with
  | true => simp
  | false =>
    simp only [Bool.false_eq_true,if_false,Bool.not_false,Bool.true_and]
    cases hw : (s.tasks t).futWaiter with
    | none => simp [doneP_modTask]
    | some g =>
      simp only [Option.some.injEq]
      split
      · rename_i hg
        rw [doneP_modTask] at hg
        rw [doneP_modTask,doneP_modTask]
        by_cases hgf : g = f
        · subst hgf
          simpa using hg
        · simp [hgf]
      · rw [doneP_pyCancel,doneP_modTask]
        simp only [eq_comm]

/-! ## Events -/

def Loose (s : Loop C) (f : FutId) : Prop := ∀ t < s.ntask, f ≠ (s.tasks t).doneFut

theorem Considerate.cancel_loose {t : TaskId} (hok : s.Considerate (.cancel t)) (hwf : s.Wf)
    (hs : s.Sound) (ht : t < s.ntask) (hlive : s.doneP (s.tasks t).doneFut = false)
    (hf : (s.tasks t).futWaiter = some f) (hpending : s.doneP f = false) : s.Loose f := by
  rintro u hu rfl
  have hnot : ¬ (s.tasks t).coro.Ended := by
    rw [← hs.done_iff t ht,hlive]
    exact Bool.false_ne_true
  have hsusp : (s.tasks t).coro = .suspended := by
    cases hcoro : (s.tasks t).coro with
    | suspended => rfl
    | running => rw [(hwf.task t ht).free hcoro] at hf; cases hf
    | finished => exact absurd (.inl hcoro) hnot
    | dropped => exact absurd (.inr hcoro) hnot
  have hended := hok _ u ⟨hlive,hsusp,hf,hpending,.task hu⟩
  rw [(hs.done_iff u hu).mpr hended] at hpending
  cases hpending

theorem doneP_step (hstep : s.step e = some s') (hwf : s.Wf) (h : s.Sound)
    (hok : s.Considerate e) (hact : isAct e = true) {t : TaskId} (ht : t < s.ntask) :
    s'.doneP (s.tasks t).doneFut = s.doneP (s.tasks t).doneFut := by
  have hlt := (hwf.task t ht).fut_lt
  -- resolving a future by hand
  have hresolve : ∀ f, (∀ t < s.ntask, f = (s.tasks t).doneFut → s.doneP f = true) →
      (s.doneP (s.tasks t).doneFut || (s.tasks t).doneFut = f) = s.doneP (s.tasks t).doneFut := by
    intro f hf
    by_cases heq : f = (s.tasks t).doneFut
    · have hdone := hf t ht heq
      subst heq
      simp [hdone]
    · simp [Ne.symm heq]
  rw [step_act hstep hact]
  cases e with
  | tick | createTask | yields _ => cases hact
  | newFuture => exact doneP_newFuture hlt
  | callSoon _ | uncancel _ => rfl
  | setResult f _ | setException f _ => exact (s.doneP_resolve f _ _).trans (hresolve f hok)
  | cancelFuture f => exact (s.doneP_pyCancel f _).trans (hresolve f hok)
  | addDoneCallback f c => exact s.doneP_addDoneCallback f _ _
  | removeDoneCallback f keep =>
    apply s.doneP_modFut
    exact fun _ => rfl
  | gather watch re => exact doneP_gather watch re hlt
  | cancel u =>
    simp only [step,Option.ite_none_right_eq_some] at hstep
    rw [doneP_cancel]
    cases hdone : s.doneP (s.tasks t).doneFut with
    | true => simp
    | false =>
      rw [Bool.false_or,Bool.and_eq_false_imp]
      intro hlive
      rw [decide_eq_false_iff_not]
      intro hwaiter
      exact Considerate.cancel_loose hok hwf h hstep.1 (by simpa using hlive) hwaiter hdone t ht rfl

theorem start_sound : (start : Loop C).Sound := by
  refine start_wf.sound ?_
  simp [start]

theorem runCallback_sound (h : s.Sound) (hwf : s.Wf) (hcur : s.current = none) {cb : Callback C}
    {rest : List (Callback C)} (hready : s.ready = cb :: rest) :
    ({ s with ready := rest }.runCallback cb).Sound := by
  have hwf' := runCallback_wf hwf hcur hready
  cases cb with
  | step t =>
    refine hwf'.sound ?_
    have ht : t < s.ntask := hwf.step_lt t (.inl (hready ▸ List.mem_cons_self))
    simp only [runCallback,beginStep]
    split
    · exact h.done_iff
    · rename_i hdone
      intro u hu
      by_cases hut : u = t
      · -- a task that is resumed is not done
        subst hut
        have hnot : ¬ (s.tasks u).coro.Ended := fun he => hdone ((hwf.task u hu).ended.mpr he)
        simp only [modTask,Function.update_self]
        exact ⟨fun hd => absurd ((h.done_iff u hu).mp hd) hnot,
          fun he => absurd he (not_ended_of_running rfl)⟩
      · simp only [modTask,Function.update_of_ne hut]
        exact h.done_iff u hu
  | gathered g idx =>
    refine hwf'.sound fun t ht => ?_
    have m : Moves ({ s with ready := rest } : Loop C) _ := .gatherDone g idx
    have ht : t < s.ntask := m.ntask ▸ ht
    rw [runCallback,(m.task t).fut,(m.task t).coro,doneP_gatherDone]
    · exact h.done_iff t ht
    · exact fun hg => (hwf.gather_lt g hg).2 t ht
  | other c => exact hwf'.sound h.done_iff

theorem scheduleTask_sound (h : s.Sound) (hwf : s.Wf) : s.scheduleTask.Sound := by
  refine (scheduleTask_wf hwf).sound fun t ht => ?_
  rcases Nat.lt_succ_iff_lt_or_eq.mp ht with ht | rfl
  · have hlt := (hwf.task t ht).fut_lt.ne
    simpa [scheduleTask,newFuture,doneP,ht.ne,hlt] using h.done_iff t ht
  · simp [scheduleTask,newFuture,doneP,Future.pending,Coro.Ended]
theorem doneP_leave (t : TaskId) (g : Task → Task) (f : FutId) :
    (s.leave t g).doneP f = s.doneP f := rfl

theorem doneP_ended (t : TaskId) (o : Outcome) (f : FutId) :
    (s.endStep t (.ended o)).doneP f = (s.doneP f || f = (s.tasks t).doneFut) := by
  rw [endStep_ended,doneP_resolve,doneP_modFut,doneP_leave]
  exact fun _ => rfl

theorem endStep_sound (h : s.Sound) (hwf : s.Wf) {t : TaskId} (hcur : s.current = some t)
    {y : Yielded} (hy : ∀ f, y = .future f → f < s.nfut) (hbad : y ≠ .bad) :
    (s.endStep t y).Sound := by
  have ht := hwf.current_lt t hcur
  have m := endStep_moves ht y
  refine (endStep_wf hwf hcur hy).sound fun u hu => ?_
  replace hu : u < s.ntask := m.ntask ▸ hu
  rw [(m.task u).fut,(m.task u).coro]
  -- a task that stays suspended is still not done
  have hsusp (hleft : (y.leaves (s.tasks t)).coro = .suspended) :
      s.doneP ((s.leave t y.leaves).tasks u).doneFut = true ↔
        ((s.leave t y.leaves).tasks u).coro.Ended := by
    by_cases hut : u = t
    · subst hut
      rw [leave_task,hleft,leaves_doneFut,h.idle u hcur]
      simp [Coro.Ended]
    · rw [leave_other s _ hut]
      exact h.done_iff u hu
  cases y with
  | bad => exact absurd rfl hbad
  | future f =>
    rw [endStep,doneP_addDoneCallback]
    exact hsusp rfl
  | none => exact hsusp rfl
  | ended o =>
    rw [doneP_ended]
    by_cases hut : u = t
    · subst hut
      simp [leave_task,Coro.Ended,Yielded.leaves]
    · rw [leave_other s _ hut]
      have hne : (s.tasks u).doneFut ≠ (s.tasks t).doneFut :=
        fun he => hut (hwf.fut_inj u hu t ht he)
      simpa [hne] using h.done_iff u hu

theorem step_sound (hstep : s.step e = some s') (hwf : s.Wf) (h : s.Sound)
    (hok : s.Considerate e) : s.CancelWaits e s' ∧ s'.Sound := by
  have hwaits : s.CancelWaits e s' := by
    cases e with
    | cancel t => exact fun f u hawaits hnot => absurd (hok f u hawaits) hnot
    | _ => trivial
  refine ⟨hwaits,?_⟩
  obtain hact | ⟨-,rfl⟩ | ⟨y,t,rfl,hcur,rfl,hy⟩ | ⟨-,hcur,cb,rest,hready,rfl⟩ := step_cases hstep
  · exact h.of_moves (step_wf hstep hwf) (step_moves hstep hact)
      fun t ht => doneP_step hstep hwf h hok hact ht
  · exact scheduleTask_sound h hwf
  · apply endStep_sound h hwf hcur hy
    rintro rfl
    exact hok
  · exact runCallback_sound h hwf hcur hready

theorem considerate_of_sound (hstep : s.step e = some s') (hwf : s.Wf) (h : s.Sound)
    (hwaits : s.CancelWaits e s') (h' : s'.Sound) : s.Considerate e := by
  -- a completion future that is done after the event was done before it
  have hdone : ∀ f, Moves s s' → s'.doneP f = true →
      ∀ t < s.ntask, f = (s.tasks t).doneFut → s.doneP f = true := by
    intro f m hf t ht heq
    rw [heq,h.done_iff t ht,← (m.task t).coro]
    apply (h'.done_iff t (m.ntask ▸ ht)).mp
    rw [(m.task t).fut,← heq,hf]
  cases e with
  | cancel t =>
    cases step_act hstep rfl
    intro f u hawaits
    by_contra hnot
    have hpending := (hwaits f u hawaits hnot).2
    rw [doneP_cancel,hawaits.live,hawaits.waiter] at hpending
    simp at hpending
  | setResult f _ | setException f _ =>
    have m := step_moves hstep rfl
    cases step_act hstep rfl
    exact hdone f m ((s.doneP_resolve f _ f).trans (by simp))
  | cancelFuture f =>
    have m := step_moves hstep rfl
    cases step_act hstep rfl
    exact hdone f m (by rw [doneP_pyCancel]; simp)
  | yields y =>
    cases y with
    | bad =>
      obtain ⟨t,hcur,rfl,-⟩ := yields_cases hstep
      have ht := hwf.current_lt t hcur
      have hended := (h'.done_iff t ht).mpr
      rw [endStep,leave_task,doneP_leave] at hended
      rw [h.idle t hcur] at hended
      exact absurd (hended (.inr rfl)) Bool.false_ne_true
    | _ => trivial
  | _ => trivial

end
end Loop

end Unagi.Asyncio
