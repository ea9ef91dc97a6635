import Unagi.Asyncio.Wakes

/-! # What the program cannot reach

A part of the runtime keeps futures of its own, which the program has no handle to. Only the
cancellation of a task that waits for such a future changes it. -/

namespace Unagi.Asyncio

variable {C : Type}

def Event.touches : Event C → List FutId
  | .setResult f _ | .setException f _ | .cancelFuture f | .addDoneCallback f _
  | .removeDoneCallback f _ | .yields (.future f) => [f]
  | .gather watch _ => watch
  | _ => []

namespace Loop

structure Private (s : Loop C) (f : FutId) : Prop where
  lt : f < s.nfut
  task : ∀ t < s.ntask, (s.tasks t).doneFut ≠ f
  gather : s.gathers f = none

/-- A future has the state that it had, or it was pending and is cancelled. -/
def Keeps (s s' : Loop C) (f : FutId) : Prop :=
  (s'.doneP f = s.doneP f ∧ (s'.futures f).outcome = (s.futures f).outcome) ∨
    (s.doneP f = false ∧ s'.doneP f = true ∧
      (s'.futures f).outcome = some (.exc asyncioCancelledError))

section
variable {s s' : Loop C} {f g : FutId}

theorem Keeps.of_eq (h : s'.futures f = s.futures f) : Keeps s s' f := by
  refine .inl ⟨?_,by rw [h]⟩
  rw [doneP,doneP,h]
theorem modFut_ne (hfg : f ≠ g) (h : Future C → Future C) :
    (s.modFut g h).futures f = s.futures f := by
  simp [modFut,hfg]
theorem schedule_futures (cbs : List (Callback C)) : (s.schedule cbs).futures = s.futures := rfl

theorem resolve_ne (hfg : f ≠ g) (o : Outcome) : (s.resolve g o).futures f = s.futures f := by
  unfold resolve
  split
  · rfl
  · rw [schedule_futures,modFut_ne hfg]
theorem pyCancel_ne (hfg : f ≠ g) : (s.pyCancel g).2.futures f = s.futures f := by
  unfold pyCancel
  split
  · rfl
  · exact (resolve_ne hfg _).trans (modFut_ne hfg _)
theorem addDoneCallback_ne (hfg : f ≠ g) (cb : Callback C) :
    (s.addDoneCallback g cb).futures f = s.futures f := by
  unfold addDoneCallback
  split
  · rfl
  · exact modFut_ne hfg _
theorem newFuture_ne (hf : f < s.nfut) : s.newFuture.futures f = s.futures f := by
  simp [newFuture,hf.ne]

theorem gather_ne (hf : f < s.nfut) {watch : List FutId} (hw : f ∉ watch) (re : Bool) :
    (s.gather watch re).futures f = s.futures f := by
  unfold gather
  simp only
  split
  · exact (resolve_ne hf.ne _).trans (newFuture_ne hf)
  · refine List.foldlRecOn (motive := fun s' : Loop C => s'.futures f = s.futures f) _ _ (newFuture_ne hf)
      fun s' hs w hmem => (addDoneCallback_ne ?_ _).trans hs
    rintro rfl
    exact hw (List.fst_mem_of_mem_zipIdx hmem)

theorem gatherDone_ne (hg : s.gathers f = none) (idx : Nat) :
    (s.gatherDone g idx).futures f = s.futures f := by
  obtain heq | ⟨hsome,gs,-,heq | ⟨o,heq⟩⟩ := s.gatherDone_cases g idx
  · rw [heq]
  · rw [heq]
  · rw [heq,resolve_ne]
    rintro rfl
    rw [hg] at hsome
    cases hsome

theorem pyCancel_self (hf : s.doneP f = false) : (s.pyCancel f).2.doneP f = true ∧
    ((s.pyCancel f).2.futures f).outcome = some (.exc asyncioCancelledError) := by
  have hpending : (s.futures f).done = false := hf
  simp [pyCancel,setException,resolve,doneP,modFut,schedule,hpending]

theorem cancel_keeps (t : TaskId) : Keeps s (s.cancel t) f := by
  obtain heq | ⟨k,-,heq | ⟨g,-,hpending,heq⟩⟩ := s.cancel_cases t
  · exact .of_eq (by rw [heq])
  · exact .of_eq (by rw [heq]; rfl)
  · rw [heq]
    by_cases hfg : f = g
    · subst hfg
      exact .inr ⟨hpending,pyCancel_self hpending⟩
    · exact .of_eq (pyCancel_ne hfg)

variable {t u : TaskId} {e : Event C}

theorem cancel_ne (hf : (s.tasks t).futWaiter ≠ some f) :
    (s.cancel t).futures f = s.futures f := by
  obtain heq | ⟨k,-,heq | ⟨g,hg,-,heq⟩⟩ := s.cancel_cases t
  · rw [heq]
  · rw [heq]
    rfl
  · rw [heq]
    exact pyCancel_ne fun he => hf (he ▸ hg)

/-! ## Events -/

theorem runCallback_keeps (hg : s.gathers f = none) (cb : Callback C) :
    (s.runCallback cb).futures f = s.futures f := by
  cases cb with
  | step t =>
    simp only [runCallback,beginStep]
    split <;> rfl
  | gathered g idx => exact gatherDone_ne hg idx
  | other c => rfl

theorem endStep_ne (t : TaskId) {y : Yielded} (hy : ∀ g, y = .future g → f ≠ g)
    (ht : f ≠ (s.tasks t).doneFut) : (s.endStep t y).futures f = s.futures f := by
  cases y with
  | future g => exact addDoneCallback_ne (hy g rfl) _
  | none => rfl
  | bad => rfl
  | ended o =>
    rw [endStep_ended,resolve_ne ht,modFut_ne ht]
    rfl

/-- An event without a handle to a private future keeps it, but for the cancellation of who waits
for it. -/
theorem step_fut_eq (hstep : s.step e = some s') (hwf : s.Wf) (hf : s.Private f)
    (htouch : f ∉ e.touches) (hcancel : ∀ t, e = .cancel t → (s.tasks t).futWaiter ≠ some f) :
    s'.futures f = s.futures f := by
  have hne : ∀ g, e.touches = [g] → f ≠ g := by
    rintro g hg rfl
    exact htouch (hg ▸ List.mem_cons_self)
  obtain hact | ⟨-,rfl⟩ | ⟨y,t,rfl,hcur,rfl,-⟩ | ⟨-,-,cb,rest,-,rfl⟩ := step_cases hstep
  · rw [step_act hstep hact]
    cases e with
    | tick | createTask | yields _ => cases hact
    | newFuture => exact newFuture_ne hf.lt
    | callSoon _ | uncancel _ => rfl
    | setResult g _ | setException g _ => exact resolve_ne (hne g rfl) _
    | cancelFuture g => exact pyCancel_ne (hne g rfl)
    | addDoneCallback g _ => exact addDoneCallback_ne (hne g rfl) _
    | removeDoneCallback g _ => exact modFut_ne (hne g rfl) _
    | gather watch re => exact gather_ne hf.lt htouch re
    | cancel t => exact cancel_ne (hcancel t rfl)
  · exact newFuture_ne hf.lt
  · apply endStep_ne t
    · rintro g rfl
      exact hne g rfl
    · exact (hf.task t (hwf.current_lt t hcur)).symm
  · exact runCallback_keeps (s := { s with ready := rest }) hf.gather cb

theorem step_keeps (hstep : s.step e = some s') (hwf : s.Wf) (hf : s.Private f)
    (htouch : f ∉ e.touches) : Keeps s s' f := by
  by_cases hcancel : ∃ t, e = .cancel t
  · obtain ⟨t,rfl⟩ := hcancel
    cases step_act hstep rfl
    exact cancel_keeps t
  · exact .of_eq (step_fut_eq hstep hwf hf htouch fun t he => absurd ⟨t,he⟩ hcancel)

theorem pyCancel_tasks (f : FutId) : (s.pyCancel f).2.tasks = s.tasks := by
  unfold pyCancel
  split
  · rfl
  · exact resolve_tasks _ f _
theorem addDoneCallback_tasks (f : FutId) (cb : Callback C) :
    (s.addDoneCallback f cb).tasks = s.tasks := by
  unfold addDoneCallback
  split <;> rfl

theorem gather_tasks (watch : List FutId) (re : Bool) : (s.gather watch re).tasks = s.tasks := by
  unfold gather
  simp only
  split
  · exact resolve_tasks _ _ _
  · exact List.foldlRecOn (motive := fun s' : Loop C => s'.tasks = s.tasks) _ _ rfl
      fun s' hs w _ => (addDoneCallback_tasks w.1 _).trans hs

theorem gatherDone_tasks (g : FutId) (idx : Nat) : (s.gatherDone g idx).tasks = s.tasks := by
  obtain heq | ⟨-,gs,-,heq | ⟨o,heq⟩⟩ := s.gatherDone_cases g idx
  · rw [heq]
  · rw [heq]
  · rw [heq,resolve_tasks]

theorem modTask_other (hut : u ≠ t) (k : Task → Task) : (s.modTask t k).tasks u = s.tasks u := by
  simp [modTask,hut]
theorem cancel_other (hut : u ≠ t) : (s.cancel t).tasks u = s.tasks u := by
  obtain heq | ⟨k,-,heq | ⟨g,-,-,heq⟩⟩ := s.cancel_cases t
  · rw [heq]
  · rw [heq,modTask_other hut]
  · rw [heq,pyCancel_tasks,modTask_other hut]

theorem endStep_tasks (y : Yielded) : (s.endStep t y).tasks = (s.leave t y.leaves).tasks := by
  cases y with
  | future f => exact addDoneCallback_tasks f _
  | none => rfl
  | bad => rfl
  | ended o =>
    rw [endStep_ended,resolve_tasks]
    rfl
theorem endStep_other (hut : u ≠ t) (y : Yielded) : (s.endStep t y).tasks u = s.tasks u := by
  rw [endStep_tasks,leave_other s _ hut]

theorem beginStep_other (hut : u ≠ t) : (s.beginStep t).tasks u = s.tasks u := by
  unfold beginStep
  split
  · rfl
  · simp [modTask,hut]

theorem step_task_cases (hstep : s.step e = some s') (ht : t < s.ntask) :
    s'.tasks t = s.tasks t ∨ e = .cancel t ∨ e = .uncancel t ∨
      (s'.current = some t ∧ s'.tasks t =
        { s.tasks t with futWaiter := none, mustCancel := false, coro := .running }) ∨
      s.current = some t ∧ ∃ y, e = .yields y := by
  obtain hact | ⟨-,rfl⟩ | ⟨y,u,rfl,hcur,rfl,-⟩ | ⟨-,-,cb,rest,-,rfl⟩ := step_cases hstep
  · rw [step_act hstep hact]
    cases e with
    | tick | createTask | yields _ => cases hact
    | newFuture | callSoon _ | removeDoneCallback _ _ => exact .inl rfl
    | setResult g _ | setException g _ => exact .inl (congrFun (s.resolve_tasks g _) t)
    | cancelFuture g => exact .inl (congrFun (pyCancel_tasks g) t)
    | addDoneCallback g _ => exact .inl (congrFun (addDoneCallback_tasks g _) t)
    | gather watch re => exact .inl (congrFun (gather_tasks watch re) t)
    | cancel u =>
      by_cases htu : t = u
      · exact .inr (.inl (by rw [htu]))
      · exact .inl (cancel_other htu)
    | uncancel u =>
      by_cases htu : t = u
      · exact .inr (.inr (.inl (by rw [htu])))
      · exact .inl (modTask_other htu _)
  · exact .inl (by simp [scheduleTask,ht.ne])
  · by_cases htu : t = u
    · exact .inr (.inr (.inr (.inr ⟨htu ▸ hcur,y,rfl⟩)))
    · exact .inl (endStep_other htu y)
  · cases cb with
    | step u =>
      by_cases htu : t = u
      · subst htu
        rw [runCallback,beginStep]
        split
        · exact .inl rfl
        · exact .inr (.inr (.inr (.inl ⟨rfl,by simp [modTask]⟩)))
      · exact .inl (beginStep_other (s := { s with ready := rest }) htu)
    | gathered g idx => exact .inl (by rw [runCallback,gatherDone_tasks])
    | other c => exact .inl rfl

theorem step_task_eq (hstep : s.step e = some s') (hwf : s.Wf)
    (ht : t < s.ntask) (hsusp : (s.tasks t).coro = .suspended) (hcur : s'.current ≠ some t)
    (hcancel : e ≠ .cancel t) (huncancel : e ≠ .uncancel t) : s'.tasks t = s.tasks t := by
  rcases step_task_cases hstep ht with heq | he | he | ⟨hrun,-⟩ | ⟨hrun,-⟩
  · exact heq
  · exact absurd he hcancel
  · exact absurd he huncancel
  · exact absurd hrun hcur
  · rw [(hwf.task t ht).running.mpr hrun] at hsusp
    cases hsusp

theorem Private.of_moves (hf : s.Private f) (m : Moves s s') : s'.Private f where
  lt := hf.lt.trans_le m.nfut
  task t ht := by
    rw [(m.task t).fut]
    exact hf.task t (m.ntask ▸ ht)
  gather := by
    cases hg : s'.gathers f with
    | none => rfl
    | some d =>
      rcases m.gathers f (by rw [hg]; rfl) with hsome | ⟨hle,-⟩
      · rw [hf.gather] at hsome
        cases hsome
      · exact absurd hf.lt (Nat.not_lt.mpr hle)

theorem Private.of_leave (hf : s.Private f) (t : TaskId) {g : Task → Task}
    (hg : (g (s.tasks t)).doneFut = (s.tasks t).doneFut) : (s.leave t g).Private f := by
  refine ⟨hf.lt,fun u hu => ?_,hf.gather⟩
  by_cases hut : u = t
  · rw [hut,leave_task,hg]
    exact hf.task t (hut ▸ hu)
  · rw [leave_other s g hut]
    exact hf.task u hu

theorem step_private (hstep : s.step e = some s') (hwf : s.Wf) (hf : s.Private f) :
    s'.Private f := by
  obtain hact | ⟨-,rfl⟩ | ⟨y,t,-,hcur,rfl,-⟩ | ⟨-,-,cb,rest,-,rfl⟩ := step_cases hstep
  · exact hf.of_moves (step_moves hstep hact)
  · refine ⟨hf.lt.trans (Nat.lt_succ_self _),fun t ht => ?_,hf.gather⟩
    rcases Nat.lt_succ_iff_lt_or_eq.mp ht with ht | rfl
    · simpa [scheduleTask,ht.ne] using hf.task t ht
    · simpa [scheduleTask] using hf.lt.ne'
  · exact (hf.of_leave t (leaves_doneFut y _)).of_moves (endStep_moves (hwf.current_lt t hcur) y)
  · have hrest : ({ s with ready := rest } : Loop C).Private f := ⟨hf.lt,hf.task,hf.gather⟩
    cases cb with
    | step t =>
      simp only [runCallback,beginStep]
      split
      · exact hrest
      · have h := hf.of_leave (g := fun tk =>
          { tk with futWaiter := none, mustCancel := false, coro := .running }) t rfl
        exact ⟨h.lt,h.task,h.gather⟩
    | gathered g idx => exact hrest.of_moves (.gatherDone g idx)
    | other c => exact hrest

/-! ## Suspended tasks -/

theorem endStep_current (t : TaskId) (y : Yielded) : (s.endStep t y).current = none := by
  cases y with
  | future f =>
    rw [endStep,addDoneCallback]
    split <;> rfl
  | none => rfl
  | bad => rfl
  | ended o =>
    rw [endStep_ended,resolve_current]
    rfl

theorem step_current (hstep : s.step e = some s') (htick : e ≠ .tick) :
    s'.current = s.current ∨ s'.current = none := by
  obtain hact | ⟨-,rfl⟩ | ⟨y,t,-,-,rfl,-⟩ | ⟨rfl,-⟩ := step_cases hstep
  · exact .inl (step_moves hstep hact).current
  · exact .inl rfl
  · exact .inr (endStep_current t y)
  · exact absurd rfl htick

theorem step_suspended (hstep : s.step e = some s') (hwf : s.Wf)
    (ht : t < s.ntask) (hsusp : (s.tasks t).coro = .suspended) (hcur : s'.current ≠ some t) :
    (s'.tasks t).coro = .suspended ∧ (s'.tasks t).futWaiter = (s.tasks t).futWaiter := by
  by_cases hact : isAct e = true
  · have m := (step_moves hstep hact).task t
    exact ⟨m.coro.trans hsusp,m.waiter⟩
  · rw [step_task_eq hstep hwf ht hsusp hcur]
    · exact ⟨hsusp,rfl⟩
    all_goals
      rintro rfl
      exact hact rfl

theorem step_ntask_eq (hstep : s.step e = some s') (hwf : s.Wf)
    (hcreate : e ≠ .createTask) : s'.ntask = s.ntask := by
  obtain hact | ⟨rfl,-⟩ | ⟨y,t,-,hcur,rfl,-⟩ | ⟨-,-,cb,rest,-,rfl⟩ := step_cases hstep
  · exact (step_moves hstep hact).ntask
  · exact absurd rfl hcreate
  · exact (endStep_moves (hwf.current_lt t hcur) y).ntask
  · cases cb with
    | step t =>
      simp only [runCallback,beginStep]
      split <;> rfl
    | gathered g idx =>
      exact (Moves.gatherDone (s := { s with ready := rest }) g idx).ntask
    | other c => rfl

theorem step_ntask (hstep : s.step e = some s') (hwf : s.Wf) :
    s.ntask ≤ s'.ntask := by
  by_cases hcreate : e = .createTask
  · subst hcreate
    cases hstep
    exact Nat.le_succ _
  · exact (step_ntask_eq hstep hwf hcreate).ge

theorem newFuture_private (hwf : s.Wf) : s.newFuture.Private s.nfut := by
  refine ⟨Nat.lt_succ_self _,fun u hu => (hwf.task u hu).fut_lt.ne,?_⟩
  cases hg : s.gathers s.nfut with
  | none => exact hg
  | some d => exact absurd (hwf.gather_lt s.nfut (by rw [hg]; rfl)).1 (lt_irrefl _)
theorem step_suspend (hcur : s.current = some t) (hf : f < s.nfut) :
    s.step (.yields (.future f)) = some (s.endStep t (.future f)) := by
  simp [step,hcur,hf]

theorem tick_resumed (hstep : s.step .tick = some s') (hcur : s'.current = some t) :
    ∃ rest, s.ready = .step t :: rest ∧ (s.tasks t).done = false ∧
      s' = ({ s with ready := rest } : Loop C).beginStep t := by
  obtain ⟨hidle,cb,rest,hready,rfl⟩ := tick_cases hstep
  cases cb with
  | step u =>
    have hlive : ¬ (s.tasks u).done = true := by
      intro hdone
      rw [runCallback,beginStep,if_pos hdone,hidle] at hcur
      cases hcur
    have hut : u = t := by
      rw [runCallback,beginStep,if_neg hlive] at hcur
      exact Option.some.inj hcur
    subst hut
    exact ⟨rest,hready,by simpa using hlive,rfl⟩
  | gathered g idx =>
    have m := Moves.gatherDone (s := { s with ready := rest }) g idx
    rw [runCallback,m.current,hidle] at hcur
    cases hcur
  | other c =>
    rw [runCallback,hidle] at hcur
    cases hcur

end
end Loop
end Unagi.Asyncio
