import Mathlib.Order.Nat
import Unagi.Asyncio.Loop

/-! # Every suspended task is woken

A live task that does not run has a step in the ready queue, or it is parked: the future that it
waits for is pending and has the step among its callbacks. No event loses it. -/

namespace Unagi.Asyncio

variable {C : Type}

namespace Loop
variable (s : Loop C)

section Fields
variable (f : FutId) (o : Outcome) (t : TaskId)

@[simp] theorem resolve_tasks : (s.resolve f o).tasks = s.tasks := by
  unfold resolve
  split <;> rfl
@[simp] theorem resolve_ntask : (s.resolve f o).ntask = s.ntask := by
  unfold resolve
  split <;> rfl
@[simp] theorem resolve_nfut : (s.resolve f o).nfut = s.nfut := by
  unfold resolve
  split <;> rfl
@[simp] theorem resolve_current : (s.resolve f o).current = s.current := by
  unfold resolve
  split <;> rfl

theorem doneP_resolve (g : FutId) : (s.resolve f o).doneP g = (s.doneP g || g = f) := by
  unfold resolve
  split
  · rename_i hdone
    by_cases hgf : g = f
    · subst hgf
      simp [hdone]
    · simp [hgf]
  · by_cases hgf : g = f
    · subst hgf
      simp [doneP,modFut,schedule]
    · simp [doneP,modFut,schedule,hgf]

theorem doneP_modFut (g : FutId) (h : Future C → Future C) (hdone : ∀ fut, (h fut).done = fut.done) :
    (s.modFut f h).doneP g = s.doneP g := by
  by_cases hgf : g = f
  · subst hgf
    simp [doneP,modFut,hdone]
  · simp [doneP,modFut,hgf]

theorem doneP_pyCancel (g : FutId) : (s.pyCancel f).2.doneP g = (s.doneP g || g = f) := by
  unfold pyCancel
  split
  · rename_i hdone
    by_cases hgf : g = f
    · subst hgf
      simp [hdone]
    · simp [hgf]
  · simp only [setException]
    rw [doneP_resolve,doneP_modFut]
    exact fun _ => rfl

theorem doneP_addDoneCallback (cb : Callback C) (g : FutId) :
    (s.addDoneCallback f cb).doneP g = s.doneP g := by
  unfold addDoneCallback
  split
  · rfl
  · exact s.doneP_modFut f g _ fun _ => rfl

end Fields

/-! ## What leaves the tasks alone -/

/-- A task stands where it stood. -/
structure SameTask (tk tk' : Task) : Prop where
  coro : tk'.coro = tk.coro
  done : tk'.done = tk.done
  fut : tk'.doneFut = tk.doneFut
  waiter : tk'.futWaiter = tk.futWaiter

theorem SameTask.trans {tk₁ tk₂ tk₃ : Task} (h : SameTask tk₁ tk₂) (h' : SameTask tk₂ tk₃) :
    SameTask tk₁ tk₃ :=
  ⟨h'.coro.trans h.coro,h'.done.trans h.done,h'.fut.trans h.fut,h'.waiter.trans h.waiter⟩

theorem gatherDone_cases (g : FutId) (idx : Nat) : s.gatherDone g idx = s ∨
    (s.gathers g).isSome ∧ ∃ gs : FutId → Option Gather, (∀ f, f ≠ g → gs f = s.gathers f) ∧
      (s.gatherDone g idx = { s with gathers := gs } ∨
        ∃ o, s.gatherDone g idx = ({ s with gathers := gs } : Loop C).resolve g o) := by
  have hslot : ∀ (d : Gather) (v : Val), ∃ gs : FutId → Option Gather,
      (∀ f, f ≠ g → gs f = s.gathers f) ∧ (s.gatherSlot g idx d v = { s with gathers := gs } ∨
        ∃ o, s.gatherSlot g idx d v = ({ s with gathers := gs } : Loop C).resolve g o) := by
    intro d v
    unfold gatherSlot
    simp only
    split
    · refine ⟨_,?_,.inr ⟨_,rfl⟩⟩
      exact fun f hf => Function.update_of_ne hf _ _
    · refine ⟨_,?_,.inl rfl⟩
      exact fun f hf => Function.update_of_ne hf _ _
  unfold gatherDone
  split
  · exact .inl rfl
  · cases hd : s.gathers g with
    | none => exact .inl rfl
    | some d =>
      refine .inr ⟨rfl,?_⟩
      simp only
      split
      · exact hslot _ _
      · split
        · exact hslot _ _
        · exact ⟨s.gathers,fun _ _ => rfl,.inr ⟨_,rfl⟩⟩

theorem cancel_cases (t : TaskId) : s.cancel t = s ∨
    ∃ g : Task → Task, (∀ tk, SameTask tk (g tk)) ∧ (s.cancel t = s.modTask t g ∨
      ∃ f, (s.tasks t).futWaiter = some f ∧ s.doneP f = false ∧
        s.cancel t = ((s.modTask t g).pyCancel f).2) := by
  have harm : ∀ g g' : Task → Task, (s.modTask t g).modTask t g' = s.modTask t fun tk => g' (g tk) := by
    intro g g'
    simp [modTask]
  unfold cancel
  split
  · exact .inl rfl
  · simp only [harm]
    right
    cases (s.tasks t).futWaiter with
    | none =>
      refine ⟨_,?_,.inl rfl⟩
      exact fun _ => ⟨rfl,rfl,rfl,rfl⟩
    | some f =>
      simp only
      split
      · refine ⟨_,?_,.inl rfl⟩
        exact fun _ => ⟨rfl,rfl,rfl,rfl⟩
      · rename_i hpending
        refine ⟨_,?_,.inr ⟨f,rfl,Bool.not_eq_true _ ▸ hpending,rfl⟩⟩
        exact fun _ => ⟨rfl,rfl,rfl,rfl⟩

def HasStep (s : Loop C) (t : TaskId) : Prop :=
  .step t ∈ s.ready ∨ ∃ f, .step t ∈ (s.futures f).callbacks

/-- Everything but the step of a task: no task changes where it stands, and a step that was parked
on a pending future is still parked there or is ready. -/
structure Moves (s s' : Loop C) : Prop where
  nfut : s.nfut ≤ s'.nfut
  ntask : s'.ntask = s.ntask
  current : s'.current = s.current
  task : ∀ t, SameTask (s.tasks t) (s'.tasks t)
  ready : ∀ t, .step t ∈ s.ready → .step t ∈ s'.ready
  parked : ∀ t, ∀ f < s.nfut, s.doneP f = false → .step t ∈ (s.futures f).callbacks →
    (s'.doneP f = false ∧ .step t ∈ (s'.futures f).callbacks) ∨ .step t ∈ s'.ready
  gathers : ∀ g, (s'.gathers g).isSome → (s.gathers g).isSome ∨ s.nfut ≤ g ∧ g < s'.nfut
  steps : ∀ t, s'.HasStep t → s.HasStep t ∨ t < s.ntask

namespace Moves
variable {s}

theorem refl : Moves s s :=
  ⟨le_rfl,rfl,rfl,fun _ => ⟨rfl,rfl,rfl,rfl⟩,fun _ h => h,fun _ _ _ h h' => .inl ⟨h,h'⟩,
    fun _ h => .inl h,fun _ h => .inl h⟩

theorem trans {s₁ s₂ s₃ : Loop C} (h : Moves s₁ s₂) (h' : Moves s₂ s₃) : Moves s₁ s₃ where
  nfut := h.nfut.trans h'.nfut
  ntask := h'.ntask.trans h.ntask
  current := h'.current.trans h.current
  task t := (h.task t).trans (h'.task t)
  ready t ht := h'.ready t (h.ready t ht)
  parked t f hf hdone hmem := by
    rcases h.parked t f hf hdone hmem with ⟨hdone',hmem'⟩ | hready
    · exact h'.parked t f (hf.trans_le h.nfut) hdone' hmem'
    · exact .inr (h'.ready t hready)
  gathers g hg := by
    rcases h'.gathers g hg with hg | ⟨hle,hlt⟩
    · rcases h.gathers g hg with hg | ⟨hle,hlt⟩
      · exact .inl hg
      · exact .inr ⟨hle,hlt.trans_le h'.nfut⟩
    · exact .inr ⟨h.nfut.trans hle,hlt⟩
  steps t ht := by
    rcases h'.steps t ht with ht | ht
    · exact h.steps t ht
    · exact .inr (h.ntask ▸ ht)

theorem schedule (cbs : List (Callback C)) (hcbs : ∀ t, .step t ∈ cbs → t < s.ntask) :
    Moves s (s.schedule cbs) := by
  refine ⟨le_rfl,rfl,rfl,fun _ => ⟨rfl,rfl,rfl,rfl⟩,fun _ h => List.mem_append_left _ h,
    fun _ _ _ h h' => .inl ⟨h,h'⟩,fun _ h => .inl h,fun t ht => ?_⟩
  rcases ht with ht | ht
  · rcases List.mem_append.mp ht with ht | ht
    · exact .inl (.inl ht)
    · exact .inr (hcbs t ht)
  · exact .inl (.inr ht)

theorem modFut (f : FutId) (g : Future C → Future C) (hdone : ∀ fut, (g fut).done = fut.done)
    (hparked : ∀ fut t, .step t ∈ fut.callbacks → .step t ∈ (g fut).callbacks)
    (hsteps : ∀ fut t, .step t ∈ (g fut).callbacks → .step t ∈ fut.callbacks ∨ t < s.ntask) :
    Moves s (s.modFut f g) := by
  refine ⟨le_rfl,rfl,rfl,fun _ => ⟨rfl,rfl,rfl,rfl⟩,fun _ h => h,
    fun t f' _ h h' => .inl ⟨?_,?_⟩,fun _ h => .inl h,fun t ht => ?_⟩
  · rw [s.doneP_modFut f f' g hdone,h]
  · by_cases hff : f' = f
    · subst hff
      simpa [Loop.modFut] using hparked _ t h'
    · simpa [Loop.modFut,hff] using h'
  · rcases ht with ht | ⟨f',ht⟩
    · exact .inl (.inl ht)
    · by_cases hff : f' = f
      · subst hff
        have ht : .step t ∈ (g (s.futures f')).callbacks := by simpa [Loop.modFut] using ht
        exact (hsteps _ t ht).imp (fun h => .inr ⟨f',h⟩) id
      · exact .inl (.inr ⟨f',by simpa [Loop.modFut,hff] using ht⟩)

theorem resolve (f : FutId) (o : Outcome) : Moves s (s.resolve f o) := by
  unfold Loop.resolve
  split
  · exact refl
  · refine ⟨le_rfl,rfl,rfl,fun _ => ⟨rfl,rfl,rfl,rfl⟩,fun _ h => List.mem_append_left _ h,
      fun t f' _ h h' => ?_,fun _ h => .inl h,fun t ht => .inl ?_⟩
    · by_cases hff : f' = f
      · -- the callbacks of the resolved future become ready
        subst hff
        exact .inr (List.mem_append_right _ h')
      · refine .inl ⟨?_,?_⟩
        · simpa [doneP,Loop.modFut,Loop.schedule,hff] using h
        · simpa [Loop.modFut,Loop.schedule,hff] using h'
    · rcases ht with ht | ⟨f',ht⟩
      · exact (List.mem_append.mp ht).imp id fun h => ⟨f,h⟩
      · by_cases hff : f' = f
        · subst hff
          simp [Loop.modFut,Loop.schedule] at ht
        · exact .inr ⟨f',by simpa [Loop.modFut,Loop.schedule,hff] using ht⟩

theorem pyCancel (f : FutId) : Moves s (s.pyCancel f).2 := by
  unfold Loop.pyCancel
  split
  · exact refl
  · refine (modFut f _ ?_ ?_ ?_).trans (resolve f _)
    · exact fun _ => rfl
    · exact fun _ _ h => h
    · exact fun _ _ h => .inl h

theorem addDoneCallback (f : FutId) (cb : Callback C) (hcb : ∀ t, cb = .step t → t < s.ntask) :
    Moves s (s.addDoneCallback f cb) := by
  unfold Loop.addDoneCallback
  split
  · exact schedule _ fun t ht => hcb t (List.mem_singleton.mp ht).symm
  · apply modFut f
    · exact fun _ => rfl
    · exact fun _ _ h => List.mem_append_left _ h
    · intro fut t h
      rcases List.mem_append.mp h with h | h
      · exact .inl h
      · exact .inr (hcb t (List.mem_singleton.mp h).symm)

theorem removeDoneCallback (f : FutId) (keep : C → Bool) :
    Moves s (s.removeDoneCallback f keep) := by
  apply modFut f
  · exact fun _ => rfl
  · intro fut t h
    simpa using h
  · intro fut t h
    exact .inl (List.mem_filter.mp h).1

theorem newFuture : Moves s s.newFuture := by
  refine ⟨Nat.le_succ _,rfl,rfl,fun _ => ⟨rfl,rfl,rfl,rfl⟩,fun _ h => h,
    fun t f hf h h' => .inl ?_,fun _ h => .inl h,fun t ht => .inl ?_⟩
  · have hne : f ≠ s.nfut := hf.ne
    simpa [Loop.newFuture,doneP,hne] using And.intro h h'
  · rcases ht with ht | ⟨f,ht⟩
    · exact .inl ht
    · by_cases hfn : f = s.nfut
      · simp [Loop.newFuture,hfn,Future.pending] at ht
      · exact .inr ⟨f,by simpa [Loop.newFuture,hfn] using ht⟩

theorem updateGather {gs : FutId → Option Gather}
    (h : ∀ g, (gs g).isSome → (s.gathers g).isSome) : Moves s { s with gathers := gs } :=
  ⟨le_rfl,rfl,rfl,fun _ => ⟨rfl,rfl,rfl,rfl⟩,fun _ h => h,fun _ _ _ h h' => .inl ⟨h,h'⟩,
    fun g hg => .inl (h g hg),fun _ h => .inl h⟩

theorem newGather (g : Gather) :
    Moves s { s.newFuture with gathers := Function.update s.gathers s.nfut (some g) } := by
  obtain ⟨h₁,h₂,h₃,h₄,h₅,h₆,-,h₈⟩ := newFuture (s := s)
  refine ⟨h₁,h₂,h₃,h₄,h₅,h₆,fun f hf => ?_,h₈⟩
  by_cases hfn : f = s.nfut
  · subst hfn
    exact .inr ⟨le_rfl,Nat.lt_succ_self s.nfut⟩
  · exact .inl (by simpa [hfn] using hf)

theorem gather (watch : List FutId) (re : Bool) : Moves s (s.gather watch re) := by
  unfold Loop.gather
  split_ifs
  · exact (newGather _).trans (resolve _ _)
  · exact List.foldlRecOn _ _ (newGather _) fun _ hs w _ => hs.trans (addDoneCallback w.1 _ nofun)

theorem gatherDone (g : FutId) (idx : Nat) : Moves s (s.gatherDone g idx) := by
  obtain heq | ⟨hg,gs,hgs,hcase⟩ := s.gatherDone_cases g idx
  · rw [heq]
    exact refl
  · have hkeep : Moves s { s with gathers := gs } := by
      apply updateGather
      intro f hf
      by_cases hfg : f = g
      · exact hfg ▸ hg
      · rwa [← hgs f hfg]
    obtain heq | ⟨o,heq⟩ := hcase
    · exact heq ▸ hkeep
    · exact heq ▸ hkeep.trans (resolve _ _)

theorem modTask {t : TaskId} {g : Task → Task}
    (h : ∀ tk, SameTask tk (g tk)) : Moves s (s.modTask t g) := by
  refine ⟨le_rfl,rfl,rfl,fun u => ?_,fun _ h => h,fun _ _ _ h h' => .inl ⟨h,h'⟩,
    fun _ h => .inl h,fun _ h => .inl h⟩
  by_cases hut : u = t
  · subst hut
    simpa [Loop.modTask] using h _
  · simpa [Loop.modTask,hut] using ⟨rfl,rfl,rfl,rfl⟩

theorem cancel (t : TaskId) : Moves s (s.cancel t) := by
  obtain heq | ⟨g,hg,heq | ⟨f,-,-,heq⟩⟩ := s.cancel_cases t
  · rw [heq]
    exact refl
  · exact heq ▸ modTask hg
  · exact heq ▸ (modTask hg).trans (pyCancel f)

end Moves

/-! ## The invariant -/

def Waits (s : Loop C) (t : TaskId) : Prop :=
  .step t ∈ s.ready ∨ ∃ f, (s.tasks t).futWaiter = some f ∧ s.doneP f = false ∧
    .step t ∈ (s.futures f).callbacks

structure TaskWf (nfut : Nat) (current : Option TaskId) (t : TaskId) (tk : Task) : Prop where
  fut_lt : tk.doneFut < nfut
  waiter_lt : ∀ f, tk.futWaiter = some f → f < nfut
  running : tk.coro = .running ↔ current = some t
  free : tk.coro = .running → tk.futWaiter = none
  ended : tk.done = true ↔ tk.coro.Ended

variable {t : TaskId} {s' : Loop C}

theorem TaskWf.same {nfut nfut' : Nat} {current : Option TaskId} {tk tk' : Task}
    (h : TaskWf nfut current t tk) (m : SameTask tk tk') (hn : nfut ≤ nfut') :
    TaskWf nfut' current t tk' := by
  constructor
  · rw [m.fut]
    exact h.fut_lt.trans_le hn
  · rw [m.waiter]
    exact fun f hf => (h.waiter_lt f hf).trans_le hn
  · rw [m.coro]
    exact h.running
  · rw [m.coro,m.waiter]
    exact h.free
  · rw [m.done,m.coro]
    exact h.ended

structure WfBut (s : Loop C) (x : Option TaskId) : Prop where
  task : ∀ t < s.ntask, TaskWf s.nfut s.current t (s.tasks t)
  fut_inj : ∀ t < s.ntask, ∀ u < s.ntask, (s.tasks t).doneFut = (s.tasks u).doneFut → t = u
  current_lt : ∀ t, s.current = some t → t < s.ntask
  gather_lt : ∀ g, (s.gathers g).isSome → g < s.nfut ∧ ∀ t < s.ntask, (s.tasks t).doneFut ≠ g
  step_lt : ∀ t, s.HasStep t → t < s.ntask
  waits : ∀ t < s.ntask, x ≠ some t → (s.tasks t).coro = .suspended → s.Waits t

abbrev Wf (s : Loop C) : Prop := s.WfBut none

namespace WfBut
variable {s} {s' : Loop C} {x : Option TaskId}

theorem of_moves (h : s.WfBut x) (m : Moves s s') : s'.WfBut x := by
  have hfut : ∀ t, (s'.tasks t).doneFut = (s.tasks t).doneFut := fun t => (m.task t).fut
  constructor
  · intro t ht
    rw [m.current]
    exact (h.task t (m.ntask ▸ ht)).same (m.task t) m.nfut
  · intro t ht u hu
    rw [hfut,hfut]
    exact h.fut_inj t (m.ntask ▸ ht) u (m.ntask ▸ hu)
  · intro t
    rw [m.current,m.ntask]
    exact h.current_lt t
  · intro g hg
    rw [m.ntask]
    simp only [hfut]
    rcases m.gathers g hg with hg | ⟨hle,hlt⟩
    · exact ⟨(h.gather_lt g hg).1.trans_le m.nfut,(h.gather_lt g hg).2⟩
    · exact ⟨hlt,fun t ht => ((h.task t ht).fut_lt.trans_le hle).ne⟩
  · intro t ht
    rw [m.ntask]
    exact (m.steps t ht).elim (h.step_lt t) id
  · intro t ht hx hsusp
    have ht : t < s.ntask := m.ntask ▸ ht
    rw [(m.task t).coro] at hsusp
    rw [Waits,(m.task t).waiter]
    rcases h.waits t ht hx hsusp with hready | ⟨f,hf,hdone,hmem⟩
    · exact .inl (m.ready t hready)
    · rcases m.parked t f ((h.task t ht).waiter_lt f hf) hdone hmem with h' | h'
      · exact .inr ⟨f,hf,h'⟩
      · exact .inl h'

theorem wake {t : TaskId} (h : s.WfBut (some t)) (ht : (s.tasks t).coro = .suspended → s.Waits t) :
    s.Wf := by
  refine ⟨h.task,h.fut_inj,h.current_lt,h.gather_lt,h.step_lt,fun u hu _ hsusp => ?_⟩
  by_cases hut : u = t
  · subst hut
    exact ht hsusp
  · exact h.waits u hu (fun he => hut (Option.some.inj he).symm) hsusp

end WfBut

theorem start_wf : (start : Loop C).Wf := by
  refine ⟨?_,?_,?_,?_,?_,?_⟩
  all_goals simp [start,HasStep,Future.pending]

theorem scheduleTask_wf {s : Loop C} (h : s.Wf) : s.scheduleTask.Wf := by
  have hold : ∀ t < s.ntask, s.scheduleTask.tasks t = s.tasks t := by
    intro t ht
    simp [scheduleTask,ht.ne]
  have hnew : s.scheduleTask.tasks s.ntask =
      ⟨.suspended,false,true,none,s.nfut,none,false,0⟩ := by
    simp [scheduleTask]
  have hcases : ∀ t < s.scheduleTask.ntask, t < s.ntask ∨ t = s.ntask :=
    fun t ht => Nat.lt_succ_iff_lt_or_eq.mp ht
  constructor
  · intro t ht
    show TaskWf (s.nfut + 1) s.current t _
    rcases hcases t ht with ht | rfl
    · rw [hold t ht]
      exact (h.task t ht).same ⟨rfl,rfl,rfl,rfl⟩ (Nat.le_succ _)
    · rw [hnew]
      refine ⟨Nat.lt_succ_self _,fun f hf => (by cases hf),?_,fun _ => rfl,by simp [Coro.Ended]⟩
      exact ⟨fun hc => (by cases hc),fun hc => absurd (h.current_lt _ hc) (lt_irrefl _)⟩
  · intro t ht u hu
    rcases hcases t ht with ht | rfl
    · have htn := (h.task t ht).fut_lt.ne
      rcases hcases u hu with hu | rfl
      · rw [hold t ht,hold u hu]
        exact h.fut_inj t ht u hu
      · rw [hold t ht,hnew]
        exact fun heq => absurd heq htn
    · rcases hcases u hu with hu | rfl
      · rw [hold u hu,hnew]
        exact fun heq => absurd heq.symm (h.task u hu).fut_lt.ne
      · exact fun _ => rfl
  · exact fun t ht => (h.current_lt t ht).trans (Nat.lt_succ_self _)
  · intro g hg
    obtain ⟨hlt,hne⟩ := h.gather_lt g hg
    refine ⟨hlt.trans (Nat.lt_succ_self _),fun t ht => ?_⟩
    rcases hcases t ht with ht | rfl
    · rw [hold t ht]
      exact hne t ht
    · rw [hnew]
      exact hlt.ne'
  · intro t ht
    have hmem : s.HasStep t ∨ t = s.ntask := by
      rcases ht with ht | ⟨f,ht⟩
      · rcases List.mem_append.mp ht with ht | ht
        · exact .inl (.inl ht)
        · exact .inr (Callback.step.inj (List.mem_singleton.mp ht))
      · by_cases hfn : f = s.nfut
        · simp [scheduleTask,newFuture,hfn,Future.pending] at ht
        · exact .inl (.inr ⟨f,by simpa [scheduleTask,newFuture,hfn] using ht⟩)
    rcases hmem with hmem | rfl
    · exact (h.step_lt t hmem).trans (Nat.lt_succ_self _)
    · exact Nat.lt_succ_self _
  · intro t ht hx hsusp
    rcases hcases t ht with ht | rfl
    · rw [hold t ht] at hsusp
      rcases h.waits t ht hx hsusp with hready | ⟨f,hf,hdone,hmem⟩
      · exact .inl (List.mem_append_left _ hready)
      · have hne := ((h.task t ht).waiter_lt f hf).ne
        refine .inr ⟨f,by rw [hold t ht,hf],?_,?_⟩
        · simpa [scheduleTask,newFuture,doneP,hne] using hdone
        · simpa [scheduleTask,newFuture,hne] using hmem
    · exact .inl (List.mem_append_right _ List.mem_cons_self)

variable {rest : List (Callback C)} {e : Event C}

theorem take_wf {s : Loop C} (h : s.Wf) {cb : Callback C}
    (hready : s.ready = cb :: rest) (x : Option TaskId) (hx : ∀ t, cb = .step t → x = some t) :
    ({ s with ready := rest } : Loop C).WfBut x := by
  refine ⟨h.task,h.fut_inj,h.current_lt,h.gather_lt,fun t ht => ?_,fun t ht hxt hsusp => ?_⟩
  · apply h.step_lt t
    exact ht.imp (fun ht => hready ▸ List.mem_cons_of_mem _ ht) id
  rcases h.waits t ht (fun he => by cases he) hsusp with hmem | hparked
  · rw [hready,List.mem_cons] at hmem
    rcases hmem with rfl | hmem
    · exact absurd (hx t rfl) hxt
    · exact .inl hmem
  · exact .inr hparked

theorem modTask_wf {s : Loop C} {g : Task → Task} {c : Option TaskId} {sig : Signal}
    (h : s.WfBut (some t)) (hcur : ∀ u, u ≠ t → (s.current = some u ↔ c = some u)) (ht : t < s.ntask)
    (hfut : (g (s.tasks t)).doneFut = (s.tasks t).doneFut) (htask : TaskWf s.nfut c t (g (s.tasks t))) :
    ({ s.modTask t g with current := c, signal := sig } : Loop C).WfBut (some t) := by
  have hself : (s.modTask t g).tasks t = g (s.tasks t) := by simp [modTask]
  have hother : ∀ u, u ≠ t → (s.modTask t g).tasks u = s.tasks u := by
    intro u hu
    simp [modTask,hu]
  have hfuts : ∀ u, ((s.modTask t g).tasks u).doneFut = (s.tasks u).doneFut := by
    intro u
    by_cases hu : u = t
    · rw [hu,hself,hfut]
    · rw [hother u hu]
  constructor
  · intro u hu
    show TaskWf s.nfut c u ((s.modTask t g).tasks u)
    by_cases hut : u = t
    · rw [hut,hself]
      exact htask
    · rw [hother u hut]
      obtain ⟨hlt,hwaiter,hrun,hfree,hended⟩ := h.task u hu
      exact ⟨hlt,hwaiter,hrun.trans (hcur u hut),hfree,hended⟩
  · intro u hu v hv
    show ((s.modTask t g).tasks u).doneFut = ((s.modTask t g).tasks v).doneFut → u = v
    rw [hfuts,hfuts]
    exact h.fut_inj u hu v hv
  · intro u hu
    by_cases hut : u = t
    · rwa [hut]
    · exact h.current_lt u ((hcur u hut).mpr hu)
  · intro k hk
    obtain ⟨hlt,hne⟩ := h.gather_lt k hk
    refine ⟨hlt,fun u hu => ?_⟩
    show ((s.modTask t g).tasks u).doneFut ≠ k
    rw [hfuts]
    exact hne u hu
  · exact h.step_lt
  · intro u hu hxu
    have hut : u ≠ t := fun he => hxu (by rw [he])
    show ((s.modTask t g).tasks u).coro = .suspended → _
    rw [hother u hut]
    intro hsusp
    have hwait := h.waits u hu hxu hsusp
    rw [Waits] at hwait ⊢
    show _ ∨ ∃ f, ((s.modTask t g).tasks u).futWaiter = some f ∧ _
    rwa [hother u hut]

theorem not_ended_of_running {c : Coro} (h : c = .running) : ¬ c.Ended := by
  rintro (he | he) <;> rw [h] at he <;> cases he

theorem beginStep_wf {s : Loop C} (h : s.WfBut (some t)) (hcur : s.current = none)
    (ht : t < s.ntask) : (s.beginStep t).Wf := by
  have htask := h.task t ht
  unfold beginStep
  split
  · rename_i hdone
    apply h.wake
    intro hsusp
    have hended := htask.ended.mp hdone
    rw [hsusp] at hended
    rcases hended with hended | hended <;> cases hended
  · rename_i hdone
    refine (modTask_wf h ?_ ht rfl ⟨htask.fut_lt,?_,?_,?_,?_⟩).wake ?_
    · intro u hu
      rw [hcur]
      exact ⟨fun he => (by cases he),fun he => absurd (Option.some.inj he).symm hu⟩
    · intro f hf
      cases hf
    · exact ⟨fun _ => rfl,fun _ => rfl⟩
    · exact fun _ => rfl
    · exact ⟨fun hd => absurd hd hdone,fun he => absurd he (not_ended_of_running rfl)⟩
    · intro hsusp
      simp [modTask] at hsusp

theorem leave_modTask (t : TaskId) (g g' : Task → Task) :
    (s.leave t g).modTask t g' = s.leave t fun tk => g' (g tk) := by
  simp [leave,modTask]
theorem leave_task (t : TaskId) (g : Task → Task) : (s.leave t g).tasks t = g (s.tasks t) := by
  simp [leave,modTask]
theorem leave_other {u : TaskId} (g : Task → Task) (hu : u ≠ t) :
    (s.leave t g).tasks u = s.tasks u := by
  simp [leave,modTask,hu]

/-- What the end of its step leaves of a task. -/
def Yielded.leaves : Yielded → Task → Task
  | .future f, tk => { tk with coro := .suspended, futWaiter := some f }
  | .none, tk => { tk with coro := .suspended }
  | .bad, tk => { tk with coro := .dropped, done := true, outcome := some (.exc badYield) }
  | .ended o, tk =>
    { tk with coro := .finished, done := true, registered := false, outcome := some o }

theorem leaves_doneFut (y : Yielded) (tk : Task) : (y.leaves tk).doneFut = tk.doneFut := by
  cases y <;> rfl

theorem endStep_ended (t : TaskId) (o : Outcome) : s.endStep t (.ended o) =
    ((s.leave t (Yielded.ended o).leaves).modFut (s.tasks t).doneFut fun fut =>
      { fut with cancelled := fut.cancelled || o.isCancelled }).resolve (s.tasks t).doneFut o := by
  have hsame : ∀ (s : Loop C) (f : FutId),
      (s.modFut f fun fut => { fut with cancelled := fut.cancelled || false }) = s := by
    intro s f
    simp [modFut]
  have hfinish : (Yielded.ended o).leaves = fun tk =>
      { (fun tk : Task => { tk with coro := .finished }) tk with
        done := true, registered := false, outcome := some o } := rfl
  rw [endStep,hfinish]
  cases o with
  | result v =>
    rw [Outcome.isCancelled,hsame,finish,leave_modTask,leave_task]
    rfl
  | exc e =>
    rw [Outcome.isCancelled,finish,leave_modTask,leave_task]
    cases e.isCancelledError with
    | false =>
      rw [hsame]
      rfl
    | true => simp [setException]

theorem endStep_moves {s : Loop C} (ht : t < s.ntask) (y : Yielded) :
    Moves (s.leave t y.leaves) (s.endStep t y) := by
  cases y with
  | future f =>
    apply Moves.addDoneCallback f (.step t)
    rintro u ⟨⟩
    exact ht
  | none =>
    apply Moves.schedule [.step t]
    intro u hu
    cases List.mem_singleton.mp hu
    exact ht
  | bad => exact .refl
  | ended o =>
    rw [endStep_ended]
    refine (Moves.modFut _ _ ?_ ?_ ?_).trans (.resolve _ o)
    · exact fun _ => rfl
    · exact fun _ _ h => h
    · exact fun _ _ h => .inl h

theorem addDoneCallback_waits {s : Loop C} {f : FutId} (h : (s.tasks t).futWaiter = some f) :
    (s.addDoneCallback f (.step t)).Waits t := by
  unfold addDoneCallback
  split
  · exact .inl (List.mem_append_right _ List.mem_cons_self)
  · rename_i hdone
    refine .inr ⟨f,h,?_,?_⟩
    · rw [doneP_modFut]
      · simpa using hdone
      · exact fun _ => rfl
    · simp [modFut]

theorem endStep_wf {s : Loop C} (h : s.Wf) (hcur : s.current = some t) {y : Yielded}
    (hy : ∀ f, y = .future f → f < s.nfut) : (s.endStep t y).Wf := by
  have ht := h.current_lt t hcur
  have htask := h.task t ht
  have hlive : (s.tasks t).done = false := by
    rw [Bool.eq_false_iff]
    intro hdone
    exact not_ended_of_running (htask.running.mpr hcur) (htask.ended.mp hdone)
  have hbut : s.WfBut (some t) :=
    ⟨h.task,h.fut_inj,h.current_lt,h.gather_lt,h.step_lt,fun u hu _ => h.waits u hu fun he => by cases he⟩
  have hleft : TaskWf s.nfut none t (y.leaves (s.tasks t)) := by
    refine ⟨?_,?_,?_,?_,?_⟩
    · rw [leaves_doneFut]
      exact htask.fut_lt
    · cases y with
      | future f =>
        rintro f' ⟨⟩
        exact hy f rfl
      | _ => exact htask.waiter_lt
    all_goals cases y <;> simp [Yielded.leaves,hlive,Coro.Ended]
  have hleave : (s.leave t y.leaves).WfBut (some t) := by
    refine modTask_wf hbut (fun u hu => ?_) ht (leaves_doneFut y _) hleft
    rw [hcur]
    exact ⟨fun he => absurd (Option.some.inj he).symm hu,fun he => by cases he⟩
  have m := endStep_moves ht y
  refine (hleave.of_moves m).wake fun hsusp => ?_
  rw [(m.task t).coro,leave_task] at hsusp
  cases y with
  | future f =>
    apply addDoneCallback_waits
    rw [leave_task]
  | none => exact .inl (List.mem_append_right _ List.mem_cons_self)
  | bad => cases hsusp
  | ended o => cases hsusp

theorem runCallback_wf {s : Loop C} (h : s.Wf) (hcur : s.current = none) {cb : Callback C} (hready : s.ready = cb :: rest) :
    ({ s with ready := rest }.runCallback cb).Wf := by
  cases cb with
  | step t =>
    apply beginStep_wf (take_wf h hready (some t) _) hcur
    · exact h.step_lt t (.inl (hready ▸ List.mem_cons_self))
    · intro u hu
      cases hu
      rfl
  | gathered g idx => exact (take_wf h hready none fun t ht => by cases ht).of_moves (.gatherDone g idx)
  | other c => exact take_wf h hready none fun t ht => by cases ht

theorem tick_cases {s : Loop C} (h : s.step .tick = some s') :
    s.current = none ∧ ∃ cb rest, s.ready = cb :: rest ∧
      s' = { s with ready := rest }.runCallback cb := by
  simp only [step] at h
  split at h
  · rename_i cb rest hcur hready
    exact ⟨hcur,cb,rest,hready,(Option.some.inj h).symm⟩
  · cases h

theorem yields_cases {s : Loop C} {y : Yielded} (h : s.step (.yields y) = some s') :
    ∃ t, s.current = some t ∧ s' = s.endStep t y ∧ ∀ f, y = .future f → f < s.nfut := by
  cases y with
  | future f =>
    simp only [step,Option.ite_none_right_eq_some,Option.map_eq_some_iff] at h
    obtain ⟨hf,t,ht,rfl⟩ := h
    exact ⟨t,ht,rfl,fun f' hf' => by cases hf'; exact hf⟩
  | _ =>
    simp only [step,Option.map_eq_some_iff] at h
    obtain ⟨t,ht,rfl⟩ := h
    exact ⟨t,ht,rfl,fun f' hf' => by cases hf'⟩

/-- What an event does that is no tick, no new task and no step of one. -/
abbrev act (s : Loop C) : Event C → Loop C
  | .newFuture => s.newFuture
  | .setResult f v => s.setResult f v
  | .setException f e => s.setException f e
  | .cancelFuture f => (s.pyCancel f).2
  | .addDoneCallback f c => s.addDoneCallback f (.other c)
  | .removeDoneCallback f keep => s.removeDoneCallback f keep
  | .callSoon c => s.callSoon (.other c)
  | .gather watch re => s.gather watch re
  | .cancel t => s.cancel t
  | .uncancel t => s.uncancel t
  | .tick | .createTask | .yields _ => s

def isAct : Event C → Bool
  | .tick | .createTask | .yields _ => false
  | _ => true

theorem step_act {s : Loop C} (h : s.step e = some s') (he : isAct e = true) : s' = s.act e := by
  cases e with
  | tick | createTask | yields _ => cases he
  | newFuture | callSoon _ => exact (Option.some.inj h).symm
  | _ =>
    simp only [step,Option.ite_none_right_eq_some,Option.some.injEq] at h
    exact h.2.symm

theorem step_cases {s : Loop C} (h : s.step e = some s') : isAct e = true ∨
    (e = .createTask ∧ s' = s.scheduleTask) ∨
    (∃ y t, e = .yields y ∧ s.current = some t ∧ s' = s.endStep t y ∧
      ∀ f, y = .future f → f < s.nfut) ∨
    (e = .tick ∧ s.current = none ∧ ∃ cb rest, s.ready = cb :: rest ∧
      s' = { s with ready := rest }.runCallback cb) := by
  cases e with
  | tick => exact .inr (.inr (.inr ⟨rfl,tick_cases h⟩))
  | createTask => exact .inr (.inl ⟨rfl,(Option.some.inj h).symm⟩)
  | yields y =>
    obtain ⟨t,hcur,heq,hy⟩ := yields_cases h
    exact .inr (.inr (.inl ⟨y,t,rfl,hcur,heq,hy⟩))
  | _ => exact .inl rfl

theorem act_moves {s : Loop C} (he : isAct e = true) : Moves s (s.act e) := by
  cases e with
  | tick | createTask | yields _ => cases he
  | newFuture => exact .newFuture
  | callSoon c => exact .schedule _ fun t ht => by cases List.mem_singleton.mp ht
  | setResult f _ | setException f _ => exact .resolve f _
  | cancelFuture f => exact .pyCancel f
  | addDoneCallback f c => exact .addDoneCallback f _ fun t ht => by cases ht
  | removeDoneCallback f keep => exact .removeDoneCallback f keep
  | gather watch re => exact .gather watch re
  | cancel t => exact .cancel t
  | uncancel t => exact .modTask fun _ => ⟨rfl,rfl,rfl,rfl⟩

theorem step_moves {s : Loop C} (h : s.step e = some s') (he : isAct e = true) : Moves s s' :=
  step_act h he ▸ act_moves he

theorem step_wf {s : Loop C} (hstep : s.step e = some s') (h : s.Wf) : s'.Wf := by
  obtain hact | ⟨-,rfl⟩ | ⟨y,t,-,hcur,rfl,hy⟩ | ⟨-,hcur,cb,rest,hready,rfl⟩ := step_cases hstep
  · exact h.of_moves (step_moves hstep hact)
  · exact scheduleTask_wf h
  · exact endStep_wf h hcur hy
  · exact runCallback_wf h hcur hready

end Loop
end Unagi.Asyncio
