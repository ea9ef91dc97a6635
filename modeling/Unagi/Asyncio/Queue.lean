import Mathlib.Data.List.Perm.Subperm
import Mathlib.Data.List.TakeWhile
import Unagi.Asyncio.Parking
import Unagi.Runtime.Heapq

/-! # The queue

`asyncio.Queue` and its LIFO and priority forms on the event loop. A task that finds the queue empty or
full parks, and a put or a get of another one wakes the first of those who wait for it. -/

namespace Unagi.Asyncio

open Unagi.Objects Unagi.Runtime

variable {C α : Type}

inductive QueueKind where
  | fifo | lifo | priority

section
variable (less : α → α → Bool)

def heapPushItems (items : List α) (item : α) : Except Halt (List α) := pushImpl less false items item
def heapPopItems (items : List α) : Except Halt (α × List α) := popImpl less false items

namespace QueueKind

def put (kind : QueueKind) (items : List α) (item : α) : Except Halt (List α) :=
  match kind with
  | priority => heapPushItems less items item
  | _ => .ok (items ++ [item])
def get (kind : QueueKind) (items : List α) : Except Halt (α × List α) :=
  match kind, items with
  | priority, items => heapPopItems less items
  | lifo, items => items.getLast?.elim (.error .panic) fun item => .ok (item, items.dropLast)
  | fifo, item :: items => .ok (item, items)
  | fifo, [] => .error .panic

/-- The items as they are kept, of the contents in the order in which they were put. -/
def Holds : QueueKind → List α → List α → Prop
  | priority, items, contents => items.Perm contents ∧ IsHeap less false items
  | _, items, contents => items = contents

/-- The item that is next under the discipline, and the contents without it. -/
def Serves : QueueKind → List α → α → List α → Prop
  | fifo, contents, item, rest => contents = item :: rest
  | lifo, contents, item, rest => contents = rest ++ [item]
  | priority, contents, item, rest =>
    contents.Perm (item :: rest) ∧ ∀ other ∈ contents, less other item = false

variable {less} {kind : QueueKind} {items contents : List α}

theorem Holds.length (h : kind.Holds less items contents) : items.length = contents.length := by
  cases kind with
  | priority => exact h.1.length_eq
  | _ => exact congrArg List.length h
theorem holds_nil (kind : QueueKind) : kind.Holds less [] [] := by
  cases kind with
  | priority => exact ⟨.refl _,fun k c x y _ hx => (Option.some_ne_none x hx.symm).elim⟩
  | _ => rfl

theorem Holds.put (h : kind.Holds less items contents) (hord : kind = .priority → TotalPreorder less)
    (item : α) :
    ∃ items', kind.put less items item = .ok items' ∧ kind.Holds less items' (contents ++ [item]) := by
  cases kind with
  | priority =>
    obtain ⟨r,hr,hheap,hperm⟩ := pushImpl_spec (hord rfl) item h.2
    refine ⟨r,hr,hperm.trans ?_,hheap⟩
    exact (h.1.cons item).trans (List.perm_append_singleton item contents).symm
  | _ => exact ⟨items ++ [item],rfl,congrArg (· ++ [item]) h⟩

theorem Holds.get (h : kind.Holds less items contents) (hord : kind = .priority → TotalPreorder less)
    (hne : items ≠ []) :
    ∃ item items' rest, kind.get less items = .ok (item, items') ∧
      kind.Serves less contents item rest ∧ kind.Holds less items' rest := by
  cases kind with
  | fifo =>
    cases items with
    | nil => exact absurd rfl hne
    | cons item items => exact ⟨item,items,items,rfl,h.symm,rfl⟩
  | lifo =>
    obtain ⟨front,item,rfl⟩ := (List.eq_nil_or_concat' items).resolve_left hne
    exact ⟨item,front,front,by simp [QueueKind.get],h.symm,rfl⟩
  | priority =>
    cases items with
    | nil => exact absurd rfl hne
    | cons root items =>
      obtain ⟨r,hr,hheap,hperm⟩ := popImpl_spec (hord rfl) h.2
      refine ⟨root,r,items,hr,⟨h.1.symm,fun other hother => ?_⟩,hperm,hheap⟩
      exact root_above (hord rfl) h.2 other (h.1.mem_iff.mpr hother)

end QueueKind
end

/-! ## The queue on the loop -/

inductive QueueOp (α : Type) where
  | get
  | put (item : α)

inductive Side where
  | get | put
deriving DecidableEq

def QueueOp.side : QueueOp α → Side
  | get => .get
  | put _ => .put
def QueueOp.wakes : QueueOp α → Side
  | get => .put
  | put _ => .get

/-- An entry of the history: a completed operation, or a shutdown that drops the items. -/
inductive QueueDone (α : Type) where
  | put (item : α)
  | got (item : α)
  | drained

inductive QueueError where
  | queueEmpty | queueFull | queueShutDown
  | halt (h : Halt)

/-- The loop with a queue; `waiters` are its getters and its putters. Beside it stand the operation in
which a task was suspended last, the waiters that were woken, and the completed operations, the last one
first. -/
structure QueueLoop (C α : Type) extends Parking C where
  items : List α
  kind : QueueKind
  maxsize : Int
  waiters : Side → List FutId
  isShutdown : Bool
  doing : TaskId → QueueOp α
  called : Side → List FutId
  history : List (QueueDone α)

namespace QueueLoop
variable (less : α → α → Bool) (s : QueueLoop C α)

def start (kind : QueueKind) (maxsize : Int) : QueueLoop C α :=
  { Parking.start with
    items := [], kind := kind, maxsize := maxsize, waiters := fun _ => [], isShutdown := false
    doing := fun _ => .get, called := fun _ => [], history := [] }

def empty : Bool := s.items.length == 0
def full : Bool := s.maxsize > 0 && s.items.length ≥ s.maxsize
def blocked : Side → Bool
  | .get => s.empty
  | .put => s.full

/-- Resolve the first pending waiter, dropping those before it. -/
def wakeupNext (d : Side) : QueueLoop C α :=
  match (s.waiters d).dropWhile s.loop.doneP with
  | [] => { s with waiters := Function.update s.waiters d [] }
  | w :: rest =>
    { s with
      toParking := s.toParking.wake w (.obj 0), waiters := Function.update s.waiters d rest
      called := Function.update s.called d (w :: s.called d) }

def putNoWait (item : α) : Except QueueError (QueueLoop C α) :=
  if s.isShutdown then .error .queueShutDown
  else if s.full then .error .queueFull
  else
    match s.kind.put less s.items item with
    | .error h => .error (.halt h)
    | .ok items => .ok (wakeupNext { s with items := items, history := .put item :: s.history } .get)

def getNoWait : Except QueueError (QueueLoop C α) :=
  if s.empty then .error (if s.isShutdown then .queueShutDown else .queueEmpty)
  else
    match s.kind.get less s.items with
    | .error h => .error (.halt h)
    | .ok (item, items) =>
      .ok (wakeupNext { s with items := items, history := .got item :: s.history } .put)

def noWait (op : QueueOp α) : QueueLoop C α :=
  match op with
  | .get => ((s.getNoWait less).toOption).getD s
  | .put item => ((s.putNoWait less item).toOption).getD s

/-- The body of `getCoro` or `putCoro` from a test of its loop on, up to its end or its suspension. -/
def await (t : TaskId) (op : QueueOp α) : QueueLoop C α :=
  if s.blocked op.side then
    if s.isShutdown then s
    else
      { s with
        toParking := s.toParking.park t
        waiters := Function.update s.waiters op.side (s.waiters op.side ++ [s.loop.nfut])
        doing := Function.update s.doing t op }
  else s.noWait less op

def resume (t : TaskId) (w : FutId) : QueueLoop C α :=
  let s₁ := { s with toParking := s.toParking.unpark t, called := fun d => (s.called d).erase w }
  if s.granted w then s₁.await less t (s.doing t) else s₁
def ticked (p : Parking C) : QueueLoop C α :=
  match p.resumed with
  | some (t, w) => { s with toParking := p }.resume less t w
  | none => { s with toParking := p }

def shutdown (immediate : Bool) : QueueLoop C α :=
  { s with
    isShutdown := true
    items := if immediate then [] else s.items
    history := if immediate then .drained :: s.history else s.history
    toParking := (s.waiters .get ++ s.waiters .put).foldl
      (fun p w => if p.loop.doneP w then p else p.wake w (.obj 0)) s.toParking
    waiters := fun _ => [] }

end QueueLoop

/-- The running task awaits an operation, an operation is made without waiting, the queue is shut down,
or something else happens. -/
inductive QueueEvent (C α : Type) where
  | loop (e : Event C)
  | await (op : QueueOp α)
  | noWait (op : QueueOp α)
  | shutdown (immediate : Bool)

def QueueLoop.step (less : α → α → Bool) (s : QueueLoop C α) : QueueEvent C α → Option (QueueLoop C α)
  | .loop e => (s.toParking.step e).map (s.ticked less)
  | .await op => s.loop.current.map fun t => s.await less t op
  | .noWait op => some (s.noWait less op)
  | .shutdown immediate => some (s.shutdown immediate)
def queueMachine (C : Type) (less : α → α → Bool) : Lib.Machine (QueueLoop C α) (QueueEvent C α) :=
  ⟨QueueLoop.step less⟩

inductive Replays (less : α → α → Bool) (kind : QueueKind) : List (QueueDone α) → List α → Prop
  | nil : Replays less kind [] []
  | put {h : List (QueueDone α)} {contents : List α} (item : α) (hh : Replays less kind h contents) :
      Replays less kind (.put item :: h) (contents ++ [item])
  | got {h : List (QueueDone α)} {contents rest : List α} {item : α}
      (hh : Replays less kind h contents) (hs : kind.Serves less contents item rest) :
      Replays less kind (.got item :: h) rest
  | drained {h : List (QueueDone α)} {contents : List α} (hh : Replays less kind h contents) :
      Replays less kind (.drained :: h) []

def putItems (h : List (QueueDone α)) : List α :=
  h.filterMap fun
    | .put item => some item
    | _ => none
def gotItems (h : List (QueueDone α)) : List α :=
  h.filterMap fun
    | .got item => some item
    | _ => none

variable {less : α → α → Bool}

theorem QueueKind.Serves.perm {kind : QueueKind} {contents rest : List α} {item : α}
    (h : kind.Serves less contents item rest) : contents.Perm (item :: rest) := by
  cases kind with
  | fifo => exact List.Perm.of_eq h
  | lifo => exact (List.Perm.of_eq h).trans (List.perm_append_singleton item rest)
  | priority => exact h.1

theorem Replays.subperm {kind : QueueKind} {h : List (QueueDone α)} {contents : List α}
    (hh : Replays less kind h contents) : (gotItems h ++ contents).Subperm (putItems h) := by
  induction hh with
  | nil => exact List.Subperm.refl _
  | @put h contents item _ ih =>
    have hperm : (gotItems h ++ (contents ++ [item])).Perm (item :: (gotItems h ++ contents)) := by
      rw [← List.append_assoc]
      exact List.perm_append_singleton item _
    exact hperm.subperm.trans ((List.subperm_cons item).mpr ih)
  | @got h contents rest item _ hs ih =>
    have hperm : (item :: (gotItems h ++ rest)).Perm (gotItems h ++ contents) :=
      List.perm_middle.symm.trans (hs.perm.symm.append_left _)
    exact hperm.subperm.trans ih
  | @drained h contents _ ih =>
    rw [List.append_nil]
    exact (List.sublist_append_left (gotItems h) contents).subperm.trans ih

namespace QueueLoop

/-! ## The invariant -/

/-- The invariant of a queue of a discipline and a size; the loop has resumed the task in `x`. -/
structure InvBut (less : α → α → Bool) (kind : QueueKind) (maxsize : Int) (s : QueueLoop C α)
    (x : Option TaskId) : Prop where
  parking : s.toParking.InvBut x
  known : ∀ d, ∀ w ∈ s.waiters d, w ∈ s.made
  bound : 0 < s.maxsize → s.items.length ≤ s.maxsize
  order : ∃ contents, Replays less s.kind s.history contents ∧ s.kind.Holds less s.items contents
  total : s.kind = .priority → TotalPreorder less
  fixed : s.kind = kind ∧ s.maxsize = maxsize

abbrev Inv (less : α → α → Bool) (kind : QueueKind) (maxsize : Int) (s : QueueLoop C α) : Prop :=
  s.InvBut less kind maxsize none
theorem start_inv {kind : QueueKind} (hord : kind = .priority → TotalPreorder less) (maxsize : Int) :
    (start kind maxsize : QueueLoop C α).Inv less kind maxsize := by
  refine ⟨Parking.start_inv,fun d w hw => ?_,fun hmax => Int.le_of_lt hmax,
    ⟨[],.nil,kind.holds_nil⟩,hord,rfl,rfl⟩
  cases hw

section
variable {kind : QueueKind} {maxsize : Int} {s s' : QueueLoop C α} {p : Parking C} {t : TaskId}
  {x : Option TaskId}

theorem wakeupNext_cases (s : QueueLoop C α) (d : Side) :
    (∃ front w rest, s.waiters d = front ++ w :: rest ∧ (∀ a ∈ front, s.loop.doneP a = true) ∧
      s.loop.doneP w = false ∧ s.wakeupNext d =
        { s with
          toParking := s.toParking.wake w (.obj 0), waiters := Function.update s.waiters d rest
          called := Function.update s.called d (w :: s.called d) }) ∨
    (∀ w ∈ s.waiters d, s.loop.doneP w = true) ∧
      s.wakeupNext d = { s with waiters := Function.update s.waiters d [] } := by
  have hsplit := List.takeWhile_append_dropWhile (p := s.loop.doneP) (l := s.waiters d)
  have hfront : ∀ a ∈ (s.waiters d).takeWhile s.loop.doneP, s.loop.doneP a = true :=
    fun a ha => List.mem_takeWhile_imp ha
  have hnext := List.head?_dropWhile_not s.loop.doneP (s.waiters d)
  unfold wakeupNext
  split
  · rename_i heq
    rw [heq,List.append_nil] at hsplit
    exact .inr ⟨hsplit ▸ hfront,rfl⟩
  · rename_i w rest heq
    rw [heq] at hsplit hnext
    exact .inl ⟨_,w,rest,hsplit.symm,hfront,by simpa using hnext,rfl⟩

theorem InvBut.wakeupNext (h : s.InvBut less kind maxsize x) (d : Side) : (s.wakeupNext d).InvBut less kind maxsize x := by
  have hknown {ws : List FutId} (hws : ∀ w ∈ ws, w ∈ s.waiters d) :
      ∀ d', ∀ w ∈ Function.update s.waiters d ws d', w ∈ s.made := by
    intro d' w hw
    by_cases hd : d' = d
    · subst hd
      exact h.known d' w (hws w (by simpa using hw))
    · exact h.known d' w (by simpa [hd] using hw)
  rcases wakeupNext_cases s d with ⟨front,w,rest,heq,-,hpending,hwake⟩ | ⟨-,hwake⟩
  · rw [hwake]
    have hw : w ∈ s.waiters d := by simp [heq]
    exact ⟨h.parking.wake (h.known d w hw) hpending _,hknown fun a ha => by simp [heq,ha],h.bound,
      h.order,h.total,h.fixed⟩
  · rw [hwake]
    exact ⟨h.parking,hknown nofun,h.bound,h.order,h.total,h.fixed⟩

/-- An operation that does not raise: it changes the items and wakes a waiter of the other side. -/
theorem noWait_cases (h : s.InvBut less kind maxsize x) (op : QueueOp α) :
    (s.noWait less op = s ∧ (s.blocked op.side = true ∨ s.isShutdown = true)) ∨
    ∃ items entry, s.noWait less op =
        wakeupNext { s with items := items, history := entry :: s.history } op.wakes ∧
      s.blocked op.side = false ∧
      (match op with
        | .get => items.length + 1 = s.items.length
        | .put _ => items.length = s.items.length + 1) ∧
      ∃ contents, Replays less s.kind (entry :: s.history) contents ∧
        s.kind.Holds less items contents := by
  obtain ⟨contents,hreplay,hholds⟩ := h.order
  cases op with
  | get =>
    by_cases hempty : s.empty = true
    · have hraise : s.getNoWait less = .error _ := if_pos hempty
      exact .inl ⟨by simp [noWait,hraise,Except.toOption],.inl hempty⟩
    · have hne : s.items ≠ [] := fun he => hempty (by simp [empty,he])
      obtain ⟨item,items,rest,hget,hserves,hrest⟩ := hholds.get h.total hne
      have hok : s.getNoWait less =
          .ok (wakeupNext { s with items := items, history := .got item :: s.history } .put) := by
        rw [getNoWait,if_neg hempty,hget]
      refine .inr ⟨items,.got item,by simp [noWait,hok,Except.toOption,QueueOp.wakes],
        Bool.eq_false_iff.mpr hempty,?_,rest,hreplay.got hserves,hrest⟩
      rw [hholds.length,hserves.perm.length_eq,hrest.length,List.length_cons]
  | put item =>
    by_cases hshut : s.isShutdown = true
    · have hraise : s.putNoWait less item = .error _ := if_pos hshut
      exact .inl ⟨by simp [noWait,hraise,Except.toOption],.inr hshut⟩
    · by_cases hfull : s.full = true
      · have hraise : s.putNoWait less item = .error .queueFull := by
          rw [putNoWait,if_neg hshut,if_pos hfull]
        exact .inl ⟨by simp [noWait,hraise,Except.toOption],.inl hfull⟩
      · obtain ⟨items,hput,hitems⟩ := hholds.put h.total item
        have hok : s.putNoWait less item =
            .ok (wakeupNext { s with items := items, history := .put item :: s.history } .get) := by
          rw [putNoWait,if_neg hshut,if_neg hfull,hput]
        refine .inr ⟨items,.put item,by simp [noWait,hok,Except.toOption,QueueOp.wakes],
          Bool.eq_false_iff.mpr hfull,?_,_,hreplay.put item,hitems⟩
        rw [hholds.length,hitems.length,List.length_append,List.length_singleton]

theorem InvBut.noWait (h : s.InvBut less kind maxsize x) (op : QueueOp α) :
    (s.noWait less op).InvBut less kind maxsize x := by
  rcases noWait_cases h op with ⟨heq,-⟩ | ⟨items,entry,heq,hfree,hlen,horder⟩
  · rwa [heq]
  · rw [heq]
    suffices hstored : InvBut less kind maxsize { s with items := items, history := entry :: s.history } x from
      hstored.wakeupNext _
    refine ⟨h.parking,h.known,fun hmax => ?_,horder,h.total,h.fixed⟩
    have hbound := h.bound hmax
    show (items.length : Int) ≤ s.maxsize
    cases op with
    | get =>
      simp only at hlen
      omega
    | put item =>
      simp only [blocked,QueueOp.side,full,hmax,decide_true,Bool.true_and,ge_iff_le,
        decide_eq_false_iff_not] at hfree hlen
      omega

theorem mem_enlisted {ws : Side → List FutId} {d d' : Side} {w f : FutId} :
    w ∈ Function.update ws d (ws d ++ [f]) d' ↔ w ∈ ws d' ∨ d' = d ∧ w = f := by
  by_cases hd : d' = d
  · subst hd
    simp
  · simp [hd]

theorem InvBut.await (h : s.Inv less kind maxsize) (hcur : s.loop.current = some t)
    (op : QueueOp α) : (s.await less t op).Inv less kind maxsize := by
  unfold QueueLoop.await
  split
  · split
    · exact h
    · refine ⟨h.parking.park hcur,fun d w hw => ?_,h.bound,h.order,h.total,h.fixed⟩
      rcases mem_enlisted.mp hw with hw | ⟨-,rfl⟩
      · exact List.mem_cons_of_mem _ (h.known d w hw)
      · exact List.mem_cons_self
  · exact h.noWait op

theorem InvBut.leave (h : s.InvBut less kind maxsize (some t)) (w : FutId) :
    ({ s with toParking := s.toParking.unpark t, called := fun d => (s.called d).erase w } :
      QueueLoop C α).Inv less kind maxsize :=
  ⟨h.parking.unpark,h.known,h.bound,h.order,h.total,h.fixed⟩
theorem InvBut.resume (h : s.InvBut less kind maxsize (some t))
    (hcur : s.loop.current = some t) (w : FutId) : (s.resume less t w).Inv less kind maxsize := by
  unfold QueueLoop.resume
  dsimp only
  split
  · exact (h.leave w).await hcur (s.doing t)
  · exact h.leave w

theorem InvBut.shutdown (h : s.Inv less kind maxsize) (immediate : Bool) : (s.shutdown immediate).Inv less kind maxsize := by
  have hpark (ws : List FutId) (p : Parking C) (hp : p.Inv) (hws : ∀ w ∈ ws, w ∈ p.made) : (ws.foldl
      (fun p w => if p.loop.doneP w then p else p.wake w (.obj 0)) p).Inv := by
    induction ws generalizing p with
    | nil => exact hp
    | cons w ws ih =>
      obtain ⟨hw,hws⟩ := List.forall_mem_cons.mp hws
      rw [List.foldl_cons]
      split
      · exact ih p hp hws
      · rename_i hpending
        exact ih _ (hp.wake hw (Bool.eq_false_iff.mpr hpending) _) hws
  have hwaiters (w : FutId) (hw : w ∈ s.waiters .get ++ s.waiters .put) : w ∈ s.made :=
    (List.mem_append.mp hw).elim (h.known _ w) (h.known _ w)
  refine ⟨hpark _ _ h.parking hwaiters,fun d w hw => ?_,fun hmax => ?_,?_,h.total,h.fixed⟩
  · cases hw
  · have hbound := h.bound hmax
    cases immediate with
    | true => exact Int.le_of_lt hmax
    | false => exact hbound
  · obtain ⟨contents,hreplay,hholds⟩ := h.order
    cases immediate with
    | true => exact ⟨[],hreplay.drained,s.kind.holds_nil⟩
    | false => exact ⟨contents,hreplay,hholds⟩

theorem step_cases {e : QueueEvent C α} (hstep : s.step less e = some s') :
    (∃ e' p, e = .loop e' ∧ s.toParking.step e' = some p ∧
      (p.resumed = none ∧ s' = { s with toParking := p } ∨
        ∃ t w, p.resumed = some (t, w) ∧ s' = { s with toParking := p }.resume less t w)) ∨
    (∃ op t, e = .await op ∧ s.loop.current = some t ∧ s' = s.await less t op) ∨
    (∃ op, e = .noWait op ∧ s' = s.noWait less op) ∨
    ∃ immediate, e = .shutdown immediate ∧ s' = s.shutdown immediate := by
  cases e with
  | loop e =>
    obtain ⟨p,hp,rfl⟩ := Option.map_eq_some_iff.mp hstep
    refine .inl ⟨e,p,rfl,hp,?_⟩
    unfold ticked
    split
    · rename_i t w hres
      exact .inr ⟨t,w,hres,rfl⟩
    · rename_i hres
      exact .inl ⟨hres,rfl⟩
  | await op =>
    obtain ⟨t,ht,rfl⟩ := Option.map_eq_some_iff.mp hstep
    exact .inr (.inl ⟨op,t,rfl,ht,rfl⟩)
  | noWait op => exact .inr (.inr (.inl ⟨op,rfl,(Option.some.inj hstep).symm⟩))
  | shutdown immediate => exact .inr (.inr (.inr ⟨immediate,rfl,(Option.some.inj hstep).symm⟩))

theorem loop_inv {e : Event C} (h : s.Inv less kind maxsize) (hstep : s.toParking.step e = some p) :
    ({ s with toParking := p } : QueueLoop C α).InvBut less kind maxsize p.loop.current := by
  have hmade : p.made = s.made := by
    obtain ⟨l,-,-,rfl⟩ := Parking.step_cases hstep
    rfl
  exact ⟨h.parking.step hstep,fun d w hw => hmade ▸ h.known d w hw,h.bound,h.order,h.total,h.fixed⟩

theorem step_inv {e : QueueEvent C α} (hstep : s.step less e = some s')
    (h : s.Inv less kind maxsize) : s'.Inv less kind maxsize := by
  rcases step_cases hstep with ⟨e,p,rfl,hp,⟨hres,rfl⟩ | ⟨t,w,hres,rfl⟩⟩ |
    ⟨op,t,rfl,hcur,rfl⟩ | ⟨op,rfl,rfl⟩ | ⟨immediate,rfl,rfl⟩
  · have hev := loop_inv h hp
    exact ⟨hev.parking.resume fun t ht => Parking.resumed_eq_none hres ht,hev.known,hev.bound,
      hev.order,hev.total,hev.fixed⟩
  · obtain ⟨hcur,-⟩ := Parking.resumed_eq_some hres
    have hev := loop_inv h hp
    rw [hcur] at hev
    exact hev.resume hcur w
  · exact h.await hcur op
  · exact h.noWait op
  · exact h.shutdown immediate

end
end QueueLoop
end Unagi.Asyncio
