import Mathlib.Logic.Function.Basic
import Unagi.Lib.Machine

/-! # The event loop

Futures, tasks and the ready queue of the asyncio runtime. The coroutine of a task is an arbitrary
program: while it runs it may do anything the runtime offers, then it yields or ends, and each of
these is an event. So is what a callback of the program does, and a timer that comes due. -/

namespace Unagi.Asyncio

abbrev FutId := Nat
abbrev TaskId := Nat

/-- An exception object and what its class derives from. -/
structure Exc where
  id : Nat
  isCancelledError : Bool
  derivesFromException : Bool
deriving DecidableEq, Repr

def asyncioCancelledError : Exc := ⟨0, true, false⟩

inductive Val where
  | obj (id : Nat)
  | error (e : Exc)
  | list (vs : List Val)

inductive Outcome where
  | result (v : Val)
  | exc (e : Exc)

def Outcome.isCancelled : Outcome → Bool
  | .result _ => false
  | .exc e => e.isCancelledError

/-- The closures that the runtime registers, and those of the program or of another part of the
runtime. -/
inductive Callback (C : Type) where
  | step (t : TaskId)
  | gathered (g : FutId) (idx : Nat)
  | other (c : C)
deriving DecidableEq, Repr

structure Future (C : Type) where
  done : Bool
  cancelled : Bool
  outcome : Option Outcome
  callbacks : List (Callback C)

/-- Where a coroutine stands. A coroutine that yields what no task understands is left there. -/
inductive Coro where
  | suspended | running | finished | dropped
deriving DecidableEq, Repr

def Coro.Ended (c : Coro) : Prop := c = .finished ∨ c = .dropped

structure Task where
  coro : Coro
  done : Bool
  /-- The task is in the loop's set of tasks. -/
  registered : Bool
  outcome : Option Outcome
  doneFut : FutId
  futWaiter : Option FutId
  mustCancel : Bool
  numCancelsRequested : Nat

structure Gather where
  watch : List FutId
  returnExceptions : Bool
  results : List Val
  remaining : Nat

inductive Signal where
  | value
  | throw (e : Exc)
deriving DecidableEq, Repr

structure Loop (C : Type) where
  futures : FutId → Future C
  nfut : Nat
  tasks : TaskId → Task
  ntask : Nat
  gathers : FutId → Option Gather
  ready : List (Callback C)
  current : Option TaskId
  /-- What the running coroutine was resumed with. -/
  signal : Signal

variable {C : Type}

def Future.pending : Future C := ⟨false, false, none, []⟩

namespace Loop
variable (s : Loop C)

def start : Loop C where
  futures _ := .pending
  nfut := 0
  tasks _ := ⟨.suspended, false, false, none, 0, none, false, 0⟩
  ntask := 0
  gathers _ := none
  ready := []
  current := none
  signal := .value

def modFut (f : FutId) (g : Future C → Future C) : Loop C :=
  { s with futures := Function.update s.futures f (g (s.futures f)) }
def modTask (t : TaskId) (g : Task → Task) : Loop C :=
  { s with tasks := Function.update s.tasks t (g (s.tasks t)) }
def schedule (cbs : List (Callback C)) : Loop C := { s with ready := s.ready ++ cbs }
def callSoon (cb : Callback C) : Loop C := s.schedule [cb]
def doneP (f : FutId) : Bool := (s.futures f).done

/-- The common body of `setResult` and `setException`: a second resolution is ignored. -/
def resolve (f : FutId) (o : Outcome) : Loop C :=
  if s.doneP f then s
  else
    (s.modFut f fun fut => { fut with done := true, outcome := some o, callbacks := [] }).schedule
      (s.futures f).callbacks

def setResult (f : FutId) (v : Val) : Loop C := s.resolve f (.result v)
def setException (f : FutId) (e : Exc) : Loop C := s.resolve f (.exc e)

/-- `Future.cancel`: whether the future was pending, and the loop after it. -/
def pyCancel (f : FutId) : Bool × Loop C :=
  if s.doneP f then (false, s)
  else
    (true, (s.modFut f fun fut => { fut with cancelled := true }).setException f
      asyncioCancelledError)

def pyResult (f : FutId) : Outcome :=
  if (s.futures f).cancelled then .exc asyncioCancelledError
  else ((s.futures f).outcome).getD (.result (.obj 0))
def addDoneCallback (f : FutId) (cb : Callback C) : Loop C :=
  if s.doneP f then s.schedule [cb]
  else s.modFut f fun fut => { fut with callbacks := fut.callbacks ++ [cb] }

def removeDoneCallback (f : FutId) (keep : C → Bool) : Loop C :=
  s.modFut f fun fut =>
    { fut with callbacks := fut.callbacks.filter fun
        | .other c => keep c
        | _ => true }
def newFuture : Loop C :=
  { s with futures := Function.update s.futures s.nfut .pending, nfut := s.nfut + 1 }
def scheduleTask : Loop C :=
  { s.newFuture with
    tasks := Function.update s.tasks s.ntask ⟨.suspended, false, true, none, s.nfut, none, false, 0⟩
    ntask := s.ntask + 1
    ready := s.ready ++ [.step s.ntask] }

def finish (t : TaskId) (o : Outcome) : Loop C :=
  let s₁ := s.modTask t fun tk => { tk with done := true, registered := false, outcome := some o }
  match o with
  | .result v => s₁.setResult (s.tasks t).doneFut v
  | .exc e =>
    (if e.isCancelledError then
      s₁.modFut (s.tasks t).doneFut fun fut => { fut with cancelled := true }
    else s₁).setException (s.tasks t).doneFut e

/-- Cancel the future that the task waits for, or else arm a throw for its next step. -/
def cancel (t : TaskId) : Loop C :=
  if s.doneP (s.tasks t).doneFut then s
  else
    let s₁ := s.modTask t fun tk => { tk with numCancelsRequested := tk.numCancelsRequested + 1 }
    let armed := s₁.modTask t fun tk => { tk with mustCancel := true }
    match (s.tasks t).futWaiter with
    | none => armed
    | some f => if s₁.doneP f then armed else (s₁.pyCancel f).2

def uncancel (t : TaskId) : Loop C :=
  s.modTask t fun tk => { tk with numCancelsRequested := tk.numCancelsRequested - 1 }

/-- The first part of a step: up to the resumption of the coroutine. -/
def beginStep (t : TaskId) : Loop C :=
  if (s.tasks t).done then s
  else
    { s.modTask t fun tk => { tk with futWaiter := none, mustCancel := false, coro := .running } with
      current := some t
      signal := if (s.tasks t).mustCancel then .throw asyncioCancelledError else .value }

inductive Yielded where
  | future (f : FutId)
  | none
  | bad
  | ended (o : Outcome)

def badYield : Exc := ⟨1, false, true⟩
def leave (t : TaskId) (g : Task → Task) : Loop C := { s.modTask t g with current := none }

/-- The second part of a step: from the suspension or the end of the coroutine on. -/
def endStep (t : TaskId) : Yielded → Loop C
  | .future f =>
    (s.leave t fun tk => { tk with coro := .suspended, futWaiter := some f }).addDoneCallback f
      (.step t)
  | .none => (s.leave t fun tk => { tk with coro := .suspended }).callSoon (.step t)
  | .bad =>
    s.leave t fun tk =>
      { tk with coro := .dropped, done := true, outcome := some (.exc badYield) }
  | .ended o => (s.leave t fun tk => { tk with coro := .finished }).finish t o

def gather (watch : List FutId) (returnExceptions : Bool) : Loop C :=
  let gfut := s.nfut
  let s₁ := { s.newFuture with
    gathers := Function.update s.gathers gfut
      (some ⟨watch, returnExceptions, watch.map fun _ => .obj 0, watch.length⟩) }
  if watch = [] then s₁.setResult gfut (.list [])
  else
    watch.zipIdx.foldl (fun s (f, idx) => s.addDoneCallback f (.gathered gfut idx)) s₁

def gatherSlot (gfut : FutId) (idx : Nat) (g : Gather) (v : Val) : Loop C :=
  let results := g.results.set idx v
  let s₁ := { s with
    gathers := Function.update s.gathers gfut
      (some { g with results := results, remaining := g.remaining - 1 }) }
  if g.remaining - 1 = 0 then s₁.setResult gfut (.list results) else s₁

def gatherDone (gfut : FutId) (idx : Nat) : Loop C :=
  if s.doneP gfut then s
  else
    match s.gathers gfut with
    | none => s
    | some g =>
      match s.pyResult (g.watch.getD idx 0) with
      | .result v => s.gatherSlot gfut idx g v
      | .exc e =>
        if g.returnExceptions then s.gatherSlot gfut idx g (.error e) else s.setException gfut e

end Loop

inductive Event (C : Type) where
  /-- The loop runs the next ready callback; what a callback of the program does are the events
  after it. -/
  | tick
  | createTask
  | newFuture
  | setResult (f : FutId) (v : Val)
  | setException (f : FutId) (e : Exc)
  | cancelFuture (f : FutId)
  | addDoneCallback (f : FutId) (c : C)
  | removeDoneCallback (f : FutId) (keep : C → Bool)
  | callSoon (c : C)
  | gather (watch : List FutId) (returnExceptions : Bool)
  | cancel (t : TaskId)
  | uncancel (t : TaskId)
  | yields (y : Loop.Yielded)

namespace Loop

def runCallback (s : Loop C) : Callback C → Loop C
  | .step t => s.beginStep t
  | .gathered g idx => s.gatherDone g idx
  | .other _ => s

/-- What an event does. A handle names a future or a task that was made. -/
def step (s : Loop C) : Event C → Option (Loop C)
  | .tick =>
    match s.current, s.ready with
    | none, cb :: rest => some ({ s with ready := rest }.runCallback cb)
    | _, _ => none
  | .createTask => some s.scheduleTask
  | .newFuture => some s.newFuture
  | .setResult f v => if f < s.nfut then some (s.setResult f v) else none
  | .setException f e => if f < s.nfut then some (s.setException f e) else none
  | .cancelFuture f => if f < s.nfut then some (s.pyCancel f).2 else none
  | .addDoneCallback f c => if f < s.nfut then some (s.addDoneCallback f (.other c)) else none
  | .removeDoneCallback f keep => if f < s.nfut then some (s.removeDoneCallback f keep) else none
  | .callSoon c => some (s.callSoon (.other c))
  | .gather watch returnExceptions =>
    if ∀ f ∈ watch, f < s.nfut then some (s.gather watch returnExceptions) else none
  | .cancel t => if t < s.ntask then some (s.cancel t) else none
  | .uncancel t => if t < s.ntask then some (s.uncancel t) else none
  | .yields (.future f) =>
    if f < s.nfut then s.current.map fun t => s.endStep t (.future f) else none
  | .yields y => s.current.map fun t => s.endStep t y

end Loop

def machine (C : Type) : Lib.Machine (Loop C) (Event C) := ⟨Loop.step⟩

end Unagi.Asyncio
