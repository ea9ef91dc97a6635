import Mathlib.Logic.Function.Basic

/-! # Generator objects

A generator object runs its body on a goroutine of its own and exchanges signals and events
with the driver over two channels, so that one of the two runs at a time. The body is a
function from the state of its frame and the signal it is resumed with to its next event; it
has no value where the body never suspends again. -/

namespace Unagi.Objects

variable {S T V : Type}

inductive Exc (V : Type)
  | stopIteration (value : Option V)
  | generatorExit
  | raised (kind msg : String)
  deriving DecidableEq, Repr

/-- What the driver resumes a body with: a value, or an exception raised at the yield. -/
inductive Signal (V : Type)
  | value (v : Option V)
  | throw (e : Exc V)
  deriving DecidableEq, Repr

inductive GenEvent (V : Type)
  | yielded (v : Option V)
  | returned (v : Option V)
  | failed (e : Exc V)
  deriving DecidableEq, Repr

abbrev Body (S V : Type) := S → Signal V → Option (GenEvent V × S)

/-- A StopIteration that escapes a body turns into a RuntimeError at the frame boundary. -/
def pep479 : GenEvent V → GenEvent V
  | .failed (.stopIteration _) => .failed (.raised "RuntimeError" "generator raised StopIteration")
  | ev => ev

/-- A generator object: the state of its frame, where it is in its life, and the value it
returned. -/
structure Generator (S V : Type) where
  frame : S
  started : Bool := false
  done : Bool := false
  running : Bool := false
  ret : Option V := none
  deriving DecidableEq, Repr

def alreadyExecuting : Exc V := .raised "ValueError" "generator already executing"
def ignoredExit : Exc V := .raised "RuntimeError" "generator ignored GeneratorExit"
def sendToFresh : Exc V :=
  .raised "TypeError" "can't send non-None value to a just-started generator"

namespace Generator

def Suspended (g : Generator S V) : Prop := g.started = true ∧ g.done = false ∧ g.running = false
def settle (g : Generator S V) (ev : GenEvent V) (frame : S) : Generator S V :=
  match ev with
  | .yielded _ => { g with frame := frame, started := true, running := false }
  | .returned v => { g with frame := frame, started := true, running := false, done := true, ret := v }
  | .failed _ => { g with frame := frame, started := true, running := false, done := true }

/-- Hand a signal to the body and wait for its event; the list is what the body received. -/
def resume (body : Body S V) (g : Generator S V) (sig : Signal V) :
    Option (GenEvent V × Generator S V × List (Signal V)) :=
  match body g.frame sig with
  | none => none
  | some (ev, frame) => some (pep479 ev, g.settle (pep479 ev) frame, [sig])

/-- Drive the generator by one signal. A first resume only wakes the body up, so its value is
dropped. -/
def step (body : Body S V) (g : Generator S V) (sig : Signal V) :
    Option (GenEvent V × Generator S V × List (Signal V)) :=
  if g.done then
    match sig with
    | .throw e => some (.failed e, g, [])
    | .value _ => some (.returned g.ret, g, [])
  else if g.running then some (.failed alreadyExecuting, g, [])
  else if g.started = false then
    match sig with
    | .throw e => some (.failed e, { g with done := true }, [])
    | .value _ => g.resume body (.value none)
  else g.resume body sig

end Generator

/-- An iterator that is not a generator, by the methods its class defines; the class is a part of
the object, so each iterator has its own. -/
structure UserIterator (T V : Type) where
  next : T → Except (Exc V) (Option V) × T
  send : Option (T → Option V → Except (Exc V) (Option V) × T)
  throw : Option (T → Exc V → Except (Exc V) (Option V) × T)
  close : Option (T → Except (Exc V) Unit × T)

inductive Sub (S T V : Type)
  | gen (g : Generator S V)
  | user (t : T)

/-- A call a sub-iterator receives: a signal that reaches the body of a generator, or a call of
one of its methods. -/
inductive SubCall (V : Type)
  | resumed (sig : Signal V)
  | next
  | send (v : Option V)
  | throw (e : Exc V)
  | close
  deriving DecidableEq, Repr

/-- Where one exchange with the sub-iterator leaves a yield from: suspended at a value, or over
with the value of the expression or with an exception. -/
inductive Outcome (V : Type)
  | suspended (v : Option V)
  | value (r : Option V)
  | raise (e : Exc V)
  deriving DecidableEq, Repr

abbrev Exchange (S T V : Type) := Outcome V × Sub S T V × List (SubCall V)

/-- A way to run yield from: its first exchange, and the one that follows a signal. -/
structure Delegation (S T V : Type) where
  start : Sub S T V → Option (Exchange S T V)
  resume : Sub S T V → Signal V → Option (Exchange S T V)

def GenEvent.outcome : GenEvent V → Outcome V
  | .yielded v => .suspended v
  | .returned r => .value r
  | .failed e => .raise e

/-- One turn of the loop of `delegate`: the signal goes to the sub-generator as it is. -/
def delegate (body : Body S V) (g : Generator S V) (sig : Signal V) : Option (Exchange S T V) :=
  match g.step body sig with
  | none => none
  | some (ev, g, received) => some (ev.outcome, .gen g, received.map .resumed)

/-- The outcome of a call of a method that may stop the iteration. -/
def callOutcome : Except (Exc V) (Option V) → Outcome V
  | .ok v => .suspended v
  | .error (.stopIteration r) => .value r
  | .error e => .raise e

def iterate (user : T → UserIterator T V) (t : T) : Exchange S T V :=
  let (r, t) := (user t).next t
  (callOutcome r, .user t, [.next])

/-- `YieldFrom`: a generator is handed every signal, any other iterator is only iterated, and
what is sent to it is dropped. -/
def yieldFrom (body : Body S V) (user : T → UserIterator T V) : Delegation S T V where
  start
    | .gen g => delegate body g (.value none)
    | .user t => some (iterate user t)
  resume
    | .gen g, sig => delegate body g sig
    | .user t, .value _ => some (iterate user t)
    | .user t, .throw e => some (.raise e, .user t, [])

variable {O I : Type} [DecidableEq I]

inductive CodeEvent (I V : Type)
  | yielded (v : Option V)
  | returned (v : Option V)
  | failed (e : Exc V)
  | yieldFrom (i : I)
  deriving DecidableEq, Repr

/-- The code of the delegating generator; it may also act on the sub-iterators by itself. -/
abbrev Code (O I S T V : Type) :=
  O → (I → Sub S T V) → Signal V → CodeEvent I V × O × (I → Sub S T V)

/-- The frame of the delegating generator: its locals, the sub-iterators, the one it is
delegating to, and the calls the sub-iterators have received. -/
structure Frame (O I S T V : Type) where
  locals : O
  subs : I → Sub S T V
  delegating : Option I := none
  calls : List (I × SubCall V) := []

def Frame.exchange (fr : Frame O I S T V) (i : I) (sub : Sub S T V) (received : List (SubCall V)) :
    Frame O I S T V :=
  { fr with
    subs := Function.update fr.subs i sub
    calls := fr.calls ++ received.map fun c => (i, c) }

/-- Run the code until it suspends or ends, through at most `n` yields from that end at once. -/
def runCode (D : Delegation S T V) (code : Code O I S T V) :
    Nat → Frame O I S T V → Signal V → Option (GenEvent V × Frame O I S T V)
  | 0, _, _ => none
  | n + 1, fr, sig =>
    let (ev, locals, subs) := code fr.locals fr.subs sig
    let fr := { fr with locals := locals, subs := subs, delegating := none }
    match ev with
    | .yielded v => some (.yielded v, fr)
    | .returned v => some (.returned v, fr)
    | .failed e => some (.failed e, fr)
    | .yieldFrom i =>
      match D.start (fr.subs i) with
      | none => none
      | some (.suspended v, sub, received) =>
        some (.yielded v, { fr.exchange i sub received with delegating := some i })
      | some (.value r, sub, received) => runCode D code n (fr.exchange i sub received) (.value r)
      | some (.raise e, sub, received) => runCode D code n (fr.exchange i sub received) (.throw e)

/-- The body of the delegating generator: a signal first goes to the yield from it is in. -/
def runFrame (D : Delegation S T V) (code : Code O I S T V) (n : Nat) : Body (Frame O I S T V) V :=
  fun fr sig =>
    match fr.delegating with
    | none => runCode D code n fr sig
    | some i =>
      match D.resume (fr.subs i) sig with
      | none => none
      | some (.suspended v, sub, received) => some (.yielded v, fr.exchange i sub received)
      | some (.value r, sub, received) => runCode D code n (fr.exchange i sub received) (.value r)
      | some (.raise e, sub, received) => runCode D code n (fr.exchange i sub received) (.throw e)

inductive Call (V : Type)
  | next
  | send (v : Option V)
  | throw (e : Exc V)
  | close
  deriving DecidableEq, Repr

inductive Observed (V : Type)
  | value (v : Option V)
  | raised (e : Exc V)
  | closed
  deriving DecidableEq, Repr

def GenEvent.observed : GenEvent V → Observed V
  | .yielded v => .value v
  | .returned r => .raised (.stopIteration r)
  | .failed e => .raised e
def closeOutcome : GenEvent V → Observed V
  | .yielded _ => .raised ignoredExit
  | .returned _ => .closed
  | .failed .generatorExit => .closed
  | .failed e => .raised e

namespace Generator

def send (body : Body S V) (g : Generator S V) (v : Option V) :
    Option (Observed V × Generator S V) :=
  if g.started = false ∧ v ≠ none then some (.raised sendToFresh, g)
  else (g.step body (.value v)).map fun (ev, g, _) => (ev.observed, g)

def throwInto (body : Body S V) (g : Generator S V) (e : Exc V) :
    Option (Observed V × Generator S V) :=
  (g.step body (.throw e)).map fun (ev, g, _) => (ev.observed, g)
def closeGen (body : Body S V) (g : Generator S V) : Option (Observed V × Generator S V) :=
  if g.done = true ∨ g.started = false then some (.closed, { g with done := true })
  else (g.step body (.throw .generatorExit)).map fun (ev, g, _) => (closeOutcome ev, g)

def call (body : Body S V) (g : Generator S V) : Call V → Option (Observed V × Generator S V)
  | .next => (g.step body (.value none)).map fun (ev, g, _) => (ev.observed, g)
  | .send v => g.send body v
  | .throw e => g.throwInto body e
  | .close => g.closeGen body

end Generator

def drive (call : Generator S V → Call V → Option (Observed V × Generator S V)) :
    Generator S V → List (Call V) → Option (List (Observed V) × Generator S V)
  | g, [] => some ([], g)
  | g, c :: cs =>
    match call g c with
    | none => none
    | some (o, g) => (drive call g cs).map fun (os, g) => (o :: os, g)

end Unagi.Objects
