import Mathlib.Logic.Function.Basic

/-! # The dict object

A dict keeps its entries in a slice and the position of each key in an index. A key is looked up
under the string that `dictKey` encodes it to, or is not hashable. -/

namespace Unagi.Objects

inductive DictError (K E : Type)
  | raised (e : E)
  | keyError (key : K)
  | panic
  deriving DecidableEq

structure DictEntry (K V : Type) where
  key : K
  val : V
  deriving DecidableEq

structure DictObject (H K V : Type) where
  entries : List (DictEntry K V)
  index : H → Option Nat

namespace DictObject
variable {H K V E : Type} [DecidableEq H] (dictKey : K → Except E H) (d : DictObject H K V)

def new : DictObject H K V := ⟨[], fun _ => none⟩

def set (key : K) (val : V) : Except (DictError K E) Unit × DictObject H K V :=
  match dictKey key with
  | .error e => (.error (.raised e), d)
  | .ok k =>
    match d.index k with
    | some idx =>
      if idx < d.entries.length then
        (.ok (), { d with entries := d.entries.modify idx fun e => { e with val := val } })
      else (.error .panic, d)
    | none =>
      (.ok (), ⟨d.entries ++ [⟨key, val⟩], Function.update d.index k (some d.entries.length)⟩)

def lookup (key : K) : Except (DictError K E) (Option V) :=
  match dictKey key with
  | .error e => .error (.raised e)
  | .ok k =>
    match d.index k with
    | none => .ok none
    | some idx => (d.entries[idx]?).elim (.error .panic) fun e => .ok (some e.val)

def get (key : K) : Except (DictError K E) V :=
  match lookup dictKey d key with
  | .error e => .error e
  | .ok (some v) => .ok v
  | .ok none => .error (.keyError key)

def delete (key : K) : Except (DictError K E) (Option V) × DictObject H K V :=
  match dictKey key with
  | .error e => (.error (.raised e), d)
  | .ok k =>
    match d.index k with
    | none => (.ok none, d)
    | some idx =>
      match d.entries[idx]? with
      | none => (.error .panic, d)
      | some e =>
        (.ok (some e.val), ⟨d.entries.eraseIdx idx,
          fun hk => if hk = k then none else
            (d.index hk).map fun i => if idx < i then i - 1 else i⟩)

def pop (key : K) (default : Option V) : Except (DictError K E) V × DictObject H K V :=
  match delete dictKey d key with
  | (.error e, d) => (.error e, d)
  | (.ok (some v), d) => (.ok v, d)
  | (.ok none, d) => (default.elim (.error (.keyError key)) .ok, d)
def clear : DictObject H K V := ⟨[], fun _ => none⟩

def update : List (K × V) → Option E → DictObject H K V →
    Except (DictError K E) Unit × DictObject H K V
  | [], stop, d => (stop.elim (.ok ()) fun e => .error (.raised e), d)
  | (key, val) :: pairs, stop, d =>
    match set dictKey d key val with
    | (.error e, d) => (.error e, d)
    | (.ok _, d) => update pairs stop d

/-- The positions of a list of entries, from `i` on; a later entry overrides. -/
def positions : List (DictEntry K V) → Nat → (H → Option Nat) → H → Option Nat
  | [], _, index => index
  | e :: entries, i, index =>
    positions entries (i + 1)
      (match dictKey e.key with
        | .ok k => Function.update index k (some i)
        | .error _ => index)

def reindex : DictObject H K V := { d with index := positions dictKey d.entries 0 fun _ => none }

end DictObject

inductive DictOp (K V E : Type)
  | set (key : K) (val : V)
  | get (key : K)
  | lookup (key : K)
  | delete (key : K)
  | pop (key : K) (default : Option V)
  | clear
  | update (pairs : List (K × V)) (stop : Option E)
  | reindex

abbrev DictReply (K V E : Type) := Except (DictError K E) (Option V)

namespace DictObject
variable {H K V E : Type} [DecidableEq H] (dictKey : K → Except E H)

def step (d : DictObject H K V) : DictOp K V E → DictReply K V E × DictObject H K V
  | .set key val => ((set dictKey d key val).1.map fun _ => none, (set dictKey d key val).2)
  | .get key => ((get dictKey d key).map some, d)
  | .lookup key => (lookup dictKey d key, d)
  | .delete key => delete dictKey d key
  | .pop key default => ((pop dictKey d key default).1.map some, (pop dictKey d key default).2)
  | .clear => (.ok none, clear)
  | .update pairs stop =>
    ((update dictKey pairs stop d).1.map fun _ => none, (update dictKey pairs stop d).2)
  | .reindex => (.ok none, reindex dictKey d)

def run : DictObject H K V → List (DictOp K V E) → List (DictReply K V E) × DictObject H K V
  | d, [] => ([], d)
  | d, op :: ops =>
    let next := step dictKey d op
    let rest := run next.2 ops
    (next.1 :: rest.1, rest.2)

end DictObject
end Unagi.Objects
