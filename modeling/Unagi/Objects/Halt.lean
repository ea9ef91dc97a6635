import Unagi.Python.Value

/-! # How a runtime function fails

A function of the object runtime raises a Python exception or, by a slip, panics. -/

namespace Unagi.Objects

inductive Halt
  | raise (e : Python.Exc)
  | panic
  deriving DecidableEq

def raise {α : Type} (cls : Python.ExcClass) (msg : String) : Except Halt α :=
  .error (.raise ⟨cls, msg⟩)
def index {α : Type} (elts : List α) (i : Int) : Except Halt α :=
  if 0 ≤ i then (elts[i.toNat]?).elim (.error .panic) .ok else .error .panic

end Unagi.Objects
