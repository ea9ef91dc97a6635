import Mathlib.Data.List.Basic

/-! # Python values and exceptions -/

namespace Unagi.Python

inductive ExcClass
  | zeroDivisionError | valueError | typeError | nameError | unboundLocalError
  | indexError | attributeError | overflowError
  | user (name : String)
  deriving DecidableEq

structure Exc where
  cls : ExcClass
  msg : String
  deriving DecidableEq

def zeroDivision : Exc := ⟨.zeroDivisionError, "division by zero"⟩
def negativeShift : Exc := ⟨.valueError, "negative shift count"⟩

inductive Value
  | none
  | int (n : Int)
  | bool (b : Bool)
  | float (x : Float)
  | str (s : String)
  | list (xs : List Value)
  | inst (cls : String) (slots : List (String × Value))

end Unagi.Python
