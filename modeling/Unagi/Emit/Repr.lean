import Mathlib.Data.List.Basic

/-! # Representations of the static tier

`pkg/emit/repr.go`. A list holds scalars only and so does a fixed-shape
instance, so an element or a field is given by its scalar class. The `Total` flag
of the source is left out: no pass reads it. -/

namespace Unagi.Emit

inductive Scalar
  | notScalar | sBool | sInt | sFloat | sStr
  deriving DecidableEq

def Scalar.string : Scalar → String
  | .notScalar => "aggregate"
  | .sBool => "bool"
  | .sInt => "int"
  | .sFloat => "float"
  | .sStr => "str"
def Scalar.goText : Scalar → String
  | .notScalar => ""
  | .sBool => "bool"
  | .sInt => "int64"
  | .sFloat => "float64"
  | .sStr => "string"

structure Shape where
  name : String
  fields : List (String × Scalar)
  deriving DecidableEq

structure Repr where
  go : String
  scalar : Scalar
  elem : Option Scalar := none
  shape : Option Shape := none
  deriving DecidableEq

def scalarRepr (s : Scalar) : Repr := { go := s.goText, scalar := s }

def intRepr : Repr := scalarRepr .sInt
def floatRepr : Repr := scalarRepr .sFloat
def boolRepr : Repr := scalarRepr .sBool
def strRepr : Repr := scalarRepr .sStr

def listRepr (s : Scalar) : Repr := { go := "[]" ++ s.goText, scalar := .notScalar, elem := some s }

@[simp] theorem scalarRepr_scalar (s : Scalar) : (scalarRepr s).scalar = s := rfl
@[simp] theorem scalarRepr_elem (s : Scalar) : (scalarRepr s).elem = none := rfl
@[simp] theorem scalarRepr_shape (s : Scalar) : (scalarRepr s).shape = none := rfl
@[simp] theorem intRepr_scalar : intRepr.scalar = .sInt := rfl
@[simp] theorem floatRepr_scalar : floatRepr.scalar = .sFloat := rfl
@[simp] theorem boolRepr_scalar : boolRepr.scalar = .sBool := rfl
@[simp] theorem strRepr_scalar : strRepr.scalar = .sStr := rfl
@[simp] theorem listRepr_scalar (s : Scalar) : (listRepr s).scalar = .notScalar := rfl
@[simp] theorem listRepr_elem (s : Scalar) : (listRepr s).elem = some s := rfl

/-- `Shape.Field`: the representation of the named field, if the shape lists it. -/
def Shape.field (s : Shape) (name : String) : Option Repr :=
  (s.fields.find? (·.1 = name)).map fun f => scalarRepr f.2

def arith (r : Repr) : Bool := r.scalar = .sInt || r.scalar = .sFloat
def numeric (r : Repr) : Bool := r.scalar = .sInt || r.scalar = .sFloat || r.scalar = .sBool

end Unagi.Emit
