import Unagi.Lib.Delimited
import Unagi.Objects.Object

/-! # Canonical keys

`hashKey` encodes a hashable object as a text, under which dicts and sets look it up. -/

namespace Unagi.Objects

open Lib (numeral withLengths joined)

def digitChar (d : Nat) : UInt8 := if d < 10 then (48 + d).toUInt8 else (87 + d).toUInt8
def decimal (n : Nat) : Bytes := numeral digitChar 10 n
def hex (n : Nat) : Bytes := numeral digitChar 16 n
def intDecimalLoose (v : Int) : Bytes :=
  if v < 0 then '-'.toUInt8 :: decimal v.natAbs else decimal v.natAbs
def sortStrings (ks : List Bytes) : List Bytes := ks.insertionSort (· ≤ ·)
def delimited (ks : List Bytes) : Bytes := withLengths decimal ':'.toUInt8 ks
def unhashable (o : Object) : Python.Exc := ⟨.typeError, "unhashable type: '" ++ o.typeName ++ "'"⟩

/-- The key of a double. A nan goes by its identity; an integral double has the key of the equal
int, which the runtime converts to within 64 bits or through a big float, both exactly. -/
def floatKey (a : Addr) (v : Float64) : Bytes :=
  if v.isNaN then 'n'.toUInt8 :: hex a
  else if v.isIntegral && !v.isInf then 'i'.toUInt8 :: intDecimalLoose v.toInt
  else 'f'.toUInt8 :: hex v.toNat

def pointerKey (a : Addr) : Bytes := ascii "p0x" ++ hex a

mutual

def hashKey : Object → Except Python.Exc Bytes
  | .none => .ok (ascii "N")
  | .bool v => .ok (ascii (if v then "i1" else "i0"))
  | .int _ v => .ok ('i'.toUInt8 :: intDecimalLoose v)
  | .float a v => .ok (floatKey a v)
  | .str _ v => .ok ('s'.toUInt8 :: v)
  | .bytes _ v => .ok ('b'.toUInt8 :: v)
  | .tuple _ elts => (hashKeys elts).map fun ks => 't'.toUInt8 :: delimited ks
  -- `frozenKey`; the keys are those that the set keeps beside its elements
  | .frozenset _ elts => (hashKeys elts).map fun ks => 'F'.toUInt8 :: delimited (sortStrings ks)
  | .slice _ start stop step =>
    match hashKey start, hashKey stop, hashKey step with
    | .ok k₁, .ok k₂, .ok k₃ => .ok ('S'.toUInt8 :: delimited [k₁, k₂, k₃])
    | .error e, _, _ => .error e
    | _, .error e, _ => .error e
    | _, _, .error e => .error e
  | .union _ args =>
    (hashKeys args).map fun ks => 'U'.toUInt8 :: joined '|'.toUInt8 (sortStrings ks)
  | .genericAlias _ origin args =>
    match hashKey origin, hashKeys args with
    | .ok k, .ok ks =>
      .ok ('G'.toUInt8 :: k ++ '['.toUInt8 :: joined ','.toUInt8 ks ++ [']'.toUInt8])
    | .error e, _ => .error e
    | _, .error e => .error e
  | .typeVar a | .identity a => .ok (pointerKey a)
  | o@(.complex ..) | o@(.list ..) | o@(.dict ..) | o@(.set ..) | o@(.range ..)
  | o@(.memoryview ..) => .error (unhashable o)

def hashKeys : List Object → Except Python.Exc (List Bytes)
  | [] => .ok []
  | o :: os =>
    match hashKey o, hashKeys os with
    | .ok k, .ok ks => .ok (k :: ks)
    | .error e, _ => .error e
    | _, .error e => .error e

end

def keysOf (elts : List Object) : List Bytes := elts.filterMap fun e => (hashKey e).toOption

end Unagi.Objects
