import Unagi.Lib.Delimited
import Unagi.Runtime.StrRunes

/-! # The `json` module

`dumps` writes a tree of Python objects as a text, `loads` reads one back. Texts are lists of code
points; the digits of a float are parameters. -/

namespace Unagi.Runtime

open Lib (numeral)
open Objects (Float64)
open Python (Exc)

/-- Dictionary keys, as far as `json` tells them apart. -/
inductive JsonKey
  | none
  | bool (b : Bool)
  | int (n : Int)
  | float (f : Float64)
  | str (s : List Rune)
  | other (typeName : String)
  deriving DecidableEq

/-- Objects, as far as `json` tells them apart; a dict keeps its insertion order. -/
inductive JsonValue
  | none
  | bool (b : Bool)
  | int (n : Int)
  | float (f : Float64)
  | str (s : List Rune)
  | list (vs : List JsonValue)
  | tuple (vs : List JsonValue)
  | dict (entries : List (JsonKey × JsonValue))
  | other (typeName : String)

def asciiRunes (s : String) : List Rune := s.toList.map Char.toNat

structure FloatText where
  repr : Float64 → List Rune
  pyRepr : Float64 → String
  parseFloat : List Rune → Float64

/-- Encoder settings; without `indent` the output is on one line. -/
structure JsonOpts where
  skipkeys : Bool
  ensureASCII : Bool
  allowNan : Bool
  indent : Option (List Rune)
  itemSep : List Rune
  keySep : List Rune
  sortKeys : Bool

inductive JsonIndent
  | none
  | int (n : Int)
  | str (s : List Rune)
  | other

/-- `jsonOptsFrom`, without a `default` function. -/
def jsonOptsFrom (skipkeys ensureASCII allowNan : Bool) (indent : JsonIndent)
    (separators : Option (List Rune × List Rune)) (sortKeys : Bool) : Except Exc JsonOpts := do
  let pad ← match indent with
    | .none => pure Option.none
    | .int n => pure (some (List.replicate n.toNat 0x20))
    | .str s => pure (some s)
    | .other => throw ⟨.typeError, "indent must be an int or str"⟩
  let itemSep := if pad.isSome then asciiRunes "," else asciiRunes ", "
  let (itemSep, keySep) := separators.getD (itemSep, asciiRunes ": ")
  pure { skipkeys, ensureASCII, allowNan, indent := pad, itemSep, keySep, sortKeys }

def jsonNewline (opt : JsonOpts) (level : Nat) : List Rune :=
  match opt.indent with
  | Option.none => []
  | some pad => 0x0A :: (List.replicate level pad).flatten

/-! ## Encoding -/

def hexDigit (d : Nat) : Rune := if d < 10 then 0x30 + d else 0x61 + (d - 10)
def jsonHex4 (v : Nat) : List Rune :=
  [hexDigit (v / 4096 % 16), hexDigit (v / 256 % 16), hexDigit (v / 16 % 16), hexDigit (v % 16)]

def jsonQuoteRune (ensureASCII : Bool) (r : Nat) : List Rune :=
  match r with
  | 0x22 => asciiRunes "\\\""
  | 0x5C => asciiRunes "\\\\"
  | 0x0A => asciiRunes "\\n"
  | 0x0D => asciiRunes "\\r"
  | 0x09 => asciiRunes "\\t"
  | 0x08 => asciiRunes "\\b"
  | 0x0C => asciiRunes "\\f"
  | r =>
    if r < 0x20 then asciiRunes "\\u" ++ jsonHex4 r
    else if r < 0x80 || !ensureASCII then [r]
    else if r ≤ 0xFFFF then asciiRunes "\\u" ++ jsonHex4 r
    else
      let v := r - 0x10000
      asciiRunes "\\u" ++ jsonHex4 (0xD800 + v / 1024) ++
        (asciiRunes "\\u" ++ jsonHex4 (0xDC00 + v % 1024))

/-- `jsonQuote`: the code points are the ones that Go's `range` sees. -/
def jsonQuote (s : List Rune) (ensureASCII : Bool) : List Rune :=
  0x22 :: (goRunes s).flatMap (jsonQuoteRune ensureASCII) ++ [0x22]

def decimal (n : Nat) : List Rune := numeral (fun d => 0x30 + d) 10 n
def reprInt (n : Int) : List Rune := (if n < 0 then [0x2D] else []) ++ decimal n.natAbs

section
variable (ft : FloatText) (opt : JsonOpts)

def jsonFloat (f : Float64) : Except Exc (List Rune) :=
  let nonFinite (word : String) : Except Exc (List Rune) :=
    if opt.allowNan then .ok (asciiRunes word)
    else .error ⟨.valueError, "Out of range float values are not JSON compliant: " ++ ft.pyRepr f⟩
  if f.isNaN then nonFinite "NaN"
  else if f.isInf then nonFinite (if f.msb then "-Infinity" else "Infinity")
  else .ok (ft.repr f)

def jsonKey : JsonKey → Except Exc (Option (List Rune))
  | .none => .ok (asciiRunes "null")
  | .bool true => .ok (asciiRunes "true")
  | .bool false => .ok (asciiRunes "false")
  | .str s => .ok (some s)
  | .int n => .ok (reprInt n)
  | .float f => (jsonFloat ft opt f).map some
  | .other typeName =>
    if opt.skipkeys then .ok Option.none
    else .error ⟨.typeError,
      "keys must be str, int, float, bool or None, not " ++ typeName⟩

/-- The first loop of `jsonEncodeObject`: the entries with the texts of their keys. -/
def jsonPairs {α : Type} : List (JsonKey × α) → Except Exc (List (List Rune × α))
  | [] => .ok []
  | (k, v) :: entries => do
    let ks ← jsonKey ft opt k
    let pairs ← jsonPairs entries
    pure ((ks.map fun ks => (ks, v)).toList ++ pairs)

def bubble {α : Type} (p : List Rune × α) : List (List Rune × α) → List (List Rune × α)
  | [] => [p]
  | q :: before =>
    if encodeStrRunes p.1 < encodeStrRunes q.1 then q :: bubble p before else p :: q :: before
def sortPairs {α : Type} (pairs : List (List Rune × α)) : List (List Rune × α) :=
  (pairs.foldl (fun before p => bubble p before) []).reverse
def jsonArrayText (level : Nat) (items : List (List Rune)) : List Rune :=
  if items = [] then asciiRunes "[]"
  else
    let nl := jsonNewline opt (level + 1)
    0x5B :: nl ++ (opt.itemSep ++ nl).intercalate items ++ jsonNewline opt level ++ [0x5D]

/-- The second half of `jsonEncodeObject`, with the encoded values. -/
def jsonObjectText (level : Nat) (pairs : List (List Rune × Except Exc (List Rune))) :
    Except Exc (List Rune) :=
  let pairs := if opt.sortKeys then sortPairs pairs else pairs
  if pairs.isEmpty then .ok (asciiRunes "\x7b\x7d")
  else do
    let nl := jsonNewline opt (level + 1)
    let items ← pairs.mapM fun p => do
      let text ← p.2
      pure (nl ++ jsonQuote p.1 opt.ensureASCII ++ opt.keySep ++ text)
    pure (0x7B :: opt.itemSep.intercalate items ++ jsonNewline opt level ++ [0x7D])

mutual

def jsonEncode (level : Nat) : JsonValue → Except Exc (List Rune)
  | .none => .ok (asciiRunes "null")
  | .bool true => .ok (asciiRunes "true")
  | .bool false => .ok (asciiRunes "false")
  | .int n => .ok (reprInt n)
  | .float f => jsonFloat ft opt f
  | .str s => .ok (jsonQuote s opt.ensureASCII)
  | .list vs | .tuple vs => do
    let items ← jsonEncodeItems (level + 1) vs
    pure (jsonArrayText opt level items)
  | .dict entries => do
    let pairs ← jsonPairs ft opt (jsonEncodeEntries (level + 1) entries)
    jsonObjectText opt level pairs
  | .other typeName =>
    .error ⟨.typeError, "Object of type " ++ typeName ++ " is not JSON serializable"⟩

def jsonEncodeItems (level : Nat) : List JsonValue → Except Exc (List (List Rune))
  | [] => .ok []
  | v :: vs => do
    let text ← jsonEncode level v
    let texts ← jsonEncodeItems level vs
    pure (text :: texts)

/-- What encoding each value of a dict gives; the errors come out in the second loop only. -/
def jsonEncodeEntries (level : Nat) :
    List (JsonKey × JsonValue) → List (JsonKey × Except Exc (List Rune))
  | [] => []
  | (k, v) :: entries => (k, jsonEncode level v) :: jsonEncodeEntries level entries

end

def jsonDumps (v : JsonValue) : Except Exc (List Rune) := jsonEncode ft opt 0 v

end
end Unagi.Runtime
