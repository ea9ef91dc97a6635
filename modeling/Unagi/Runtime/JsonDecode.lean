import Unagi.Runtime.Json

/-! # The decoder of the `json` module

The scanner of `json.loads` works on what is left of the document, so that a position is the length of
the document less what is left. Nesting is bounded by fuel, of which `loads` gives enough. -/

namespace Unagi.Runtime

open Objects (Float64)

structure JsonDecodeError where
  msg : String
  pos : Nat
  lineno : Nat
  colno : Nat
  deriving DecidableEq

/-- How decoding fails; `fuel` is of the model only. -/
inductive JsonFailure
  | decode (e : JsonDecodeError)
  | fuel
  deriving DecidableEq

namespace JsonScanner

def err {α : Type} (doc : List Rune) (msg : String) (rest : List Rune) : Except JsonFailure α :=
  let pos := doc.length - rest.length
  let before := doc.take pos
  .error (.decode
    { msg, pos
      lineno := 1 + before.count 0x0A
      colno := (before.reverse.takeWhile (· ≠ 0x0A)).length + 1 })

def isSpace (r : Nat) : Bool := r = 0x20 || r = 0x09 || r = 0x0A || r = 0x0D
def isDigit (r : Nat) : Bool := 0x30 ≤ r && r ≤ 0x39
def skipWS (rest : List Rune) : List Rune := rest.dropWhile isSpace
def lit (word : String) (rest : List Rune) : Option (List Rune) :=
  if (asciiRunes word).isPrefixOf rest then some (rest.drop word.length) else none

def fraction : List Rune → List Rune × List Rune
  | 0x2E :: d :: rest =>
    if isDigit d then (0x2E :: d :: rest.takeWhile isDigit, rest.dropWhile isDigit)
    else ([], 0x2E :: d :: rest)
  | rest => ([], rest)
def exponentSign : List Rune → List Rune × List Rune
  | 0x2B :: rest => ([0x2B], rest)
  | 0x2D :: rest => ([0x2D], rest)
  | rest => ([], rest)

def exponent : List Rune → List Rune × List Rune
  | e :: rest =>
    if e = 0x65 || e = 0x45 then
      let signed := exponentSign rest
      let digits := signed.2.takeWhile isDigit
      if digits = [] then ([], e :: rest)
      else (e :: signed.1 ++ digits, signed.2.dropWhile isDigit)
    else ([], e :: rest)
  | [] => ([], [])

def integerPart : List Rune → Option (List Rune × List Rune)
  | c :: rest =>
    if c = 0x30 then some ([c], rest)
    else if isDigit c then some (c :: rest.takeWhile isDigit, rest.dropWhile isDigit)
    else none
  | [] => none

def minus : List Rune → Bool × List Rune
  | 0x2D :: rest => (true, rest)
  | rest => (false, rest)
def ofDecimal (digits : List Rune) : Nat := Nat.ofDigits 10 (digits.reverse.map (· - 0x30))

def number (ft : FloatText) (doc rest : List Rune) : Except JsonFailure (JsonValue × List Rune) :=
  let signed := minus rest
  match integerPart signed.2 with
  | none => err doc "Expecting value" rest
  | some (digits, behind) =>
    let frac := fraction behind
    let exp := exponent frac.2
    if frac.1 = [] ∧ exp.1 = [] then
      let n : Int := ofDecimal digits
      .ok (.int (if signed.1 then -n else n), exp.2)
    else
      let text := (if signed.1 then [0x2D] else []) ++ digits ++ frac.1 ++ exp.1
      .ok (.float (ft.parseFloat text), exp.2)

def hexValue (d : Nat) : Option Nat :=
  if 0x30 ≤ d ∧ d ≤ 0x39 then some (d - 0x30)
  else if 0x61 ≤ d ∧ d ≤ 0x66 then some (d - 0x61 + 10)
  else if 0x41 ≤ d ∧ d ≤ 0x46 then some (d - 0x41 + 10)
  else none

def hex4 : List Rune → Option Nat
  | a :: b :: c :: d :: _ => do
    let a ← hexValue a
    let b ← hexValue b
    let c ← hexValue c
    let d ← hexValue d
    pure (((a * 16 + b) * 16 + c) * 16 + d)
  | _ => none

def jsonUnescape : Nat → Option Nat
  | 0x22 => some 0x22
  | 0x5C => some 0x5C
  | 0x2F => some 0x2F
  | 0x62 => some 0x08
  | 0x66 => some 0x0C
  | 0x6E => some 0x0A
  | 0x72 => some 0x0D
  | 0x74 => some 0x09
  | _ => none

/-- The second half of a surrogate pair, if a unit is a first half and one is there. -/
def lowHalf (r : Nat) : List Rune → Option Nat
  | 0x5C :: 0x75 :: rest =>
    if 0xD800 ≤ r ∧ r ≤ 0xDBFF then
      (hex4 rest).filter fun lo => 0xDC00 ≤ lo ∧ lo ≤ 0xDFFF
    else none
  | _ => none

/-- The code point behind `\u` and how many code points of the text spell it. -/
def unicodeEscape (rest : List Rune) : Option (Nat × Nat) :=
  (hex4 rest).map fun r =>
    match lowHalf r (rest.drop 4) with
    | some lo => (0x10000 + (r - 0xD800) * 1024 + (lo - 0xDC00), 10)
    | none => (r, 4)

/-- The code point that a backslash and what is behind it spell, and how many code points that are. -/
def escape (doc begin : List Rune) : List Rune → Except JsonFailure (Nat × Nat)
  | [] => err doc "Unterminated string starting at" begin
  | e :: rest =>
    if e = 0x75 then
      match unicodeEscape rest with
      | none => err doc "Invalid \\uXXXX escape" (e :: rest)
      | some (r, taken) => .ok (r, taken + 1)
    else
      match jsonUnescape e with
      | none => err doc "Invalid \\escape" (0x5C :: e :: rest)
      | some d => .ok (d, 1)

/-- The loop of `scanString` behind the opening quote of `begin`, past `skip` code points that are
read already. -/
def scanChars (doc begin : List Rune) :
    List Rune → Nat → List Rune → Except JsonFailure (List Rune × List Rune)
  | _, _, [] => err doc "Unterminated string starting at" begin
  | out, skip + 1, _ :: rest => scanChars doc begin out skip rest
  | out, 0, c :: rest =>
    if c = 0x22 then .ok (goString out, rest)
    else if c = 0x5C then
      match escape doc begin rest with
      | .error e => .error e
      | .ok (r, taken) => scanChars doc begin (out ++ [r]) taken rest
    else if c < 0x20 then err doc "Invalid control character at" (c :: rest)
    else scanChars doc begin (out ++ [c]) 0 rest

def scanString (doc rest : List Rune) : Except JsonFailure (List Rune × List Rune) :=
  scanChars doc rest [] 0 rest.tail

/-! ## Values -/

def setEntry (entries : List (JsonKey × JsonValue)) (k : JsonKey) (v : JsonValue) :
    List (JsonKey × JsonValue) :=
  if k ∈ entries.map Prod.fst then entries.map fun e => if e.1 = k then (k, v) else e
  else entries ++ [(k, v)]
def newDict (pairs : List (List Rune × JsonValue)) : JsonValue :=
  .dict (pairs.foldl (fun entries p => setEntry entries (.str p.1) p.2) [])

section
variable (ft : FloatText) (doc : List Rune)

def words : List (String × JsonValue) :=
  [("true", .bool true), ("false", .bool false), ("null", .none), ("NaN", .float 0x7FF8000000000001),
    ("Infinity", .float 0x7FF0000000000000), ("-Infinity", .float 0xFFF0000000000000)]
def scalar (c : Nat) (rest : List Rune) : Except JsonFailure (JsonValue × List Rune) :=
  match words.findSome? fun w => (lit w.1 rest).map fun behind => (w.2, behind) with
  | some found => .ok found
  | none =>
    if c = 0x2D || isDigit c then number ft doc rest else err doc "Expecting value" rest

mutual

def value : Nat → List Rune → Except JsonFailure (JsonValue × List Rune)
  | 0, _ => .error .fuel
  | _ + 1, [] => err doc "Expecting value" []
  | fuel + 1, c :: rest =>
    if c = 0x22 then do
      let (s, behind) ← scanString doc (c :: rest)
      pure (.str s, behind)
    else if c = 0x7B then
      match skipWS rest with
      | 0x7D :: behind => .ok (newDict [], behind)
      | rest => object fuel [] rest
    else if c = 0x5B then
      match skipWS rest with
      | 0x5D :: behind => .ok (.list [], behind)
      | rest => array fuel [] rest
    else scalar ft doc c (c :: rest)

def array : Nat → List JsonValue → List Rune → Except JsonFailure (JsonValue × List Rune)
  | 0, _, _ => .error .fuel
  | fuel + 1, elts, rest => do
    let (v, behind) ← value fuel (skipWS rest)
    match skipWS behind with
    | [] => err doc "Expecting ',' delimiter" []
    | c :: behind =>
      if c = 0x5D then pure (.list (elts ++ [v]), behind)
      else if c = 0x2C then
        match skipWS behind with
        | 0x5D :: _ => err doc "Illegal trailing comma before end of array" (c :: behind)
        | rest => array fuel (elts ++ [v]) rest
      else err doc "Expecting ',' delimiter" (c :: behind)

def object :
    Nat → List (List Rune × JsonValue) → List Rune → Except JsonFailure (JsonValue × List Rune)
  | 0, _, _ => .error .fuel
  | fuel + 1, pairs, rest =>
    if rest.head? ≠ some 0x22 then
      err doc "Expecting property name enclosed in double quotes" rest
    else do
      let (key, behind) ← scanString doc rest
      match skipWS behind with
      | 0x3A :: behind => do
        let (v, behind) ← value fuel (skipWS behind)
        let pairs := pairs ++ [(key, v)]
        match skipWS behind with
        | [] => err doc "Expecting ',' delimiter" []
        | c :: behind =>
          if c = 0x7D then pure (newDict pairs, behind)
          else if c = 0x2C then
            match skipWS behind with
            | 0x7D :: _ => err doc "Illegal trailing comma before end of object" (c :: behind)
            | rest => object fuel pairs rest
          else err doc "Expecting ',' delimiter" (c :: behind)
      | rest => err doc "Expecting ':' delimiter" rest

end
end
end JsonScanner

open JsonScanner in
def jsonLoads (ft : FloatText) (text : List Rune) : Except JsonFailure JsonValue := do
  let doc := goRunes text
  let (v, rest) ← value ft doc (2 * doc.length + 1) (skipWS doc)
  match skipWS rest with
  | [] => pure v
  | rest => err doc "Extra data" rest

end Unagi.Runtime
