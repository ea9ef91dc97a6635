import Unagi.Objects.Object

/-! # Hash values

`pyHash` is `hash()` on builtin objects. A hash is the 64 bits of a signed integer; -1 is kept for
errors. -/

namespace Unagi.Objects

def notMinusOne (r instead : UInt64) : UInt64 := if r = -1 then instead else r
def hashModulus : Nat := 2 ^ 61 - 1

/-- An int modulo `2 ^ 61 - 1` with its sign: `pyHashSmall` within 64 bits, else `pyHashBig`. -/
def pyHashInt (v : Int) : UInt64 :=
  let r := UInt64.ofNat (v.natAbs % hashModulus)
  notMinusOne (if v < 0 then -r else r) (-2)

/-- Rotate 61 bits; the bits that a 64-bit shift loses are not among them. -/
def rotate61 (x k : Nat) : Nat := ((x <<< k) &&& hashModulus) ||| (x >>> (61 - k))

/-- Fold the fraction `f / 2 ^ d` into the modulus, 28 bits at a time, until nothing is left of it. -/
def foldFraction (d : Nat) : Nat → Nat → Nat → Int → Nat × Int
  | 0, x, _, e => (x, e)
  | n + 1, x, f, e =>
    if f = 0 then (x, e)
    else
      let x := rotate61 x 28 + f * 2 ^ 28 / 2 ^ d
      foldFraction d n (if hashModulus ≤ x then x - hashModulus else x) (f * 2 ^ 28 % 2 ^ d) (e - 28)

def hashInf : UInt64 := 314159

/-- A double: its fraction by `math.Frexp`, folded and rotated by its exponent. -/
def pyHashFloat (v : Float64) : UInt64 :=
  if v.isInf then (if v.msb then -hashInf else hashInf)
  else if v.isNaN then 0
  else
    let m := v.scaled.natAbs
    let d := m.log2 + 1
    let folded := foldFraction d d 0 m (d - 1074)
    let r := UInt64.ofNat (rotate61 folded.1 (folded.2 % 61).toNat)
    notMinusOne (if v.msb then -r else r) (-2)

def pyHashComplex (re im : Float64) : UInt64 :=
  notMinusOne (pyHashFloat re + 1000003 * pyHashFloat im) (-2)
def rotateLeft (x k : UInt64) : UInt64 := (x <<< k) ||| (x >>> (64 - k))

structure SipState where
  v0 : UInt64
  v1 : UInt64
  v2 : UInt64
  v3 : UInt64

def SipState.round (s : SipState) (m : UInt64) : SipState :=
  let v3 := s.v3 ^^^ m
  let v0 := s.v0 + s.v1
  let v1 := rotateLeft s.v1 13 ^^^ v0
  let v0 := rotateLeft v0 32
  let v2 := s.v2 + v3
  let v3 := rotateLeft v3 16 ^^^ v2
  let v0 := v0 + v3
  let v3 := rotateLeft v3 21 ^^^ v0
  let v2 := v2 + v1
  let v1 := rotateLeft v1 17 ^^^ v2
  let v2 := rotateLeft v2 32
  ⟨v0 ^^^ m, v1, v2, v3⟩

/-- The number that bytes are, the lowest first. -/
def littleEndian (bs : Bytes) : UInt64 := bs.foldr (fun b n => n <<< 8 ||| b.toUInt64) 0

def sipWords : SipState → Bytes → SipState × Bytes
  | s, b₀ :: b₁ :: b₂ :: b₃ :: b₄ :: b₅ :: b₆ :: b₇ :: p =>
    sipWords (s.round (littleEndian [b₀, b₁, b₂, b₃, b₄, b₅, b₆, b₇])) p
  | s, p => (s, p)

def siphash13 (p : Bytes) : UInt64 :=
  let start : SipState :=
    ⟨0x736f6d6570736575, 0x646f72616e646f6d, 0x6c7967656e657261, 0x7465646279746573⟩
  let words := sipWords start p
  let s := words.1.round ((UInt64.ofNat p.length <<< 56) ||| littleEndian words.2)
  let s := { s with v2 := s.v2 ^^^ 0xff }
  let s := ((s.round 0).round 0).round 0
  (s.v0 ^^^ s.v1) ^^^ (s.v2 ^^^ s.v3)

/-- The code point that a byte and those behind it begin, and how many of those it takes; `U+FFFD` if
it begins none. -/
def decodeRune (b : UInt8) (p : Bytes) : Nat × Nat :=
  let tail (b : UInt8) : Bool := 0x80 ≤ b && b ≤ 0xbf
  let low (b : UInt8) : Nat := b.toNat % 64
  match p with
  | b₁ :: p =>
    if b < 0x80 then (b.toNat, 0)
    else if 0xc2 ≤ b && b ≤ 0xdf && tail b₁ then (b.toNat % 32 * 64 + low b₁, 1)
    else
      match p with
      | b₂ :: p =>
        if 0xe0 ≤ b && b ≤ 0xef && tail b₁ && tail b₂ && !(b = 0xe0 && b₁ < 0xa0) &&
            !(b = 0xed && 0x9f < b₁) then
          (b.toNat % 16 * 4096 + low b₁ * 64 + low b₂, 2)
        else
          match p with
          | b₃ :: _ =>
            if 0xf0 ≤ b && b ≤ 0xf4 && tail b₁ && tail b₂ && tail b₃ &&
                !(b = 0xf0 && b₁ < 0x90) && !(b = 0xf4 && 0x8f < b₁) then
              (b.toNat % 8 * 262144 + low b₁ * 4096 + low b₂ * 64 + low b₃, 3)
            else (0xfffd, 0)
          | [] => (0xfffd, 0)
      | [] => (0xfffd, 0)
  | [] => if b < 0x80 then (b.toNat, 0) else (0xfffd, 0)

/-- The code points of a UTF-8 text from its first bytes on, which belong to the last one. -/
def runes : Nat → Bytes → List Nat
  | _, [] => []
  | skip + 1, _ :: p => runes skip p
  | 0, b :: p => (decodeRune b p).1 :: runes (decodeRune b p).2 p

example : runes 0 [0x61, 0xc3, 0xa9, 0xe2, 0x82, 0xac, 0xff] = [0x61, 0xe9, 0x20ac, 0xfffd] := by
  decide

/-- One, two or four bytes for each code point, by the widest. -/
def ucsBytes (s : Bytes) : Bytes :=
  let rs := runes 0 s
  let width := if rs.any (0x10000 ≤ ·) then 4 else if rs.any (0x100 ≤ ·) then 2 else 1
  rs.flatMap fun r => (List.range width).map fun i => (r / 256 ^ i).toUInt8

def pyHashBytes (v : Bytes) : UInt64 := if v = [] then 0 else notMinusOne (siphash13 v) (-2)
def pyHashStr (s : Bytes) : UInt64 := if s = [] then 0 else notMinusOne (siphash13 (ucsBytes s)) (-2)

/-! ## Containers -/

def xxPrime1 : UInt64 := 11400714785074694791
def xxPrime2 : UInt64 := 14029467366897019727
def xxPrime5 : UInt64 := 2870177450012600261
def tupleEmptyFx : UInt64 := 3527539

def foldLanes (hs : List UInt64) : UInt64 :=
  hs.foldl (fun acc h => rotateLeft (acc + h * xxPrime2) 31 * xxPrime1) xxPrime5
def tupleHash (hs : List UInt64) : UInt64 :=
  notMinusOne (foldLanes hs + (UInt64.ofNat hs.length ^^^ (xxPrime5 ^^^ tupleEmptyFx))) 1546275796
def sliceHash (hs : List UInt64) : UInt64 := notMinusOne (foldLanes hs) 1546275796
def shuffleBits (u : UInt64) : UInt64 := ((u ^^^ (89869747 : UInt64)) ^^^ (u <<< (16 : UInt64))) * 3644798167

def frozensetHash (hs : List UInt64) : UInt64 :=
  let acc := hs.foldl (fun acc u => acc ^^^ shuffleBits u) 0
  let acc := acc ^^^ ((UInt64.ofNat hs.length + 1) * 1927868237)
  let acc := acc ^^^ ((acc >>> 11) ^^^ (acc >>> 25))
  notMinusOne (acc * 69069 + 907133923) 590923713

def unionHash (hs : List UInt64) : UInt64 := notMinusOne (hs.foldl (· ^^^ ·) 0) (-2)
def aliasHash (origin : UInt64) (args : List UInt64) : UInt64 :=
  notMinusOne (origin ^^^ tupleHash args) (-2)
def hashNoneVal : UInt64 := 4238894112

/-- A range as the tuple of its length and of the start and step that can matter. -/
def rangeHash (r : RangeObject) : UInt64 :=
  let n := r.lenAsBig
  tupleHash [pyHashInt n, if 0 < n then pyHashInt r.bStart else hashNoneVal,
    if 1 < n then pyHashInt r.bStep else hashNoneVal]

def pyHashPointer (a : Addr) : UInt64 :=
  let y := UInt64.ofNat a
  notMinusOne ((y >>> (4 : UInt64)) ||| (y <<< (60 : UInt64))) (-2)
def viewRefuses (view : View) : Option Python.Exc :=
  if view.released then some ⟨.valueError, "operation forbidden on released memoryview object"⟩
  else if !view.readonly then some ⟨.valueError, "cannot hash writable memoryview object"⟩
  else if view.format = .other then
    some ⟨.valueError, "memoryview: hashing is restricted to formats 'B', 'b' or 'c'"⟩
  else none

mutual

def pyHash : Object → Except Python.Exc UInt64
  | .none => .ok hashNoneVal
  | .bool v => .ok (if v then 1 else 0)
  | .int _ v => .ok (pyHashInt v)
  | .float a v => .ok (if v.isNaN then pyHashPointer a else pyHashFloat v)
  | .complex _ re im => .ok (pyHashComplex re im)
  | .str _ v => .ok (pyHashStr v)
  | .bytes _ v => .ok (pyHashBytes v)
  | .tuple _ elts => (pyHashes elts).map tupleHash
  | .frozenset _ elts => (pyHashes elts).map frozensetHash
  | .range _ r => .ok (rangeHash r)
  | .slice _ start stop step =>
    match pyHash start, pyHash stop, pyHash step with
    | .ok h₁, .ok h₂, .ok h₃ => .ok (sliceHash [h₁, h₂, h₃])
    | .error e, _, _ => .error e
    | _, .error e, _ => .error e
    | _, _, .error e => .error e
  | .memoryview _ view base _ =>
    match viewRefuses view with
    | some e => .error e
    | none => (pyHash base).map fun _ => pyHashBytes view.span
  | .union _ args => (pyHashes args).map unionHash
  | .genericAlias _ origin args =>
    match pyHash origin, pyHashes args with
    | .ok h, .ok hs => .ok (aliasHash h hs)
    | .error e, _ => .error e
    | _, .error e => .error e
  | .identity a => .ok (pyHashPointer a)
  | o@(.list ..) | o@(.dict ..) | o@(.set ..) | o@(.typeVar ..) =>
    .error ⟨.typeError, "unhashable type: '" ++ o.typeName ++ "'"⟩

def pyHashes : List Object → Except Python.Exc (List UInt64)
  | [] => .ok []
  | o :: os =>
    match pyHash o, pyHashes os with
    | .ok h, .ok hs => .ok (h :: hs)
    | .error e, _ => .error e
    | _, .error e => .error e

end

example : (pyHash (.tuple 0 [.int 1 1, .int 2 2])).toOption = some (-3550055125485641917) ∧
    (pyHash (.frozenset 0 [])).toOption = some 133146708735736 ∧
    (pyHash (.float 0 0x3fe0000000000000)).toOption = some (2 ^ 60) := by
  decide +kernel

end Unagi.Objects
