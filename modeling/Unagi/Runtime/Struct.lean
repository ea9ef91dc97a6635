import Unagi.Lib.Endian
import Unagi.Lib.GoSlice
import Unagi.Objects.Object

/-! # The `struct` module

A format string says how values lie in a record of bytes: parsing it, packing values into a buffer and
unpacking them, with the floating-point codes as parameters. -/

namespace Unagi.Runtime

open Lib (overwrite toBytes ofBytes)
open Objects (Bytes Halt)

inductive StructCode
  | x | c | b | B | bool | h | H | i | I | l | L | q | Q | n | N | e | f | d | F | D | s | p | P
  deriving DecidableEq

def structError {α : Type} (msg : String) : Except Halt α :=
  .error (.raise ⟨.user "struct.error", msg⟩)

namespace StructCode

def letter : StructCode → Char
  | x => 'x' | c => 'c' | b => 'b' | B => 'B' | bool => '?' | h => 'h' | H => 'H' | i => 'i' | I => 'I'
  | l => 'l' | L => 'L' | q => 'q' | Q => 'Q' | n => 'n' | N => 'N' | e => 'e' | f => 'f' | d => 'd'
  | F => 'F' | D => 'D' | s => 's' | p => 'p' | P => 'P'

def all : List StructCode :=
  [x, c, b, B, bool, h, H, i, I, l, L, q, Q, n, N, e, f, d, F, D, s, p, P]
def ofChar (ch : UInt8) : Option StructCode := all.find? (·.letter.toUInt8 = ch)

def elemSize (native : Bool) : StructCode → Nat
  | x | c | b | B | bool | s | p => 1
  | h | H | e => 2
  | i | I | f => 4
  | l | L => if native then 8 else 4
  | q | Q | d | n | N | P => 8
  | F => 8
  | D => 16

def nativeAlign : StructCode → Nat
  | h | H | e => 2
  | i | I | f | F => 4
  | l | L | q | Q | d | D | n | N | P => 8
  | _ => 1

def alignPad (off : Nat) (code : StructCode) : Nat :=
  let a := code.nativeAlign
  if a ≤ 1 then 0 else if off % a ≠ 0 then a - off % a else 0
def signed : StructCode → Bool
  | b | h | i | l | q | n => true
  | _ => false
def isFloat : StructCode → Bool
  | e | f | d | F | D => true
  | _ => false

end StructCode

structure StructItem where
  code : StructCode
  count : Nat

structure StructFormat where
  big : Bool
  native : Bool
  items : List StructItem
  size : Nat

def maxStructSize : Nat := 2 ^ 63 - 1
def isStructSpace (c : UInt8) : Bool :=
  c = ' '.toUInt8 || c = '\t'.toUInt8 || c = '\n'.toUInt8 || c = '\r'.toUInt8 || c = 11 || c = 12
def isDigit (c : UInt8) : Bool := '0'.toUInt8 ≤ c && c ≤ '9'.toUInt8

def addDigit (count : Nat) (c : UInt8) : Except Halt Nat :=
  let d := c.toNat - 48
  if maxStructSize / 10 ≤ count ∧ (maxStructSize / 10 < count ∨ maxStructSize % 10 < d) then
    structError "total struct size too long"
  else .ok (count * 10 + d)

def addItem (native : Bool) (size : Nat) (it : StructItem) : Except Halt Nat :=
  let pad := if native then it.code.alignPad size else 0
  if maxStructSize - size < pad then structError "total struct size too long"
  else
    let size := size + pad
    let itemsize := it.code.elemSize native
    if 0 < itemsize ∧ (maxStructSize - size) / itemsize < it.count then
      structError "total struct size too long"
    else .ok (size + it.count * itemsize)

/-- The items of the rest of a format, from a size on and with a repeat count that has begun. -/
def parseItems (native : Bool) : Nat → Option Nat → Bytes → Except Halt (List StructItem × Nat)
  | size, none, [] => .ok ([], size)
  | _, some _, [] => structError "repeat count given without format specifier"
  | size, count, ch :: format => do
    if count.isNone && isStructSpace ch then parseItems native size none format
    else if isDigit ch then
      let n ← addDigit (count.getD 0) ch
      parseItems native size (some n) format
    else
      match StructCode.ofChar ch with
      | none => structError "bad char in struct format"
      | some code =>
        if !native && (code = .n || code = .N || code = .P) then
          structError "bad char in struct format"
        else
          let it : StructItem := ⟨code, count.getD 1⟩
          let size ← addItem native size it
          let (items, size) ← parseItems native size none format
          return (it :: items, size)

/-- The byte order that a first character says, whether it is the native one, and the rest. -/
def parsePrefix : Bytes → (Bool × Bool) × Bytes
  | ch :: format =>
    if ch = '@'.toUInt8 then ((false, true), format)
    else if ch = '='.toUInt8 then ((false, false), format)
    else if ch = '<'.toUInt8 then ((false, false), format)
    else if ch = '>'.toUInt8 then ((true, false), format)
    else if ch = '!'.toUInt8 then ((true, false), format)
    else ((false, true), ch :: format)
  | [] => ((false, true), [])

def parseStructFormat (format : Bytes) : Except Halt StructFormat := do
  let ((big, native), format) := parsePrefix format
  let (items, size) ← parseItems native 0 none format
  return ⟨big, native, items, size⟩

/-- A value to pack, or an unpacked one: an int, a bool, bytes, another object with a buffer of bytes,
or any other object, by its truth and what its `__index__` answers, if it has one. -/
inductive StructValue
  | int (v : Int)
  | bool (v : Bool)
  | bytes (v : Bytes)
  | buffer (v : Bytes)
  | object (truth : Except Python.Exc Bool) (index : Option (Except Python.Exc Int))

namespace StructValue

def truthOf : StructValue → Except Halt Bool
  | int v => .ok (v ≠ 0)
  | bool v => .ok v
  | bytes v | buffer v => .ok (v ≠ [])
  | object truth _ => truth.mapError .raise
def asInteger : StructValue → Except Halt Int
  | int v => .ok v
  | bool v => .ok v.toInt
  | object _ (some r) => r.mapError .raise
  | _ => structError "required argument is not an integer"

def asBytes : StructValue → Option Bytes
  | bytes v => some v
  | _ => none
def asBytesLike : StructValue → Option Bytes
  | bytes v | buffer v => some v
  | _ => none

end StructValue

/-! ## Packing -/

/-- The smallest and the largest int of a code in a number of bytes. -/
def intRange (code : StructCode) (width : Nat) : Int × Int :=
  if code.signed then (-2 ^ (8 * width - 1), 2 ^ (8 * width - 1) - 1) else (0, 2 ^ (8 * width) - 1)

def packInt (big : Bool) (code : StructCode) (width : Nat) (v : StructValue) : Except Halt Bytes := do
  let n ← v.asInteger
  let (lo, hi) := intRange code width
  if n < lo ∨ hi < n then
    structError ("'" ++ toString code.letter ++ "' format requires " ++ toString lo ++
      " <= number <= " ++ toString hi)
  else return toBytes big width (if n < 0 then n + 2 ^ (8 * width) else n).toNat

section
variable (packFloat : Bool → StructCode → StructValue → Except Halt Bytes)

def packOne (big : Bool) (code : StructCode) (width : Nat) (v : StructValue) : Except Halt Bytes :=
  match code with
  | .bool => do return [if ← v.truthOf then 1 else 0]
  | .c =>
    match v.asBytesLike with
    | some [b] => .ok [b]
    | _ => structError "char format requires a bytes object of length 1"
  | .e | .f | .d | .F | .D => packFloat big code v
  | code => packInt big code width v

/-- A string field: its bytes after the value has been copied over the old ones. -/
def packBytesField (old : Bytes) (v : StructValue) (pascal : Bool) : Except Halt Bytes :=
  match v.asBytes with
  | none =>
    if pascal then structError "argument for 'p' must be a bytes object"
    else structError "argument for 's' must be a bytes object"
  | some b =>
    if pascal then
      if old.length = 0 then .ok old
      else
        let n := min b.length (old.length - 1)
        .ok (overwrite (overwrite old 1 (b.take n)) 0 [UInt8.ofNat (min n 255)])
    else .ok (overwrite old 0 (b.take old.length))

/-- Pack the values of one item, one after the other; the values that are left come with the
buffer. -/
def packElems (big : Bool) (code : StructCode) (width : Nat) :
    Nat → Nat → List StructValue → Bytes → Except Halt (List StructValue) × Bytes
  | 0, _, vals, buf => (.ok vals, buf)
  | _ + 1, _, [], buf => (.error .panic, buf)
  | count + 1, off, v :: vals, buf =>
    match packOne packFloat big code width v with
    | .error e => (.error e, buf)
    | .ok bs => packElems big code width count (off + width) vals (overwrite buf off bs)

def packItem (big native : Bool) (it : StructItem) (off : Nat) (vals : List StructValue) (buf : Bytes) :
    Except Halt (List StructValue) × Bytes :=
  let field (pascal : Bool) : Except Halt (List StructValue) × Bytes :=
    match vals with
    | [] => (.error .panic, buf)
    | v :: vals =>
      match packBytesField ((buf.drop off).take it.count) v pascal with
      | .error e => (.error e, buf)
      | .ok bs => (.ok vals, overwrite buf off bs)
  match it.code with
  | .x => (.ok vals, overwrite buf off (List.replicate it.count 0))
  | .s => field false
  | .p => field true
  | code => packElems packFloat big code (code.elemSize native) it.count off vals buf

def aligned (native : Bool) (off : Nat) (code : StructCode) : Nat :=
  if native then off + code.alignPad off else off
def itemEnd (native : Bool) (off : Nat) (it : StructItem) : Nat :=
  off + it.count * it.code.elemSize native

/-- `structPackInto2`: the items of a format from an offset on, with what the buffer is left as. -/
def packItems (big native : Bool) :
    List StructItem → Nat → List StructValue → Bytes → Except Halt Unit × Bytes
  | [], _, _, buf => (.ok (), buf)
  | it :: items, off, vals, buf =>
    let start := aligned native off it.code
    let buf := overwrite buf off (List.replicate (start - off) 0)
    match packItem packFloat big native it start vals buf with
    | (.error e, buf) => (.error e, buf)
    | (.ok vals, buf) => packItems big native items (itemEnd native start it) vals buf

def StructItem.valueCount (it : StructItem) : Nat :=
  match it.code with
  | .x => 0
  | .s | .p => 1
  | _ => it.count
def StructFormat.valueCount (f : StructFormat) : Nat := (f.items.map (·.valueCount)).sum

def structPack (f : StructFormat) (vals : List StructValue) : Except Halt Bytes :=
  if vals.length ≠ f.valueCount then
    structError ("pack expected " ++ toString f.valueCount ++ " items for packing (got " ++
      toString vals.length ++ ")")
  else
    match packItems packFloat f.big f.native f.items 0 vals (List.replicate f.size 0) with
    | (.error e, _) => .error e
    | (.ok (), buf) => .ok buf

def structPackInto (f : StructFormat) (dst : Bytes) (off : Int) (vals : List StructValue) :
    Except Halt Unit × Bytes :=
  if vals.length ≠ f.valueCount then
    (structError ("pack expected " ++ toString f.valueCount ++ " items for packing (got " ++
      toString vals.length ++ ")"), dst)
  else if off < 0 ∧ -f.size < off then
    (structError ("no space to pack " ++ toString f.size ++ " bytes at offset " ++ toString off), dst)
  else if off < 0 ∧ off < -dst.length then
    (structError ("offset " ++ toString off ++ " out of range for " ++ toString dst.length ++
      "-byte buffer"), dst)
  else
    let o := if off < 0 then off + dst.length else off
    if dst.length - o < f.size then
      (structError ("pack_into requires a buffer of at least " ++ toString (o + f.size) ++
        " bytes for packing " ++ toString f.size ++ " bytes at offset " ++ toString o ++
        " (actual buffer size is " ++ toString dst.length ++ ")"), dst)
    else
      let r := packItems packFloat f.big f.native f.items 0 vals ((dst.drop o.toNat).take f.size)
      (r.1, overwrite dst o.toNat r.2)

end

def unpackInt (big : Bool) (code : StructCode) (width : Nat) (bs : Bytes) : StructValue :=
  let u := ofBytes big bs
  if code.signed ∧ 2 ^ (8 * width - 1) ≤ u then .int (u - 2 ^ (8 * width)) else .int u

section
variable (unpackFloat : Bool → StructCode → Bytes → StructValue)

def unpackOne (big : Bool) (code : StructCode) (width : Nat) (bs : Bytes) : StructValue :=
  match code with
  | .bool => .bool (bs.headD 0 ≠ 0)
  | .c => .bytes (bs.take 1)
  | .e | .f | .d | .F | .D => unpackFloat big code bs
  | code => unpackInt big code width bs
def unpackElems (big : Bool) (code : StructCode) (width : Nat) : Nat → Nat → Bytes → List StructValue
  | 0, _, _ => []
  | count + 1, off, b =>
    unpackOne unpackFloat big code width ((b.drop off).take width) ::
      unpackElems big code width count (off + width) b

def unpackItem (big native : Bool) (it : StructItem) (off : Nat) (b : Bytes) : List StructValue :=
  match it.code with
  | .x => []
  | .s => [.bytes ((b.drop off).take it.count)]
  | .p =>
    let field := (b.drop off).take it.count
    [.bytes (match field with
      | [] => []
      | n :: data => data.take (min n.toNat (it.count - 1)))]
  | code => unpackElems unpackFloat big code (code.elemSize native) it.count off b

def unpackItems (big native : Bool) : List StructItem → Nat → Bytes → List StructValue
  | [], _, _ => []
  | it :: items, off, b =>
    let start := aligned native off it.code
    unpackItem unpackFloat big native it start b ++
      unpackItems big native items (itemEnd native start it) b
def structUnpack (f : StructFormat) (b : Bytes) : Except Halt (List StructValue) :=
  if b.length ≠ f.size then
    structError ("unpack requires a buffer of " ++ toString f.size ++ " bytes")
  else .ok (unpackItems unpackFloat f.big f.native f.items 0 b)

end
end Unagi.Runtime
