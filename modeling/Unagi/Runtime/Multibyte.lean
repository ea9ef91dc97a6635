import Unagi.Runtime.Iso2022

/-! # The multibyte codecs

The codecs that work unit by unit, from tables: how they read and write one unit, and the runs that drive
them over an input. The tables are parameters. -/

namespace Unagi.Runtime

open Lib (DecodeStep decodeRun)
open Objects (Bytes)

/-- A codec by its units. A unit is decoded from a first byte and those behind it; a codec with combining
pairs also encodes two code points as one unit, and knows which ones can begin a pair. -/
structure MbCodec where
  name : String
  encodeStep : Rune → Option Bytes
  decodeStep : UInt8 → Bytes → DecodeStep Unit String Rune
  encodePair : Option (Rune → Rune → Option Bytes) := none
  encodeBase : Option (Rune → Bool) := none

structure MbTableCodec where
  name : String
  single : UInt8 → Option Rune
  lead : UInt8 → Bool
  double : UInt16 → Option Rune
  multi : List (UInt16 × Rune × Rune)
  encSingle : Rune → Option UInt8
  encDouble : Rune → Option UInt16
  encPair : Rune × Rune → Option UInt16
  base : Rune → Bool

def doubleRunes (double : UInt16 → Option Rune) (multi : List (UInt16 × Rune × Rune)) (key : UInt16) :
    Option (List Rune) :=
  match double key with
  | some r => some [r]
  | none => (multi.lookup key).map fun p => [p.1, p.2]

namespace MbTableCodec
variable (tc : MbTableCodec)

def decodeStep (c : UInt8) (rest : Bytes) : DecodeStep Unit String Rune :=
  match tc.single c with
  | some r => .emit [r] 0 ()
  | none =>
    if tc.lead c then
      match rest with
      | [] => .incomplete incompleteReason
      | c2 :: _ =>
        match doubleRunes tc.double tc.multi (pairKey c c2) with
        | some out => .emit out 1 ()
        | none => .illegal 0 illegalReason
    else .illegal 0 illegalReason

def encodePairStep (a b : Rune) : Option Bytes := (tc.encPair (a, b)).map pairBytes
def encodeStep (r : Rune) : Option Bytes :=
  match tc.encSingle r with
  | some b => some [b]
  | none => (tc.encDouble r).map pairBytes
def codec : MbCodec :=
  { name := tc.name
    encodeStep := tc.encodeStep
    decodeStep := tc.decodeStep
    encodePair := if tc.multi.isEmpty then none else some tc.encodePairStep
    encodeBase := if tc.multi.isEmpty then none else some tc.base }

end MbTableCodec

structure MbEUCJPCodec where
  name : String
  lead : UInt8 → Bool
  double : UInt16 → Option Rune
  triple : UInt16 → Option Rune
  multi : List (UInt16 × Rune × Rune)
  encDouble : Rune → Option UInt16
  encTriple : Rune → Option UInt16
  encPair : Rune × Rune → Option UInt16
  base : Rune → Bool

def eucJPSS3 : UInt8 := 0x8F

namespace MbEUCJPCodec
variable (ec : MbEUCJPCodec)

def decodeStep (c : UInt8) (rest : Bytes) : DecodeStep Unit String Rune :=
  if c < 0x80 then .emit [c.toNat] 0 ()
  else if !ec.lead c then .illegal 0 illegalReason
  else if c = eucJPSS3 then
    match rest with
    | c2 :: c3 :: _ =>
      match ec.triple (pairKey c2 c3) with
      | some r => .emit [r] 2 ()
      | none => .illegal 0 illegalReason
    | _ => .incomplete incompleteReason
  else
    match rest with
    | [] => .incomplete incompleteReason
    | c2 :: _ =>
      match doubleRunes ec.double ec.multi (pairKey c c2) with
      | some out => .emit out 1 ()
      | none => .illegal 0 illegalReason

def encodePairStep (a b : Rune) : Option Bytes := (ec.encPair (a, b)).map pairBytes
def encodeStep (r : Rune) : Option Bytes :=
  if r < 0x80 then some [r.toUInt8]
  else
    match ec.encDouble r with
    | some v => some (pairBytes v)
    | none => (ec.encTriple r).map fun v => eucJPSS3 :: pairBytes v
def codec : MbCodec :=
  { name := ec.name
    encodeStep := ec.encodeStep
    decodeStep := ec.decodeStep
    encodePair := if ec.multi.isEmpty then none else some ec.encodePairStep
    encodeBase := if ec.multi.isEmpty then none else some ec.base }

/-- `eucJPCodec`: the yen sign and the overline are folded onto ASCII bytes. -/
def eucJPCodec : MbCodec :=
  { ec.codec with
    encodeStep := fun r =>
      match ec.encodeStep r with
      | some bs => some bs
      | none => if r = iso2022Yen then some [0x5c] else if r = iso2022Overline then some [0x7e] else none }

end MbEUCJPCodec

/-! ## Codecs with units of their own -/

def euckrJamoFirst : UInt8 := 0xa4
def euckrJamoFiller : UInt8 := 0xd4

def euckrChoseong : List UInt8 :=
  [0xa1, 0xa2, 0xa4, 0xa7, 0xa8, 0xa9, 0xb1, 0xb2, 0xb3, 0xb5, 0xb6, 0xb7, 0xb8, 0xb9, 0xba, 0xbb, 0xbc,
    0xbd, 0xbe]
def euckrJungseong : List UInt8 :=
  [0xbf, 0xc0, 0xc1, 0xc2, 0xc3, 0xc4, 0xc5, 0xc6, 0xc7, 0xc8, 0xc9, 0xca, 0xcb, 0xcc, 0xcd, 0xce, 0xcf,
    0xd0, 0xd1, 0xd2, 0xd3]
def euckrJongseong : List UInt8 :=
  [0xd4, 0xa1, 0xa2, 0xa3, 0xa4, 0xa5, 0xa6, 0xa7, 0xa9, 0xaa, 0xab, 0xac, 0xad, 0xae, 0xaf, 0xb0, 0xb1,
    0xb2, 0xb4, 0xb5, 0xb6, 0xb7, 0xb8, 0xba, 0xbb, 0xbc, 0xbd, 0xbe]

def euckrSyllable : Bytes → Option Rune
  | [f1, cho, f2, jung, f3, jong] => do
    let cho ← euckrChoseong.idxOf? cho
    let jung ← euckrJungseong.idxOf? jung
    let jong ← euckrJongseong.idxOf? jong
    if f1 = euckrJamoFirst ∧ f2 = euckrJamoFirst ∧ f3 = euckrJamoFirst then
      some (0xac00 + ((cho * 21 + jung) * 28 + jong))
    else none
  | _ => none

/-- `eucKRCodec`: a table, and eight bytes for a syllable that is not in it. -/
def MbTableCodec.eucKRCodec (tc : MbTableCodec) : MbCodec :=
  { name := "euc_kr"
    encodeStep := fun r =>
      match tc.encodeStep r with
      | some bs => some bs
      | none =>
        if 0xac00 ≤ r ∧ r ≤ 0xd7a3 then
          let c := r - 0xac00
          some [euckrJamoFirst, euckrJamoFiller, euckrJamoFirst, euckrChoseong.getD (c / 588) 0,
            euckrJamoFirst, euckrJungseong.getD (c / 28 % 21) 0, euckrJamoFirst,
            euckrJongseong.getD (c % 28) 0]
        else none
    decodeStep := fun c rest =>
      if c = euckrJamoFirst ∧ rest.head? = some euckrJamoFiller then
        if rest.length < 7 then .incomplete incompleteReason
        else
          match euckrSyllable ((rest.drop 1).take 6) with
          | some r => .emit [r] 7 ()
          | none => .illegal 0 illegalReason
      else tc.decodeStep c rest }

def gb2312Codec (t : CodeTable) : MbCodec :=
  { name := "gb2312"
    encodeStep := fun r => if r < 0x80 then some [r.toUInt8] else (t.encode r).map pairBytes
    decodeStep := fun c rest =>
      if c < 0x80 then .emit [c.toNat] 0 ()
      else
        match rest with
        | [] => .incomplete incompleteReason
        | c2 :: _ =>
          match t.decode (pairKey c c2) with
          | some r => .emit [r] 1 ()
          | none => .illegal 0 illegalReason }

def gb18030Lin (c c2 c3 c4 : UInt8) : Nat :=
  (((c.toNat - 0x81) * 10 + (c2.toNat - 0x30)) * 126 + (c3.toNat - 0x81)) * 10 + (c4.toNat - 0x30)

/-- `gb18030Codec`, with the range table of its four-byte form as two maps. -/
def gb18030Codec (t : CodeTable) (fourEncode fourDecode : Nat → Option Nat) : MbCodec :=
  { name := "gb18030"
    encodeStep := fun r =>
      if r < 0x80 then some [r.toUInt8]
      else
        match t.encode r with
        | some v => some (pairBytes v)
        | none =>
          if 0xD800 ≤ r ∧ r ≤ 0xDFFF then none
          else
            (fourEncode r).map fun lin =>
              [(lin / 10 / 126 / 10 + 0x81).toUInt8, (lin / 10 / 126 % 10 + 0x30).toUInt8,
                (lin / 10 % 126 + 0x81).toUInt8, (lin % 10 + 0x30).toUInt8]
    decodeStep := fun c rest =>
      if c < 0x80 then .emit [c.toNat] 0 ()
      else
        match rest with
        | [] => .incomplete incompleteReason
        | c2 :: rest =>
          if 0x30 ≤ c2 ∧ c2 ≤ 0x39 then
            match rest with
            | c3 :: c4 :: _ =>
              if 0x81 ≤ c ∧ c ≤ 0xFE ∧ 0x81 ≤ c3 ∧ c3 ≤ 0xFE ∧ 0x30 ≤ c4 ∧ c4 ≤ 0x39 then
                match fourDecode (gb18030Lin c c2 c3 c4) with
                | some r => .emit [r] 3 ()
                | none => .illegal 0 illegalReason
              else .illegal 0 illegalReason
            | _ => .incomplete incompleteReason
          else
            match t.decode (pairKey c c2) with
            | some r => .emit [r] 1 ()
            | none => .illegal 0 illegalReason }

def mbUnmappable {σ : Type} (errors : ErrorMode) (s : σ) (replacement : Bytes) (replaced : σ) :
    DecodeStep σ String UInt8 :=
  match errors with
  | .strict => .illegal 0 illegalReason
  | .ignore => .emit [] 0 s
  | .replace => .emit replacement 0 replaced
def mbEncodeError (codec : String) (runes : List Rune) (start _stop : Nat) (reason : String) :
    Except CodecError Bytes :=
  .error (.encode codec runes start reason)

/-- One turn of `mbEncodeRun`; a base that ends a chunk is left for the next one. -/
def mbEncodeUnit (c : MbCodec) (errors : ErrorMode) (final : Bool) (_ : Unit) (r : Rune)
    (rest : List Rune) : DecodeStep Unit String UInt8 :=
  if !final && rest.isEmpty && c.encodeBase.any (· r) then .incomplete illegalReason
  else
    match rest.head?.bind fun r' => c.encodePair.bind (· r r') with
    | some bs => .emit bs 1 ()
    | none =>
      match c.encodeStep r with
      | some bs => .emit bs 0 ()
      | none => mbUnmappable errors () ((c.encodeStep 0x3F).getD []) ()

def mbEncodeRun (c : MbCodec) (runes : List Rune) (errors : ErrorMode) (final : Bool) :
    Except CodecError (Bytes × List Rune × Unit) :=
  decodeRun (mbEncodeUnit c errors final) (mbEncodeError c.name runes) final () 0 runes
def mbDecodeRun (c : MbCodec) (data : Bytes) (errors : ErrorMode) (final : Bool) :
    Except CodecError (List Rune × Bytes × Unit) :=
  decodeRun (fun _ => c.decodeStep) (mbDecodeError c.name data errors) final () 0 data

end Unagi.Runtime
