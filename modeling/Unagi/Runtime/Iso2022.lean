import Unagi.Lib.Incremental
import Unagi.Runtime.Codec

/-! # The ISO-2022 codecs

Escape sequences designate the character set that the following bytes are read in. One encoder and one
decoder serve every configuration of character sets. -/

namespace Unagi.Runtime

open Lib (DecodeStep decodeRun)
open Objects (Bytes)

structure Iso2022Charset where
  code : UInt8
  esc : Bytes
  two : Bool
  encode : Rune → Option UInt16
  decode : UInt16 → Option Rune
  decode2 : UInt16 → Option (Rune × Rune) := fun _ => none
  encode2 : Rune × Rune → Option UInt16 := fun _ => none
  base : Rune → Bool := fun _ => false

structure Iso2022Config where
  name : String
  encodeOrder : List Iso2022Charset
  byCode : List (UInt8 × Iso2022Charset)
  desig : List (Bytes × UInt8)
  hasRoman : Bool := false
  g2desig : List (Bytes × UInt8) := []
  g2ByCode : List (UInt8 × Iso2022Charset) := []

/-- The designations: `G0`, and `G2` for a codec that has single shifts. -/
structure Iso2022Mode where
  g0 : UInt8
  g2 : UInt8
  deriving DecidableEq

def iso2022ModeASCII : UInt8 := 0x42
def iso2022ModeRoman : UInt8 := 0x4A
def iso2022ModeG2None : UInt8 := 0x42
def iso2022Yen : Rune := 0xA5
def iso2022Overline : Rune := 0x203E
def iso2022MaxEscSeq : Nat := 16

/-- `(B` and `(J`. -/
def escASCII : Bytes := [0x28, 0x42]
def escRoman : Bytes := [0x28, 0x4A]

def designate (g0 code : UInt8) (esc : Bytes) : Bytes := if g0 ≠ code then 0x1b :: esc else []
def pairBytes (v : UInt16) : Bytes := [(v >>> 8).toUInt8, v.toUInt8]

namespace Iso2022Config
variable (cfg : Iso2022Config)

def encodeLookup (r : Rune) : Option (Iso2022Charset × UInt16) :=
  cfg.encodeOrder.findSome? fun cs => (cs.encode r).map (cs, ·)
def encodePair (r : Rune) (rest : List Rune) : Option (Iso2022Charset × UInt16) :=
  match rest with
  | [] => none
  | r' :: _ => cfg.encodeOrder.findSome? fun cs => (cs.encode2 (r, r')).map (cs, ·)
def isBase (r : Rune) : Bool := cfg.encodeOrder.any (·.base r)

end Iso2022Config

/-- What the encoder does with a code point: write bytes for it and `extra` more, hold it back, or
leave it to the error mode. -/
inductive EncodeStep
  | emit (out : Bytes) (extra : Nat) (g0 : UInt8)
  | hold
  | unmappable

def iso2022EncodeStep (cfg : Iso2022Config) (final : Bool) (g0 : UInt8) (r : Rune) (rest : List Rune) :
    EncodeStep :=
  if r < 0x80 then .emit (designate g0 iso2022ModeASCII escASCII ++ [r.toUInt8]) 0 iso2022ModeASCII
  else if cfg.hasRoman && (r = iso2022Yen || r = iso2022Overline) then
    .emit (designate g0 iso2022ModeRoman escRoman ++ [if r = iso2022Yen then 0x5C else 0x7E]) 0
      iso2022ModeRoman
  else
    match cfg.encodePair r rest with
    | some (cs, v) => .emit (designate g0 cs.code cs.esc ++ pairBytes v) 1 cs.code
    | none =>
      if !final && rest.isEmpty && cfg.isBase r then .hold
      else
        match cfg.encodeLookup r with
        | some (cs, v) =>
          .emit (designate g0 cs.code cs.esc ++ if cs.two then pairBytes v else [v.toUInt8]) 0 cs.code
        | none => .unmappable

/-- The rest of a text from a position and a mode on. -/
def iso2022EncodeLoop (cfg : Iso2022Config) (errors : ErrorMode) (final : Bool) (text : List Rune)
    (pos : Nat) (mode : Iso2022Mode) (runes : List Rune) :
    Except CodecError (Bytes × List Rune × Iso2022Mode) :=
  match runes with
  | [] =>
    if final then
      .ok (designate mode.g0 iso2022ModeASCII escASCII, [], { mode with g0 := iso2022ModeASCII })
    else .ok ([], [], mode)
  | r :: rest =>
    match iso2022EncodeStep cfg final mode.g0 r rest with
    | .emit out extra g0 =>
      (iso2022EncodeLoop cfg errors final text (pos + extra + 1) { mode with g0 }
        (rest.drop extra)).map fun p => (out ++ p.1, p.2)
    | .hold => .ok ([], r :: rest, mode)
    | .unmappable =>
      match errors with
      | .strict => .error (.encode cfg.name text pos "illegal multibyte sequence")
      | .ignore => iso2022EncodeLoop cfg errors final text (pos + 1) mode rest
      | .replace =>
        (iso2022EncodeLoop cfg errors final text (pos + 1) { mode with g0 := iso2022ModeASCII }
          rest).map fun p => (designate mode.g0 iso2022ModeASCII escASCII ++ 0x3F :: p.1, p.2)
termination_by runes.length
decreasing_by all_goals
  simp only [List.length_drop,List.length_cons]
  omega

/-- Encode a text: its bytes, the code points that are held back and the mode. -/
def iso2022EncodeRun (cfg : Iso2022Config) (runes : List Rune) (errors : ErrorMode) (final : Bool)
    (mode : Iso2022Mode) : Except CodecError (Bytes × List Rune × Iso2022Mode) :=
  iso2022EncodeLoop cfg errors final runes 0 mode runes

/-! ## Decoding -/

def iso2022IsEscEnd (c : UInt8) : Bool := (0x41 ≤ c && c ≤ 0x5A) || c = 0x40

/-- The first bytes of a designation: one of `( ) $ . &`. -/
def isEscHeader (c : UInt8) : Bool := c = 0x28 || c = 0x29 || c = 0x24 || c = 0x2E || c = 0x26

/-- What the bytes behind an escape hold of its sequence. -/
inductive EscScan
  | found (len : Nat)
  | incomplete
  | tooLong

/-- Look for the last byte of an escape sequence among the next bytes. -/
def scanEsc : Nat → Bytes → EscScan
  | 0, _ => .tooLong
  | _ + 1, [] => .incomplete
  | n + 1, c :: data =>
    if iso2022IsEscEnd c then .found 1
    else
      match scanEsc n data with
      | .found len => .found (len + 1)
      | r => r

def incompleteReason : String := "incomplete multibyte sequence"
def illegalReason : String := "illegal multibyte sequence"

/-- One character of the `G2` set, behind `ESC N`. -/
def ss2Rune (cfg : Iso2022Config) (g2 b : UInt8) : Option Rune :=
  if g2 = iso2022ModeG2None then if b < 0x80 then some b.toNat else none
  else (cfg.g2ByCode.lookup g2).bind (·.decode b.toUInt16)

/-- The mode after a designation, `.` being one of `G2`. -/
def redesignate (cfg : Iso2022Config) (mode : Iso2022Mode) (header : UInt8) (tail : Bytes) :
    Option Iso2022Mode :=
  if header = 0x2E then (cfg.g2desig.lookup tail).map fun g2 => { mode with g2 }
  else (cfg.desig.lookup tail).map fun g0 => { mode with g0 }

def iso2022EscStep (cfg : Iso2022Config) (mode : Iso2022Mode) :
    Bytes → DecodeStep Iso2022Mode String Rune
  | [] => .incomplete incompleteReason
  | c1 :: data =>
    if !cfg.g2desig.isEmpty && c1 = 0x4E then
      match data with
      | [] => .incomplete incompleteReason
      | b :: _ =>
        match ss2Rune cfg mode.g2 b with
        | some r => .emit [r] 2 mode
        | none => .illegal 2 illegalReason
    else if isEscHeader c1 then
      match scanEsc (iso2022MaxEscSeq - 1) (c1 :: data) with
      | .incomplete => .incomplete incompleteReason
      | .tooLong => .illegal 0 illegalReason
      | .found len =>
        match redesignate cfg mode c1 ((c1 :: data).take len) with
        | some mode => .emit [] len mode
        | none => .illegal len illegalReason
    -- ESC stands for itself, and the byte behind it is read again
    else .emit [0x1b] 0 mode

def pairKey (c c2 : UInt8) : UInt16 := c.toUInt16 <<< 8 ||| c2.toUInt16
def isGL (c : UInt8) : Bool := 0x21 ≤ c && c ≤ 0x7e

def pairRunes (cs : Option Iso2022Charset) (c c2 : UInt8) : Option (List Rune) :=
  match cs with
  | none => none
  | some cs =>
    if isGL c && isGL c2 then
      match cs.decode (pairKey c c2) with
      | some r => some [r]
      | none => (cs.decode2 (pairKey c c2)).map fun p => [p.1, p.2]
    else none

def iso2022DecodeStep (cfg : Iso2022Config) (mode : Iso2022Mode) (c : UInt8) (rest : Bytes) :
    DecodeStep Iso2022Mode String Rune :=
  if c = 0x1b then iso2022EscStep cfg mode rest
  else if c < 0x21 then .emit [c.toNat] 0 mode
  else if 0x80 ≤ c then .illegal 0 illegalReason
  else if mode.g0 = iso2022ModeASCII then .emit [c.toNat] 0 mode
  else if mode.g0 = iso2022ModeRoman then
    .emit [if c = 0x5C then iso2022Yen else if c = 0x7E then iso2022Overline else c.toNat] 0 mode
  else
    let cs := cfg.byCode.lookup mode.g0
    if cs.any (!·.two) then
      match cs.bind (·.decode c.toUInt16) with
      | some r => .emit [r] 0 mode
      | none => .illegal 0 illegalReason
    else
      match rest with
      | [] => .incomplete incompleteReason
      | c2 :: _ =>
        match pairRunes cs c c2 with
        | some out => .emit out 1 mode
        | none => .illegal 1 illegalReason

/-- Decode bytes: the text, how many bytes were read, those that are held back and the mode. -/
def iso2022DecodeRun (cfg : Iso2022Config) (data : Bytes) (errors : ErrorMode) (final : Bool)
    (mode : Iso2022Mode) : Except CodecError (List Rune × Nat × Bytes × Iso2022Mode) :=
  (decodeRun (iso2022DecodeStep cfg) (mbDecodeError cfg.name data errors) final mode 0 data).map
    fun r => (goString r.1, data.length - r.2.1.length, r.2.1, r.2.2)

/-! ## The codecs -/

structure CodeTable where
  encode : Rune → Option UInt16
  decode : UInt16 → Option Rune

/-- The maps of the combining pairs of a character set, and what can begin one. -/
structure PairTable where
  decode2 : UInt16 → Option (Rune × Rune)
  encode2 : Rune × Rune → Option UInt16
  base : Rune → Bool

structure Iso2022Tables where
  jisx0208 : CodeTable
  jisx0212 : CodeTable
  jisx0213P1O : CodeTable
  jisx0213P1OPairs : PairTable
  jisx0213P1Q : CodeTable
  jisx0213P1QPairs : PairTable
  jisx0213P2 : CodeTable
  jisx0213P2QEncode : Rune → Option UInt16
  gb2312 : CodeTable
  ksc5601 : CodeTable
  latin7G2Decode : UInt16 → Option Rune

def plainCharset (code : UInt8) (esc : Bytes) (two : Bool) (t : CodeTable) : Iso2022Charset :=
  { code, esc, two, encode := t.encode, decode := t.decode }
def pairCharset (code : UInt8) (esc : Bytes) (t : CodeTable) (pairs : PairTable) : Iso2022Charset :=
  { code, esc, two := true, encode := t.encode, decode := t.decode, decode2 := pairs.decode2,
    encode2 := pairs.encode2, base := pairs.base }

/-- `iso2022CSKana`: the half-width katakana, built in code. -/
def iso2022CSKana : Iso2022Charset :=
  plainCharset 0x49 [0x28, 0x49] false
    { encode := fun r => if 0xFF61 ≤ r ∧ r ≤ 0xFF9F then some (r - 0xFF61 + 0x21).toUInt16 else none
      decode := fun v => if 0x21 ≤ v ∧ v ≤ 0x5F then some (v.toNat - 0x21 + 0xFF61) else none }

/-- `iso2022CSLatin1`: the upper half of Latin 1, only read. -/
def iso2022CSLatin1 : Iso2022Charset :=
  plainCharset 0x41 [] false
    { encode := fun _ => none
      decode := fun v => if 0x20 ≤ v ∧ v ≤ 0x7F then some (v.toNat ||| 0x80) else none }

namespace Iso2022Tables
variable (t : Iso2022Tables)

def iso2022CS0208 : Iso2022Charset := plainCharset 0xC2 [0x24, 0x42] true t.jisx0208
def iso2022CS0212 : Iso2022Charset := plainCharset 0xC4 [0x24, 0x28, 0x44] true t.jisx0212
def iso2022CS0213P1O : Iso2022Charset :=
  pairCharset 0xCF [0x24, 0x28, 0x4F] t.jisx0213P1O t.jisx0213P1OPairs
def iso2022CS0213P1Q : Iso2022Charset :=
  pairCharset 0xD1 [0x24, 0x28, 0x51] t.jisx0213P1Q t.jisx0213P1QPairs
def iso2022CS0213P2 : Iso2022Charset := plainCharset 0xD0 [0x24, 0x28, 0x50] true t.jisx0213P2
/-- Plane 2 of the 2004 revision reads the same table but writes through its own. -/
def iso2022CS0213P2Q : Iso2022Charset :=
  plainCharset 0xD0 [0x24, 0x28, 0x50] true ⟨t.jisx0213P2QEncode, t.jisx0213P2.decode⟩
def iso2022CSGB2312 : Iso2022Charset := plainCharset 0xC1 [0x24, 0x28, 0x41] true t.gb2312
def iso2022CSKSC5601 : Iso2022Charset := plainCharset 0xC3 [0x24, 0x28, 0x43] true t.ksc5601
def iso2022CSLatin7 : Iso2022Charset := plainCharset 0x46 [] false ⟨fun _ => none, t.latin7G2Decode⟩

def iso2022JP : Iso2022Config :=
  { name := "iso2022_jp"
    hasRoman := true
    encodeOrder := [t.iso2022CS0208]
    byCode := [(0xC0, t.iso2022CS0208), (0xC2, t.iso2022CS0208)]
    desig := [(escASCII, iso2022ModeASCII), (escRoman, iso2022ModeRoman), ([0x24, 0x40], 0xC0),
      ([0x24, 0x42], 0xC2)] }

def iso2022JP1 : Iso2022Config :=
  { name := "iso2022_jp_1"
    hasRoman := true
    encodeOrder := [t.iso2022CS0208, t.iso2022CS0212]
    byCode := [(0xC0, t.iso2022CS0208), (0xC2, t.iso2022CS0208), (0xC4, t.iso2022CS0212)]
    desig := [(escASCII, iso2022ModeASCII), (escRoman, iso2022ModeRoman), ([0x24, 0x40], 0xC0),
      ([0x24, 0x42], 0xC2), ([0x24, 0x28, 0x44], 0xC4)] }

def iso2022JPExt : Iso2022Config :=
  { name := "iso2022_jp_ext"
    hasRoman := true
    encodeOrder := [t.iso2022CS0208, t.iso2022CS0212, iso2022CSKana]
    byCode := [(0xC0, t.iso2022CS0208), (0xC2, t.iso2022CS0208), (0xC4, t.iso2022CS0212),
      (0x49, iso2022CSKana)]
    desig := [(escASCII, iso2022ModeASCII), (escRoman, iso2022ModeRoman), ([0x28, 0x49], 0x49),
      ([0x24, 0x40], 0xC0), ([0x24, 0x42], 0xC2), ([0x24, 0x28, 0x44], 0xC4)] }

def iso2022JP3 : Iso2022Config :=
  { name := "iso2022_jp_3"
    encodeOrder := [t.iso2022CS0208, t.iso2022CS0213P1O, t.iso2022CS0213P2]
    byCode := [(0xC2, t.iso2022CS0208), (0xCF, t.iso2022CS0213P1O), (0xD0, t.iso2022CS0213P2)]
    desig := [(escASCII, iso2022ModeASCII), ([0x24, 0x42], 0xC2), ([0x24, 0x28, 0x4F], 0xCF),
      ([0x24, 0x28, 0x50], 0xD0)] }
def iso2022JP2004 : Iso2022Config :=
  { name := "iso2022_jp_2004"
    encodeOrder := [t.iso2022CS0208, t.iso2022CS0213P1Q, t.iso2022CS0213P2Q]
    byCode := [(0xC2, t.iso2022CS0208), (0xD1, t.iso2022CS0213P1Q), (0xD0, t.iso2022CS0213P2Q)]
    desig := [(escASCII, iso2022ModeASCII), ([0x24, 0x42], 0xC2), ([0x24, 0x28, 0x51], 0xD1),
      ([0x24, 0x28, 0x50], 0xD0)] }

def iso2022JP2 : Iso2022Config :=
  { name := "iso2022_jp_2"
    hasRoman := true
    encodeOrder := [t.iso2022CS0208, t.iso2022CS0212, t.iso2022CSGB2312, t.iso2022CSKSC5601]
    byCode := [(0xC0, t.iso2022CS0208), (0xC2, t.iso2022CS0208), (0xC4, t.iso2022CS0212),
      (0xC1, t.iso2022CSGB2312), (0xC3, t.iso2022CSKSC5601)]
    desig := [(escASCII, iso2022ModeASCII), (escRoman, iso2022ModeRoman), ([0x24, 0x40], 0xC0),
      ([0x24, 0x42], 0xC2), ([0x24, 0x41], 0xC1), ([0x24, 0x28, 0x41], 0xC1),
      ([0x24, 0x28, 0x43], 0xC3), ([0x24, 0x28, 0x44], 0xC4)]
    g2desig := [([0x2E, 0x41], 0x41), ([0x2E, 0x46], 0x46)]
    g2ByCode := [(0x41, iso2022CSLatin1), (0x46, t.iso2022CSLatin7)] }

def iso2022Configs : List Iso2022Config :=
  [t.iso2022JP, t.iso2022JP1, t.iso2022JPExt, t.iso2022JP3, t.iso2022JP2004, t.iso2022JP2]

end Iso2022Tables
end Unagi.Runtime
