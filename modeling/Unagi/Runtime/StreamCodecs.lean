import Unagi.Runtime.Multibyte

/-! # Incremental codecs

The Korean ISO-2022 codec and the UTF decoders, and the incremental coders: they keep what they held back,
and the mode, between chunks. -/

namespace Unagi.Runtime

open Lib (DecodeStep decodeRun)
open Objects (Bytes)

structure Iso2022KRMode where
  g1 : UInt8
  shifted : Bool
  deriving DecidableEq

def iso2022ModeKSC5601 : UInt8 := 0xC3
def shiftIn (mode : Iso2022KRMode) : Bytes := if mode.shifted then [0x0f] else []
def shiftOut (mode : Iso2022KRMode) : Bytes :=
  (if mode.g1 ≠ iso2022ModeKSC5601 then [0x1b, 0x24, 0x29, 0x43] else []) ++
    if mode.shifted then [] else [0x0e]

def iso2022KREncodeUnit (t : CodeTable) (errors : ErrorMode) (mode : Iso2022KRMode) (r : Rune)
    (_ : List Rune) : DecodeStep Iso2022KRMode String UInt8 :=
  if r < 0x80 then .emit (shiftIn mode ++ [r.toUInt8]) 0 { mode with shifted := false }
  else
    match t.encode r with
    | some v => .emit (shiftOut mode ++ pairBytes v) 0 ⟨iso2022ModeKSC5601, true⟩
    | none => mbUnmappable errors mode (shiftIn mode ++ [0x3F]) { mode with shifted := false }

/-- What a final chunk writes at the end, and the mode it leaves. -/
def iso2022KRFlush (final : Bool) (r : Bytes × List Rune × Iso2022KRMode) :
    Bytes × List Rune × Iso2022KRMode :=
  if final then (r.1 ++ shiftIn r.2.2, r.2.1, { r.2.2 with shifted := false }) else r

def iso2022KREncodeRun (t : CodeTable) (runes : List Rune) (errors : ErrorMode) (final : Bool)
    (mode : Iso2022KRMode) : Except CodecError (Bytes × List Rune × Iso2022KRMode) :=
  (decodeRun (iso2022KREncodeUnit t errors) (mbEncodeError "iso2022_kr" runes) final mode 0 runes).map
    (iso2022KRFlush final)

def iso2022KREscStep (mode : Iso2022KRMode) : Bytes → DecodeStep Iso2022KRMode String Rune
  | [] => .incomplete incompleteReason
  | c1 :: data =>
    if isEscHeader c1 then
      match scanEsc (iso2022MaxEscSeq - 1) (c1 :: data) with
      | .incomplete => .incomplete incompleteReason
      | .tooLong => .illegal 0 illegalReason
      | .found len =>
        if (c1 :: data).take len = [0x24, 0x29, 0x43] then
          .emit [] len { mode with g1 := iso2022ModeKSC5601 }
        else if (c1 :: data).take len = escASCII then .emit [] len mode
        else .illegal len illegalReason
    else .emit [0x1b] 0 mode

def iso2022KRDecodeStep (t : CodeTable) (mode : Iso2022KRMode) (c : UInt8) (rest : Bytes) :
    DecodeStep Iso2022KRMode String Rune :=
  if c = 0x1b then iso2022KREscStep mode rest
  else if c = 0x0e then .emit [] 0 { mode with shifted := true }
  else if c = 0x0f then .emit [] 0 { mode with shifted := false }
  else if c = 0x0a then .emit [0x0a] 0 { mode with shifted := false }
  else if c < 0x21 then .emit [c.toNat] 0 mode
  else if 0x80 ≤ c then .illegal 0 illegalReason
  else if !mode.shifted then .emit [c.toNat] 0 mode
  else
    match rest with
    | [] => .incomplete incompleteReason
    | c2 :: _ =>
      match t.decode (pairKey c c2) with
      | some r => .emit [r] 1 mode
      | none => .illegal 1 illegalReason

def iso2022KRDecodeRun (t : CodeTable) (data : Bytes) (errors : ErrorMode) (final : Bool)
    (mode : Iso2022KRMode) : Except CodecError (List Rune × Bytes × Iso2022KRMode) :=
  (decodeRun (iso2022KRDecodeStep t) (mbDecodeError "iso2022_kr" data errors) final mode 0 data).map
    fun r => (goString r.1, r.2)
def utf16ReadUnit (be : Bool) (b0 b1 : UInt8) : Nat :=
  if be then b0.toNat * 256 + b1.toNat else b1.toNat * 256 + b0.toNat

def utf16Step (be : Bool) (_ : Unit) (b0 : UInt8) (rest : Bytes) : DecodeStep Unit String Rune :=
  match rest with
  | [] => .incomplete "truncated data"
  | b1 :: rest =>
    let u := utf16ReadUnit be b0 b1
    if 0xD800 ≤ u ∧ u ≤ 0xDBFF then
      match rest with
      | b2 :: b3 :: _ =>
        let u2 := utf16ReadUnit be b2 b3
        if 0xDC00 ≤ u2 ∧ u2 ≤ 0xDFFF then
          .emit [0x10000 + (u - 0xD800) * 1024 + (u2 - 0xDC00)] 3 ()
        else .illegal 1 "illegal UTF-16 surrogate"
      | _ => .incomplete "unexpected end of data"
    else if 0xDC00 ≤ u ∧ u ≤ 0xDFFF then .illegal 1 "illegal encoding"
    else .emit [u] 1 ()

def utf16Name (be : Bool) : String := if be then "utf-16-be" else "utf-16-le"

/-- `utf16Decode`: the text and the bytes that were not consumed. -/
def utf16Decode (be : Bool) (data : Bytes) (errors : ErrorMode) (final : Bool) :
    Except CodecError (List Rune × Bytes × Unit) :=
  decodeRun (utf16Step be) (mbDecodeError (utf16Name be) data errors) final () 0 data

def utf32ReadUnit (be : Bool) (b0 b1 b2 b3 : UInt8) : Nat :=
  if be then ((b0.toNat * 256 + b1.toNat) * 256 + b2.toNat) * 256 + b3.toNat
  else ((b3.toNat * 256 + b2.toNat) * 256 + b1.toNat) * 256 + b0.toNat

def utf32Step (be : Bool) (_ : Unit) (b0 : UInt8) (rest : Bytes) : DecodeStep Unit String Rune :=
  match rest with
  | b1 :: b2 :: b3 :: _ =>
    let u := utf32ReadUnit be b0 b1 b2 b3
    if 0x10FFFF < u then .illegal 3 "code point not in range(0x110000)"
    else if 0xD800 ≤ u ∧ u ≤ 0xDFFF then
      .illegal 3 "code point in surrogate code point range(0xd800, 0xe000)"
    else .emit [u] 3 ()
  | _ => .incomplete "truncated data"

def utf32Name (be : Bool) : String := if be then "utf-32-be" else "utf-32-le"
def utf32Decode (be : Bool) (data : Bytes) (errors : ErrorMode) (final : Bool) :
    Except CodecError (List Rune × Bytes × Unit) :=
  decodeRun (utf32Step be) (mbDecodeError (utf32Name be) data errors) final () 0 data

/-- An incremental coder: what it keeps between chunks, and what it does with one. -/
structure Coder (α β : Type) where
  State : Type
  init : State
  run : Bool → State → List α → Except CodecError (List β × State)

def Coder.oneShot {α β : Type} (c : Coder α β) (data : List α) : Except CodecError (List β) :=
  (c.run true c.init data).map (·.1)

/-- The chunks of an input one after the other, `final` being set on the last one only. -/
def Coder.feed {α β : Type} (c : Coder α β) (chunks : List (List α)) (last : List α) :
    Except CodecError (List β) :=
  Lib.feed c.run c.init chunks last

/-- `mbDecodeChunk`: the buffer in front of the data; what is held back becomes the buffer. -/
def bufferedDecoder {σ : Type} (init : σ)
    (decode : Bytes → Bool → σ → Except CodecError (List Rune × Bytes × σ)) : Coder UInt8 Rune where
  State := Bytes × σ
  init := ([], init)
  run final st data := decode (st.1 ++ data) final st.2

/-- `mbEncodeChunk`: the pending code points in front of the text, kept as a Go string. -/
def pendingEncoder {σ : Type} (init : σ)
    (encode : List Rune → Bool → σ → Except CodecError (Bytes × List Rune × σ)) : Coder Rune UInt8 where
  State := List Rune × σ
  init := ([], init)
  run final st runes := (encode (st.1 ++ runes) final st.2).map fun r => (r.1, goString r.2.1, r.2.2)

def Iso2022Config.initMode (cfg : Iso2022Config) : Iso2022Mode :=
  ⟨iso2022ModeASCII, if cfg.g2desig.isEmpty then 0 else iso2022ModeG2None⟩

inductive StreamCodec
  | multibyte (c : MbCodec)
  | iso2022 (cfg : Iso2022Config)
  | iso2022KR (t : CodeTable)
  | utf16 (be : Bool)
  | utf32 (be : Bool)

def StreamCodec.decoder (errors : ErrorMode) : StreamCodec → Coder UInt8 Rune
  | multibyte c => bufferedDecoder () fun data final _ => mbDecodeRun c data errors final
  | iso2022 cfg =>
    bufferedDecoder cfg.initMode fun data final mode =>
      (iso2022DecodeRun cfg data errors final mode).map fun r => (r.1, r.2.2)
  | iso2022KR t =>
    bufferedDecoder (⟨iso2022ModeASCII, false⟩ : Iso2022KRMode) fun data final mode =>
      iso2022KRDecodeRun t data errors final mode
  | utf16 be =>
    bufferedDecoder () fun data final _ =>
      (utf16Decode be data errors final).map fun r => (goString r.1, r.2)
  | utf32 be =>
    bufferedDecoder () fun data final _ =>
      (utf32Decode be data errors final).map fun r => (goString r.1, r.2)

/-- The incremental encoder of a codec, if it has pending state of its own. -/
def StreamCodec.encoder (errors : ErrorMode) : StreamCodec → Option (Coder Rune UInt8)
  | multibyte c => some (pendingEncoder () fun runes final _ => mbEncodeRun c runes errors final)
  | iso2022 cfg =>
    some (pendingEncoder cfg.initMode fun runes final mode =>
      iso2022EncodeRun cfg runes errors final mode)
  | iso2022KR t =>
    some (pendingEncoder (⟨iso2022ModeASCII, false⟩ : Iso2022KRMode) fun runes final mode =>
      iso2022KREncodeRun t runes errors final mode)
  | _ => none

end Unagi.Runtime
