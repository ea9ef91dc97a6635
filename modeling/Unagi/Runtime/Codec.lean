import Unagi.Objects.Object

/-! # Codec errors

What the multibyte codecs share: the error modes, the errors that they raise and text as code points. -/

namespace Unagi.Runtime

open Objects (Bytes)

abbrev Rune := Nat

inductive ErrorMode
  | strict | ignore | replace
  deriving DecidableEq

/-- `UnicodeEncodeError` and `UnicodeDecodeError`, with the input and where in it they are. -/
inductive CodecError
  | encode (codec : String) (text : List Rune) (pos : Nat) (reason : String)
  | decode (codec : String) (data : Bytes) (start stop : Nat) (reason : String)
  deriving DecidableEq

def mbDecodeError (codec : String) (data : Bytes) (errors : ErrorMode) (start stop : Nat)
    (reason : String) : Except CodecError (List Rune) :=
  match errors with
  | .strict => .error (.decode codec data start stop reason)
  | .ignore => .ok []
  | .replace => .ok [0xFFFD]
def isScalar (r : Rune) : Bool := r < 0xD800 || (0xDFFF < r && r ≤ 0x10FFFF)

/-- Runes as a Go string keeps them: `U+FFFD` stands for what is no character. -/
def goString (runes : List Rune) : List Rune := runes.map fun r => if isScalar r then r else 0xFFFD

theorem goString_eq {runes : List Rune} (h : ∀ r ∈ runes, isScalar r = true) :
    goString runes = runes := by
  have hid : ∀ r ∈ runes, (if isScalar r then r else 0xFFFD) = id r := fun r hr => if_pos (h r hr)
  rw [goString,List.map_congr_left hid,List.map_id]

end Unagi.Runtime
