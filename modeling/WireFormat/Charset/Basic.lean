/-!
# Charsets

The five text encodings a text codec can use, with their names and the longest encoding of one
code point.
-/

set_option autoImplicit false
set_option relaxedAutoImplicit false

namespace WireFormat

/-- A text encoding. -/
inductive Charset where
  /-- Seven bits, one byte for each of the code points up to `U+007F`. -/
  | ascii
  /-- One byte for each of the code points up to `U+00FF`. -/
  | latin1
  /-- One to four bytes for every code point. -/
  | utf8
  /-- One or two units of sixteen bits, the high byte of a unit first. -/
  | utf16be
  /-- One or two units of sixteen bits, the low byte of a unit first. -/
  | utf16le
  deriving DecidableEq, Repr

namespace Charset

/-- Text is UTF-8 unless a format says otherwise. -/
instance : Inhabited Charset where
  default := .utf8

/-- The registered name of the charset. -/
def name : Charset → String
  | .ascii => "US-ASCII"
  | .latin1 => "ISO-8859-1"
  | .utf8 => "UTF-8"
  | .utf16be => "UTF-16BE"
  | .utf16le => "UTF-16LE"

/-- No code point takes more bytes than this. -/
def maxBytesPerCodePoint : Charset → Nat
  | .ascii | .latin1 => 1
  | .utf8 | .utf16be | .utf16le => 4

/-- The units of the two charsets of sixteen-bit units may be halves of a surrogate pair. -/
def hasSurrogates : Charset → Bool
  | .utf16be | .utf16le => true
  | .ascii | .latin1 | .utf8 => false

/-- One byte for each code point, so that a count of code points is a count of bytes. -/
def isSingleByte : Charset → Bool
  | .ascii | .latin1 => true
  | .utf8 | .utf16be | .utf16le => false

end Charset

end WireFormat
