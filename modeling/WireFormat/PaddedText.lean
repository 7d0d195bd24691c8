import WireFormat.Charset.Conversion
import WireFormat.Sink
import WireFormat.Written

/-!
# Padded text

A text in a field of a fixed number of bytes, filled up with a fill character. Reading strips every
fill character on the side of the filling, so that a text that itself ends with the fill does not
come back whole.
-/

set_option autoImplicit false
set_option relaxedAutoImplicit false

namespace WireFormat

/-- The side on which the text stands. -/
inductive Alignment where
  /-- The text first, the filling behind it. -/
  | left
  /-- The filling first, the text behind it. -/
  | right
  deriving DecidableEq, Repr

/-- Text in a field of `length` bytes. -/
structure PaddedText where
  charset : Charset
  length : Nat
  fill : Char := ' '
  alignment : Alignment := .left
  deriving DecidableEq, Repr

namespace PaddedText

/-- The filling of a gap, as copies of the encoded fill character. -/
def filling (fill : List UInt8) (gap : Nat) : List UInt8 :=
  (List.replicate (gap / fill.length) fill).flatten

/-- Writes a text and its filling. -/
def encode (format : PaddedText) (text : String) : Action Sink Written := do
  let bytes ← ofExcept (format.charset.encode text)
  if format.length < bytes.length then fail (.invalidLength bytes.length format.length)
  let fill ← ofExcept (format.charset.encode (String.singleton format.fill))
  let gap := format.length - bytes.length
  if fill = [] ∨ gap % fill.length ≠ 0 then
    let shown := Text.quoteChar format.fill
    fail (.config s!"fill {shown} cannot pad {gap} bytes of {format.charset.name}")
  if maxAllocation < gap then throw .overflow
  let padding := filling fill gap
  let (front, back) := match format.alignment with
    | .left => (bytes, padding)
    | .right => (padding, bytes)
  let written ← Sink.put front
  let writtenBehind ← Sink.put back
  return ⟨text.toList.length, written + writtenBehind⟩

/-- The text without the fill characters on the side of the filling. -/
def trim (format : PaddedText) (chars : List Char) : List Char :=
  match format.alignment with
  | .left => (chars.reverse.dropWhile (· = format.fill)).reverse
  | .right => chars.dropWhile (· = format.fill)

/-- Reads a text. -/
def decode (format : PaddedText) : Action Source String := do
  let bytes ← Source.take format.length
  let text ← ofExcept (format.charset.decode bytes)
  return String.ofList (format.trim text.toList)

end PaddedText

end WireFormat
