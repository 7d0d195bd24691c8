import WireFormat.BigEndian
import WireFormat.Varint
import WireFormat.Written

/-!
# Length fields

A length (of bytes or of items) is written in one, two or four bytes, or in groups of seven bits;
in the last case too it is limited to thirty-two bits. A length that the width cannot hold is
refused, never cut.
-/

set_option autoImplicit false
set_option relaxedAutoImplicit false

namespace WireFormat

/-- How a length is written. -/
inductive LengthWidth where
  | u8
  | u16
  | u32
  | varint
  deriving DecidableEq, Repr

namespace LengthWidth

/-- The lengths the width can hold lie below this number. -/
def limit : LengthWidth → Nat
  | .u8 => UInt8.size
  | .u16 => UInt16.size
  | .u32 | .varint => UInt32.size

/-- The number of bytes of a length, where it is always the same. -/
def byteCount? : LengthWidth → Option Nat
  | .u8 => some 1
  | .u16 => some 2
  | .u32 => some 4
  | .varint => none

/-- Writes a length. -/
def encode (width : LengthWidth) (length : Nat) : Action Sink Written := do
  if width.limit ≤ length then fail (.lengthOutOfRange length)
  let bytes ← match width.byteCount? with
    | some n => Sink.put (BigEndian.bytes n length)
    | none => Varint.write length
  return Written.ofBytes bytes

/-- Reads a length. -/
def decode (width : LengthWidth) : Action Source Nat :=
  match width.byteCount? with
  | some n => do return BigEndian.value (← Source.take n)
  | none => Varint.read 32

end LengthWidth

end WireFormat
