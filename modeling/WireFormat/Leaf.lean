import WireFormat.CodePointReader
import WireFormat.LengthWidth
import WireFormat.PackedDigits
import WireFormat.PaddedText
import WireFormat.Size

/-!
# Leaf codecs

The codecs that have no parts. A leaf is indexed by the type of its values: words of a number of
bytes (integers of either sign and floats, as bit patterns), truth values, lengths, integers in
groups of seven bits, raw bytes, text in several framings and packed digits. `fail` has values of
every type and refuses them all.
-/

set_option autoImplicit false
set_option relaxedAutoImplicit false

namespace WireFormat

/-- A codec without parts. -/
inductive Leaf : Type → Type 1 where
  /-- A word of `bytes` bytes, the highest first. -/
  | word (bytes : Nat) : Leaf (BitVec (8 * bytes))
  /-- One byte, zero or one. -/
  | bool : Leaf Bool
  /-- A length. -/
  | length (width : LengthWidth) : Leaf Nat
  /-- An unsigned integer in groups of seven bits. -/
  | varint (width : Nat) : Leaf (BitVec width)
  /-- A signed integer in groups of seven bits. -/
  | signedVarint (width : Nat) : Leaf (BitVec width)
  /-- Exactly `count` bytes. -/
  | bytes (count : Nat) : Leaf (List UInt8)
  /-- All bytes that are left. -/
  | remainingBytes : Leaf (List UInt8)
  /-- A codec that always fails. -/
  | fail {α : Type} : Leaf α
  /-- Exactly `count` code points. -/
  | text (charset : Charset) (count : Nat) : Leaf String
  /-- All bytes that are left, as text. -/
  | remainingText (charset : Charset) : Leaf String
  /-- Text in a field of a fixed number of bytes. -/
  | padded (format : PaddedText) : Leaf String
  /-- Packed digits. -/
  | digits (format : PackedDigits) : Leaf String

namespace Leaf

/-- The number of bytes every value takes, where it is known beforehand. -/
def size {α : Type} : Leaf α → Size
  | .word n => .fixed n
  | .bool => .fixed 1
  | .length width => Size.ofOption width.byteCount?
  | .varint _ | .signedVarint _ => .varying
  | .bytes count => .fixed count
  | .remainingBytes | .fail => .varying
  | .text charset count => if charset.isSingleByte then .fixed count else .varying
  | .remainingText _ => .varying
  | .padded format => .fixed format.length
  | .digits format => .fixed format.byteLength

/-- Writes a value. -/
def encode {α : Type} : Leaf α → α → Action Sink Written
  | .word n, value => do
    return Written.ofBytes (← Sink.put (BigEndian.bytes n value.toNat))
  | .bool, value => do
    return Written.ofBytes (← Sink.put [if value then 1 else 0])
  | .length width, value => width.encode value
  | .varint _, value => do
    return Written.ofBytes (← Varint.write value.toNat)
  | .signedVarint _, value => do
    return Written.ofBytes (← Varint.write (Varint.zigZag value).toNat)
  | .bytes count, value => do
    if value.length ≠ count then WireFormat.fail (.invalidLength value.length count)
    return Written.ofBytes (← Sink.put value)
  | .remainingBytes, value => do
    return Written.ofBytes (← Sink.put value)
  | .fail, _ => WireFormat.fail (.unregistered "value")
  | .text charset count, value => do
    let found := value.toList.length
    if found ≠ count then WireFormat.fail (.invalidLength found count)
    let bytes ← Sink.put (← ofExcept (charset.encode value))
    return ⟨found, bytes⟩
  | .remainingText charset, value => do
    let bytes ← Sink.put (← ofExcept (charset.encode value))
    return ⟨value.toList.length, bytes⟩
  | .padded format, value => format.encode value
  | .digits format, value => format.encode value

/-- Reads a value. -/
def decode {α : Type} : Leaf α → Action Source α
  | .word n => do
    return BitVec.ofNat _ (BigEndian.value (← Source.take n))
  | .bool => do
    Source.atLeast 1
    let byte ← Source.getByte
    if byte = 0 then return false
    else if byte = 1 then return true
    else
      let shown := String.ofList (Text.hexByte byte)
      WireFormat.fail (.invalid "bool" s!"byte 0x{shown}")
  | .length width => width.decode
  | .varint width => do
    return BitVec.ofNat _ (← Varint.read width)
  | .signedVarint width => do
    return Varint.unZigZag (BitVec.ofNat _ (← Varint.read width))
  | .bytes count => Source.take count
  | .remainingBytes => Source.takeAll
  | .fail => WireFormat.fail (.unregistered "value")
  | .text charset count => do
    (CodePointReader.on (← get) charset).read count
  | .remainingText charset => do
    ofExcept (charset.decode (← Source.takeAll))
  | .padded format => format.decode
  | .digits format => format.decode

end Leaf

end WireFormat
