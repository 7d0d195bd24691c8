import WireFormat.Sink
import WireFormat.Source

/-!
# Integers in groups of seven bits

An unsigned integer is split into groups of seven bits, the lowest first, one to a byte; every byte
but the last has its high bit set. Writing uses as few groups as possible. Reading accepts longer
forms too, but no more groups than the width has room for and no bits above it. Signed integers are
first mapped to unsigned ones so that those near zero stay short (`zigZag`).
-/

set_option autoImplicit false
set_option relaxedAutoImplicit false

namespace WireFormat.Varint

/-- The number of binary digits of a value, none for zero. -/
def bitLength (value : Nat) : Nat :=
  if value = 0 then 0 else value.log2 + 1

/-- The number of bytes a value takes. Zero takes one. -/
def size (value : Nat) : Nat :=
  (max (bitLength value) 1 + 6) / 7

/-- The bytes of a value. -/
def groups (value : Nat) : List UInt8 :=
  if value / 128 = 0 then [UInt8.ofNat (value % 128)]
  else UInt8.ofNat (value % 128 + 128) :: groups (value / 128)
termination_by value

/-- Writes a value if there is room for it, and returns the number of bytes. -/
def write (value : Nat) : Action Sink Nat := do
  Sink.hasCapacity (size value)
  Sink.append (groups value)
  return size value

/-- A value that does not fit its width. -/
def overflow {α : Type} : Action Source α :=
  fail (.invalid "varint" "overflow")

/-- Reads the groups from the bit `shift` on and adds them to what lower groups gave. -/
def readFrom (width shift value : Nat) : Action Source Nat := do
  if width ≤ shift then overflow
  else
    Source.atLeast 1
    let byte ← Source.getByte
    let group := byte.toNat % 128
    let room := width - shift
    if room < 7 ∧ group >>> room ≠ 0 then overflow
    else
      let value := value + group <<< shift
      if byte.toNat < 128 then
        if value < 1 <<< width then return value else overflow
      else readFrom width (shift + 7) value
termination_by width - shift

/-- Reads a value below `2 ^ width`. -/
def read (width : Nat) : Action Source Nat :=
  readFrom width 0 0

/-- The unsigned image of a signed value: twice the value when it is not negative, and otherwise
the odd number one below twice its magnitude. -/
def zigZag {w : Nat} (value : BitVec w) : BitVec w :=
  (value <<< 1) ^^^ (value.sshiftRight (w - 1))

/-- The signed value of an unsigned image. -/
def unZigZag {w : Nat} (image : BitVec w) : BitVec w :=
  (image >>> 1) ^^^ (-(image &&& 1#w))

end WireFormat.Varint
