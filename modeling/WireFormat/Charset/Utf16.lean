/-!
# UTF-16

A code point below `U+10000` is one unit of sixteen bits; any other is a pair of surrogates, the
high one first. A unit is written as two bytes in either order.
-/

set_option autoImplicit false
set_option relaxedAutoImplicit false

namespace WireFormat.Utf16

/-- The unit is the first half of a pair. -/
def isHighSurrogate (unit : Nat) : Bool :=
  0xD800 ≤ unit && unit < 0xDC00

/-- The unit is the second half of a pair. -/
def isLowSurrogate (unit : Nat) : Bool :=
  0xDC00 ≤ unit && unit < 0xE000

/-- The code point of a pair. -/
def pairValue (high low : Nat) : Nat :=
  0x10000 + (high - 0xD800) * 1024 + (low - 0xDC00)

/-- The units of a character. -/
def units (c : Char) : List Nat :=
  if c.toNat < 0x10000 then [c.toNat]
  else [0xD800 + (c.toNat - 0x10000) / 1024, 0xDC00 + (c.toNat - 0x10000) % 1024]

/-- A unit as two bytes, the high one first. -/
def bigEndian (unit : Nat) : List UInt8 :=
  [UInt8.ofNat (unit / 256), UInt8.ofNat (unit % 256)]

/-- A unit as two bytes, the low one first. -/
def littleEndian (unit : Nat) : List UInt8 :=
  [UInt8.ofNat (unit % 256), UInt8.ofNat (unit / 256)]

end WireFormat.Utf16
