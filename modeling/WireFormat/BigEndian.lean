/-!
# Numbers with the highest byte first
-/

set_option autoImplicit false
set_option relaxedAutoImplicit false

namespace WireFormat.BigEndian

/-- The last `n` bytes of a number, the highest first. -/
def bytes : Nat → Nat → List UInt8
  | 0, _ => []
  | n + 1, value => bytes n (value / 256) ++ [UInt8.ofNat (value % 256)]

/-- The number that bytes spell. -/
def value (bytes : List UInt8) : Nat :=
  bytes.foldl (fun high byte ↦ high * 256 + byte.toNat) 0

end WireFormat.BigEndian
