import WireFormat.Failure

/-!
# Declared sizes

A codec all of whose encodings have the same length declares it. Sizes are machine words: a product
that is not one counts as not declared, while a sum that is not one has no value at all.
-/

set_option autoImplicit false
set_option relaxedAutoImplicit false

namespace WireFormat

/-- What a codec declares about the length of its encodings. -/
inductive Size where
  /-- Every encoding takes this many bytes. -/
  | fixed (bytes : Nat)
  /-- Nothing is declared. -/
  | varying
  /-- Working out the size left the range of a machine word. -/
  | overflow
  deriving DecidableEq, Repr

namespace Size

/-- A size that is either known or not. -/
def ofOption : Option Nat → Size
  | some bytes => .fixed bytes
  | none => .varying

/-- The size of `count` items. -/
def times (item : Size) (count : Nat) : Size :=
  match item with
  | .fixed bytes => if bytes * count ≤ maxWord then .fixed (bytes * count) else .varying
  | size => size

/-- Items of this size are sure to take a byte. -/
def isPositive : Size → Bool
  | .fixed bytes => 0 < bytes
  | _ => false

/-- The declared size, if working it out succeeds. -/
def declared : Size → Except Failure (Option Nat)
  | .fixed bytes => .ok (some bytes)
  | .varying => .ok none
  | .overflow => .error .overflow

end Size

end WireFormat
