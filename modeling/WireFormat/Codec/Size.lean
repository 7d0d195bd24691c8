import WireFormat.Codec.Basic

/-!
# The declared size of a codec

A tuple declares the sum of the sizes of its parts, a fixed list the size of its item times its
count; conversions and single variants declare what they are made of. Nothing else that has parts
declares a size, so that working it out never follows a reference.
-/

set_option autoImplicit false
set_option relaxedAutoImplicit false

namespace WireFormat

variable {S : Signature}

mutual

/-- The length of every encoding, if the codec declares one. -/
def Codec.size : {α : Type} → Codec S α → Size
  | _, .leaf leaf => leaf.size
  | _, .tuple items => items.sizeAfter 0
  | _, .fixedList item count => item.size.times count
  | _, .map _ _ wire => wire.size
  | _, .case _ _ payload => payload.size
  | _, _ => .varying

/-- The size of the parts that are left, added to the size of those before them. The first part
without a size ends the addition. -/
def Items.sizeAfter : {α : Type} → Items S α → Nat → Size
  | _, .nil, before => .fixed before
  | _, .cons item rest, before =>
    match item.size with
    | .fixed bytes =>
      if before + bytes ≤ maxWord then rest.sizeAfter (before + bytes) else .overflow
    | size => size

end

end WireFormat
