import WireFormat.Codec.Basic

/-!
# Values behind their count

The three common frames by a count of parts: text behind its number of code points, digits behind
their number, and a list behind its number of items.
-/

set_option autoImplicit false
set_option relaxedAutoImplicit false

namespace WireFormat.Codec

variable {S : Signature}

/-- Text behind its number of code points. -/
def countedText (length : Codec S Nat) (range : LengthRange) (charset : Charset) :
    Codec S String :=
  .itemCounted length range (fun text ↦ text.toList.length) fun n ↦ .leaf (.text charset n)

/-- Digits behind their number; alphabet and padding are those of `format`. -/
def countedDigits (length : Codec S Nat) (range : LengthRange) (format : PackedDigits) :
    Codec S String :=
  .itemCounted length range (fun text ↦ text.toList.length) fun n ↦
    .leaf (.digits (format.withDigits n))

/-- A list behind its number of items. -/
def countedList {α : Type} (length : Codec S Nat) (range : LengthRange) (item : Codec S α) :
    Codec S (List α) :=
  .itemCounted length range List.length fun n ↦ .fixedList item n

end WireFormat.Codec
