/-!
# Sets of code points as ranges

A property of characters is kept as the list of the closed ranges that have it, in increasing
order. `contains` is membership.
-/

set_option autoImplicit false
set_option relaxedAutoImplicit false

namespace WireFormat.Text

/-- A set of code points, as closed ranges in increasing order. -/
structure CodePointSet where
  ranges : List (Nat × Nat)

/-- A character belongs to the set when one of the ranges holds its code point. -/
def CodePointSet.contains (set : CodePointSet) (c : Char) : Bool :=
  set.ranges.any fun range ↦ range.1 ≤ c.toNat && c.toNat ≤ range.2

end WireFormat.Text
