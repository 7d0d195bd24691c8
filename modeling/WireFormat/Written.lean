import WireFormat.Failure

/-!
# The report of an encoder

Every encoder reports what it measured (code points, digits, items, fields or bytes) and how many
bytes it wrote. Both are machine words, and reports are added as such (`Written.add`).
-/

set_option autoImplicit false
set_option relaxedAutoImplicit false

namespace WireFormat

/-- What an encoder produced. -/
structure Written where
  /-- The number that is meaningful for the value. -/
  count : Nat
  /-- The number of bytes added to the sink. -/
  bytes : Nat
  deriving DecidableEq, Repr

namespace Written

/-- Nothing written. -/
def none : Written := ⟨0, 0⟩

/-- A report that counts bytes. -/
def ofBytes (bytes : Nat) : Written := ⟨bytes, bytes⟩

/-- The sum of two machine words, if it is one. -/
def addWords (a b : Nat) : Except Failure Nat :=
  if a + b ≤ maxWord then .ok (a + b) else .error .overflow

/-- The sum of two reports, both numbers being machine words. -/
def add (a b : Written) : Except Failure Written := do
  let count ← addWords a.count b.count
  let bytes ← addWords a.bytes b.bytes
  return ⟨count, bytes⟩

/-- The sum of reports, added one after another to nothing. -/
def sum (reports : List Written) : Except Failure Written :=
  reports.foldlM add none

end Written

end WireFormat
