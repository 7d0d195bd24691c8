import WireFormat.Error

/-!
# Ranges of lengths

A range limits a length by two bounds, each of which may include its end, exclude it or be absent.
Ranges are compared by their bounds, not by the lengths they admit.
-/

set_option autoImplicit false
set_option relaxedAutoImplicit false

namespace WireFormat

/-- One end of a range. -/
inductive Bound where
  | unbounded
  | included (n : Nat)
  | excluded (n : Nat)
  deriving DecidableEq, Repr

/-- The lengths between two bounds. -/
structure LengthRange where
  lower : Bound
  upper : Bound
  deriving DecidableEq, Repr

namespace LengthRange

/-- Every length. -/
def unbounded : LengthRange := ⟨.unbounded, .unbounded⟩

instance : Inhabited LengthRange where
  default := unbounded

/-- Only the length `n`. -/
def exact (n : Nat) : LengthRange := ⟨.included n, .included n⟩

/-- The lengths from `n` on. -/
def startingAt (n : Nat) : LengthRange := ⟨.included n, .unbounded⟩

/-- The lengths below `n`. -/
def below (n : Nat) : LengthRange := ⟨.unbounded, .excluded n⟩

/-- The lengths up to `n`. -/
def upTo (n : Nat) : LengthRange := ⟨.unbounded, .included n⟩

/-- The lengths from `first` on that are below `bound`. -/
def between (first bound : Nat) : LengthRange := ⟨.included first, .excluded bound⟩

/-- The lengths from `first` up to `last`. -/
def closed (first last : Nat) : LengthRange := ⟨.included first, .included last⟩

/-- The lower bound admits `n`. -/
def admitsBelow : Bound → Nat → Bool
  | .unbounded, _ => true
  | .included first, n => first ≤ n
  | .excluded first, n => first < n

/-- The upper bound admits `n`. -/
def admitsAbove : Bound → Nat → Bool
  | .unbounded, _ => true
  | .included last, n => n ≤ last
  | .excluded last, n => n < last

/-- The length `n` is in the range. -/
def contains (range : LengthRange) (n : Nat) : Bool :=
  admitsBelow range.lower n && admitsAbove range.upper n

/-- The length `n`, if it is in the range. -/
def check (range : LengthRange) (n : Nat) : Except Error Nat :=
  if range.contains n then .ok n else .error { kind := .lengthOutOfRange n }

end LengthRange

end WireFormat
