import WireFormat.Error

/-!
# Actions on a stream

An action reads or writes a stream, and either yields a value or stops. What it has read or
written until then stays read or written, also when it stops, so an action returns the stream in
both cases. Besides errors, which are part of the formats, it may stop for a defect of the format
itself; these are kept apart so that one can say that they do not arise.
-/

set_option autoImplicit false
set_option relaxedAutoImplicit false

namespace WireFormat

/-- The largest number a machine word of sixty-four bits holds. -/
def maxWord : Nat := UInt64.size - 1

/-- The largest buffer that can be allocated: half of what a word counts. -/
def maxAllocation : Nat := maxWord / 2

/-- Why an action stopped. -/
inductive Failure where
  /-- The data or the value is at fault. -/
  | error (e : Error)
  /-- A size left the range of a machine word, or what is to be written that of what can be
  allocated. Room for what is read is never asked for by more than the bytes that are there, and
  counts as given. -/
  | overflow
  /-- A raw read or write went past the end of its stream. -/
  | pastEnd
  /-- An encoder reported another number of bytes than it wrote. -/
  | miscounted
  /-- References to definitions were nested more deeply than allowed. -/
  | tooDeep
  /-- A repetition without a bound stopped making progress. -/
  | endless
  deriving DecidableEq, Repr

/-- The failure as seen from outside the field `name`. -/
def Failure.inField (name : String) : Failure → Failure
  | .error e => .error (e.inField name)
  | failure => failure

/-- A computation on a stream of type `σ`. The stream survives a failure. -/
abbrev Action (σ α : Type) : Type := EStateM Failure σ α

/-- Results are compared by what they yield and by the stream they leave. -/
instance decidableEqResult {σ α : Type} [DecidableEq σ] [DecidableEq α] :
    DecidableEq (EStateM.Result Failure σ α)
  | .ok a s, .ok b t => decidable_of_iff (a = b ∧ s = t) (by simp)
  | .error e s, .error f t => decidable_of_iff (e = f ∧ s = t) (by simp)
  | .ok _ _, .error _ _ => isFalse (by simp)
  | .error _ _, .ok _ _ => isFalse (by simp)

variable {σ α : Type}

/-- Stops with an error that has crossed no field yet. -/
def fail (kind : ErrorKind) : Action σ α :=
  throw (.error { kind })

/-- Runs a pure computation that may end in an error. -/
def ofExcept : Except Error α → Action σ α
  | .ok a => pure a
  | .error e => throw (.error e)

/-- Runs an action inside the field `name`, which every error of the action then names. -/
def inField (name : String) (action : Action σ α) : Action σ α := fun s ↦
  match action s with
  | .ok a s' => .ok a s'
  | .error failure s' => .error (failure.inField name) s'

end WireFormat
