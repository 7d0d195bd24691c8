import WireFormat.Sink
import WireFormat.Source

/-!
# Lazy references

A codec may refer to a definition that is supplied on first use. The reference has a cell, which
counts the calls of the supplier and remembers that it was resolved; a call that yields nothing
fails that use and is repeated by the next one. Cells outlive a run of a codec, so an action of a
codec works on a stream together with all cells (`Stage`).
-/

set_option autoImplicit false
set_option relaxedAutoImplicit false

namespace WireFormat

/-- A reference: its cell, and which calls of the supplier yield the definition, the first call
being number zero. -/
structure LazyCell where
  id : Nat
  supply : Nat → Bool

/-- What is known of one reference. -/
structure CellState where
  calls : Nat := 0
  resolved : Bool := false
  deriving DecidableEq, Repr

/-- What is known of every reference. -/
abbrev Cells : Type := Nat → CellState

namespace Cells

/-- No reference was used. -/
def fresh : Cells := fun _ ↦ {}

/-- The state of one cell replaced. -/
def set (cells : Cells) (id : Nat) (state : CellState) : Cells := fun other ↦
  if other = id then state else cells other

/-- Uses a reference: nothing happens to a resolved one, another one calls its supplier. -/
def use (cell : LazyCell) : Action Cells Unit := fun cells ↦
  let state := cells cell.id
  if state.resolved then .ok () cells
  else if cell.supply state.calls then .ok () (cells.set cell.id ⟨state.calls + 1, true⟩)
  else
    .error (.error { kind := .missing "lazy codec supplier" })
      (cells.set cell.id ⟨state.calls + 1, false⟩)

end Cells

/-- A call of the supplier has yielded the definition. -/
def LazyCell.isResolved (cell : LazyCell) (cells : Cells) : Bool := (cells cell.id).resolved

/-- A stream and the state of all references. -/
structure Stage (σ : Type) where
  stream : σ
  cells : Cells

namespace Stage

variable {σ α : Type}

/-- An action of the stream alone. -/
def onStream (action : Action σ α) : Action (Stage σ) α := fun stage ↦
  match action stage.stream with
  | .ok a stream => .ok a { stage with stream }
  | .error failure stream => .error failure { stage with stream }

/-- An action of the references alone. -/
def onCells (action : Action Cells α) : Action (Stage σ) α := fun stage ↦
  match action stage.cells with
  | .ok a cells => .ok a { stage with cells }
  | .error failure cells => .error failure { stage with cells }

/-- Runs an action on another stream, and returns that stream with what the action yields. The
references are the same; the stream of the stage is left alone. -/
def onOther {τ : Type} (stream : τ) (action : Action (Stage τ) α) :
    Action (Stage σ) (α × τ) := fun stage ↦
  match action ⟨stream, stage.cells⟩ with
  | .ok a other => .ok (a, other.stream) { stage with cells := other.cells }
  | .error failure other => .error failure { stage with cells := other.cells }

end Stage

end WireFormat
