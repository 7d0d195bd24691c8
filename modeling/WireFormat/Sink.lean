import WireFormat.Failure

/-!
# Sinks

A sink collects bytes up to a capacity. A growable buffer is a sink whose capacity is the largest
buffer that can be allocated. `put` checks the room before it writes, so that it writes all of its
bytes or none.
-/

set_option autoImplicit false
set_option relaxedAutoImplicit false

namespace WireFormat

/-- Bytes written so far, and how many there may be. -/
structure Sink where
  written : List UInt8
  capacity : Nat
  deriving DecidableEq, Repr

namespace Sink

/-- An empty slice of a fixed size. -/
def slice (capacity : Nat) : Sink := ⟨[], capacity⟩

/-- An empty buffer that grows as needed. -/
def growable : Sink := ⟨[], maxAllocation⟩

/-- How many bytes can still be written. -/
def room (sink : Sink) : Nat := sink.capacity - sink.written.length

/-- Fails unless `n` more bytes can be written. -/
def hasCapacity (n : Nat) : Action Sink Unit := do
  let sink ← get
  if sink.room < n then fail (.endOfBuffer n sink.room)

/-- Appends bytes. Undefined when there is no room for them. -/
def append (bytes : List UInt8) : Action Sink Unit := fun sink ↦
  if bytes.length ≤ sink.room then .ok () { sink with written := sink.written ++ bytes }
  else .error .pastEnd sink

/-- Writes all of `bytes` if there is room for them, and returns their number. -/
def put (bytes : List UInt8) : Action Sink Nat := do
  hasCapacity bytes.length
  append bytes
  return bytes.length

end Sink

end WireFormat
