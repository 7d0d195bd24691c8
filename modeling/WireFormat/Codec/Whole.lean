import WireFormat.Codec.Decode
import WireFormat.Codec.Encode

/-!
# Whole messages

A message is a value that uses all bytes. `Codec.decodeExact` reads one and looks at the declared
size first; `Codec.encodeToBytes` writes one to a buffer of its own.
-/

set_option autoImplicit false
set_option relaxedAutoImplicit false

namespace WireFormat

variable {S : Signature} {α : Type}

/-- Fails unless the source holds exactly the bytes that a codec declares. -/
def Size.expect (size : Size) : Action Source Unit := do
  let remaining := (← get).remaining
  match size with
  | .fixed bytes =>
    if remaining < bytes then fail (.endOfBuffer bytes remaining)
    else if bytes < remaining then fail (.extraData (remaining - bytes))
  | .varying => pure ()
  | .overflow => throw .overflow

/-- Fails unless the source has ended. -/
def Source.expectEnd : Action Source Unit := do
  let remaining := (← get).remaining
  if 0 < remaining then fail (.extraData remaining)

/-- Reads a value that uses up the source. -/
def Codec.decodeExact (codec : Codec S α) (definitions : Definitions S) (depth : Nat) :
    Decoding α := do
  Stage.onStream codec.size.expect
  let value ← codec.decode definitions depth
  Stage.onStream Source.expectEnd
  return value

/-- Writes a value to a new buffer, which is allocated with the declared size. -/
def Codec.encodeToBytes (codec : Codec S α) (definitions : Definitions S) (depth : Nat)
    (value : α) : Action Cells (List UInt8) := fun cells ↦
  match codec.size.declared with
  | .error failure => .error failure cells
  | .ok size =>
    if size.any (maxAllocation < ·) then .error .overflow cells
    else
      match codec.encode definitions depth value ⟨Sink.growable, cells⟩ with
      | .error failure stage => .error failure stage.cells
      | .ok written stage =>
        let bytes := stage.stream.written
        if written.bytes = bytes.length then .ok bytes stage.cells
        else .error .miscounted stage.cells

end WireFormat
