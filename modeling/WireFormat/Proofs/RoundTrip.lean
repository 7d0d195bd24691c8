import WireFormat.Proofs.SelfDelimiting

/-!
# Round trips as a property of codecs

A codec round-trips when it reads everything it writes back, in front of any bytes, which it leaves
(`Codec.RoundTrips`). This is what a record or a tagged record needs to know of the codecs it is
made of; the self-delimiting codecs are an ample supply (`Codec.roundTrips_of_delimits`). The bytes
in question are those that the encoder has added to a sink (`Codec.Encodes`), and there is only one
choice of them for a value (`Codec.wire_of_encodes`).
-/

set_option autoImplicit false
set_option relaxedAutoImplicit false

namespace WireFormat

variable {S : Signature} {α : Type} {definitions : Definitions S} {depth : Nat}
  {codec : Codec S α} {value : α} {code : List UInt8}

/-- The encoder writes `code` for the value: in some run these are the bytes it adds. -/
def Codec.Encodes (codec : Codec S α) (definitions : Definitions S) (depth : Nat) (value : α)
    (code : List UInt8) : Prop :=
  ∃ stage written after, codec.encode definitions depth value stage = .ok written after ∧
    after.stream.written = stage.stream.written ++ code

/-- Whatever the encoder writes for a value, the decoder reads as that value, and it leaves the
bytes behind. -/
def Codec.RoundTrips (codec : Codec S α) (definitions : Definitions S) (depth : Nat) : Prop :=
  ∀ value code, codec.Encodes definitions depth value code →
    ∀ (source : Stage Source) (behind : List UInt8), source.stream.bytes = code ++ behind →
      source.stream.remaining ≤ maxWord →
      ∃ last, codec.decode definitions depth source = .ok value last ∧ last.stream.bytes = behind

/-- A run that succeeds has added what the encoder writes, and reports the number of bytes. -/
theorem Codec.encodes_of_ok {stage after : Stage Sink} {written : Written}
    (h : codec.encode definitions depth value stage = .ok written after) :
    ∃ code, codec.Encodes definitions depth value code ∧
      after.stream = stage.stream.extend code ∧ written.bytes = code.length := by
  obtain ⟨code, -, hstream, hbytes⟩ := codec.writes_encode definitions depth value _ _ _ h
  refine ⟨code, ⟨stage, written, after, h, ?_⟩, hstream, hbytes⟩
  rw [hstream, Sink.written_extend]

/-- The bytes do not depend on the run. -/
theorem Codec.wire_of_encodes (h : codec.Encodes definitions depth value code) :
    codec.wire definitions depth value = some code := by
  obtain ⟨stage, written, after, hencode, hwritten⟩ := h
  obtain ⟨added, hadded, hstream, -⟩ := codec.writes_encode definitions depth value _ _ _ hencode
  rw [hstream, Sink.written_extend] at hwritten
  rw [hadded, List.append_cancel_left hwritten]

open Decoding

/-- A codec that round-trips stops for no size. -/
theorem Codec.RoundTrips.readsBack (h : codec.RoundTrips definitions depth)
    (hcode : codec.Encodes definitions depth value code) (framed : Bool) :
    ReadsBack (codec.decode definitions depth) framed code value True := by
  intro source behind hbytes _ hword
  rw [← hbytes, ← Source.remaining_eq_length] at hword
  exact Or.inl ⟨trivial, h value code hcode source behind hbytes hword⟩

/-- A self-delimiting codec all of whose values come back as they were written round-trips. -/
theorem Codec.roundTrips_of_delimits
    (hdelimits : codec.Delimits (definitions.wireWithin depth) false)
    (hregular : ∀ value, codec.Regular (definitions.wireWithin depth) value)
    (hfits : ∀ value, codec.ItemSizesFit (definitions.wireWithin depth) value) :
    codec.RoundTrips definitions depth := by
  intro value code hcode source behind hbytes hword
  have hreads := codec.readsBack_decodeWith (definitions.decodeWithin depth) false hdelimits value
    code (wire_of_encodes hcode) (hregular value)
  rw [Source.remaining_eq_length, hbytes] at hword
  rcases hreads source behind hbytes (by simp) hword with ⟨-, hread⟩ | ⟨hnot, -⟩
  · exact hread
  · exact absurd (hfits value) hnot

end WireFormat
