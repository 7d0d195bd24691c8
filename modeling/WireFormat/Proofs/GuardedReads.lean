import WireFormat.Codec.Counted
import WireFormat.Proofs.Confinement
import WireFormat.Proofs.Hereditary

/-!
# Raw reads are guarded

A raw read takes what is there and is undefined where too little is left
(`Source.getBytes_eq_pastEnd_iff`, `Source.getByte_eq_pastEnd_iff`). The guard in front of it often
stands in another place: one look at what remains serves all bytes of a field of digits, the bytes
of a frame were counted when the frame was cut out, and a window of text is advanced over only after
its end was found in it. `Codec.guards_reads` says that no codec comes to an undefined read,
whatever the bytes are and however they are cut, and that a failure halfway leaves the last of the
bytes.
-/

set_option autoImplicit false
set_option relaxedAutoImplicit false

namespace WireFormat

/-! ### Where raw reads are defined -/

namespace Source

theorem getBytes_eq_pastEnd_iff (n : Nat) (source : Source) :
    getBytes n source = .error .pastEnd source ↔ source.remaining < n := by
  rw [remaining_eq_length]
  constructor
  · intro h
    by_contra henough
    obtain ⟨rest, hget, -⟩ := getBytes_of_le (Nat.le_of_not_lt henough)
    rw [hget] at h
    cases h
  · exact getBytes_of_lt

theorem getByte_eq_pastEnd_iff (source : Source) :
    getByte source = .error .pastEnd source ↔ source.remaining = 0 := by
  rw [remaining_eq_zero_iff]
  constructor
  · intro h
    cases hbytes : source.bytes with
    | nil => rfl
    | cons byte others =>
      obtain ⟨rest, hget, -⟩ := getByte_of_cons hbytes
      rw [hget] at h
      cases h
  · intro h
    rw [getByte, next?_of_nil h]

/-- What hands out one byte after another is the raw read behind a look at what remains. -/
theorem next?_eq_some_iff (source : Source) (byte : UInt8) (rest : Source) :
    source.next? = some (byte, rest) ↔ 0 < source.remaining ∧ getByte source = .ok byte rest := by
  constructor
  · intro h
    have hless := remaining_next? h
    exact ⟨by omega, by rw [getByte, h]⟩
  · rintro ⟨-, h⟩
    unfold getByte at h
    split at h
    · next hnext =>
      cases h
      exact hnext
    · cases h

end Source

/-! ### Codecs -/

variable {S : Signature}

/-- Every way of putting decoders together keeps raw reads behind their guards. -/
theorem Decoding.hereditary_confined :
    Decoding.Hereditary fun {α} (action : Decoding α) ↦
      Stage.view.Confined (· ≠ .pastEnd) action where
  ofExcept := View.confined_ofExcept
  overflow := View.confined_throw nofun
  tooDeep := View.confined_throw nofun
  bind := View.confined_bind
  inField _ _ := View.confined_inField
  leaf leaf := Stage.confined_onStream leaf.confined_decode
  frame n _ := confined_frame n
  expectItem := confined_expectItem
  itemsToEnd allowance := fun h ↦ confined_itemsToEnd h allowance
  entriesToEnd add _ record := fun h ↦ confined_entriesToEnd h add (fun _ ↦ nofun) record
  use := Stage.confined_use

/-- A raw read is undefined exactly where too few bytes are left, and where bytes are handed out one
by one it is made only of what remains. No codec comes to an undefined read, and whether it yields a
value or fails, it leaves the last of the bytes that there were. -/
theorem Codec.guards_reads {α : Type} (codec : Codec S α) (definitions : Definitions S)
    (depth : Nat) {stage : Stage Source} (hword : stage.stream.remaining ≤ maxWord) :
    (∀ n source, Source.getBytes n source = .error .pastEnd source ↔ source.remaining < n) ∧
    (∀ source, Source.getByte source = .error .pastEnd source ↔ source.remaining = 0) ∧
    (∀ source byte rest, source.next? = some (byte, rest) ↔
      0 < source.remaining ∧ Source.getByte source = .ok byte rest) ∧
    (∀ value after, codec.decode definitions depth stage = .ok value after →
      after.stream.bytes <:+ stage.stream.bytes) ∧
    ∀ failure after, codec.decode definitions depth stage = .error failure after →
      failure ≠ .pastEnd ∧ after.stream.bytes <:+ stage.stream.bytes := by
  have hends := codec.hereditary_decode Decoding.hereditary_confined definitions depth stage
    ((Source.remaining_eq_length _).symm.trans_le hword)
  refine ⟨Source.getBytes_eq_pastEnd_iff, Source.getByte_eq_pastEnd_iff, Source.next?_eq_some_iff,
    ?_, ?_⟩
  · intro value after hrun
    rw [hrun] at hends
    exact hends
  · intro failure after hrun
    rw [hrun] at hends
    obtain ⟨hsuffix, hwithin⟩ := hends
    refine ⟨?_, hsuffix⟩
    rintro rfl
    exact hwithin rfl

/-- A frame of three bytes, in two chunks, holds a frame that claims two hundred. The frame inside
fails where it is cut short, and the byte behind the outer frame is still there. -/
theorem Codec.guards_reads_of_lying_frame :
    let digits : Codec Signature.empty String :=
      .countedDigits (.leaf (.length .varint)) .unbounded ⟨.decimal, 0, .afterDigits, 0⟩
    let codec : Codec Signature.empty (String × Unit) :=
      .byteCounted (.leaf (.length .u8)) .unbounded <|
        .tuple (.cons (.byteCounted (.leaf (.length .u8)) .unbounded digits) .nil)
    let definitions : Definitions Signature.empty := nofun
    let stage : Stage Source := ⟨⟨[[3, 200], [], [1, 0x15, 0x7F]]⟩, Cells.fresh⟩
    stage.stream.remaining ≤ maxWord ∧ ∃ after,
      codec.decode definitions 0 stage =
        .error (.error { kind := .endOfBuffer 200 2 }) after ∧
      after.stream.bytes = [0x7F] ∧ after.stream.bytes <:+ stage.stream.bytes := by
  intro digits codec definitions stage
  have hword : stage.stream.remaining ≤ maxWord := by decide
  refine ⟨hword, ⟨⟨[[0x7F]]⟩, Cells.fresh⟩, ?_⟩
  have hrun : codec.decode definitions 0 stage =
      .error (.error { kind := .endOfBuffer 200 2 }) ⟨⟨[[0x7F]]⟩, Cells.fresh⟩ := by
    with_unfolding_all rfl
  obtain ⟨-, -, -, -, hfails⟩ := codec.guards_reads definitions 0 hword
  exact ⟨hrun, rfl, (hfails _ _ hrun).2⟩

end WireFormat
