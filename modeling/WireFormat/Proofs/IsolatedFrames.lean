import WireFormat.Proofs.LengthLimits

/-!
# Frames keep their payload apart

The payload behind a number of bytes is read from a source of its own, so that nothing it does is
seen outside but its value or its failure: the source it was cut out of goes on behind the frame
either way. `Decoding.fromFrame` is what a run on a frame looks like from there, and
`Codec.decode_byteCounted_of_frame` says that reading a payload behind any length is just that.

A length, read again in front of other bytes, is the same one (`LengthWidth.decode_again`). The
bytes of the length and of the frame together thus decide what is read (`Codec.isolates_payload`):
neither what follows the frame nor how the bytes are cut into chunks has a say in it.
-/

set_option autoImplicit false
set_option relaxedAutoImplicit false

namespace WireFormat

/-! ### Lengths -/

/-- What was read as a length is read as that length again, whatever other bytes stand behind it. -/
theorem LengthWidth.decode_again {width : LengthWidth} {n : Nat} {source middle : Source}
    (h : width.decode source = .ok n middle) :
    ∃ lead, source.bytes = lead ++ middle.bytes ∧
      ∀ (other : Source) (rest : List UInt8), other.bytes = lead ++ rest →
        ∃ after, width.decode other = .ok n after ∧ after.bytes = rest := by
  unfold decode at h ⊢
  cases hcount : width.byteCount? with
  | some count =>
    simp only [hcount] at h
    obtain ⟨lead, last, htake, hreturn⟩ := bind_eq_ok.mp h
    obtain ⟨rfl, rfl⟩ := pure_eq_ok.mp hreturn
    obtain ⟨hlength, hbytes⟩ := Source.take_eq_ok htake
    refine ⟨lead, hbytes, fun other rest hother ↦ ?_⟩
    obtain ⟨after, hagain, hafter⟩ := Source.take_of_append hother hlength
    exact ⟨after, bind_of_ok hagain _, hafter⟩
  | none =>
    simp only [hcount] at h
    obtain ⟨lead, hform, hlength, hbytes, hdenoted, hfits⟩ :=
      Varint.read_iff_spells.mp ⟨middle, h, rfl⟩
    refine ⟨lead, hbytes, fun other rest hother ↦ ?_⟩
    exact Varint.read_iff_spells.mpr ⟨lead, hform, hlength, hother, hdenoted, hfits⟩

/-! ### Frames -/

namespace Decoding

variable {α : Type}

/-- What a run on a frame of its own comes to where the source goes on `behind` the frame. Of the
stage that the run leaves only the references are kept, and that some bytes were not used is an
error. -/
def fromFrame (behind : Source) :
    EStateM.Result Failure (Stage Source) α → EStateM.Result Failure (Stage Source) α
  | .ok value last =>
    if last.stream.remaining = 0 then .ok value ⟨behind, last.cells⟩
    else .error (.error { kind := .extraData last.stream.remaining }) ⟨behind, last.cells⟩
  | .error failure last => .error failure ⟨behind, last.cells⟩

theorem inFrame_eq (frame : List UInt8) (inner : Decoding α) (stage : Stage Source) :
    inFrame frame inner stage =
      fromFrame stage.stream (inner ⟨Source.ofBytes frame, stage.cells⟩) := by
  cases h : inner ⟨Source.ofBytes frame, stage.cells⟩ with
  | error failure last => rw [inFrame_of_error h, fromFrame]
  | ok value last =>
    rcases Nat.eq_zero_or_pos last.stream.remaining with hzero | hrest
    · rw [inFrame_of_ok h (Source.remaining_eq_zero_iff.mp hzero), fromFrame, if_pos hzero]
    · rw [inFrame_of_extra h hrest, fromFrame, if_neg hrest.ne']

end Decoding

namespace Codec

variable {S : Signature} {α : Type} {definitions : Definitions S} {depth n : Nat}
  {length : Codec S Nat} {range : LengthRange} {payload : Codec S α}
  {stage middle : Stage Source}

section Length

variable (hlength : length.decode definitions depth stage = .ok n middle)

include hlength

/-- A length that is not in the range is an error behind the length. -/
theorem decode_byteCounted_of_outside (hrange : range.contains n = false) :
    (byteCounted length range payload).decode definitions depth stage =
      .error (.error { kind := .lengthOutOfRange n }) middle :=
  Decoding.limited_of_outside hlength hrange

theorem decode_byteCounted_of_inside (hrange : range.contains n = true) :
    (byteCounted length range payload).decode definitions depth stage =
      (do
        let frame ← Stage.onStream (Source.take n)
        Decoding.inFrame frame (payload.decode definitions depth)) middle :=
  Decoding.limited_of_inside hlength hrange

/-- Where fewer bytes are left than announced, none of them is taken. -/
theorem decode_byteCounted_of_short (hrange : range.contains n = true)
    (hshort : middle.stream.remaining < n) :
    (byteCounted length range payload).decode definitions depth stage =
      .error (.error { kind := .endOfBuffer n middle.stream.remaining }) middle := by
  rw [decode_byteCounted_of_inside hlength hrange]
  rw [Source.remaining_eq_length] at hshort ⊢
  exact bind_of_error (Stage.onStream_of_error (Source.take_of_lt hshort)) _

/-- Where the announced bytes are left, they are taken as a frame, on which the payload is read. -/
theorem decode_byteCounted_of_frame (hrange : range.contains n = true) {frame rest : List UInt8}
    (hframe : frame.length = n) (hbytes : middle.stream.bytes = frame ++ rest) :
    ∃ behind, behind.bytes = rest ∧
      (byteCounted length range payload).decode definitions depth stage =
        Decoding.fromFrame behind
          (payload.decode definitions depth ⟨Source.ofBytes frame, middle.cells⟩) := by
  obtain ⟨behind, htake, hbehind⟩ := Source.take_of_append hbytes hframe
  refine ⟨behind, hbehind, ?_⟩
  rw [decode_byteCounted_of_inside hlength hrange, bind_of_ok (Stage.onStream_of_ok htake),
    Decoding.inFrame_eq]

end Length

/-! ### Main statement -/

/-- Behind a length, in whatever form and of whatever payload: outside the range it is refused, and
so it is where fewer bytes are left, both with nothing taken but the length. Otherwise the outcome
is that of the payload on the bytes announced, with the source behind these. The bytes of the length
and these decide it, whatever else stands behind them. -/
theorem isolates_payload (width : LengthWidth) (range : LengthRange) (payload : Codec S α)
    (definitions : Definitions S) (depth : Nat) (cells : Cells) {source middle : Source} {n : Nat}
    (hread : width.decode source = .ok n middle) :
    let framed := byteCounted (.leaf (.length width)) range payload
    ∃ lead, source.bytes = lead ++ middle.bytes ∧
      (range.contains n = false → framed.decode definitions depth ⟨source, cells⟩ =
        .error (.error { kind := .lengthOutOfRange n }) ⟨middle, cells⟩) ∧
      (range.contains n = true → middle.remaining < n →
        framed.decode definitions depth ⟨source, cells⟩ =
          .error (.error { kind := .endOfBuffer n middle.remaining }) ⟨middle, cells⟩) ∧
      (range.contains n = true → n ≤ middle.remaining →
        ∀ (other : Source) (rest : List UInt8),
          other.bytes = lead ++ middle.bytes.take n ++ rest →
          ∃ behind, behind.bytes = rest ∧ framed.decode definitions depth ⟨other, cells⟩ =
            Decoding.fromFrame behind (payload.decode definitions depth
              ⟨Source.ofBytes (middle.bytes.take n), cells⟩)) := by
  intro framed
  obtain ⟨lead, hbytes, hagain⟩ := LengthWidth.decode_again hread
  have hlength {other after : Source} (h : width.decode other = .ok n after) :
      (leaf (.length width) : Codec S Nat).decode definitions depth ⟨other, cells⟩ =
        .ok n ⟨after, cells⟩ := Stage.onStream_of_ok h
  refine ⟨lead, hbytes, decode_byteCounted_of_outside (hlength hread),
    decode_byteCounted_of_short (hlength hread), fun hrange hle other rest hother ↦ ?_⟩
  rw [List.append_assoc] at hother
  obtain ⟨after, hother, hafter⟩ := hagain other _ hother
  rw [Source.remaining_eq_length] at hle
  exact decode_byteCounted_of_frame (hlength hother) hrange (List.length_take_of_le hle) hafter

/-- Three bytes hold a frame that announces two hundred. The inner frame looks no further than the
outer one, before whatever bytes that stands, and the outer frame is passed; four bytes would be too
many for the range, and where only two are left they are not taken. -/
theorem isolates_payload_that_lies :
    let inner : Codec Signature.empty (List UInt8) :=
      .byteCounted (.leaf (.length .varint)) .unbounded (.leaf .remainingBytes)
    let framed := Codec.byteCounted (.leaf (.length .u8)) (.upTo 3) inner
    let definitions : Definitions Signature.empty := nofun
    (∀ rest, ∃ behind : Source, behind.bytes = rest ∧
      framed.decode definitions 0 ⟨⟨[[0x03], [0xC8, 0x01, 0xAA] ++ rest]⟩, Cells.fresh⟩ =
        .error (.error { kind := .endOfBuffer 200 1 }) ⟨behind, Cells.fresh⟩) ∧
    framed.decode definitions 0 ⟨⟨[[0x04, 0xC8, 0x01, 0xAA, 0xBB]]⟩, Cells.fresh⟩ =
      .error (.error { kind := .lengthOutOfRange 4 })
        ⟨⟨[[0xC8, 0x01, 0xAA, 0xBB]]⟩, Cells.fresh⟩ ∧
    framed.decode definitions 0 ⟨⟨[[0x03, 0xC8], [0x01]]⟩, Cells.fresh⟩ =
      .error (.error { kind := .endOfBuffer 3 2 }) ⟨⟨[[0xC8], [0x01]]⟩, Cells.fresh⟩ := by
  intro inner framed definitions
  have hthree : LengthWidth.u8.decode ⟨[[0x03, 0xC8, 0x01, 0xAA]]⟩ =
      .ok 3 ⟨[[0xC8, 0x01, 0xAA]]⟩ := by decide
  have hfour : LengthWidth.u8.decode ⟨[[0x04, 0xC8, 0x01, 0xAA, 0xBB]]⟩ =
      .ok 4 ⟨[[0xC8, 0x01, 0xAA, 0xBB]]⟩ := by decide
  have hcut : LengthWidth.u8.decode ⟨[[0x03, 0xC8], [0x01]]⟩ = .ok 3 ⟨[[0xC8], [0x01]]⟩ := by
    decide
  obtain ⟨lead, hlead, -, -, hframe⟩ :=
    isolates_payload .u8 (.upTo 3) inner definitions 0 Cells.fresh hthree
  obtain ⟨-, -, houtside, -⟩ :=
    isolates_payload .u8 (.upTo 3) inner definitions 0 Cells.fresh hfour
  obtain ⟨-, -, -, hshort, -⟩ :=
    isolates_payload .u8 (.upTo 3) inner definitions 0 Cells.fresh hcut
  obtain rfl : [0x03] = lead := List.append_cancel_right (show _ = _ from hlead)
  refine ⟨fun rest ↦ ?_, houtside rfl, hshort rfl (by decide)⟩
  obtain ⟨behind, hbehind, hrun⟩ := hframe rfl (by decide)
    ⟨[[0x03], [0xC8, 0x01, 0xAA] ++ rest]⟩ rest (by simp [Source.bytes])
  exact ⟨behind, hbehind, hrun.trans (by with_unfolding_all rfl)⟩

end Codec

end WireFormat
