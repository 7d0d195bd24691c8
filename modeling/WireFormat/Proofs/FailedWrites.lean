import WireFormat.Proofs.LengthLimits

/-!
# What a failed write leaves in its sink

What is put all at once is written, or nothing is (`Sink.eq_of_put_error`). Padded text is put in
two parts, its bytes and the filling, and the room is checked for each of them: where it is enough
for the first part alone, this part stays written. That is the only way in which a leaf that fails
leaves anything behind (`Leaf.keeps_sink_or_stops_between`).

A payload behind its number of bytes is collected apart, and its length is checked before anything
is put. Whatever is wrong with the value is thus found out while the sink is as it was; when the
room is used up, the number may have been written, but never a part of it or of the payload
(`Codec.writes_whole_frames`).
-/

set_option autoImplicit false
set_option relaxedAutoImplicit false

namespace WireFormat

/-! ### Leaves -/

namespace Sink

variable {sink after : Sink} {failure : Failure}

/-- What is put all at once is written, or nothing is. -/
theorem eq_of_put_error {α : Type} {bytes : List UInt8} {report : Nat → α}
    (h : (do return report (← put bytes)) sink = .error failure after) : after = sink := by
  rcases Nat.lt_or_ge sink.room bytes.length with hroom | hroom
  · rw [bind_of_error (put_of_lt hroom)] at h
    cases h
    rfl
  · rw [put_report_eq_ok.mpr ⟨hroom, rfl, rfl⟩] at h
    cases h

/-- What is put in two parts fails for want of room for both. -/
theorem eq_or_lt_of_putBoth_error {front back : List UInt8} {report : Nat → Nat → Written}
    (h : putBoth front back report sink = .error failure after) :
    after = sink ∨ front.length ≤ sink.room ∧ sink.room < (front ++ back).length := by
  rcases Nat.lt_or_ge sink.room front.length with hfront | hfront
  · rw [putBoth_of_room_lt hfront] at h
    cases h
    exact Or.inl rfl
  · refine Or.inr ⟨hfront, Nat.not_le.mp fun hboth ↦ ?_⟩
    rw [putBoth_eq_ok.mpr ⟨hboth, rfl, rfl⟩] at h
    cases h

/-- An encoder that fails leaves the sink as it was, unless there is room for the first of two parts
and not for both. -/
theorem Puts.eq_or_lt_of_error {encoder : Action Sink Written} {code? : Option (List UInt8)}
    {parts : List UInt8 → List UInt8 → Prop} (h : Puts encoder code? parts)
    (hrun : encoder sink = .error failure after) :
    after = sink ∨ ∃ front back, parts front back ∧ front.length ≤ sink.room ∧
      sink.room < (front ++ back).length := by
  cases h with
  | refuses h =>
    obtain ⟨cause, rfl⟩ := h
    cases hrun
    exact Or.inl rfl
  | once code report h =>
    subst h
    exact Or.inl (eq_of_put_error hrun)
  | both front back report h _ hparts =>
    subst h
    exact (eq_or_lt_of_putBoth_error hrun).imp_right fun hroom ↦ ⟨front, back, hparts, hroom⟩

end Sink

namespace Leaf

variable {α : Type} {leaf : Leaf α} {value : α} {front back : List UInt8}

theorem encode_of_splits (h : leaf.Splits value front back) :
    ∃ report, leaf.encode value = Sink.putBoth front back report := by
  cases leaf with
  | padded format => exact ⟨_, PaddedText.encode_of_parts h⟩
  | _ => exact h.elim

/-- The leaf writes the value in two parts, and there is room for the first but not for both. -/
def StopsBetween (leaf : Leaf α) (value : α) (sink : Sink) (front back : List UInt8) : Prop :=
  leaf.Splits value front back ∧ front.length ≤ sink.room ∧ sink.room < (front ++ back).length

/-- Whatever leaf, value and sink: a write that fails leaves the sink as it was, unless the leaf
stops between two parts. Then, and always then, the first part has been written and the error is
about the room for the second. -/
theorem keeps_sink_or_stops_between (leaf : Leaf α) (value : α) (sink : Sink) :
    (∀ failure after, leaf.encode value sink = .error failure after →
      after = sink ∨ ∃ front back, leaf.StopsBetween value sink front back) ∧
    ∀ front back, leaf.StopsBetween value sink front back → leaf.encode value sink =
      .error (.error { kind := .endOfBuffer back.length (sink.room - front.length) })
        (sink.extend front) := by
  constructor
  · exact fun failure after ↦ (leaf.puts_encode value).eq_or_lt_of_error
  · rintro front back ⟨hsplits, hfront, hboth⟩
    obtain ⟨report, hencode⟩ := encode_of_splits hsplits
    rw [hencode, Sink.putBoth_of_lt hfront hboth]

/-- Text that stands on the right is filled first: in a sink for four of six bytes, the filling of
three bytes stays written. -/
theorem keeps_sink_or_stops_between_of_six :
    let leaf : Leaf String := .padded ⟨.utf8, 6, '€', .right⟩
    leaf.encode "abc" (Sink.slice 4) =
      .error (.error { kind := .endOfBuffer 3 1 }) ⟨[0xE2, 0x82, 0xAC], 4⟩ := by
  intro leaf
  have hsplits : leaf.Splits "abc" [0xE2, 0x82, 0xAC] [0x61, 0x62, 0x63] :=
    ⟨[0x61, 0x62, 0x63], [0xE2, 0x82, 0xAC], by decide⟩
  obtain ⟨-, hbetween⟩ := leaf.keeps_sink_or_stops_between "abc" (Sink.slice 4)
  exact hbetween _ _ ⟨hsplits, by decide, by decide⟩

/-- Two characters in a field of five bytes stay in a sink that has room for four, although the
write fails. -/
theorem padded_leaves_text_behind :
    let leaf : Leaf String := .padded ⟨.ascii, 5, ' ', .left⟩
    let after : Sink := ⟨[0x61, 0x62], 4⟩
    leaf.encode "ab" (Sink.slice 4) = .error (.error { kind := .endOfBuffer 3 2 }) after ∧
      after ≠ Sink.slice 4 := by
  decide

end Leaf

/-! ### Frames -/

namespace Codec

variable {S : Signature} {α : Type} {definitions : Definitions S} {depth : Nat}
  {length : Codec S Nat} {range : LengthRange} {payload : Codec S α} {value : α}
  {stage last : Stage Sink} {written : Written}

/-- A payload that fails has written to its buffer only. -/
theorem encode_byteCounted_of_error {failure : Failure}
    (h : payload.encode definitions depth value ⟨Sink.growable, stage.cells⟩ =
      .error failure last) :
    (byteCounted length range payload).encode definitions depth value stage =
      .error failure { stage with cells := last.cells } :=
  bind_of_error (Stage.onOther_of_error h) _

section Collected

variable (h : payload.encode definitions depth value ⟨Sink.growable, stage.cells⟩ =
  .ok written last)

include h

/-- A payload whose length is not in the range is dropped. -/
theorem encode_byteCounted_of_outside
    (hrange : range.contains last.stream.written.length = false) :
    (byteCounted length range payload).encode definitions depth value stage =
      .error (.error { kind := .lengthOutOfRange last.stream.written.length })
        { stage with cells := last.cells } :=
  (encode_byteCounted_of_ok h).trans (Encoding.limited_of_outside hrange _)

/-- A payload whose length is in the range is put behind its length. -/
theorem encode_byteCounted_of_inside
    (hrange : range.contains last.stream.written.length = true) :
    (byteCounted length range payload).encode definitions depth value stage =
      (do
        let lead ← length.encode definitions depth last.stream.written.length
        let _ ← Stage.onStream (Sink.put last.stream.written)
        return ⟨written.count, lead.bytes + written.bytes⟩ : Encoding)
        { stage with cells := last.cells } := by
  rw [encode_byteCounted_of_ok h, Encoding.limited_of_inside hrange]

variable {width : LengthWidth}

theorem encode_byteCounted_of_limit_le (hlimit : width.limit ≤ last.stream.written.length) :
    (byteCounted (.leaf (.length width)) range payload).encode definitions depth value stage =
      .error (.error { kind := .lengthOutOfRange last.stream.written.length })
        { stage with cells := last.cells } :=
  (encode_byteCounted_of_ok h).trans (Encoding.limited_of_limit_le hlimit _)

/-- The bytes of the length and the payload are put one after the other. -/
theorem encode_byteCounted_of_wire? {lead : List UInt8}
    (hrange : range.contains last.stream.written.length = true)
    (hlead : width.wire? last.stream.written.length = some lead) :
    (byteCounted (.leaf (.length width)) range payload).encode definitions depth value stage =
      Stage.onStream (Sink.putBoth lead last.stream.written fun n _ ↦
        ⟨written.count, n + written.bytes⟩) { stage with cells := last.cells } := by
  rw [encode_byteCounted_of_inside h hrange]
  show (Stage.onStream (width.encode last.stream.written.length) >>= _) _ = _
  rw [LengthWidth.encode_of_wire? hlead, Sink.putBoth]
  simp only [Stage.onStream_bind, bind_assoc]
  rfl

end Collected

/-- The frame `framed` of a payload is written as a whole behind its length. What is wrong with the
value is found out before anything is written. -/
structure FramesWhole (framed : Codec S α) (width : LengthWidth) (range : LengthRange)
    (payload : Codec S α) (definitions : Definitions S) (depth : Nat) (value : α)
    (stage : Stage Sink) : Prop where
  /-- Where the payload fails, so does the frame, and the sink is as it was. -/
  refused : ∀ failure last,
    payload.encode definitions depth value ⟨Sink.growable, stage.cells⟩ = .error failure last →
    framed.encode definitions depth value stage = .error failure ⟨stage.stream, last.cells⟩
  /-- A length that is not in the range or that the width cannot hold is refused, and the sink is as
  it was. -/
  misfit : ∀ written last,
    payload.encode definitions depth value ⟨Sink.growable, stage.cells⟩ = .ok written last →
    range.contains last.stream.written.length = false ∨
      width.limit ≤ last.stream.written.length →
    framed.encode definitions depth value stage =
      .error (.error { kind := .lengthOutOfRange last.stream.written.length })
        ⟨stage.stream, last.cells⟩
  /-- Any other length has bytes. Without room for them, nothing is written; with room for no more
  of the frame than these, these are; with room for the frame, the frame is. -/
  written : ∀ written last,
    payload.encode definitions depth value ⟨Sink.growable, stage.cells⟩ = .ok written last →
    range.contains last.stream.written.length = true →
    last.stream.written.length < width.limit →
    ∃ lead, width.wire? last.stream.written.length = some lead ∧
      (stage.stream.room < lead.length → framed.encode definitions depth value stage =
        .error (.error { kind := .endOfBuffer lead.length stage.stream.room })
          ⟨stage.stream, last.cells⟩) ∧
      (lead.length ≤ stage.stream.room →
        stage.stream.room < (lead ++ last.stream.written).length →
        framed.encode definitions depth value stage =
          .error (.error
            { kind := .endOfBuffer last.stream.written.length (stage.stream.room - lead.length) })
            ⟨stage.stream.extend lead, last.cells⟩) ∧
      ((lead ++ last.stream.written).length ≤ stage.stream.room →
        framed.encode definitions depth value stage =
          .ok ⟨written.count, lead.length + written.bytes⟩
            ⟨stage.stream.extend (lead ++ last.stream.written), last.cells⟩)

theorem framesWhole (width : LengthWidth) (range : LengthRange) (payload : Codec S α)
    (definitions : Definitions S) (depth : Nat) (value : α) (stage : Stage Sink) :
    (byteCounted (.leaf (.length width)) range payload).FramesWhole width range payload
      definitions depth value stage where
  refused _ _ := encode_byteCounted_of_error
  misfit := by
    rintro written last h (hrange | hlimit)
    · exact encode_byteCounted_of_outside h hrange
    · exact encode_byteCounted_of_limit_le h hlimit
  written := by
    intro written last h hrange hlimit
    obtain ⟨lead, hlead⟩ := LengthWidth.exists_wire?_iff.mpr hlimit
    refine ⟨lead, hlead, ?_⟩
    rw [encode_byteCounted_of_wire? h hrange hlead]
    refine ⟨fun hroom ↦ ?_, fun hfront hboth ↦ ?_, fun hboth ↦ ?_⟩
    · exact Stage.onStream_of_error (Sink.putBoth_of_room_lt hroom)
    · exact Stage.onStream_of_error (Sink.putBoth_of_lt hfront hboth)
    · exact Stage.onStream_of_ok (Sink.putBoth_eq_ok.mpr ⟨hboth, rfl, rfl⟩)

/-- What a frame that failed has written is nothing, or the bytes of its length where there was no
room for the payload behind them. -/
theorem FramesWhole.stream_of_error {framed : Codec S α} {width : LengthWidth}
    {after : Stage Sink} {failure : Failure}
    (h : framed.FramesWhole width range payload definitions depth value stage)
    (hrun : framed.encode definitions depth value stage = .error failure after) :
    after.stream = stage.stream ∨ ∃ written last lead,
      payload.encode definitions depth value ⟨Sink.growable, stage.cells⟩ = .ok written last ∧
      width.wire? last.stream.written.length = some lead ∧
      stage.stream.room < (lead ++ last.stream.written).length ∧
      failure = .error
        { kind := .endOfBuffer last.stream.written.length (stage.stream.room - lead.length) } ∧
      after.stream = stage.stream.extend lead := by
  cases hpayload : payload.encode definitions depth value ⟨Sink.growable, stage.cells⟩ with
  | error cause last =>
    rw [h.refused cause last hpayload] at hrun
    cases hrun
    exact Or.inl rfl
  | ok written last =>
    by_cases hfits : range.contains last.stream.written.length = true ∧
        last.stream.written.length < width.limit
    · obtain ⟨lead, hlead, hnone, hfront, hboth⟩ := h.written written last hpayload hfits.1 hfits.2
      rcases Nat.lt_or_ge stage.stream.room lead.length with hroom | hroom
      · rw [hnone hroom] at hrun
        cases hrun
        exact Or.inl rfl
      · rcases Nat.lt_or_ge stage.stream.room (lead ++ last.stream.written).length with
          hshort | henough
        · rw [hfront hroom hshort] at hrun
          cases hrun
          exact Or.inr ⟨written, last, lead, rfl, hlead, hshort, rfl, rfl⟩
        · rw [hboth henough] at hrun
          cases hrun
    · have hmisfit : range.contains last.stream.written.length = false ∨
          width.limit ≤ last.stream.written.length := by
        rw [not_and_or, Bool.not_eq_true, Nat.not_lt] at hfits
        exact hfits
      rw [h.misfit written last hpayload hmisfit] at hrun
      cases hrun
      exact Or.inl rfl

/-! ### Main statement -/

/-- Whatever length, range, payload, value and sink: a payload that fails, or whose length is not in
the range or cannot be held, leaves the sink as it was, however much of it had been collected. Only
a lack of room may leave something behind, and this is the bytes of the length. -/
theorem writes_whole_frames (width : LengthWidth) (range : LengthRange) (payload : Codec S α)
    (definitions : Definitions S) (depth : Nat) (value : α) (stage : Stage Sink) :
    let framed := byteCounted (.leaf (.length width)) range payload
    framed.FramesWhole width range payload definitions depth value stage ∧
      ∀ failure after, framed.encode definitions depth value stage = .error failure after →
        after.stream = stage.stream ∨ ∃ written last lead,
          payload.encode definitions depth value ⟨Sink.growable, stage.cells⟩ =
            .ok written last ∧
          width.wire? last.stream.written.length = some lead ∧
          stage.stream.room < (lead ++ last.stream.written).length ∧
          failure = .error
            { kind := .endOfBuffer last.stream.written.length (stage.stream.room - lead.length) } ∧
          after.stream = stage.stream.extend lead := by
  have hwhole := framesWhole width range payload definitions depth value stage
  exact ⟨hwhole, fun _ _ ↦ hwhole.stream_of_error⟩

/-- A byte and two more, behind their number. Where there is one byte instead of the two, the first
part has been collected in vain; three bytes are too many for the range up to two; and a sink with
room for two bytes receives the number alone. -/
theorem writes_whole_frames_of_pair :
    let payload : Codec Signature.empty (BitVec (8 * 1) × List UInt8 × Unit) :=
      .tuple (.cons (.leaf (.word 1)) (.cons (.leaf (.bytes 2)) .nil))
    let framed := Codec.byteCounted (.leaf (.length .u8))
    let definitions : Definitions Signature.empty := nofun
    let stage : Stage Sink := ⟨Sink.slice 2, Cells.fresh⟩
    (framed .unbounded payload).encode definitions 0 (0x2A, [1], ()) stage =
      .error (.error { kind := .invalidLength 1 2 }) stage ∧
    (framed (.upTo 2) payload).encode definitions 0 (0x2A, [1, 2], ()) stage =
      .error (.error { kind := .lengthOutOfRange 3 }) stage ∧
    (framed .unbounded payload).encode definitions 0 (0x2A, [1, 2], ()) stage =
      .error (.error { kind := .endOfBuffer 3 1 }) ⟨⟨[0x03], 2⟩, Cells.fresh⟩ := by
  intro payload framed definitions stage
  have hfails : payload.encode definitions 0 (0x2A, [1], ()) ⟨Sink.growable, Cells.fresh⟩ =
      .error (.error { kind := .invalidLength 1 2 })
        ⟨Sink.growable.extend [0x2A], Cells.fresh⟩ := by
    with_unfolding_all rfl
  have hruns : payload.encode definitions 0 (0x2A, [1, 2], ()) ⟨Sink.growable, Cells.fresh⟩ =
      .ok ⟨2, 3⟩ ⟨Sink.growable.extend [0x2A, 1, 2], Cells.fresh⟩ := by
    with_unfolding_all rfl
  obtain ⟨hfirst, -⟩ :=
    writes_whole_frames .u8 .unbounded payload definitions 0 (0x2A, [1], ()) stage
  obtain ⟨hsecond, -⟩ :=
    writes_whole_frames .u8 (.upTo 2) payload definitions 0 (0x2A, [1, 2], ()) stage
  obtain ⟨hthird, -⟩ :=
    writes_whole_frames .u8 .unbounded payload definitions 0 (0x2A, [1, 2], ()) stage
  obtain ⟨lead, hlead, -, hfront, -⟩ := hthird.written _ _ hruns rfl (by decide)
  obtain rfl : [0x03] = lead := Option.some.inj hlead
  exact ⟨hfirst.refused _ _ hfails, hsecond.misfit _ _ hruns (Or.inl rfl),
    hfront (by decide) (by decide)⟩

end Codec

end WireFormat
