import WireFormat.Proofs.Delivery
import WireFormat.Proofs.Hereditary
import WireFormat.Proofs.SelfDelimiting

/-!
# Sinks with little room

An encoder does the same in every sink that has the room. Where a sink has less room than the bytes
of the value need, the encoder stops at the first write that does not fit, with an error that says
so, and what it has written by then is a front of these bytes; and a value that is refused where
there is more room is refused where there is less. `Narrows` compares two such runs and is kept by
every way of putting encoders together (`Encoding.hereditary_narrows`), so that it holds of all
codecs. `Codec.fits_or_fails` says it of a growable buffer and a slice.
-/

set_option autoImplicit false
set_option relaxedAutoImplicit false

namespace WireFormat

/-! ### Two runs -/

/-- More bytes were needed than there was room for. -/
def Error.OutOfRoom (e : Error) (room : Nat) : Prop :=
  ∃ needed, e.kind = .endOfBuffer needed room ∧ room < needed

/-- How a run in a sink ends, seen beside the same run in a wider sink. -/
inductive Narrowed (wide narrow : Sink) {α : Type} :
    EStateM.Result Failure (Stage Sink) α → EStateM.Result Failure (Stage Sink) α → Prop where
  /-- Both add the same bytes. -/
  | same (a : α) (code : List UInt8) (cells : Cells) (fits : code.length ≤ narrow.room) :
      Narrowed wide narrow (.ok a ⟨wide.extend code, cells⟩) (.ok a ⟨narrow.extend code, cells⟩)
  /-- The bytes do not fit, and a front of them is written. -/
  | out (a : α) {code part : List UInt8} (cells cells' : Cells) {e : Error}
      (short : narrow.room < code.length) (isFront : part <+: code)
      (fits : part.length ≤ narrow.room) (error : e.OutOfRoom (narrow.extend part).room) :
      Narrowed wide narrow (.ok a ⟨wide.extend code, cells⟩)
        (.error (.error e) ⟨narrow.extend part, cells'⟩)
  /-- Both fail. -/
  | failed (failure failure' : Failure) (after after' : Stage Sink) :
      Narrowed wide narrow (.error failure after) (.error failure' after')

/-- Whatever the room of two sinks, the run in the narrower one ends so. -/
def Narrows {α : Type} (action : Action (Stage Sink) α) : Prop :=
  ∀ (wide narrow : Sink) (cells : Cells), narrow.room ≤ wide.room →
    Narrowed wide narrow (action ⟨wide, cells⟩) (action ⟨narrow, cells⟩)

section Actions

variable {α β : Type}

theorem Narrows.exists_extend {action : Action (Stage Sink) α} (h : Narrows action) {sink : Sink}
    {cells : Cells} {a : α} {after : Stage Sink} (hrun : action ⟨sink, cells⟩ = .ok a after) :
    ∃ code, after.stream = sink.extend code := by
  have hboth := h sink sink cells (Nat.le_refl _)
  rw [hrun] at hboth
  cases hboth with
  | same _ code _ _ => exact ⟨code, rfl⟩

/-- Nothing is written, so nothing is lost. -/
theorem Narrowed.idle (wide narrow : Sink) (a : α) (cells : Cells) :
    Narrowed wide narrow (.ok a ⟨wide, cells⟩) (.ok a ⟨narrow, cells⟩) := by
  have hsame : Narrowed wide narrow (.ok a ⟨wide.extend [], cells⟩)
      (.ok a ⟨narrow.extend [], cells⟩) := .same a [] cells (Nat.zero_le _)
  rwa [Sink.extend_nil, Sink.extend_nil] at hsame

/-- Where nothing is written, the room does not matter. -/
theorem narrows_onCells (action : Action Cells α) : Narrows (Stage.onCells action) := by
  intro wide narrow cells _
  unfold Stage.onCells
  cases action cells with
  | ok a cells' => exact .idle wide narrow a cells'
  | error failure cells' => exact .failed failure failure _ _

theorem narrows_pure (a : α) : Narrows (pure a) := narrows_onCells (pure a)

theorem narrows_throw (failure : Failure) : Narrows (throw failure : Action (Stage Sink) α) :=
  narrows_onCells (throw failure)

theorem narrows_ofExcept (result : Except Error α) :
    Narrows (ofExcept result : Action (Stage Sink) α) := by
  cases result with
  | ok a => exact narrows_pure a
  | error e => exact narrows_throw _

/-- A buffer of its own is the same beside every sink. -/
theorem narrows_onOther (other : Sink) (action : Action (Stage Sink) α) :
    Narrows (Stage.onOther other action) := by
  intro wide narrow cells _
  unfold Stage.onOther
  cases action ⟨other, cells⟩ with
  | ok a last => exact .idle wide narrow (a, last.stream) last.cells
  | error failure last => exact .failed failure failure _ _

theorem narrows_bind {action : Action (Stage Sink) α} {f : α → Action (Stage Sink) β}
    (haction : Narrows action) (hf : ∀ a, Narrows (f a)) : Narrows (action >>= f) := by
  intro wide narrow cells hroom
  have hfirst := haction wide narrow cells hroom
  generalize hwide : action ⟨wide, cells⟩ = first at hfirst
  generalize hnarrow : action ⟨narrow, cells⟩ = second at hfirst
  cases hfirst with
  | failed failure failure' after after' =>
    rw [bind_of_error hwide, bind_of_error hnarrow]
    exact .failed failure failure' after after'
  | same a code cells' hfits =>
    rw [bind_of_ok hwide, bind_of_ok hnarrow]
    have hsecond := hf a (wide.extend code) (narrow.extend code) cells' (by
      rw [Sink.room_extend, Sink.room_extend]
      exact Nat.sub_le_sub_right hroom _)
    generalize f a ⟨wide.extend code, cells'⟩ = first at hsecond
    generalize f a ⟨narrow.extend code, cells'⟩ = second at hsecond
    cases hsecond with
    | failed failure failure' after after' => exact .failed failure failure' after after'
    | same b behind last hfits' =>
      rw [Sink.room_extend] at hfits'
      rw [Sink.extend_extend, Sink.extend_extend]
      exact .same b _ last (by rw [List.length_append]; omega)
    | out b last last' hshort hfront hfits' herror =>
      rw [Sink.room_extend] at hshort hfits'
      rw [Sink.extend_extend] at herror ⊢
      rw [Sink.extend_extend]
      refine .out b last last' ?_ ((List.prefix_append_right_inj code).mpr hfront) ?_ herror
      · rw [List.length_append]
        omega
      · rw [List.length_append]
        omega
  | @out a code part cells' cells'' e hshort hfront hfits herror =>
    rw [bind_of_ok hwide, bind_of_error hnarrow]
    cases hsecond : f a ⟨wide.extend code, cells'⟩ with
    | error failure after => exact .failed _ _ _ _
    | ok b after =>
      obtain ⟨behind, hafter⟩ := (hf a).exists_extend hsecond
      obtain ⟨stream, last⟩ := after
      obtain rfl : stream = wide.extend (code ++ behind) := hafter.trans (Sink.extend_extend _ _ _)
      refine .out b last cells'' ?_ (hfront.trans (List.prefix_append code behind)) hfits herror
      rw [List.length_append]
      omega

/-- Crossing a field leaves the kind of the error as it is. -/
theorem narrows_inField {name : String} {action : Action (Stage Sink) α} (h : Narrows action) :
    Narrows (inField name action) := by
  intro wide narrow cells hroom
  have hboth := h wide narrow cells hroom
  unfold inField
  generalize action ⟨wide, cells⟩ = first at hboth
  generalize action ⟨narrow, cells⟩ = second at hboth
  cases hboth with
  | same a code cells' hfits => exact .same a code cells' hfits
  | out a cells' cells'' hshort hfront hfits herror =>
    exact .out a cells' cells'' hshort hfront hfits herror
  | failed failure failure' after after' => exact .failed _ _ _ _

/-- Bytes are put whole or not at all. -/
theorem narrows_put (bytes : List UInt8) : Narrows (Stage.onStream (Sink.put bytes)) := by
  intro wide narrow cells hroom
  by_cases hwide : bytes.length ≤ wide.room
  · rw [Stage.onStream_of_ok (Sink.put_eq_ok.mpr ⟨hwide, rfl, rfl⟩)]
    by_cases hnarrow : bytes.length ≤ narrow.room
    · rw [Stage.onStream_of_ok (Sink.put_eq_ok.mpr ⟨hnarrow, rfl, rfl⟩)]
      exact .same _ bytes cells hnarrow
    · have hshort : narrow.room < bytes.length := Nat.lt_of_not_le hnarrow
      rw [Stage.onStream_of_error (Sink.put_of_lt hshort)]
      have hout : Narrowed wide narrow (.ok bytes.length ⟨wide.extend bytes, cells⟩)
          (.error (.error { kind := .endOfBuffer bytes.length narrow.room })
            ⟨narrow.extend [], cells⟩) :=
        .out bytes.length cells cells hshort List.nil_prefix (Nat.zero_le _)
          ⟨bytes.length, by rw [Sink.extend_nil], by rwa [Sink.extend_nil]⟩
      rwa [Sink.extend_nil] at hout
  · have hshort : wide.room < bytes.length := Nat.lt_of_not_le hwide
    rw [Stage.onStream_of_error (Sink.put_of_lt hshort),
      Stage.onStream_of_error (Sink.put_of_lt (Nat.lt_of_le_of_lt hroom hshort))]
    exact .failed _ _ _ _

end Actions

/-! ### Codecs -/

/-- In particular nothing that a leaf writes depends on more than the room. -/
theorem Sink.hereditary_narrows :
    Sink.Hereditary fun action ↦ Narrows (Stage.onStream action) where
  pure := narrows_pure
  fail _ := narrows_throw _
  overflow := narrows_throw _
  bind haction hf := by
    rw [Stage.onStream_bind]
    exact narrows_bind haction hf
  text charset text := by
    cases charset.encode text with
    | ok bytes => exact narrows_pure bytes
    | error e => exact narrows_throw _
  digits format chars := by
    cases format.values chars with
    | ok values => exact narrows_pure values
    | error e => exact narrows_throw _
  put := narrows_put

/-- The payload of a frame needs no comparison, as it is collected in a buffer of its own. -/
theorem Encoding.hereditary_narrows : Encoding.Hereditary Narrows where
  ofExcept := narrows_ofExcept
  tooDeep := narrows_throw _
  bind := narrows_bind
  inField _ := narrows_inField
  leaf leaf := leaf.hereditary_encode Sink.hereditary_narrows
  put := narrows_put
  scratch _ := narrows_onOther _ _
  use _ := narrows_onCells _

variable {S : Signature}

theorem Codec.narrows_encode {α : Type} (codec : Codec S α) (definitions : Definitions S)
    (depth : Nat) (value : α) : Narrows (codec.encode definitions depth value) :=
  codec.hereditary_encode Encoding.hereditary_narrows definitions depth value

/-! ### A buffer and a slice -/

section Fits

variable {α : Type} {action : Action (Stage Sink) α} {first : Sink} {cells cells' : Cells}
  {a : α} {code : List UInt8}

theorem Sink.extend_injective (sink : Sink) : Function.Injective sink.extend := fun _ _ h ↦
  List.append_cancel_left (congrArg Sink.written h)

/-- What is added to one sink is added to every other that has the room. Where there is no room for
it, a front of it is written. -/
theorem Narrows.ok_or_out (h : Narrows action)
    (hrun : action ⟨first, cells⟩ = .ok a ⟨first.extend code, cells'⟩) (second : Sink) :
    code.length ≤ second.room ∧
      action ⟨second, cells⟩ = .ok a ⟨second.extend code, cells'⟩ ∨
    second.room < code.length ∧
      ∃ e part last, action ⟨second, cells⟩ = .error (.error e) ⟨second.extend part, last⟩ ∧
        e.OutOfRoom (second.extend part).room ∧ part <+: code ∧ part.length ≤ second.room := by
  rcases Nat.le_total second.room first.room with hroom | hroom
  · have hboth := h first second cells hroom
    rw [hrun] at hboth
    generalize hstream : first.extend code = stream at hboth
    generalize action ⟨second, cells⟩ = result at hboth
    cases hboth with
    | same _ code' _ hfits =>
      obtain rfl := first.extend_injective hstream
      exact Or.inl ⟨hfits, rfl⟩
    | out _ _ last hshort hfront hfits herror =>
      obtain rfl := first.extend_injective hstream
      exact Or.inr ⟨hshort, _, _, last, rfl, herror, hfront, hfits⟩
  · have hboth := h second first cells hroom
    rw [hrun] at hboth
    generalize hstream : first.extend code = stream at hboth
    generalize action ⟨second, cells⟩ = result at hboth
    cases hboth with
    | same _ code' _ hfits =>
      obtain rfl := first.extend_injective hstream
      exact Or.inl ⟨hfits.trans hroom, rfl⟩

end Fits

/-- A slice takes what a growable buffer takes, with the same report, if it is long enough;
otherwise encoding fails for want of room, with a front of these bytes in the slice. What the
buffer does not take, no slice takes; for this the slice must be one that can be allocated, as a
longer one could take more than any buffer. -/
theorem Codec.fits_or_fails {α : Type} (codec : Codec S α) (definitions : Definitions S)
    (depth : Nat) (value : α) (cells : Cells) (capacity : Nat) :
    (∀ written after,
      codec.encode definitions depth value ⟨Sink.growable, cells⟩ = .ok written after →
      (after.stream.written.length ≤ capacity →
        codec.encode definitions depth value ⟨Sink.slice capacity, cells⟩ =
          .ok written ⟨⟨after.stream.written, capacity⟩, after.cells⟩) ∧
      (capacity < after.stream.written.length →
        ∃ e last, codec.encode definitions depth value ⟨Sink.slice capacity, cells⟩ =
            .error (.error e) last ∧
          e.OutOfRoom last.stream.room ∧ last.stream.capacity = capacity ∧
          last.stream.written <+: after.stream.written ∧
          last.stream.written.length ≤ capacity)) ∧
    (capacity ≤ maxAllocation → ∀ failure after,
      codec.encode definitions depth value ⟨Sink.growable, cells⟩ = .error failure after →
      ∃ failure' last, codec.encode definitions depth value ⟨Sink.slice capacity, cells⟩ =
        .error failure' last) := by
  have hnarrows := codec.narrows_encode definitions depth value
  have hslice : (Sink.slice capacity).room = capacity := Nat.sub_zero _
  refine ⟨fun written ⟨stream, last⟩ hrun ↦ ?_, fun hcapacity failure after hrun ↦ ?_⟩
  · obtain ⟨code, hcode⟩ := hnarrows.exists_extend hrun
    obtain rfl : stream = Sink.growable.extend code := hcode
    have hwritten : (Sink.growable.extend code).written = code := List.nil_append _
    rw [hwritten]
    obtain ⟨hfits, hslicerun⟩ | ⟨hshort, e, part, after, hfails, herror, hfront, hpart⟩ :=
      hnarrows.ok_or_out hrun (Sink.slice capacity)
    · exact ⟨fun _ ↦ hslicerun, fun hshort ↦ absurd (hfits.trans_eq hslice) (Nat.not_le.mpr hshort)⟩
    · refine ⟨fun hfits ↦ absurd (hslice ▸ hshort) (Nat.not_lt.mpr hfits), fun _ ↦ ?_⟩
      exact ⟨e, _, hfails, herror, rfl, hfront, hpart.trans_eq hslice⟩
  · cases hshort : codec.encode definitions depth value ⟨Sink.slice capacity, cells⟩ with
    | error failure' last => exact ⟨failure', last, rfl⟩
    | ok written last =>
      -- The buffer would have had room for it too.
      have hroom : (Sink.slice capacity).room ≤ Sink.growable.room :=
        (hslice.trans_le hcapacity).trans_eq Sink.room_growable.symm
      have hboth := hnarrows Sink.growable (Sink.slice capacity) cells hroom
      rw [hrun, hshort] at hboth
      cases hboth

/-- A text behind two lengths, and a number that is one byte too long for a slice of five. A value
that no sink takes, as its length does not fit, is refused by the slice too. -/
theorem Codec.fits_or_fails_five :
    let codec : Codec Signature.empty (String × BitVec 32 × Unit) := .tuple
      (.cons
        (.byteCounted (.leaf (.length .varint)) .unbounded
          (.countedText (.leaf (.length .u8)) (.upTo 1) .utf8))
        (.cons (.leaf (.varint 32)) .nil))
    let definitions : Definitions Signature.empty := nofun
    let bytes : List UInt8 := [3, 1, 0xC3, 0xA9, 0xAC, 0x02]
    let run (value : String × BitVec 32 × Unit) (sink : Sink) :=
      codec.encode definitions 0 value ⟨sink, Cells.fresh⟩
    run ("é", 300, ()) Sink.growable = .ok ⟨2, 6⟩ ⟨⟨bytes, maxAllocation⟩, Cells.fresh⟩ ∧
      bytes.length ≤ 6 ∧
      run ("é", 300, ()) (.slice 6) = .ok ⟨2, 6⟩ ⟨⟨bytes, 6⟩, Cells.fresh⟩ ∧
      5 < bytes.length ∧
      (∃ e last, run ("é", 300, ()) (.slice 5) = .error (.error e) last ∧
        e.OutOfRoom last.stream.room ∧ last.stream.capacity = 5 ∧
        last.stream.written <+: bytes ∧ last.stream.written.length ≤ 5) ∧
      5 ≤ maxAllocation ∧
      ∃ failure last, run ("éé", 300, ()) (.slice 5) = .error failure last := by
  intro codec definitions bytes run
  have hrun : run ("é", 300, ()) Sink.growable =
      .ok ⟨2, 6⟩ ⟨⟨bytes, maxAllocation⟩, Cells.fresh⟩ := by
    with_unfolding_all rfl
  have hrefused : run ("éé", 300, ()) Sink.growable =
      .error (.error { kind := .lengthOutOfRange 2 }) ⟨Sink.growable, Cells.fresh⟩ := by
    with_unfolding_all rfl
  have hlong := codec.fits_or_fails definitions 0 ("é", 300, ()) Cells.fresh 6
  have hshort := codec.fits_or_fails definitions 0 ("é", 300, ()) Cells.fresh 5
  have hnever := codec.fits_or_fails definitions 0 ("éé", 300, ()) Cells.fresh 5
  exact ⟨hrun, by decide, (hlong.1 _ _ hrun).1 (by decide), by decide,
    (hshort.1 _ _ hrun).2 (by decide), by decide, hnever.2 (by decide) _ _ hrefused⟩

end WireFormat
