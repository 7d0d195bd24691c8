import WireFormat.Codec.Counted
import WireFormat.Codec.Whole
import WireFormat.Proofs.Confinement
import WireFormat.Proofs.Hereditary

/-!
# Reports of encoders

An encoder that succeeds reports the number of bytes by which its sink has grown. Every way of
putting codecs together adds up numbers of its own (a length and a payload that was collected apart,
a tag and a value, the parts of a record that are present), and `Codec.writes_encode` compares each
sum with the bytes. It remains to see that nothing else makes `Codec.encodeToBytes` find a report
wrong: an encoder stops only for an error, a size that cannot be allocated or references that are
nested too deeply (`Codec.stopsFor_encode`). In particular it writes past the end of no sink.
`Codec.reports_bytes` is the statement of both.
-/

set_option autoImplicit false
set_option relaxedAutoImplicit false

namespace WireFormat

/-! ### Why an action stops -/

/-- If the action stops, it is for an error or for one of the defects. -/
def StopsFor {σ α : Type} (defects : Failure → Prop) (action : Action σ α) : Prop :=
  ∀ s failure s', action s = .error failure s' → failure.Within defects

section Actions

variable {σ τ α β : Type} {defects : Failure → Prop}

theorem stopsFor_pure (a : α) : StopsFor defects (pure a : Action σ α) := by
  intro s failure s' h
  cases h

theorem stopsFor_fail (kind : ErrorKind) : StopsFor defects (fail kind : Action σ α) := by
  intro s failure s' h
  cases h
  trivial

/-- Stopping for a defect is stopping for one of the defects. -/
theorem stopsFor_throw {failure : Failure} (h : defects failure) :
    StopsFor defects (throw failure : Action σ α) := by
  intro s failure' s' hrun
  cases hrun
  cases failure with
  | error e => trivial
  | _ => exact h

theorem stopsFor_ofExcept (result : Except Error α) :
    StopsFor defects (ofExcept result : Action σ α) := by
  cases result with
  | ok a => exact stopsFor_pure a
  | error e =>
    intro s failure s' h
    cases h
    trivial

theorem stopsFor_bind {action : Action σ α} {f : α → Action σ β}
    (haction : StopsFor defects action) (hf : ∀ a, StopsFor defects (f a)) :
    StopsFor defects (action >>= f) := by
  intro s failure s' h
  cases hrun : action s with
  | error cause middle =>
    rw [bind_of_error hrun] at h
    cases h
    exact haction s _ _ hrun
  | ok a middle =>
    rw [bind_of_ok hrun] at h
    exact hf a middle failure s' h

/-- Crossing a field changes errors only. -/
theorem stopsFor_inField {name : String} {action : Action σ α} (h : StopsFor defects action) :
    StopsFor defects (inField name action) := by
  intro s failure s' hrun
  unfold inField at hrun
  cases haction : action s with
  | ok a middle => simp [haction] at hrun
  | error cause middle =>
    have hcause := h s cause middle haction
    simp only [haction, EStateM.Result.error.injEq] at hrun
    obtain ⟨rfl, -⟩ := hrun
    cases cause <;> exact hcause

theorem stopsFor_onStream {action : Action σ α} (h : StopsFor defects action) :
    StopsFor defects (Stage.onStream action) := by
  intro stage failure after hrun
  unfold Stage.onStream at hrun
  cases haction : action stage.stream with
  | ok a stream => simp [haction] at hrun
  | error cause stream =>
    simp only [haction, EStateM.Result.error.injEq] at hrun
    exact hrun.1 ▸ h stage.stream cause stream haction

theorem stopsFor_onOther {other : τ} {action : Action (Stage τ) α} (h : StopsFor defects action) :
    StopsFor defects (Stage.onOther other action : Action (Stage σ) (α × τ)) := by
  intro stage failure after hrun
  unfold Stage.onOther at hrun
  cases haction : action ⟨other, stage.cells⟩ with
  | ok a last => simp [haction] at hrun
  | error cause last =>
    simp only [haction, EStateM.Result.error.injEq] at hrun
    exact hrun.1 ▸ h _ cause last haction

/-- A reference that cannot be used is an error. -/
theorem stopsFor_use (cell : LazyCell) :
    StopsFor defects (Stage.onCells (Cells.use cell) : Action (Stage σ) Unit) := by
  intro stage failure after hrun
  unfold Stage.onCells at hrun
  cases hcell : Cells.use cell stage.cells with
  | ok u cells => simp [hcell] at hrun
  | error cause cells =>
    simp only [hcell, EStateM.Result.error.injEq] at hrun
    obtain ⟨rfl, -⟩ := hrun
    unfold Cells.use at hcell
    dsimp only at hcell
    split_ifs at hcell
    cases hcell
    trivial

/-- Bytes are put only where there is room for them. -/
theorem stopsFor_put (bytes : List UInt8) : StopsFor defects (Sink.put bytes) := by
  intro sink failure after h
  by_cases hroom : bytes.length ≤ sink.room
  · rw [Sink.put_eq_ok.mpr ⟨hroom, rfl, rfl⟩] at h
    cases h
  · rw [Sink.put_of_lt (Nat.lt_of_not_le hroom)] at h
    cases h
    trivial

end Actions

/-! ### Encoders -/

variable {defects : Failure → Prop}

/-- What a leaf writes stops for an error, or for a filling that cannot be allocated. -/
theorem Sink.hereditary_stopsFor (hoverflow : defects .overflow) :
    Sink.Hereditary (StopsFor defects) where
  pure := stopsFor_pure
  fail := stopsFor_fail
  overflow := stopsFor_throw hoverflow
  bind := stopsFor_bind
  text _ _ := stopsFor_ofExcept _
  digits _ _ := stopsFor_ofExcept _
  put := stopsFor_put

/-- Where there are no levels of references left, a reference is nested too deeply. -/
theorem Encoding.hereditary_stopsFor (hoverflow : defects .overflow) (hdeep : defects .tooDeep) :
    Encoding.Hereditary (StopsFor defects) where
  ofExcept := stopsFor_ofExcept
  tooDeep := stopsFor_throw hdeep
  bind := stopsFor_bind
  inField _ _ := stopsFor_inField
  leaf leaf value :=
    stopsFor_onStream (leaf.hereditary_encode (Sink.hereditary_stopsFor hoverflow) value)
  put bytes := stopsFor_onStream (stopsFor_put bytes)
  scratch := stopsFor_onOther
  use := stopsFor_use

variable {S : Signature}

theorem Codec.stopsFor_encode {α : Type} (hoverflow : defects .overflow) (hdeep : defects .tooDeep)
    (codec : Codec S α) (definitions : Definitions S) (depth : Nat) (value : α) :
    StopsFor defects (codec.encode definitions depth value) :=
  codec.hereditary_encode (Encoding.hereditary_stopsFor hoverflow hdeep) definitions depth value

/-! ### Whole messages -/

variable {α : Type}

/-- Unless the declared size stops it, a whole message is what an encoder makes of an empty
buffer. -/
theorem Codec.encodeToBytes_cases (codec : Codec S α) (definitions : Definitions S) (depth : Nat)
    (value : α) (cells : Cells) :
    codec.encodeToBytes definitions depth value cells = .error .overflow cells ∨
    (∃ failure stage, codec.encode definitions depth value ⟨Sink.growable, cells⟩ =
        .error failure stage ∧
      codec.encodeToBytes definitions depth value cells = .error failure stage.cells) ∨
    ∃ written stage, codec.encode definitions depth value ⟨Sink.growable, cells⟩ =
        .ok written stage ∧
      codec.encodeToBytes definitions depth value cells =
        if written.bytes = stage.stream.written.length then .ok stage.stream.written stage.cells
        else .error .miscounted stage.cells := by
  unfold Codec.encodeToBytes
  cases hsize : codec.size.declared with
  | error failure =>
    left
    cases hdeclared : codec.size <;> rw [hdeclared] at hsize <;> cases hsize
    rfl
  | ok size =>
    dsimp only
    by_cases hlarge : size.any (maxAllocation < ·) = true
    · rw [if_pos hlarge]
      exact Or.inl rfl
    · rw [if_neg hlarge]
      right
      cases hrun : codec.encode definitions depth value ⟨Sink.growable, cells⟩ with
      | error failure stage => exact Or.inl ⟨failure, stage, rfl, rfl⟩
      | ok written stage => exact Or.inr ⟨written, stage, rfl, rfl⟩

/-- An encoder that succeeds has added its bytes to the sink, whatever the sink held, and reports
their number. So a whole message is never found to be misreported, and what is returned of it are
the bytes of the value. -/
theorem Codec.reports_bytes (codec : Codec S α) (definitions : Definitions S) (depth : Nat)
    (value : α) :
    (∀ stage written after, codec.encode definitions depth value stage = .ok written after →
      ∃ code, codec.wire definitions depth value = some code ∧
        after.stream = stage.stream.extend code ∧ code.length = written.bytes) ∧
    ∀ cells,
      (∀ bytes after, codec.encodeToBytes definitions depth value cells = .ok bytes after →
        codec.wire definitions depth value = some bytes) ∧
      ∀ after, codec.encodeToBytes definitions depth value cells ≠ .error .miscounted after := by
  have hwrites := codec.writes_encode definitions depth value
  refine ⟨fun stage written after h ↦ ?_, fun cells ↦ ?_⟩
  · obtain ⟨code, hcode, hafter, hbytes⟩ := hwrites stage written after h
    exact ⟨code, hcode, hafter, hbytes.symm⟩
  · obtain hsize | ⟨failure, stage, hrun, hwhole⟩ | ⟨written, stage, hrun, hwhole⟩ :=
      codec.encodeToBytes_cases definitions depth value cells
    · rw [hsize]
      exact ⟨nofun, nofun⟩
    · have hstops : StopsFor (· ≠ .miscounted) (codec.encode definitions depth value) :=
        codec.stopsFor_encode nofun nofun definitions depth value
      rw [hwhole]
      refine ⟨nofun, fun after h ↦ ?_⟩
      cases h
      exact hstops _ _ _ hrun rfl
    · obtain ⟨code, hcode, hstage, hbytes⟩ := hwrites _ _ _ hrun
      have hwritten : stage.stream.written = code := by
        rw [hstage]
        rfl
      rw [hwhole, hwritten, if_pos hbytes, hcode]
      refine ⟨fun bytes after h ↦ ?_, nofun⟩
      cases h
      rfl

/-- A text behind two lengths, one in groups of seven bits, and a number in such groups, written
behind what a sink held and to an empty buffer. -/
theorem Codec.reports_bytes_nested :
    let codec : Codec Signature.empty (String × BitVec 32 × Unit) := .tuple
      (.cons
        (.byteCounted (.leaf (.length .varint)) .unbounded
          (.countedText (.leaf (.length .u8)) .unbounded .utf8))
        (.cons (.leaf (.varint 32)) .nil))
    let definitions : Definitions Signature.empty := nofun
    let bytes : List UInt8 := [3, 1, 0xC3, 0xA9, 0xAC, 0x02]
    codec.encode definitions 0 ("é", 300, ()) ⟨⟨[9], 20⟩, Cells.fresh⟩ =
        .ok ⟨2, 6⟩ ⟨⟨9 :: bytes, 20⟩, Cells.fresh⟩ ∧
      (∃ code, codec.wire definitions 0 ("é", 300, ()) = some code ∧
        (⟨9 :: bytes, 20⟩ : Sink) = Sink.extend ⟨[9], 20⟩ code ∧ code.length = 6) ∧
      codec.encodeToBytes definitions 0 ("é", 300, ()) Cells.fresh = .ok bytes Cells.fresh ∧
      codec.wire definitions 0 ("é", 300, ()) = some bytes := by
  intro codec definitions bytes
  have hencode : codec.encode definitions 0 ("é", 300, ()) ⟨⟨[9], 20⟩, Cells.fresh⟩ =
      .ok ⟨2, 6⟩ ⟨⟨9 :: bytes, 20⟩, Cells.fresh⟩ := by
    with_unfolding_all rfl
  have hwhole : codec.encodeToBytes definitions 0 ("é", 300, ()) Cells.fresh =
      .ok bytes Cells.fresh := by
    with_unfolding_all rfl
  obtain ⟨hreports, hmessages⟩ := codec.reports_bytes definitions 0 ("é", 300, ())
  exact ⟨hencode, hreports _ _ _ hencode, hwhole, (hmessages Cells.fresh).1 _ _ hwhole⟩

end WireFormat
