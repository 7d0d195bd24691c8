import WireFormat.Proofs.SelfDelimiting

/-!
# Limits on lengths

A length stands between two limits: the bounds of a range, of which each may include its end,
exclude it or be absent (`LengthRange.lengths`), and what the width of the length field can hold. A
value behind the number of its bytes and one behind a count meet the limits at different moments,
the one when its payload is collected, the other before anything else; but both write and read the
length in one way (`Encoding.limited`, `Decoding.limited`). So a length that the encoder lets
through is let through by the decoder, and any other is refused by both
(`Codec.enforces_length_limits`).
-/

set_option autoImplicit false
set_option relaxedAutoImplicit false

namespace WireFormat

/-! ### Ranges as sets -/

/-- The lengths that satisfy the bound as a lower one. -/
def Bound.lengthsAbove : Bound → Set Nat
  | .unbounded => Set.univ
  | .included first => Set.Ici first
  | .excluded first => Set.Ioi first

/-- The lengths that satisfy the bound as an upper one. -/
def Bound.lengthsBelow : Bound → Set Nat
  | .unbounded => Set.univ
  | .included last => Set.Iic last
  | .excluded last => Set.Iio last

namespace LengthRange

/-- The lengths that satisfy both bounds. There is none where the bounds leave no room. -/
def lengths (range : LengthRange) : Set Nat :=
  range.lower.lengthsAbove ∩ range.upper.lengthsBelow

variable {range : LengthRange} {n : Nat}

theorem admitsBelow_iff {bound : Bound} : admitsBelow bound n = true ↔ n ∈ bound.lengthsAbove := by
  cases bound <;> simp [admitsBelow, Bound.lengthsAbove]

theorem admitsAbove_iff {bound : Bound} : admitsAbove bound n = true ↔ n ∈ bound.lengthsBelow := by
  cases bound <;> simp [admitsAbove, Bound.lengthsBelow]

/-- A range contains what satisfies both of its bounds. -/
theorem contains_iff : range.contains n = true ↔ n ∈ range.lengths := by
  rw [contains, Bool.and_eq_true, admitsBelow_iff, admitsAbove_iff]
  rfl

theorem not_contains_iff : range.contains n = false ↔ n ∉ range.lengths := by
  rw [← contains_iff, Bool.not_eq_true]

theorem contains_unbounded (n : Nat) : unbounded.contains n = true := rfl

theorem check_of_inside (h : range.contains n = true) : range.check n = .ok n :=
  check_eq_ok.mpr ⟨h, rfl⟩

theorem check_of_outside (h : range.contains n = false) :
    range.check n = .error { kind := .lengthOutOfRange n } := by
  rw [check, if_neg (by simp [h])]

end LengthRange

/-! ### Behind a length in a range -/

namespace Decoding

variable {α : Type} {lead : Decoding Nat} {range : LengthRange} {next : Nat → Decoding α}
  {stage middle : Stage Source} {n : Nat}

/-- Reads a length, and goes on behind it where it is in the range. -/
def limited (lead : Decoding Nat) (range : LengthRange) (next : Nat → Decoding α) :
    Decoding α := do
  let n ← ofExcept (range.check (← lead))
  next n

theorem limited_of_outside (hlead : lead stage = .ok n middle) (h : range.contains n = false) :
    limited lead range next stage = .error (.error { kind := .lengthOutOfRange n }) middle := by
  refine (bind_of_ok hlead _).trans (bind_of_error ?_ _)
  rw [LengthRange.check_of_outside h, ofExcept_error]

theorem limited_of_inside (hlead : lead stage = .ok n middle) (h : range.contains n = true) :
    limited lead range next stage = next n middle := by
  refine (bind_of_ok hlead _).trans (bind_of_ok ?_ _)
  rw [LengthRange.check_of_inside h, ofExcept_ok]

end Decoding

namespace Encoding

variable {lead : Nat → Encoding} {range : LengthRange} {next : Nat → Written → Encoding}
  {stage after : Stage Sink} {written : Written} {n : Nat} {width : LengthWidth}

/-- Writes a length that is in the range, and goes on behind it. -/
def limited (lead : Nat → Encoding) (range : LengthRange) (n : Nat)
    (next : Nat → Written → Encoding) : Encoding := do
  let n ← ofExcept (range.check n)
  let written ← lead n
  next n written

theorem limited_of_outside (h : range.contains n = false) (stage : Stage Sink) :
    limited lead range n next stage = .error (.error { kind := .lengthOutOfRange n }) stage := by
  refine bind_of_error ?_ _
  rw [LengthRange.check_of_outside h, ofExcept_error]

theorem limited_of_inside (h : range.contains n = true) :
    limited lead range n next = lead n >>= next n := by
  funext stage
  refine bind_of_ok ?_ _
  rw [LengthRange.check_of_inside h, ofExcept_ok]

/-- A length that the width cannot hold is refused in any range. -/
theorem limited_of_limit_le (h : width.limit ≤ n) (stage : Stage Sink) :
    limited (fun n ↦ Stage.onStream (width.encode n)) range n next stage =
      .error (.error { kind := .lengthOutOfRange n }) stage := by
  cases hrange : range.contains n with
  | false => exact limited_of_outside hrange stage
  | true =>
    rw [limited_of_inside hrange]
    refine bind_of_error (Stage.onStream_of_error ?_) _
    rw [LengthWidth.encode_of_limit_le h, fail_apply]

/-- What goes on behind a length has found it within both limits. -/
theorem limits_of_limited
    (h : limited (fun n ↦ Stage.onStream (width.encode n)) range n next stage =
      .ok written after) :
    range.contains n = true ∧ n < width.limit := by
  constructor
  · cases hrange : range.contains n with
    | true => rfl
    | false =>
      rw [limited_of_outside hrange] at h
      cases h
  · by_contra hlimit
    rw [limited_of_limit_le (Nat.not_lt.mp hlimit)] at h
    cases h

end Encoding

/-! ### Codecs behind a length -/

namespace Codec

variable {S : Signature} {α : Type} {definitions : Definitions S} {depth : Nat}
  {length : Codec S Nat} {range : LengthRange} {payload : Codec S α} {value : α}
  {stage last : Stage Sink} {written : Written}

/-- Behind a payload that has been collected, the length is that of what was collected. -/
theorem encode_byteCounted_of_ok
    (h : payload.encode definitions depth value ⟨Sink.growable, stage.cells⟩ =
      .ok written last) :
    (byteCounted length range payload).encode definitions depth value stage =
      Encoding.limited (length.encode definitions depth) range last.stream.written.length
        (fun _ lead ↦ do
          let _ ← Stage.onStream (Sink.put last.stream.written)
          return ⟨written.count, lead.bytes + written.bytes⟩)
        { stage with cells := last.cells } :=
  bind_of_ok (Stage.onOther_of_ok h) _

theorem encode_itemCounted (count : α → Nat) (body : Nat → Codec S α) :
    (itemCounted length range count body).encode definitions depth value =
      Encoding.limited (length.encode definitions depth) range (count value)
        (fun n lead ↦ do
          let inner ← (body n).encode definitions depth value
          return ⟨n, lead.bytes + inner.bytes⟩) :=
  rfl

theorem decode_byteCounted :
    (byteCounted length range payload).decode definitions depth =
      Decoding.limited (length.decode definitions depth) range
        (fun n ↦ do
          let frame ← Stage.onStream (Source.take n)
          Decoding.inFrame frame (payload.decode definitions depth)) :=
  rfl

theorem decode_itemCounted (count : α → Nat) (body : Nat → Codec S α) :
    (itemCounted length range count body).decode definitions depth =
      Decoding.limited (length.decode definitions depth) range
        (fun n ↦ (body n).decode definitions depth) :=
  rfl

/-- The payload of the value can be written and takes `n` bytes. The references used for that turn
`before` into `after`. -/
def Collects (payload : Codec S α) (definitions : Definitions S) (depth : Nat) (value : α)
    (before : Cells) (n : Nat) (after : Cells) : Prop :=
  ∃ written last, payload.encode definitions depth value ⟨Sink.growable, before⟩ =
    .ok written last ∧ last.stream.written.length = n ∧ last.cells = after

/-- The codecs `framed`, by their range, put a value behind a length, and hold this length to the
range and to the width alike when they write and when they read. Of a value, `measures` tells the
length, and what finding it out makes of the references. -/
structure EnforcesLimits (framed : LengthRange → Codec S α) (width : LengthWidth)
    (definitions : Definitions S) (depth : Nat)
    (measures : α → Cells → Nat → Cells → Prop) : Prop where
  /-- What is written has a length within both limits. From it, whatever follows, this length is
  read, and reading goes on as without a range. -/
  written : ∀ range value stage written after,
    (framed range).encode definitions depth value stage = .ok written after →
    ∃ n cells code, measures value stage.cells n cells ∧
      n ∈ range.lengths ∧ n < width.limit ∧ after.stream = stage.stream.extend code ∧
      ∀ (source : Source) (suffix : List UInt8), source.bytes = code ++ suffix →
        ∃ middle, width.decode source = .ok n middle ∧ ∀ cells,
          (framed range).decode definitions depth ⟨source, cells⟩ =
            (framed .unbounded).decode definitions depth ⟨source, cells⟩
  /-- A length outside either limit is refused, and nothing is written. -/
  refused : ∀ range value (stage : Stage Sink) n cells, measures value stage.cells n cells →
    n ∉ range.lengths ∨ width.limit ≤ n →
    (framed range).encode definitions depth value stage =
      .error (.error { kind := .lengthOutOfRange n }) ⟨stage.stream, cells⟩
  /-- With a length in the range, a value is written as without a range. -/
  admitted : ∀ range value (stage : Stage Sink) n cells, measures value stage.cells n cells →
    n ∈ range.lengths →
    (framed range).encode definitions depth value stage =
      (framed .unbounded).encode definitions depth value stage
  /-- A length that is read and not in the range is refused, and nothing is taken but its bytes. -/
  outside : ∀ range (source middle : Source) (cells : Cells) n,
    width.decode source = .ok n middle → n ∉ range.lengths →
    (framed range).decode definitions depth ⟨source, cells⟩ =
      .error (.error { kind := .lengthOutOfRange n }) ⟨middle, cells⟩
  /-- Behind a length in the range, reading goes on as without a range. -/
  inside : ∀ range (source middle : Source) (cells : Cells) n,
    width.decode source = .ok n middle → n ∈ range.lengths →
    (framed range).decode definitions depth ⟨source, cells⟩ =
      (framed .unbounded).decode definitions depth ⟨source, cells⟩

/-- It is enough that the length is written and read in the common way, and that the bytes of a
value start with those of its length. -/
theorem enforcesLimits_of_limited {framed : LengthRange → Codec S α} {width : LengthWidth}
    {measures : α → Cells → Nat → Cells → Prop}
    (hmeasured : ∀ range value stage written after,
      (framed range).encode definitions depth value stage = .ok written after →
      ∃ n cells, measures value stage.cells n cells)
    (hencode : ∀ value (stage : Stage Sink) n cells, measures value stage.cells n cells →
      ∃ next, ∀ range, (framed range).encode definitions depth value stage =
        Encoding.limited (fun n ↦ Stage.onStream (width.encode n)) range n next
          ⟨stage.stream, cells⟩)
    (hwire : ∀ range value before n after code, measures value before n after →
      (framed range).wire definitions depth value = some code →
      ∃ lead tail, width.wire? n = some lead ∧ code = lead ++ tail)
    (hdecode : ∃ next, ∀ range, (framed range).decode definitions depth =
      Decoding.limited (Stage.onStream width.decode) range next) :
    EnforcesLimits framed width definitions depth measures := by
  obtain ⟨next, hdecode⟩ := hdecode
  have hinside : ∀ range (source middle : Source) (cells : Cells) n,
      width.decode source = .ok n middle → n ∈ range.lengths →
      (framed range).decode definitions depth ⟨source, cells⟩ =
        (framed .unbounded).decode definitions depth ⟨source, cells⟩ := by
    intro range source middle cells n hread hmem
    have hlead : Stage.onStream width.decode ⟨source, cells⟩ = .ok n ⟨middle, cells⟩ :=
      Stage.onStream_of_ok hread
    rw [hdecode, hdecode, Decoding.limited_of_inside hlead (LengthRange.contains_iff.mpr hmem),
      Decoding.limited_of_inside hlead (LengthRange.contains_unbounded n)]
  refine ⟨?_, ?_, ?_, ?_, hinside⟩
  · intro range value stage written after hrun
    obtain ⟨n, cells, hmeasures⟩ := hmeasured range value stage written after hrun
    obtain ⟨behind, hlimited⟩ := hencode value stage n cells hmeasures
    obtain ⟨hcontains, hlimit⟩ := Encoding.limits_of_limited ((hlimited range).symm.trans hrun)
    obtain ⟨code, hcode, hafter, -⟩ :=
      (framed range).writes_encode definitions depth value stage written after hrun
    obtain ⟨lead, tail, hlead, rfl⟩ := hwire range value _ n cells code hmeasures hcode
    have hmem := LengthRange.contains_iff.mp hcontains
    refine ⟨n, cells, lead ++ tail, hmeasures, hmem, hlimit, hafter, ?_⟩
    intro source suffix hbytes
    rw [List.append_assoc] at hbytes
    obtain ⟨middle, hread, -⟩ := LengthWidth.decode_wire? hlead hbytes
    exact ⟨middle, hread, fun cells ↦ hinside range source middle cells n hread hmem⟩
  · intro range value stage n cells hmeasures hmisfit
    obtain ⟨behind, hlimited⟩ := hencode value stage n cells hmeasures
    rw [hlimited]
    rcases hmisfit with hrange | hlimit
    · exact Encoding.limited_of_outside (LengthRange.not_contains_iff.mpr hrange) _
    · exact Encoding.limited_of_limit_le hlimit _
  · intro range value stage n cells hmeasures hmem
    obtain ⟨behind, hlimited⟩ := hencode value stage n cells hmeasures
    rw [hlimited, hlimited, Encoding.limited_of_inside (LengthRange.contains_iff.mpr hmem),
      Encoding.limited_of_inside (LengthRange.contains_unbounded n)]
  · intro range source middle cells n hread hmem
    rw [hdecode]
    exact Decoding.limited_of_outside (Stage.onStream_of_ok hread)
      (LengthRange.not_contains_iff.mpr hmem)

/-- The length of a collected payload is that of its bytes. -/
theorem wire_of_collects {before after : Cells} {n : Nat}
    (h : payload.Collects definitions depth value before n after) :
    ∃ inner, payload.wire definitions depth value = some inner ∧ inner.length = n := by
  obtain ⟨written, last, hrun, rfl, rfl⟩ := h
  obtain ⟨inner, hinner, hlast, -⟩ :=
    payload.writes_encode definitions depth value _ written last hrun
  refine ⟨inner, hinner, ?_⟩
  rw [hlast, Sink.written_extend]
  rfl

theorem enforcesLimits_byteCounted (width : LengthWidth) (payload : Codec S α)
    (definitions : Definitions S) (depth : Nat) :
    EnforcesLimits (fun range ↦ byteCounted (.leaf (.length width)) range payload) width
      definitions depth (payload.Collects definitions depth) := by
  refine enforcesLimits_of_limited ?_ ?_ ?_ ⟨_, fun range ↦ decode_byteCounted⟩
  · intro range value stage written after hrun
    obtain ⟨⟨inner, scratch⟩, middle, hcollected, -⟩ := bind_eq_ok.mp hrun
    obtain ⟨hpayload, -⟩ := Stage.onOther_eq_ok.mp hcollected
    exact ⟨_, _, inner, _, hpayload, rfl, rfl⟩
  · rintro value stage n cells ⟨written, last, hpayload, rfl, rfl⟩
    exact ⟨_, fun range ↦ encode_byteCounted_of_ok hpayload⟩
  · intro range value before n after code hcollects hcode
    obtain ⟨inner, hinner, rfl⟩ := wire_of_collects hcollects
    obtain ⟨other, lead, hother, -, hlead, rfl⟩ := wire?_byteCounted_eq_some.mp hcode
    obtain rfl : inner = other := Option.some.inj (hinner.symm.trans hother)
    exact ⟨lead, inner, hlead, rfl⟩

theorem enforcesLimits_itemCounted (width : LengthWidth) (count : α → Nat)
    (body : Nat → Codec S α) (definitions : Definitions S) (depth : Nat) :
    EnforcesLimits (fun range ↦ itemCounted (.leaf (.length width)) range count body) width
      definitions depth (fun value before n after ↦ n = count value ∧ after = before) := by
  refine enforcesLimits_of_limited ?_ ?_ ?_ ⟨_, fun range ↦ decode_itemCounted count body⟩
  · exact fun range value stage written after _ ↦ ⟨count value, stage.cells, rfl, rfl⟩
  · rintro value stage n cells ⟨rfl, rfl⟩
    exact ⟨_, fun range ↦ congrFun (encode_itemCounted count body) stage⟩
  · rintro range value before n after code ⟨rfl, rfl⟩ hcode
    obtain ⟨lead, inner, -, hlead, -, rfl⟩ := wire?_itemCounted_eq_some.mp hcode
    exact ⟨lead, inner, hlead, rfl⟩

/-! ### Main statement -/

/-- Whatever the width of the length, the payload and the definitions, a value behind the number of
its bytes and one behind a count have a length that is held to every range, in writing and in
reading alike. -/
theorem enforces_length_limits (width : LengthWidth) (definitions : Definitions S)
    (depth : Nat) :
    (∀ payload : Codec S α,
      EnforcesLimits (fun range ↦ byteCounted (.leaf (.length width)) range payload) width
        definitions depth (payload.Collects definitions depth)) ∧
    ∀ (count : α → Nat) (body : Nat → Codec S α),
      EnforcesLimits (fun range ↦ itemCounted (.leaf (.length width)) range count body) width
        definitions depth (fun value before n after ↦ n = count value ∧ after = before) :=
  ⟨fun payload ↦ enforcesLimits_byteCounted width payload definitions depth,
    fun count body ↦ enforcesLimits_itemCounted width count body definitions depth⟩

/-- A range whose bounds leave no room refuses three bytes, both the bytes themselves and the length
three in front of them; so does one that admits a count of two alone, when there are three items.
Two items are written, and their count passes. -/
theorem enforces_length_limits_of_three :
    let framed (range : LengthRange) : Codec Signature.empty (List UInt8) :=
      .byteCounted (.leaf (.length .u8)) range (.leaf .remainingBytes)
    let counted (range : LengthRange) : Codec Signature.empty (List Bool) :=
      .countedList (.leaf (.length .u8)) range (.leaf .bool)
    let inverted : LengthRange := ⟨.excluded 3, .included 2⟩
    let onlyTwo : LengthRange := ⟨.excluded 1, .excluded 3⟩
    let definitions : Definitions Signature.empty := nofun
    let sink : Stage Sink := ⟨⟨[9], 64⟩, Cells.fresh⟩
    let tooLong : Failure := .error { kind := .lengthOutOfRange 3 }
    (framed inverted).encode definitions 0 [1, 0, 1] sink = .error tooLong sink ∧
    (framed inverted).decode definitions 0 ⟨⟨[[3], [1, 0, 1]]⟩, Cells.fresh⟩ =
      .error tooLong ⟨⟨[[], [1, 0, 1]]⟩, Cells.fresh⟩ ∧
    (counted onlyTwo).encode definitions 0 [true, false, true] sink = .error tooLong sink ∧
    (counted onlyTwo).decode definitions 0 ⟨⟨[[3], [1, 0, 1]]⟩, Cells.fresh⟩ =
      .error tooLong ⟨⟨[[], [1, 0, 1]]⟩, Cells.fresh⟩ ∧
    (counted onlyTwo).decode definitions 0 ⟨⟨[[2, 1, 0, 7]]⟩, Cells.fresh⟩ =
      .ok [true, false] ⟨⟨[[7]]⟩, Cells.fresh⟩ := by
  intro framed counted inverted onlyTwo definitions sink tooLong
  obtain ⟨hbytes, -⟩ := enforces_length_limits (α := List UInt8) .u8 definitions 0
  obtain ⟨-, hitems⟩ := enforces_length_limits (α := List Bool) .u8 definitions 0
  have hframed := hbytes (.leaf .remainingBytes)
  have hcounted := hitems List.length fun n ↦ .fixedList (.leaf .bool) n
  have hcollects : (Codec.leaf (S := Signature.empty) .remainingBytes).Collects definitions 0
      [1, 0, 1] Cells.fresh 3 Cells.fresh :=
    ⟨⟨3, 3⟩, ⟨⟨[1, 0, 1], maxAllocation⟩, Cells.fresh⟩, by with_unfolding_all rfl, rfl, rfl⟩
  have hread : LengthWidth.u8.decode ⟨[[3], [1, 0, 1]]⟩ = .ok 3 ⟨[[], [1, 0, 1]]⟩ := by decide
  have htwo : LengthWidth.u8.decode ⟨[[2, 1, 0, 7]]⟩ = .ok 2 ⟨[[1, 0, 7]]⟩ := by decide
  have hinverted : 3 ∉ inverted.lengths := LengthRange.not_contains_iff.mp rfl
  have honlyTwo : 3 ∉ onlyTwo.lengths := LengthRange.not_contains_iff.mp rfl
  refine ⟨hframed.refused inverted _ sink 3 _ hcollects (Or.inl hinverted),
    hframed.outside inverted _ _ _ 3 hread hinverted,
    hcounted.refused onlyTwo _ sink 3 _ ⟨rfl, rfl⟩ (Or.inl honlyTwo),
    hcounted.outside onlyTwo _ _ _ 3 hread honlyTwo, ?_⟩
  refine (hcounted.inside onlyTwo _ _ _ 2 htwo (LengthRange.contains_iff.mp rfl)).trans ?_
  with_unfolding_all rfl

end Codec

end WireFormat
