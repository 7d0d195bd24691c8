import WireFormat.Proofs.DeclaredSize

/-!
# Encoders that get through

An encoder fails for one of three reasons: the format has no bytes for the value, a reference cannot
be used, or there is no room, in the sink or in the buffer in which the payload of a frame is
collected. Where none of them applies it succeeds (`Codec.delivers_encodeWith`), and what it adds to
its sink are the bytes of the value.
-/

set_option autoImplicit false
set_option relaxedAutoImplicit false

namespace WireFormat

/-! ### Leaves -/

namespace Sink

theorem room_growable : growable.room = maxAllocation := Nat.sub_zero _

/-- The encoder adds the bytes to any sink that has room for them, and reports their number. -/
def Accepts (encoder : Action Sink Written) (code : List UInt8) : Prop :=
  ∀ sink : Sink, code.length ≤ sink.room → code.length ≤ maxAllocation →
    ∃ written, encoder sink = .ok written (sink.extend code) ∧ written.bytes = code.length

/-- What is put, all at once or in two parts, is accepted where there is room for it. -/
theorem Puts.accepts {encoder : Action Sink Written} {code? : Option (List UInt8)}
    {parts : List UInt8 → List UInt8 → Prop} {code : List UInt8} (h : Puts encoder code? parts)
    (hcode : code? = some code) : Accepts encoder code := by
  intro sink hroom hallocation
  cases h with
  | refuses _ hnone => exact absurd hallocation (Nat.not_le.mpr (hnone code hcode))
  | once bytes report h hreport hbytes =>
    obtain rfl : bytes = code := Option.some.inj (hbytes.symm.trans hcode)
    exact ⟨_, h ▸ put_report_eq_ok.mpr ⟨hroom, rfl, rfl⟩, hreport _⟩
  | both front back report h hreport _ hbytes =>
    obtain rfl : front ++ back = code := Option.some.inj (hbytes.symm.trans hcode)
    exact ⟨_, h ▸ putBoth_eq_ok.mpr ⟨hroom, rfl, rfl⟩,
      (hreport _ _).trans List.length_append.symm⟩

end Sink

/-- A leaf writes the bytes of a value where there is room for them. -/
theorem Leaf.accepts_encode {α : Type} {leaf : Leaf α} {value : α} {code : List UInt8}
    (h : leaf.wire? value = some code) : Sink.Accepts (leaf.encode value) code :=
  (leaf.puts_encode value).accepts h

/-! ### Codecs -/

/-- Where a value has bytes, they can be allocated and there is room for them, the encoder adds them
to its sink and reports their number. It starts and ends with references that are `ready`. -/
def Encoding.Delivers (encoder : Encoding) (ready : Cells → Prop) (code? : Option (List UInt8)) :
    Prop :=
  ∀ code, code? = some code → ∀ stage : Stage Sink, ready stage.cells →
    code.length ≤ stage.stream.room → code.length ≤ maxAllocation →
    ∃ written after, encoder stage = .ok written after ∧
      after.stream = stage.stream.extend code ∧ written.bytes = code.length ∧ ready after.cells

namespace Encoding

variable {α : Type} {ready : Cells → Prop}

theorem delivers_none (encoder : Encoding) : encoder.Delivers ready none := nofun

theorem delivers_pure : Delivers (pure Written.none) ready (some []) := by
  rintro code ⟨⟩ stage hready _ _
  exact ⟨Written.none, stage, rfl, (Sink.extend_nil _).symm, rfl, hready⟩

theorem delivers_onStream {action : Action Sink Written} {code? : Option (List UInt8)}
    (h : ∀ code, code? = some code → Sink.Accepts action code) :
    Delivers (Stage.onStream action) ready code? := by
  intro code hcode stage hready hroom hallocation
  obtain ⟨written, hrun, hbytes⟩ := h code hcode stage.stream hroom hallocation
  exact ⟨written, _, Stage.onStream_of_ok hrun, rfl, hbytes, hready⟩

theorem delivers_inField {name : String} {encoder : Encoding} {code? : Option (List UInt8)}
    (h : encoder.Delivers ready code?) : Delivers (inField name encoder) ready code? := by
  intro code hcode stage hready hroom hallocation
  obtain ⟨written, after, hrun, hafter⟩ := h code hcode stage hready hroom hallocation
  exact ⟨written, after, inField_eq_ok.mpr hrun, hafter⟩

theorem delivers_guard {condition : Prop} [Decidable condition] {kind : ErrorKind}
    {encoder : Encoding} {code? : Option (List UInt8)} (h : encoder.Delivers ready code?) :
    Delivers (if condition then fail kind >>= fun _ : PUnit ↦ encoder else encoder) ready
      (if condition then none else code?) := by
  by_cases hcondition : condition
  · rw [if_pos hcondition, if_pos hcondition]
    exact delivers_none _
  · rwa [if_neg hcondition, if_neg hcondition]

/-- Two encoders one after the other, the second with the room that the first leaves. -/
theorem delivers_both {first second : Encoding} {firstCode? secondCode? : Option (List UInt8)}
    (hfirst : first.Delivers ready firstCode?) (hsecond : second.Delivers ready secondCode?)
    {report : Written → Written → Written}
    (hreport : ∀ w w', (report w w').bytes = w.bytes + w'.bytes) :
    Delivers (do
        let w ← first
        let w' ← second
        return report w w')
      ready
      (do
        let front ← firstCode?
        let back ← secondCode?
        return front ++ back) := by
  intro code hcode stage hready hroom hallocation
  cases hfront : firstCode? with
  | none => simp [hfront] at hcode
  | some front =>
    cases hback : secondCode? with
    | none => simp [hfront, hback] at hcode
    | some back =>
      obtain rfl : front ++ back = code := by simpa [hfront, hback] using hcode
      rw [List.length_append] at hroom hallocation
      obtain ⟨w, middle, hrun, hmiddle, hbytes, hready'⟩ :=
        hfirst front hfront stage hready (by omega) (by omega)
      have hroom' : back.length ≤ middle.stream.room := by
        rw [hmiddle, Sink.room_extend]
        omega
      obtain ⟨w', last, hrun', hlast, hbytes', hready''⟩ :=
        hsecond back hback middle hready' hroom' (by omega)
      refine ⟨report w w', last, ?_, ?_, ?_, hready''⟩
      · rw [bind_of_ok hrun, bind_of_ok hrun', pure_apply]
      · rw [hlast, hmiddle, Sink.extend_extend]
      · rw [hreport, hbytes, hbytes', List.length_append]

theorem delivers_items {item : α → Encoding} {code? : α → Option (List UInt8)}
    (hitem : ∀ value, (item value).Delivers ready (code? value)) (count : Nat)
    (values : List α) :
    Delivers (do return ⟨count, ← items item values⟩) ready (wireAll code? values) := by
  induction values generalizing count with
  | nil =>
    rintro code ⟨⟩ stage hready _ _
    exact ⟨⟨count, 0⟩, stage, rfl, (Sink.extend_nil _).symm, rfl, hready⟩
  | cons value values ih =>
    have hitems : (do return (⟨count, ← items item (value :: values)⟩ : Written)) = (do
        let w ← item value
        let w' ← (do return ⟨count, ← items item values⟩ : Encoding)
        return ⟨count, w.bytes + w'.bytes⟩ : Encoding) := by
      simp only [items, bind_assoc, pure_bind]
    rw [hitems]
    exact delivers_both (hitem value) (ih count) fun _ _ ↦ rfl

theorem delivers_entries {E : Type} {entry : E → Encoding} {code? : E → Option (List UInt8)}
    (hentry : ∀ e, (entry e).Delivers ready (code? e)) (list : List E) :
    Delivers (entries entry list) ready (wireAll code? list) := by
  induction list with
  | nil => exact delivers_pure
  | cons e list ih => exact delivers_both (hentry e) ih fun _ _ ↦ rfl

/-- The payload of a frame is collected in a buffer of its own before its length is written. -/
theorem delivers_frame {payload : Encoding} {length : Nat → Encoding} {range : LengthRange}
    {payloadCode? : Option (List UInt8)} {lengthCode? : Nat → Option (List UInt8)}
    (hpayload : payload.Delivers ready payloadCode?)
    (hlength : ∀ n, (length n).Delivers ready (lengthCode? n)) :
    Delivers (do
        let (inner, scratch) ← Stage.onOther Sink.growable payload
        let n ← ofExcept (range.check scratch.written.length)
        let lead ← length n
        let _ ← Stage.onStream (Sink.put scratch.written)
        return ⟨inner.count, lead.bytes + inner.bytes⟩)
      ready
      (do
        let inner ← payloadCode?
        if range.contains inner.length then
          let lead ← lengthCode? inner.length
          return lead ++ inner
        else none) := by
  intro code hcode stage hready hroom hallocation
  obtain ⟨inner, hinner, hcode⟩ := Option.bind_eq_some_iff.mp hcode
  obtain ⟨hrange, hcode⟩ := Option.ite_none_right_eq_some.mp hcode
  obtain ⟨lead, hlead, hcode⟩ := Option.bind_eq_some_iff.mp hcode
  obtain rfl := Option.some.inj hcode
  rw [List.length_append] at hroom hallocation
  have hinnerFits : inner.length ≤ maxAllocation := by omega
  obtain ⟨w, filled, hrun, hfilled, hbytes, hready'⟩ :=
    hpayload inner hinner ⟨Sink.growable, stage.cells⟩ hready
      (hinnerFits.trans_eq Sink.room_growable.symm) hinnerFits
  have hscratch : filled.stream.written = inner := by
    rw [hfilled]
    rfl
  obtain ⟨w', middle, hrun', hmiddle, hbytes', hready''⟩ :=
    hlength inner.length lead hlead ⟨stage.stream, filled.cells⟩ hready'
      (show lead.length ≤ stage.stream.room by omega) (by omega)
  have hput : Sink.put inner middle.stream =
      .ok inner.length (middle.stream.extend inner) := by
    refine Sink.put_eq_ok.mpr ⟨?_, rfl, rfl⟩
    rw [hmiddle, Sink.room_extend]
    exact Nat.le_sub_of_add_le (Nat.add_comm lead.length _ ▸ hroom)
  have hcheck : range.check inner.length = .ok inner.length :=
    LengthRange.check_eq_ok.mpr ⟨hrange, rfl⟩
  refine ⟨⟨w.count, w'.bytes + w.bytes⟩, { middle with stream := middle.stream.extend inner },
    ?_, ?_, ?_, hready''⟩
  · rw [bind_of_ok (Stage.onOther_of_ok hrun)]
    simp only [hscratch]
    rw [hcheck, bind_of_ok (ofExcept_ok _ _), bind_of_ok hrun',
      bind_of_ok (Stage.onStream_of_ok hput), pure_apply]
  · rw [hmiddle, Sink.extend_extend]
  · rw [hbytes, hbytes', List.length_append]

end Encoding

open Encoding

variable {S : Signature} {ready : Cells → Prop} {cells : LazyCell → Prop}
  {references : (name : S.Name) → S.Value name → Encoding}
  {codes : (name : S.Name) → S.Value name → Option (List UInt8)}

mutual

/-- The cells of all references in the codec are among these. -/
def Codec.CellsIn (cells : LazyCell → Prop) : {α : Type} → Codec S α → Prop
  | _, .leaf _ => True
  | _, .tuple items => items.CellsIn cells
  | _, .fixedList item _ => item.CellsIn cells
  | _, .exhaustList item _ => item.CellsIn cells
  | _, .map _ _ wire => wire.CellsIn cells
  | _, .case _ _ payload => payload.CellsIn cells
  | _, .byteCounted length _ payload => length.CellsIn cells ∧ payload.CellsIn cells
  | _, .itemCounted length _ _ body => length.CellsIn cells ∧ ∀ n, (body n).CellsIn cells
  | _, .record _ fields => fields.CellsIn cells
  | _, .tagged (i := _) tag _ _ table fallback _ _ =>
    tag.CellsIn cells ∧ table.CellsIn cells ∧ fallback.CellsIn cells
  | _, .choice (i := _) (j := _) tag _ _ _ _ table => tag.CellsIn cells ∧ table.CellsIn cells
  | _, .lazy cell _ => cells cell

/-- So it is in every part of a tuple. -/
def Items.CellsIn (cells : LazyCell → Prop) : {α : Type} → Items S α → Prop
  | _, .nil => True
  | _, .cons item rest => item.CellsIn cells ∧ rest.CellsIn cells

/-- So it is in every field of a record. -/
def Fields.CellsIn (cells : LazyCell → Prop) : {R : Type} → Fields S R → Prop
  | _, .nil => True
  | _, .cons _ _ _ _ codec rest => codec.CellsIn cells ∧ rest.CellsIn cells

/-- So it is in every codec of a table. -/
def Table.CellsIn (cells : LazyCell → Prop) : {K V : Type} → Table S K V → Prop
  | _, _, .nil => True
  | _, _, .cons _ codec rest => codec.CellsIn cells ∧ rest.CellsIn cells

end

mutual

theorem Codec.cellsIn_of_forall (h : ∀ cell, cells cell) :
    {α : Type} → (codec : Codec S α) → codec.CellsIn cells
  | _, .leaf _ => trivial
  | _, .tuple items => items.cellsIn_of_forall h
  | _, .fixedList item _ => item.cellsIn_of_forall h
  | _, .exhaustList item _ => item.cellsIn_of_forall h
  | _, .map _ _ wire => wire.cellsIn_of_forall h
  | _, .case _ _ payload => payload.cellsIn_of_forall h
  | _, .byteCounted length _ payload => ⟨length.cellsIn_of_forall h, payload.cellsIn_of_forall h⟩
  | _, .itemCounted length _ _ body =>
    ⟨length.cellsIn_of_forall h, fun n ↦ (body n).cellsIn_of_forall h⟩
  | _, .record _ fields => fields.cellsIn_of_forall h
  | _, .tagged (i := _) tag _ _ table fallback _ _ =>
    ⟨tag.cellsIn_of_forall h, table.cellsIn_of_forall h, fallback.cellsIn_of_forall h⟩
  | _, .choice (i := _) (j := _) tag _ _ _ _ table =>
    ⟨tag.cellsIn_of_forall h, table.cellsIn_of_forall h⟩
  | _, .lazy cell _ => h cell

theorem Items.cellsIn_of_forall (h : ∀ cell, cells cell) :
    {α : Type} → (items : Items S α) → items.CellsIn cells
  | _, .nil => trivial
  | _, .cons item rest => ⟨item.cellsIn_of_forall h, rest.cellsIn_of_forall h⟩

theorem Fields.cellsIn_of_forall (h : ∀ cell, cells cell) :
    {R : Type} → (fields : Fields S R) → fields.CellsIn cells
  | _, .nil => trivial
  | _, .cons _ _ _ _ codec rest => ⟨codec.cellsIn_of_forall h, rest.cellsIn_of_forall h⟩

theorem Table.cellsIn_of_forall (h : ∀ cell, cells cell) :
    {K V : Type} → (table : Table S K V) → table.CellsIn cells
  | _, _, .nil => trivial
  | _, _, .cons _ codec rest => ⟨codec.cellsIn_of_forall h, rest.cellsIn_of_forall h⟩

end

/-! One level of references: what a codec refers to gets through once the cell of the reference is
used. -/

mutual

theorem Codec.delivers_of_cellsIn
    (hreferences : ∀ cell, cells cell → ∀ name value, Delivers (do
        Stage.onCells (Cells.use cell)
        references name value)
      ready (codes name value)) :
    {α : Type} → (codec : Codec S α) → codec.CellsIn cells → (value : α) →
    (codec.encodeWith references value).Delivers ready (codec.wire? codes value)
  | _, .leaf leaf, _, value => delivers_onStream fun _ hcode ↦ Leaf.accepts_encode hcode
  | _, .tuple items, h, value => items.delivers_of_cellsIn hreferences h value
  | _, .fixedList item count, h, values => by
    rw [Codec.wire?, ← ite_not]
    exact delivers_guard (delivers_items (item.delivers_of_cellsIn hreferences h) count values)
  | _, .exhaustList item max, h, values =>
    delivers_guard (delivers_items (item.delivers_of_cellsIn hreferences h) _ values)
  | _, .map toWire _ wire, h, value => wire.delivers_of_cellsIn hreferences h (toWire value)
  | _, .case _ unwrap payload, h, value => by
    rw [Codec.encodeWith, Codec.wire?]
    cases unwrap value with
    | some inner => exact payload.delivers_of_cellsIn hreferences h inner
    | none => exact delivers_none _
  | _, .byteCounted length range payload, h, value =>
    delivers_frame (payload.delivers_of_cellsIn hreferences h.2 value)
      (length.delivers_of_cellsIn hreferences h.1)
  | _, .itemCounted length range count body, h, value => by
    intro code hcode stage hready hroom hallocation
    obtain ⟨hrange, hboth⟩ := Option.ite_none_right_eq_some.mp hcode
    have hcheck : range.check (count value) = .ok (count value) :=
      LengthRange.check_eq_ok.mpr ⟨hrange, rfl⟩
    rw [Codec.encodeWith, hcheck]
    exact delivers_both (length.delivers_of_cellsIn hreferences h.1 _)
      ((body _).delivers_of_cellsIn hreferences (h.2 _) value) (fun _ _ ↦ rfl) code hboth stage
      hready hroom hallocation
  | _, .record _ fields, h, value => fields.delivers_of_cellsIn hreferences h value
  | _, .tagged (i := _) tag display access table fallback max _, h, value => by
    obtain ⟨htag, htable, hfallback⟩ := h
    refine delivers_guard (delivers_entries (fun (key, item) ↦ delivers_inField ?_) _)
    rcases table.delivers_of_cellsIn hreferences htable key with
        ⟨encode, wire, hencode, hwire, hvalue⟩ | ⟨hencode, hwire⟩
    · simp only [hencode, hwire]
      exact delivers_both (tag.delivers_of_cellsIn hreferences htag key) (hvalue item)
        fun _ _ ↦ rfl
    · simp only [hencode, hwire]
      exact delivers_both (tag.delivers_of_cellsIn hreferences htag key)
        (fallback.delivers_of_cellsIn hreferences hfallback item) fun _ _ ↦ rfl
  | _, .choice (i := _) (j := _) tag _ showKind kind registry table, h, value => by
    rw [Codec.encodeWith, Codec.wire?]
    cases registry.tagOf? (kind value) with
    | none => exact delivers_none _
    | some key =>
      rcases table.delivers_of_cellsIn hreferences h.2 (kind value) with
          ⟨encode, wire, hencode, hwire, hvalue⟩ | ⟨hencode, hwire⟩
      · simp only [hencode, hwire]
        exact delivers_both (tag.delivers_of_cellsIn hreferences h.1 key) (hvalue value)
          fun _ _ ↦ rfl
      · simp only [hencode, hwire]
        exact delivers_none _
  | _, .lazy cell name, h, value => hreferences cell h name value

theorem Items.delivers_of_cellsIn
    (hreferences : ∀ cell, cells cell → ∀ name value, Delivers (do
        Stage.onCells (Cells.use cell)
        references name value)
      ready (codes name value)) :
    {α : Type} → (items : Items S α) → items.CellsIn cells → (value : α) →
    (items.encodeWith references value).Delivers ready (items.wire? codes value)
  | _, .nil, _, _ => delivers_pure
  | _, .cons item rest, h, (value, values) =>
    delivers_both (item.delivers_of_cellsIn hreferences h.1 value)
      (rest.delivers_of_cellsIn hreferences h.2 values) fun _ _ ↦ rfl

theorem Fields.delivers_of_cellsIn
    (hreferences : ∀ cell, cells cell → ∀ name value, Delivers (do
        Stage.onCells (Cells.use cell)
        references name value)
      ready (codes name value)) :
    {R : Type} → (fields : Fields S R) → fields.CellsIn cells → (value : R) →
    (fields.encodeWith references value).Delivers ready (fields.wire? codes value)
  | _, .nil, _, _ => delivers_pure
  | _, .cons name get _ present codec rest, h, value => by
    rw [Fields.encodeWith, Fields.wire?]
    by_cases hpresent : present value = true
    · rw [if_pos hpresent, if_pos hpresent]
      cases get value with
      | some inner =>
        exact delivers_both (delivers_inField (codec.delivers_of_cellsIn hreferences h.1 inner))
          (rest.delivers_of_cellsIn hreferences h.2 value) fun _ _ ↦ rfl
      | none => exact delivers_none _
    · rw [if_neg hpresent, if_neg hpresent]
      exact rest.delivers_of_cellsIn hreferences h.2 value

theorem Table.delivers_of_cellsIn
    (hreferences : ∀ cell, cells cell → ∀ name value, Delivers (do
        Stage.onCells (Cells.use cell)
        references name value)
      ready (codes name value)) :
    {K V : Type} → [DecidableEq K] → (table : Table S K V) → table.CellsIn cells →
    (wanted : K) →
    (∃ encode wire, table.encodeAt references wanted = some encode ∧
      table.wireAt codes wanted = some wire ∧ ∀ value, (encode value).Delivers ready (wire value)) ∨
    table.encodeAt references wanted = none ∧ table.wireAt codes wanted = none
  | _, _, _, .nil, _, _ => Or.inr ⟨rfl, rfl⟩
  | _, _, _, .cons key codec rest, h, wanted => by
    rw [Table.encodeAt, Table.wireAt]
    by_cases hkey : key = wanted
    · rw [if_pos hkey, if_pos hkey]
      exact Or.inl ⟨_, _, rfl, rfl, codec.delivers_of_cellsIn hreferences h.1⟩
    · rw [if_neg hkey, if_neg hkey]
      exact rest.delivers_of_cellsIn hreferences h.2 wanted

end

/-- Where the cell of every reference gets through, it does not matter which ones a codec has. -/
theorem Codec.delivers_encodeWith
    (hreferences : ∀ cell name value, Delivers (do
        Stage.onCells (Cells.use cell)
        references name value)
      ready (codes name value)) {α : Type} (codec : Codec S α) (value : α) :
    (codec.encodeWith references value).Delivers ready (codec.wire? codes value) := by
  have hcells : codec.CellsIn fun _ ↦ True := codec.cellsIn_of_forall fun _ ↦ trivial
  exact codec.delivers_of_cellsIn (fun cell _ ↦ hreferences cell) hcells value

/-! ### References that are supplied -/

/-- The supplier yields the definition whenever it is called. -/
def LazyCell.Supplied (cell : LazyCell) : Prop := ∀ call, cell.supply call = true

theorem Stage.use_of_supplied {σ : Type} {cell : LazyCell} (h : cell.Supplied)
    (stage : Stage σ) :
    ∃ cells, onCells (Cells.use cell) stage = .ok () { stage with cells } := by
  unfold onCells Cells.use
  by_cases hresolved : (stage.cells cell.id).resolved = true
  · exact ⟨stage.cells, by simp only [hresolved, if_true]⟩
  · simp only [hresolved, h _, if_true]
    exact ⟨_, rfl⟩

section Supplied

variable {definitions : Definitions S}
  (hdefinitions : ∀ name, (definitions name).CellsIn LazyCell.Supplied)

include hdefinitions

/-- By induction on the levels of references that are left: where there are none, no value has
bytes. -/
theorem Definitions.delivers_encodeWithin (depth : Nat) (cell : LazyCell) (hcell : cell.Supplied)
    (name : S.Name) (value : S.Value name) :
    Delivers (do
        Stage.onCells (Cells.use cell)
        definitions.encodeWithin depth name value)
      (fun _ ↦ True) (definitions.wireWithin depth name value) := by
  induction depth generalizing cell name with
  | zero => exact delivers_none _
  | succ depth ih =>
    intro code hcode stage _ hroom hallocation
    obtain ⟨cells, huse⟩ := Stage.use_of_supplied hcell stage
    rw [bind_of_ok huse]
    exact (definitions name).delivers_of_cellsIn ih (hdefinitions name) value code hcode
      { stage with cells } trivial hroom hallocation

/-- Where every reference is supplied, only the value and the room matter. -/
theorem Codec.delivers_encode {α : Type} {codec : Codec S α}
    (hcodec : codec.CellsIn LazyCell.Supplied) (depth : Nat) (value : α) :
    (codec.encode definitions depth value).Delivers (fun _ ↦ True)
      (codec.wire definitions depth value) :=
  codec.delivers_of_cellsIn (Definitions.delivers_encodeWithin hdefinitions depth) hcodec value

end Supplied

end WireFormat
