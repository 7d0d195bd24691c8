import WireFormat.Proofs.BareErrors
import WireFormat.Proofs.NestedRuns

/-!
# The parts that an encoder runs

`Codec.Writes` says which codecs an encoder runs as its parts, with which values and from which
stages: what is written before them was written successfully, and the tests in front of them have
passed. A field of a record is a part of its own, which fails where the accessor yields nothing.
What is written of an entry of a tagged record stands under its tag, the tag included. A part that
fails fails the whole (`Codec.fails_of_writes`), and where none fails, an error of the whole has
crossed no field (`Codec.path_of_encode`). So writings are nested runs (`Writing.nested`).
-/

set_option autoImplicit false
set_option relaxedAutoImplicit false

namespace WireFormat

variable {S : Signature}

/-- Something about to be written, the levels of references that are left and the stage to which it
is written. -/
inductive Writing (S : Signature) : Type 1 where
  | ofCodec {α : Type} (codec : Codec S α) (value : α) (depth : Nat) (stage : Stage Sink)
  /-- A field of a record, if its accessor yields a value. -/
  | ofField {R F : Type} (get : R → Option F) (codec : Codec S F) (record : R) (depth : Nat)
    (stage : Stage Sink)

/-- Writes a field of a record. -/
def Codec.encodeField (definitions : Definitions S) (depth : Nat) {R F : Type}
    (get : R → Option F) (codec : Codec S F) (record : R) : Encoding :=
  match get record with
  | some inner => codec.encode definitions depth inner
  | none => fail (.missing "field accessor")

/-- Writes an entry: its tag, then its value by the codec of the tag. -/
def Codec.encodeEntry (definitions : Definitions S) (depth : Nat) {K V : Type} [DecidableEq K]
    (tag : Codec S K) (display : K → String) (table : Table S K V) (fallback : Codec S V)
    (entry : K × V) : Encoding :=
  inField (display entry.1) do
    let lead ← tag.encode definitions depth entry.1
    let inner ← (table.codecOf fallback entry.1).encode definitions depth entry.2
    return ⟨lead.count + inner.count, lead.bytes + inner.bytes⟩

/-- The writing fails so. -/
def Writing.Fails (definitions : Definitions S) : Writing S → Failure → Prop
  | .ofCodec codec value depth stage, failure =>
    ∃ after, codec.encode definitions depth value stage = .error failure after
  | .ofField get codec record depth stage, failure =>
    ∃ after, codec.encodeField definitions depth get record stage = .error failure after

/-! ### Lists and entries -/

namespace Encoding

/-- The list has the value behind items that are written successfully and end at the stage
`last`. -/
def ItemAt {α : Type} (item : α → Encoding) (values : List α) (first : Stage Sink) (value : α)
    (last : Stage Sink) : Prop :=
  ∃ before behind n, values = before ++ value :: behind ∧ items item before first = .ok n last

/-- So it is with entries. -/
def EntryAt {E : Type} (entry : E → Encoding) (list : List E) (first : Stage Sink) (e : E)
    (last : Stage Sink) : Prop :=
  ∃ before behind n, list = before ++ e :: behind ∧ entries entry before first = .ok n last

variable {α E : Type} {stage last after : Stage Sink} {failure : Failure}

theorem items_of_itemAt {item : α → Encoding} {values : List α} {value : α}
    (h : ItemAt item values stage value last) (hfails : item value last = .error failure after) :
    items item values stage = .error failure after := by
  obtain ⟨before, behind, n, rfl, hbefore⟩ := h
  induction before generalizing stage n with
  | nil =>
    obtain ⟨-, rfl⟩ := pure_eq_ok.mp hbefore
    exact bind_of_error hfails _
  | cons first before ih =>
    obtain ⟨written, middle, hfirst, h⟩ := bind_eq_ok.mp hbefore
    obtain ⟨rest, last', hothers, h⟩ := bind_eq_ok.mp h
    obtain ⟨-, rfl⟩ := pure_eq_ok.mp h
    exact (bind_of_ok hfirst _).trans (bind_of_error (ih _ hothers) _)

/-- A list fails as one of its items does. -/
theorem itemAt_of_items_error {item : α → Encoding} {values : List α}
    (h : items item values stage = .error failure after) :
    ∃ value last, ItemAt item values stage value last ∧ item value last = .error failure after := by
  induction values generalizing stage with
  | nil => cases h
  | cons first values ih =>
    rcases bind_eq_error.mp h with hfirst | ⟨written, middle, hfirst, h⟩
    · exact ⟨first, stage, ⟨[], values, 0, rfl, rfl⟩, hfirst⟩
    · rcases bind_eq_error.mp h with hothers | ⟨rest, final, -, h⟩
      · obtain ⟨value, last, ⟨before, behind, n, rfl, hbefore⟩, hfails⟩ := ih hothers
        refine ⟨value, last, ⟨first :: before, behind, written.bytes + n, rfl, ?_⟩, hfails⟩
        exact (bind_of_ok hfirst _).trans (bind_of_ok hbefore _)
      · cases h

theorem entries_of_entryAt {entry : E → Encoding} {list : List E} {e : E}
    (h : EntryAt entry list stage e last) (hfails : entry e last = .error failure after) :
    entries entry list stage = .error failure after := by
  obtain ⟨before, behind, n, rfl, hbefore⟩ := h
  induction before generalizing stage n with
  | nil =>
    obtain ⟨-, rfl⟩ := pure_eq_ok.mp hbefore
    exact bind_of_error hfails _
  | cons first before ih =>
    obtain ⟨written, middle, hfirst, h⟩ := bind_eq_ok.mp hbefore
    obtain ⟨rest, last', hothers, h⟩ := bind_eq_ok.mp h
    obtain ⟨-, rfl⟩ := pure_eq_ok.mp h
    exact (bind_of_ok hfirst _).trans (bind_of_error (ih _ hothers) _)

/-- A row of entries fails as one of them does. -/
theorem entryAt_of_entries_error {entry : E → Encoding} {list : List E}
    (h : entries entry list stage = .error failure after) :
    ∃ e last, EntryAt entry list stage e last ∧ entry e last = .error failure after := by
  induction list generalizing stage with
  | nil => cases h
  | cons first list ih =>
    rcases bind_eq_error.mp h with hfirst | ⟨written, middle, hfirst, h⟩
    · exact ⟨first, stage, ⟨[], list, Written.none, rfl, rfl⟩, hfirst⟩
    · rcases bind_eq_error.mp h with hothers | ⟨rest, final, -, h⟩
      · obtain ⟨e, last, ⟨before, behind, n, rfl, hbefore⟩, hfails⟩ := ih hothers
        refine ⟨e, last, ⟨first :: before, behind, oneMore written n, rfl, ?_⟩, hfails⟩
        exact (bind_of_ok hfirst _).trans (bind_of_ok hbefore _)
      · cases h

end Encoding

open Encoding

/-! ### What an encoder runs -/

section Writes

variable (definitions : Definitions S) (depth : Nat)

/-- The parts of a tuple, each behind those before it. -/
def Items.Writes : {α : Type} → Items S α → α → Stage Sink → Writing S → Prop
  | _, .nil, _, _, _ => False
  | _, .cons item rest, (value, values), stage, part =>
    part = .ofCodec item value depth stage ∨
      ∃ written middle, item.encode definitions depth value stage = .ok written middle ∧
        rest.Writes values middle part

/-- The fields that are present in the record, each under its name. -/
def Fields.Writes : {R : Type} → Fields S R → R → Stage Sink → Option String → Writing S → Prop
  | _, .nil, _, _, _, _ => False
  | _, .cons name get _ present codec rest, record, stage, label, part =>
    if present record then
      label = some name ∧ part = .ofField get codec record depth stage ∨
        ∃ written middle, codec.encodeField definitions depth get record stage =
          .ok written middle ∧ rest.Writes record middle label part
    else rest.Writes record stage label part

/-- The parts that a codec runs when it writes. Only fields of records and entries of tagged records
have a label. -/
def Codec.Writes : {α : Type} → Codec S α → α → Stage Sink → Option String → Writing S → Prop
  | _, .leaf _, _, _, _, _ => False
  | _, .tuple items, value, stage, label, part =>
    label = none ∧ items.Writes definitions depth value stage part
  | _, .fixedList item count, values, stage, label, part =>
    label = none ∧ values.length = count ∧ ∃ value last,
      ItemAt (item.encode definitions depth) values stage value last ∧
        part = .ofCodec item value depth last
  | _, .exhaustList item max, values, stage, label, part =>
    label = none ∧ max.any (· < values.length) = false ∧ ∃ value last,
      ItemAt (item.encode definitions depth) values stage value last ∧
        part = .ofCodec item value depth last
  | _, .map toWire _ wire, value, stage, label, part =>
    label = none ∧ part = .ofCodec wire (toWire value) depth stage
  | _, .case _ unwrap payload, value, stage, label, part =>
    label = none ∧ ∃ inner, unwrap value = some inner ∧ part = .ofCodec payload inner depth stage
  | _, .byteCounted length range payload, value, stage, label, part =>
    label = none ∧
      (part = .ofCodec payload value depth ⟨Sink.growable, stage.cells⟩ ∨
        ∃ inner scratch, payload.encode definitions depth value ⟨Sink.growable, stage.cells⟩ =
            .ok inner scratch ∧
          range.contains scratch.stream.written.length = true ∧
          part = .ofCodec length scratch.stream.written.length depth
            { stage with cells := scratch.cells })
  | _, .itemCounted length range count body, value, stage, label, part =>
    label = none ∧ range.contains (count value) = true ∧
      (part = .ofCodec length (count value) depth stage ∨
        ∃ lead middle, length.encode definitions depth (count value) stage = .ok lead middle ∧
          part = .ofCodec (body (count value)) value depth middle)
  | _, .record _ fields, value, stage, label, part =>
    fields.Writes definitions depth value stage label part
  | _, .tagged (i := _) tag display access table fallback max _, value, stage, label, part =>
    max.any (· < (access.entries value).length) = false ∧ ∃ entry last,
      EntryAt (Codec.encodeEntry definitions depth tag display table fallback)
        (access.entries value) stage entry last ∧
      label = some (display entry.1) ∧
      (part = .ofCodec tag entry.1 depth last ∨
        ∃ lead behind, tag.encode definitions depth entry.1 last = .ok lead behind ∧
          part = .ofCodec (table.codecOf fallback entry.1) entry.2 depth behind)
  | _, .choice (i := _) (j := _) tag _ _ kind registry table, value, stage, label, part =>
    label = none ∧ ∃ key codec, registry.tagOf? (kind value) = some key ∧
      table.find? (kind value) = some codec ∧
      (part = .ofCodec tag key depth stage ∨
        ∃ lead middle, tag.encode definitions depth key stage = .ok lead middle ∧
          part = .ofCodec codec value depth middle)
  | _, .lazy cell name, value, stage, label, part =>
    label = none ∧ ∃ left cells, depth = left + 1 ∧
      Cells.use cell stage.cells = .ok () cells ∧
      part = .ofCodec (definitions name) value left ⟨stage.stream, cells⟩

end Writes

variable {definitions : Definitions S} {depth : Nat}

/-- Behind the test of their number, the entries of a tagged record are written one by one. -/
theorem Codec.encode_tagged {K V R : Type} [DecidableEq K] {tag : Codec S K}
    {display : K → String} {access : TaggedRecord K V R} {table : Table S K V}
    {fallback : Codec S V} {max : Option Nat} {factory : Option R} (value : R) :
    (Codec.tagged tag display access table fallback max factory).encode definitions depth value =
      (do
        if max.any (· < (access.entries value).length) then
          fail (.lengthOutOfRange (access.entries value).length)
        Encoding.entries (encodeEntry definitions depth tag display table fallback)
          (access.entries value)) := by
  let tested (entry : K × V → Encoding) : Encoding := do
    if max.any (· < (access.entries value).length) then
      fail (.lengthOutOfRange (access.entries value).length)
    Encoding.entries entry (access.entries value)
  refine congrArg tested (funext fun entry ↦ ?_)
  obtain ⟨key, item⟩ := entry
  dsimp only [encodeEntry]
  rw [Table.encodeAt_eq, Table.codecOf]
  cases table.find? key <;> rfl

/-! ### The failure of a part comes out -/

theorem Items.fails_of_writes : {α : Type} → {items : Items S α} → {value : α} →
    {stage : Stage Sink} → {part : Writing S} → {failure : Failure} →
    items.Writes definitions depth value stage part → part.Fails definitions failure →
    ∃ after, items.encodeWith (definitions.encodeWithin depth) value stage = .error failure after
  | _, .nil, _, _, _, _, h, _ => h.elim
  | _, .cons item rest, (value, values), stage, part, failure, h, hfails => by
    rcases h with rfl | ⟨written, middle, hitem, hrest⟩
    · obtain ⟨after, hrun⟩ := hfails
      exact ⟨after, bind_of_error hrun _⟩
    · obtain ⟨after, hrun⟩ := fails_of_writes hrest hfails
      exact ⟨after, (bind_of_ok hitem _).trans (bind_of_error hrun _)⟩

theorem Fields.fails_of_writes : {R : Type} → {fields : Fields S R} → {record : R} →
    {stage : Stage Sink} → {label : Option String} → {part : Writing S} → {failure : Failure} →
    fields.Writes definitions depth record stage label part → part.Fails definitions failure →
    ∃ after, fields.encodeWith (definitions.encodeWithin depth) record stage =
      .error (failure.outside label) after
  | _, .nil, _, _, _, _, _, h, _ => h.elim
  | _, .cons name get set present codec rest, record, stage, label, part, failure, h, hfails => by
    rw [Writes] at h
    rw [Fields.encodeWith]
    by_cases hpresent : present record = true
    · rw [if_pos hpresent] at h ⊢
      rcases h with ⟨rfl, rfl⟩ | ⟨written, middle, hfield, hrest⟩
      · obtain ⟨after, hrun⟩ := hfails
        exact ⟨after, bind_of_error (inField_of_error hrun) _⟩
      · obtain ⟨after, hrun⟩ := fails_of_writes hrest hfails
        exact ⟨after, (bind_of_ok (inField_eq_ok.mpr hfield) _).trans (bind_of_error hrun _)⟩
    · rw [if_neg hpresent] at h ⊢
      exact fails_of_writes h hfails

/-- The failure of a part is that of the whole, behind the name of the part if it is a field. -/
theorem Codec.fails_of_writes {α : Type} {codec : Codec S α} {value : α} {stage : Stage Sink}
    {label : Option String} {part : Writing S} {failure : Failure}
    (h : codec.Writes definitions depth value stage label part)
    (hfails : part.Fails definitions failure) :
    Writing.Fails definitions (.ofCodec codec value depth stage) (failure.outside label) := by
  show ∃ after, codec.encode definitions depth value stage = .error (failure.outside label) after
  cases codec with
  | leaf leaf => exact h.elim
  | tuple items =>
    obtain ⟨rfl, h⟩ := h
    exact Items.fails_of_writes h hfails
  | fixedList item count =>
    obtain ⟨rfl, hcount, value, last, hitem, rfl⟩ := h
    obtain ⟨after, hrun⟩ := hfails
    refine ⟨after, ?_⟩
    rw [Codec.encode, Codec.encodeWith, if_neg (not_not.mpr hcount)]
    exact bind_of_error (items_of_itemAt hitem hrun) _
  | exhaustList item max =>
    obtain ⟨rfl, hmax, value, last, hitem, rfl⟩ := h
    obtain ⟨after, hrun⟩ := hfails
    refine ⟨after, ?_⟩
    rw [Codec.encode, Codec.encodeWith, hmax]
    exact bind_of_error (items_of_itemAt hitem hrun) _
  | map toWire fromWire wire =>
    obtain ⟨rfl, rfl⟩ := h
    exact hfails
  | case wrap unwrap payload =>
    obtain ⟨rfl, inner, hinner, rfl⟩ := h
    obtain ⟨after, hrun⟩ := hfails
    refine ⟨after, ?_⟩
    rw [Codec.encode, Codec.encodeWith, hinner]
    exact hrun
  | byteCounted length range payload =>
    obtain ⟨rfl, rfl | ⟨inner, scratch, hpayload, hrange, rfl⟩⟩ := h
    · obtain ⟨after, hrun⟩ := hfails
      exact ⟨{ stage with cells := after.cells },
        bind_of_error (Stage.onOther_of_error hrun) _⟩
    · obtain ⟨after, hrun⟩ := hfails
      have hcheck := LengthRange.check_eq_ok.mpr
        ⟨hrange, (rfl : scratch.stream.written.length = _)⟩
      refine ⟨after, (bind_of_ok (Stage.onOther_of_ok hpayload) _).trans ?_⟩
      dsimp only
      rw [hcheck, bind_of_ok (ofExcept_ok _ _)]
      exact bind_of_error hrun _
  | itemCounted length range count body =>
    obtain ⟨rfl, hrange, hpart⟩ := h
    have hcheck := LengthRange.check_eq_ok.mpr ⟨hrange, (rfl : count value = _)⟩
    rw [Codec.encode, Codec.encodeWith, hcheck, bind_of_ok (ofExcept_ok _ _)]
    rcases hpart with rfl | ⟨lead, middle, hlength, rfl⟩
    · obtain ⟨after, hrun⟩ := hfails
      exact ⟨after, bind_of_error hrun _⟩
    · obtain ⟨after, hrun⟩ := hfails
      exact ⟨after, (bind_of_ok hlength _).trans (bind_of_error hrun _)⟩
  | record factory fields => exact Fields.fails_of_writes h hfails
  | tagged tag display access table fallback max factory =>
    obtain ⟨hmax, entry, last, hentry, rfl, hpart⟩ := h
    rw [Codec.encode_tagged, hmax]
    rcases hpart with rfl | ⟨lead, behind, htag, rfl⟩
    · obtain ⟨after, hrun⟩ := hfails
      exact ⟨after, entries_of_entryAt hentry (inField_of_error (bind_of_error hrun _))⟩
    · obtain ⟨after, hrun⟩ := hfails
      refine ⟨after, entries_of_entryAt hentry (inField_of_error ?_)⟩
      exact (bind_of_ok htag _).trans (bind_of_error hrun _)
  | choice tag showTag showKind kind registry table =>
    obtain ⟨rfl, key, codec, hkey, hfind, hpart⟩ := h
    rw [Codec.encode, Codec.encodeWith, hkey, Table.encodeAt_eq, hfind]
    rcases hpart with rfl | ⟨lead, middle, htag, rfl⟩
    · obtain ⟨after, hrun⟩ := hfails
      exact ⟨after, bind_of_error hrun _⟩
    · obtain ⟨after, hrun⟩ := hfails
      exact ⟨after, (bind_of_ok htag _).trans (bind_of_error hrun _)⟩
  | «lazy» cell name =>
    obtain ⟨rfl, left, cells, rfl, huse, rfl⟩ := h
    obtain ⟨after, hrun⟩ := hfails
    have hused : Stage.onCells (Cells.use cell) stage = .ok () ⟨stage.stream, cells⟩ :=
      Stage.onCells_eq_ok.mpr ⟨huse, rfl⟩
    exact ⟨after, (bind_of_ok hused _).trans hrun⟩

/-! ### Errors of the whole -/

theorem Items.exists_writes_of_error : {α : Type} → {items : Items S α} → {value : α} →
    {stage after : Stage Sink} → {failure : Failure} →
    items.encodeWith (definitions.encodeWithin depth) value stage = .error failure after →
    ∃ part, items.Writes definitions depth value stage part ∧ part.Fails definitions failure
  | _, .nil, _, _, _, _, h => by cases h
  | _, .cons item rest, (value, values), stage, after, failure, h => by
    rcases bind_eq_error.mp h with hitem | ⟨written, middle, hitem, h⟩
    · exact ⟨.ofCodec item value depth stage, Or.inl rfl, after, hitem⟩
    · rcases bind_eq_error.mp h with hrest | ⟨others, last, -, h⟩
      · obtain ⟨part, hwrites, hfails⟩ := exists_writes_of_error hrest
        exact ⟨part, Or.inr ⟨written, middle, hitem, hwrites⟩, hfails⟩
      · cases h

theorem Fields.exists_writes_of_error : {R : Type} → {fields : Fields S R} → {record : R} →
    {stage after : Stage Sink} → {failure : Failure} →
    fields.encodeWith (definitions.encodeWithin depth) record stage = .error failure after →
    ∃ label part cause, fields.Writes definitions depth record stage label part ∧
      part.Fails definitions cause
  | _, .nil, _, _, _, _, h => by cases h
  | _, .cons name get set present codec rest, record, stage, after, failure, h => by
    rw [Fields.encodeWith] at h
    by_cases hpresent : present record = true
    · rw [if_pos hpresent] at h
      rcases bind_eq_error.mp h with hfield | ⟨written, middle, hfield, h⟩
      · obtain ⟨cause, hfield, -⟩ := inField_eq_error.mp hfield
        refine ⟨some name, .ofField get codec record depth stage, cause, ?_, after, hfield⟩
        rw [Writes, if_pos hpresent]
        exact Or.inl ⟨rfl, rfl⟩
      · rcases bind_eq_error.mp h with hrest | ⟨others, last, -, h⟩
        · obtain ⟨label, part, cause, hwrites, hfails⟩ := exists_writes_of_error hrest
          refine ⟨label, part, cause, ?_, hfails⟩
          rw [Writes, if_pos hpresent]
          exact Or.inr ⟨written, middle, inField_eq_ok.mp hfield, hwrites⟩
        · cases h
    · rw [if_neg hpresent] at h
      obtain ⟨label, part, cause, hwrites, hfails⟩ := exists_writes_of_error h
      refine ⟨label, part, cause, ?_, hfails⟩
      rwa [Writes, if_neg hpresent]

/-- An error of the whole when no part fails has crossed nothing. -/
theorem Codec.path_of_encode {α : Type} {codec : Codec S α} {value : α}
    {stage after : Stage Sink} {e : Error}
    (h : codec.encode definitions depth value stage = .error (.error e) after)
    (hparts : ∀ label part, codec.Writes definitions depth value stage label part →
      ∀ failure, ¬ part.Fails definitions failure) : e.path = [] := by
  cases codec with
  | leaf leaf => exact Stage.bare_onStream (leaf.bare_encode value) _ _ _ h
  | tuple items =>
    obtain ⟨part, hwrites, hfails⟩ := Items.exists_writes_of_error h
    exact (hparts none part ⟨rfl, hwrites⟩ _ hfails).elim
  | fixedList item count =>
    rw [Codec.encode, Codec.encodeWith] at h
    by_cases hcount : value.length = count
    · rw [if_neg (not_not.mpr hcount)] at h
      rcases bind_eq_error.mp h with hitems | ⟨n, middle, -, h⟩
      · obtain ⟨inner, last, hitem, hfails⟩ := itemAt_of_items_error hitems
        exact (hparts none _ ⟨rfl, hcount, inner, last, hitem, rfl⟩ _ ⟨after, hfails⟩).elim
      · cases h
    · rw [if_pos hcount] at h
      cases h
      rfl
  | exhaustList item max =>
    rw [Codec.encode, Codec.encodeWith] at h
    cases hmax : max.any (· < value.length) with
    | false =>
      rw [hmax] at h
      rcases bind_eq_error.mp h with hitems | ⟨n, middle, -, h⟩
      · obtain ⟨inner, last, hitem, hfails⟩ := itemAt_of_items_error hitems
        exact (hparts none _ ⟨rfl, hmax, inner, last, hitem, rfl⟩ _ ⟨after, hfails⟩).elim
      · cases h
    | true =>
      rw [hmax] at h
      cases h
      rfl
  | map toWire fromWire wire => exact (hparts none _ ⟨rfl, rfl⟩ _ ⟨after, h⟩).elim
  | case wrap unwrap payload =>
    rw [Codec.encode, Codec.encodeWith] at h
    cases hinner : unwrap value with
    | none =>
      rw [hinner] at h
      cases h
      rfl
    | some inner =>
      rw [hinner] at h
      exact (hparts none _ ⟨rfl, inner, hinner, rfl⟩ _ ⟨after, h⟩).elim
  | byteCounted length range payload =>
    cases hpayload : payload.encode definitions depth value ⟨Sink.growable, stage.cells⟩ with
    | error failure last =>
      exact (hparts none _ ⟨rfl, Or.inl rfl⟩ _ ⟨last, hpayload⟩).elim
    | ok inner scratch =>
      have hother : Stage.onOther Sink.growable (payload.encode definitions depth value) stage =
          .ok (inner, scratch.stream) { stage with cells := scratch.cells } :=
        Stage.onOther_of_ok hpayload
      rcases bind_eq_error.mp h with hscratch | ⟨found, middle, hscratch, h⟩
      · cases hother.symm.trans hscratch
      · cases hother.symm.trans hscratch
        rcases LengthRange.path_or_next h with hpath | ⟨hrange, h⟩
        · exact hpath
        · rcases bind_eq_error.mp h with hlength | ⟨lead, behind, -, h⟩
          · exact (hparts none _ ⟨rfl, Or.inr ⟨inner, scratch, hpayload, hrange, rfl⟩⟩ _
              ⟨after, hlength⟩).elim
          · rcases bind_eq_error.mp h with hput | ⟨n, last, -, h⟩
            · exact Stage.bare_onStream (Sink.hereditary_bare.put _) _ _ _ hput
            · cases h
  | itemCounted length range count body =>
    rcases LengthRange.path_or_next h with hpath | ⟨hrange, h⟩
    · exact hpath
    · rcases bind_eq_error.mp h with hlength | ⟨lead, middle, hlength, h⟩
      · exact (hparts none _ ⟨rfl, hrange, Or.inl rfl⟩ _ ⟨after, hlength⟩).elim
      · rcases bind_eq_error.mp h with hbody | ⟨inner, last, -, h⟩
        · exact (hparts none _ ⟨rfl, hrange, Or.inr ⟨lead, middle, hlength, rfl⟩⟩ _
            ⟨after, hbody⟩).elim
        · cases h
  | record factory fields =>
    obtain ⟨label, part, cause, hwrites, hfails⟩ := Fields.exists_writes_of_error h
    exact (hparts label part hwrites cause hfails).elim
  | tagged tag display access table fallback max factory =>
    rw [Codec.encode_tagged] at h
    cases hmax : max.any (· < (access.entries value).length) with
    | true =>
      rw [hmax] at h
      cases h
      rfl
    | false =>
      rw [hmax] at h
      obtain ⟨entry, last, hentry, hfails⟩ := entryAt_of_entries_error h
      obtain ⟨cause, hfails, -⟩ := inField_eq_error.mp hfails
      rcases bind_eq_error.mp hfails with htag | ⟨lead, behind, htag, hfails⟩
      · exact (hparts _ _ ⟨hmax, entry, last, hentry, rfl, Or.inl rfl⟩ _ ⟨after, htag⟩).elim
      · rcases bind_eq_error.mp hfails with hvalue | ⟨inner, final, -, hfails⟩
        · exact (hparts _ _
            ⟨hmax, entry, last, hentry, rfl, Or.inr ⟨lead, behind, htag, rfl⟩⟩ _
            ⟨after, hvalue⟩).elim
        · cases hfails
  | choice tag showTag showKind kind registry table =>
    rw [Codec.encode, Codec.encodeWith] at h
    cases hkey : registry.tagOf? (kind value) with
    | none =>
      rw [hkey] at h
      cases h
      rfl
    | some key =>
      rw [hkey, Table.encodeAt_eq] at h
      cases hfind : table.find? (kind value) with
      | none =>
        rw [hfind] at h
        cases h
        rfl
      | some codec =>
        rw [hfind] at h
        rcases bind_eq_error.mp h with htag | ⟨lead, middle, htag, h⟩
        · exact (hparts none _ ⟨rfl, key, codec, hkey, hfind, Or.inl rfl⟩ _ ⟨after, htag⟩).elim
        · rcases bind_eq_error.mp h with hinner | ⟨inner, last, -, h⟩
          · exact (hparts none _ ⟨rfl, key, codec, hkey, hfind, Or.inr ⟨lead, middle, htag, rfl⟩⟩
              _ ⟨after, hinner⟩).elim
          · cases h
  | «lazy» cell name =>
    rcases bind_eq_error.mp h with huse | ⟨u, ⟨stream, cells⟩, huse, h⟩
    · exact Stage.bare_use cell _ _ _ huse
    · obtain ⟨huse, rfl⟩ := Stage.onCells_eq_ok.mp huse
      cases depth with
      | zero => cases h
      | succ left => exact (hparts none _ ⟨rfl, left, cells, rfl, huse, rfl⟩ _ ⟨after, h⟩).elim

/-! ### Writings inside writings -/

/-- The codec that the writing is about. -/
def Writing.subject : Writing S → (β : Type) × Codec S β
  | .ofCodec codec _ _ _ => ⟨_, codec⟩
  | .ofField _ codec _ _ _ => ⟨_, codec⟩

/-- The levels of references that are left. -/
def Writing.level : Writing S → Nat
  | .ofCodec _ _ depth _ => depth
  | .ofField _ _ _ depth _ => depth

theorem Items.hasPart_of_writes : {α : Type} → {items : Items S α} → {value : α} →
    {stage : Stage Sink} → {part : Writing S} →
    items.Writes definitions depth value stage part →
    part.level = depth ∧ items.HasPart part.subject
  | _, .nil, _, _, _, h => h.elim
  | _, .cons _ _, (_, _), _, _, h => by
    rcases h with rfl | ⟨_, _, -, hrest⟩
    · exact ⟨rfl, Or.inl rfl⟩
    · exact (hasPart_of_writes hrest).imp_right Or.inr

theorem Fields.hasPart_of_writes : {R : Type} → {fields : Fields S R} → {record : R} →
    {stage : Stage Sink} → {label : Option String} → {part : Writing S} →
    fields.Writes definitions depth record stage label part →
    part.level = depth ∧ fields.HasPart part.subject
  | _, .nil, _, _, _, _, h => h.elim
  | _, .cons name get set present codec rest, record, stage, label, part, h => by
    rw [Writes] at h
    split at h
    · rcases h with ⟨-, rfl⟩ | ⟨_, _, -, hrest⟩
      · exact ⟨rfl, Or.inl rfl⟩
      · exact (hasPart_of_writes hrest).imp_right Or.inr
    · exact (hasPart_of_writes h).imp_right Or.inr

/-- A codec runs its own parts, and a reference what has one level of references less. -/
theorem Codec.hasPart_of_writes {α : Type} {codec : Codec S α} {value : α} {stage : Stage Sink}
    {label : Option String} {part : Writing S}
    (h : codec.Writes definitions depth value stage label part) :
    part.level = depth ∧ codec.HasPart part.subject ∨ part.level < depth := by
  cases codec with
  | leaf leaf => exact h.elim
  | tuple items => exact Or.inl (Items.hasPart_of_writes h.2)
  | fixedList item count =>
    obtain ⟨-, -, _, _, -, rfl⟩ := h
    exact Or.inl ⟨rfl, rfl⟩
  | exhaustList item max =>
    obtain ⟨-, -, _, _, -, rfl⟩ := h
    exact Or.inl ⟨rfl, rfl⟩
  | map toWire fromWire wire =>
    obtain ⟨-, rfl⟩ := h
    exact Or.inl ⟨rfl, rfl⟩
  | case wrap unwrap payload =>
    obtain ⟨-, _, -, rfl⟩ := h
    exact Or.inl ⟨rfl, rfl⟩
  | byteCounted length range payload =>
    obtain ⟨-, rfl | ⟨_, _, -, -, rfl⟩⟩ := h
    · exact Or.inl ⟨rfl, Or.inr rfl⟩
    · exact Or.inl ⟨rfl, Or.inl rfl⟩
  | itemCounted length range count body =>
    obtain ⟨-, -, rfl | ⟨_, _, -, rfl⟩⟩ := h
    · exact Or.inl ⟨rfl, Or.inl rfl⟩
    · exact Or.inl ⟨rfl, Or.inr ⟨_, rfl⟩⟩
  | record factory fields => exact Or.inl (Fields.hasPart_of_writes h)
  | tagged tag display access table fallback max factory =>
    obtain ⟨-, entry, _, -, -, rfl | ⟨_, _, -, rfl⟩⟩ := h
    · exact Or.inl ⟨rfl, Or.inl rfl⟩
    · exact Or.inl ⟨rfl, Or.inr (Table.hasPart_codecOf table fallback entry.1)⟩
  | choice tag showTag showKind kind registry table =>
    obtain ⟨-, _, _, -, hfind, rfl | ⟨_, _, -, rfl⟩⟩ := h
    · exact Or.inl ⟨rfl, Or.inl rfl⟩
    · exact Or.inl ⟨rfl, Or.inr (Table.hasPart_of_find? hfind)⟩
  | «lazy» cell name =>
    obtain ⟨-, left, _, rfl, -, rfl⟩ := h
    exact Or.inr left.lt_succ_self

/-- One writing is a part of another. -/
def Writing.Contains (definitions : Definitions S) :
    Writing S → Option String → Writing S → Prop
  | .ofCodec codec value depth stage, label, part =>
    codec.Writes definitions depth value stage label part
  | .ofField get codec record depth stage, label, part =>
    label = none ∧ ∃ inner, get record = some inner ∧ part = .ofCodec codec inner depth stage

/-- By induction on the levels of references, and for each level on the parts of the codec; a field
comes behind its codec. -/
theorem Writing.wellFounded_contains (definitions : Definitions S) :
    WellFounded fun part writing : Writing S ↦
      ∃ label, writing.Contains definitions label part := by
  have hacc (depth : Nat) {α : Type} (codec : Codec S α) : ∀ writing : Writing S,
      writing.level = depth → writing.subject = ⟨α, codec⟩ →
      Acc (fun part writing : Writing S ↦ ∃ label, writing.Contains definitions label part)
        writing := by
    induction depth using Nat.strongRecOn generalizing α with
    | ind depth ih =>
      refine Codec.part_induction (motive := fun subject ↦ ∀ writing : Writing S,
        writing.level = depth → writing.subject = subject → Acc _ writing)
        (fun {β} codec hparts ↦ ?_) codec
      have hcodec (value : β) (stage : Stage Sink) :
          Acc (fun part writing : Writing S ↦ ∃ label, writing.Contains definitions label part)
            (.ofCodec codec value depth stage) := by
        refine Acc.intro _ fun part ⟨label, h⟩ ↦ ?_
        rcases Codec.hasPart_of_writes h with ⟨hlevel, hpart⟩ | hless
        · exact hparts _ hpart part hlevel rfl
        · exact ih part.level hless part.subject.2 part rfl rfl
      rintro (⟨codec', value, depth', stage⟩ | ⟨get, codec', record, depth', stage⟩) hlevel hsubject
      · cases hlevel
        cases hsubject
        exact hcodec value stage
      · cases hlevel
        cases hsubject
        refine Acc.intro _ fun part ⟨label, h⟩ ↦ ?_
        obtain ⟨-, inner, -, rfl⟩ := h
        exact hcodec inner stage
  exact ⟨fun writing ↦ hacc writing.level writing.subject.2 writing rfl rfl⟩

/-- The failure of a part is that of the whole; that of a value is that of its field. -/
theorem Writing.fails_of_contains {writing part : Writing S} {label : Option String}
    {failure : Failure} (h : writing.Contains definitions label part)
    (hfails : part.Fails definitions failure) :
    writing.Fails definitions (failure.outside label) := by
  cases writing with
  | ofCodec codec value depth stage => exact Codec.fails_of_writes h hfails
  | ofField get codec record depth stage =>
    obtain ⟨rfl, inner, hinner, rfl⟩ := h
    obtain ⟨after, hrun⟩ := hfails
    refine ⟨after, ?_⟩
    rw [Codec.encodeField, hinner]
    exact hrun

/-- The writings of a format. -/
def Writing.nested (definitions : Definitions S) : NestedRuns (Writing S) where
  fails := Writing.Fails definitions
  contains := Writing.Contains definitions
  unique {writing failure other} h h' := by
    cases writing <;>
    · obtain ⟨after, h⟩ := h
      obtain ⟨after', h'⟩ := h'
      rw [h] at h'
      cases h'
      rfl
  outside := Writing.fails_of_contains
  wellFounded := Writing.wellFounded_contains definitions

/-- Whatever is written, the error of a writing when no part fails has crossed nothing. -/
theorem Writing.path_of_failsItself {writing : Writing S} {cause : Error}
    (h : (Writing.nested definitions).FailsItself writing cause) : cause.path = [] := by
  obtain ⟨hfails, hparts⟩ := h
  cases writing with
  | ofCodec codec value depth stage =>
    obtain ⟨after, hrun⟩ := hfails
    exact Codec.path_of_encode hrun hparts
  | ofField get codec record depth stage =>
    obtain ⟨after, hrun⟩ := hfails
    rw [Codec.encodeField] at hrun
    cases hinner : get record with
    | none =>
      rw [hinner] at hrun
      cases hrun
      rfl
    | some inner =>
      rw [hinner] at hrun
      exact (hparts none _ ⟨rfl, inner, hinner, rfl⟩ _ ⟨after, hrun⟩).elim

end WireFormat
