import WireFormat.Codec.Counted
import WireFormat.Proofs.ReadBack

/-!
# Self-delimiting codecs

A codec finds the end of its values by itself when its leaves do and its lists and frames carry
their lengths (`Codec.Delimits`); what takes all bytes may stand inside a frame. Decoding then
undoes encoding in front of any bytes. The only way it can fail is a fixed list whose item has a
declared size beyond a machine word: the decoder works that size out, even for a list without items,
while the encoder does not. `Codec.decode_encoded` says both, for the values that their leaves
give back as they were written (`Codec.Regular`).
-/

set_option autoImplicit false
set_option relaxedAutoImplicit false

namespace WireFormat

variable {S : Signature}

/-! ### The codecs and their values -/

mutual

/-- The codec finds the end of its values by itself, or, when it is read from a frame, takes all of
it. Conversions go back and forth without a loss, items of a list without a count take bytes. -/
def Codec.Delimits (references : (name : S.Name) → S.Value name → Option (List UInt8))
    (framed : Bool) : {α : Type} → Codec S α → Prop
  | _, .leaf leaf => leaf.Delimits framed
  | _, .tuple items => items.Delimits references
  | _, .fixedList item _ => item.Delimits references false
  | _, .exhaustList item _ =>
    framed = true ∧ item.Delimits references false ∧
      ∀ value code, item.wire? references value = some code → code ≠ []
  | _, .map toWire fromWire wire =>
    (∀ value, fromWire (toWire value) = .ok value) ∧ wire.Delimits references framed
  | _, .case wrap unwrap payload =>
    (∀ value inner, unwrap value = some inner → wrap inner = value) ∧
      payload.Delimits references framed
  | _, .byteCounted length _ payload =>
    length.Delimits references false ∧ payload.Delimits references true
  | _, .itemCounted length _ _ body =>
    length.Delimits references false ∧ ∀ n, (body n).Delimits references framed
  | _, .record _ _ => False
  | _, .tagged (i := _) _ _ _ _ _ _ _ => False
  | _, .choice (i := _) (j := _) tag _ _ _ _ table =>
    tag.Delimits references false ∧ table.Delimits references framed
  | _, .lazy _ _ => False

/-- Every part of a tuple finds its end by itself. -/
def Items.Delimits (references : (name : S.Name) → S.Value name → Option (List UInt8)) :
    {α : Type} → Items S α → Prop
  | _, .nil => True
  | _, .cons item rest => item.Delimits references false ∧ rest.Delimits references

/-- So does every codec of a table. -/
def Table.Delimits (references : (name : S.Name) → S.Value name → Option (List UInt8))
    (framed : Bool) : {K V : Type} → Table S K V → Prop
  | _, _, .nil => True
  | _, _, .cons _ codec rest =>
    codec.Delimits references framed ∧ rest.Delimits references framed

end

mutual

/-- Every leaf that a value is written with admits what it writes (`ofLeaf`), and so does the item
of every fixed list (`ofItem`), however few items there are. -/
def Codec.Admits (references : (name : S.Name) → S.Value name → Option (List UInt8))
    (ofLeaf : {α : Type} → Leaf α → α → Prop) (ofItem : {α : Type} → Codec S α → Prop) :
    {α : Type} → Codec S α → α → Prop
  | _, .leaf leaf, value => ofLeaf leaf value
  | _, .tuple items, value => items.Admits references ofLeaf ofItem value
  | _, .fixedList item _, values =>
    ofItem item ∧ ∀ value ∈ values, item.Admits references ofLeaf ofItem value
  | _, .exhaustList item _, values =>
    ∀ value ∈ values, item.Admits references ofLeaf ofItem value
  | _, .map toWire _ wire, value => wire.Admits references ofLeaf ofItem (toWire value)
  | _, .case _ unwrap payload, value =>
    ∀ inner, unwrap value = some inner → payload.Admits references ofLeaf ofItem inner
  | _, .byteCounted length _ payload, value =>
    (∀ inner, payload.wire? references value = some inner →
      length.Admits references ofLeaf ofItem inner.length) ∧
      payload.Admits references ofLeaf ofItem value
  | _, .itemCounted length _ count body, value =>
    length.Admits references ofLeaf ofItem (count value) ∧
      (body (count value)).Admits references ofLeaf ofItem value
  | _, .record _ _, _ => True
  | _, .tagged (i := _) _ _ _ _ _ _ _, _ => True
  | _, .choice (i := _) (j := _) tag _ _ kind registry table, value =>
    (∀ key, registry.tagOf? (kind value) = some key →
      tag.Admits references ofLeaf ofItem key) ∧
      table.AdmitsAt references ofLeaf ofItem (kind value) value
  | _, .lazy _ _, _ => True

/-- The parts of a tuple admit the parts of a value. -/
def Items.Admits (references : (name : S.Name) → S.Value name → Option (List UInt8))
    (ofLeaf : {α : Type} → Leaf α → α → Prop) (ofItem : {α : Type} → Codec S α → Prop) :
    {α : Type} → Items S α → α → Prop
  | _, .nil, _ => True
  | _, .cons item rest, (value, values) =>
    item.Admits references ofLeaf ofItem value ∧ rest.Admits references ofLeaf ofItem values

/-- The codec of a key admits a value. -/
def Table.AdmitsAt (references : (name : S.Name) → S.Value name → Option (List UInt8))
    (ofLeaf : {α : Type} → Leaf α → α → Prop) (ofItem : {α : Type} → Codec S α → Prop) :
    {K V : Type} → [DecidableEq K] → Table S K V → K → V → Prop
  | _, _, _, .nil, _, _ => True
  | _, _, _, .cons key codec rest, wanted, value =>
    if key = wanted then codec.Admits references ofLeaf ofItem value
    else rest.AdmitsAt references ofLeaf ofItem wanted value

end

/-- Every text that the value is made of comes back as it was written. -/
def Codec.Regular (references : (name : S.Name) → S.Value name → Option (List UInt8)) {α : Type}
    (codec : Codec S α) (value : α) : Prop :=
  codec.Admits references Leaf.Regular (fun _ ↦ True) value

/-- Every fixed list in the value has items whose declared size, if any, is a machine word. -/
def Codec.ItemSizesFit (references : (name : S.Name) → S.Value name → Option (List UInt8))
    {α : Type} (codec : Codec S α) (value : α) : Prop :=
  codec.Admits references (fun _ _ ↦ True) (fun item ↦ item.size ≠ .overflow) value

/-! ### Decoding undoes encoding -/

open Decoding

/-- What declares a positive size takes bytes. -/
theorem Codec.ne_nil_of_isPositive {references : (name : S.Name) → S.Value name →
    Option (List UInt8)} {α : Type} {item : Codec S α} (hsize : item.size.isPositive = true)
    {value : α} {code : List UInt8} (h : item.wire? references value = some code) :
    code ≠ [] := by
  rintro rfl
  cases hfixed : item.size with
  | fixed n =>
    have hlength := item.length_of_size n hfixed value [] h
    rw [hfixed, ← hlength] at hsize
    cases hsize
  | varying =>
    rw [hfixed] at hsize
    cases hsize
  | overflow =>
    rw [hfixed] at hsize
    cases hsize

section

variable {references : (name : S.Name) → S.Value name → Option (List UInt8)}
  {decoders : (name : S.Name) → Decoding (S.Value name)} {framed : Bool}

/-- A fixed list is read back when its items are and the size of an item is one. The decoder works
that size out before it looks for items. -/
theorem Codec.readsBack_fixedList {α : Type} {item : Codec S α} {values : List α}
    {code : List UInt8} {fits : α → Prop}
    (hitem : ∀ value ∈ values, ∀ code, item.wire? references value = some code →
      ReadsBack (item.decodeWith decoders) false code value (fits value))
    (hcode : wireAll (item.wire? references) values = some code) :
    ReadsBack ((Codec.fixedList item values.length).decodeWith decoders) framed code values
      (item.size ≠ .overflow ∧ ∀ value ∈ values, fits value) := by
  have hsized : item.size.isPositive = true → ∀ value ∈ values, ∀ code,
      item.wire? references value = some code → code ≠ [] := by
    intro hpositive value hvalue code hcode
    exact Codec.ne_nil_of_isPositive hpositive hcode
  have hitems : ReadsBack
      (items (item.decodeWith decoders) item.size.isPositive values.length values.length)
      framed code values (∀ value ∈ values, fits value) :=
    readsBack_items hitem hsized hcode values.length
  rw [Codec.decodeWith_fixedList]
  split
  · rename_i hsize
    exact readsBack_overflow fun hfits ↦ hfits.1 hsize
  · rename_i hsize
    exact readsBack_congr hitems (and_iff_right hsize).symm

/-- A union is read back when the tag of the kind and then the value by the codec of the kind are:
the tag leads back to the kind. -/
theorem Codec.readsBack_choice {T K V : Type} [DecidableEq T] [DecidableEq K] {tag : Codec S T}
    {showTag : T → String} {showKind : K → String} {kind : V → K} {registry : Registry T K}
    {table : Table S K V} {key : T} {value : V} {decode : Decoding V} {lead inner : List UInt8}
    {fits fitsNext : Prop} (htag : ReadsBack (tag.decodeWith decoders) false lead key fits)
    (hkey : registry.tagOf? (kind value) = some key)
    (hdecode : table.decodeAt decoders (kind value) = some decode)
    (hvalue : ReadsBack decode framed inner value fitsNext) :
    ReadsBack ((Codec.choice tag showTag showKind kind registry table).decodeWith decoders) framed
      (lead ++ inner) value (fits ∧ fitsNext) := by
  rw [Codec.decodeWith]
  apply readsBack_bind htag
  rw [Registry.kindOf?_of_tagOf? hkey]
  simp only [hdecode]
  exact hvalue

end

section

variable {references : (name : S.Name) → S.Value name → Option (List UInt8)}
  (decoders : (name : S.Name) → Decoding (S.Value name))

mutual

/-- By induction on the codec: what its encoder writes is read back. -/
theorem Codec.readsBack_decodeWith : {α : Type} → (codec : Codec S α) → (framed : Bool) →
    codec.Delimits references framed → (value : α) → (code : List UInt8) →
    codec.wire? references value = some code → codec.Regular references value →
    ReadsBack (codec.decodeWith decoders) framed code value (codec.ItemSizesFit references value)
  | _, .leaf leaf, framed, hdelimits, value, code, hcode, hregular =>
    readsBack_onStream fun source behind hbytes hframed hword ↦
      Leaf.decode_wire? hdelimits hregular hcode hbytes hframed hword
  | _, .tuple items, framed, hdelimits, value, code, hcode, hregular =>
    items.readsBack_decodeWith hdelimits framed value code hcode hregular
  | _, .fixedList item count, framed, hdelimits, values, code, hcode, hregular => by
    obtain ⟨rfl, hitems⟩ := Option.ite_none_right_eq_some.mp hcode
    have hitem : ∀ value ∈ values, ∀ code, item.wire? references value = some code →
        ReadsBack (item.decodeWith decoders) false code value
          (item.ItemSizesFit references value) :=
      fun value hvalue code hcode ↦
        item.readsBack_decodeWith false hdelimits value code hcode (hregular.2 value hvalue)
    exact Codec.readsBack_fixedList hitem hitems
  | _, .exhaustList item max, framed, hdelimits, values, code, hcode, hregular => by
    obtain ⟨rfl, hdelimits, hnonempty⟩ := hdelimits
    obtain ⟨hmax, hitems⟩ := Option.ite_none_left_eq_some.mp hcode
    have hitem : ∀ value ∈ values, ∀ code, item.wire? references value = some code →
        ReadsBack (item.decodeWith decoders) false code value
          (item.ItemSizesFit references value) :=
      fun value hvalue code hcode ↦
        item.readsBack_decodeWith false hdelimits value code hcode (hregular value hvalue)
    -- What is left is the bound on the number of items, which the encoder has checked.
    refine readsBack_itemsToEnd hitem (fun value _ ↦ hnonempty value) ?_ hitems
    rintro bound rfl
    simpa using hmax
  | _, .map toWire fromWire wire, framed, hdelimits, value, code, hcode, hregular => by
    obtain ⟨hinverse, hdelimits⟩ := hdelimits
    have hwire := wire.readsBack_decodeWith framed hdelimits (toWire value) code hcode hregular
    refine readsBack_convert hwire fun stage ↦ ?_
    rw [hinverse value, ofExcept_ok]
  | _, .case wrap unwrap payload, framed, hdelimits, value, code, hcode, hregular => by
    obtain ⟨hinverse, hdelimits⟩ := hdelimits
    obtain ⟨inner, hinner, hcode⟩ := Codec.wire?_case_eq_some.mp hcode
    have hpayload := payload.readsBack_decodeWith framed hdelimits inner code hcode
      (hregular inner hinner)
    have hfits : payload.ItemSizesFit references inner ↔
        (Codec.case wrap unwrap payload).ItemSizesFit references value := by
      simp [Codec.ItemSizesFit, Codec.Admits, hinner]
    refine readsBack_congr (readsBack_convert hpayload fun stage ↦ ?_) hfits
    rw [pure_apply, hinverse value inner hinner]
  | _, .byteCounted length range payload, framed, hdelimits, value, code, hcode, hregular => by
    obtain ⟨hlength, hpayload⟩ := hdelimits
    obtain ⟨inner, lead, hinner, hrange, hlead, rfl⟩ := Codec.wire?_byteCounted_eq_some.mp hcode
    have hfront := length.readsBack_decodeWith false hlength inner.length lead hlead
      (hregular.1 inner hinner)
    have hback := payload.readsBack_decodeWith true hpayload value inner hinner hregular.2
    have hfits : length.ItemSizesFit references inner.length ∧
          payload.ItemSizesFit references value ↔
        (Codec.byteCounted length range payload).ItemSizesFit references value := by
      simp [Codec.ItemSizesFit, Codec.Admits, hinner]
    exact readsBack_congr (readsBack_counted hfront hrange (readsBack_frame hback)) hfits
  | _, .itemCounted length range count body, framed, hdelimits, value, code, hcode,
      hregular => by
    obtain ⟨hlength, hbody⟩ := hdelimits
    obtain ⟨lead, inner, hrange, hlead, hinner, rfl⟩ :=
      Codec.wire?_itemCounted_eq_some.mp hcode
    have hfront := length.readsBack_decodeWith false hlength (count value) lead hlead hregular.1
    have hback := (body (count value)).readsBack_decodeWith framed (hbody (count value)) value
      inner hinner hregular.2
    exact readsBack_counted hfront hrange hback
  | _, .choice (i := _) (j := _) tag showTag showKind kind registry table, framed, hdelimits,
      value, code, hcode, hregular => by
    obtain ⟨htag, htable⟩ := hdelimits
    obtain ⟨key, wire, lead, inner, hkey, hwire, hlead, hinner, rfl⟩ :=
      Codec.wire?_choice_eq_some.mp hcode
    have hfront := tag.readsBack_decodeWith false htag key lead hlead (hregular.1 key hkey)
    obtain ⟨decode, hdecode, hback⟩ := table.readsBack_decodeAt framed htable (kind value) wire
      hwire value inner hinner hregular.2
    have hfits : tag.ItemSizesFit references key ∧
          table.AdmitsAt references (fun _ _ ↦ True) (fun item ↦ item.size ≠ .overflow)
            (kind value) value ↔
        (Codec.choice tag showTag showKind kind registry table).ItemSizesFit references value := by
      simp [Codec.ItemSizesFit, Codec.Admits, hkey]
    exact readsBack_congr (Codec.readsBack_choice hfront hkey hdecode hback) hfits

theorem Items.readsBack_decodeWith : {α : Type} → (items : Items S α) →
    items.Delimits references → (framed : Bool) → (value : α) → (code : List UInt8) →
    items.wire? references value = some code →
    items.Admits references Leaf.Regular (fun _ ↦ True) value →
    ReadsBack (items.decodeWith decoders) framed code value
      (items.Admits references (fun _ _ ↦ True) (fun item ↦ item.size ≠ .overflow) value)
  | _, .nil, _, framed, (), code, hcode, _ => by
    cases hcode
    exact readsBack_pure ()
  | _, .cons item rest, hdelimits, framed, (value, values), code, hcode, hregular => by
    obtain ⟨hitem, hrest⟩ := hdelimits
    obtain ⟨hregular, hothers⟩ := hregular
    obtain ⟨first, others, hfirst, hbehind, rfl⟩ := Items.wire?_cons_eq_some.mp hcode
    have hvalue := item.readsBack_decodeWith false hitem value first hfirst hregular
    have hvalues := rest.readsBack_decodeWith hrest framed values others hbehind hothers
    exact readsBack_bind hvalue (readsBack_convert hvalues fun _ ↦ rfl)

theorem Table.readsBack_decodeAt : {K V : Type} → [DecidableEq K] → (table : Table S K V) →
    (framed : Bool) → table.Delimits references framed → (wanted : K) →
    (wire : V → Option (List UInt8)) → table.wireAt references wanted = some wire →
    (value : V) → (code : List UInt8) → wire value = some code →
    table.AdmitsAt references Leaf.Regular (fun _ ↦ True) wanted value →
    ∃ decode, table.decodeAt decoders wanted = some decode ∧
      ReadsBack decode framed code value
        (table.AdmitsAt references (fun _ _ ↦ True) (fun item ↦ item.size ≠ .overflow) wanted
          value)
  | _, _, _, .nil, framed, hdelimits, wanted, wire, hwire, value, code, hcode, hregular => by
    cases hwire
  | _, _, _, .cons key codec rest, framed, hdelimits, wanted, wire, hwire, value, code, hcode,
      hregular => by
    obtain ⟨hcodec, hrest⟩ := hdelimits
    rw [Table.wireAt] at hwire
    rw [Table.AdmitsAt] at hregular
    rw [Table.decodeAt, Table.AdmitsAt]
    by_cases hkey : key = wanted
    · rw [if_pos hkey] at hwire hregular
      rw [if_pos hkey, if_pos hkey]
      cases hwire
      exact ⟨_, rfl, codec.readsBack_decodeWith framed hcodec value code hcode hregular⟩
    · rw [if_neg hkey] at hwire hregular
      rw [if_neg hkey, if_neg hkey]
      exact rest.readsBack_decodeAt framed hrest wanted wire hwire value code hcode hregular

end

end

/-- In front of any bytes a self-delimiting codec reads what it has written back as the value, and
leaves these bytes, exactly where the sizes of the items of fixed lists fit. Elsewhere it stops for
a size out of range. -/
theorem Codec.decode_encoded {α : Type} {codec : Codec S α} {definitions : Definitions S}
    {depth : Nat} {value : α} {stage after : Stage Sink} {written : Written}
    (hdelimits : codec.Delimits (definitions.wireWithin depth) false)
    (hregular : codec.Regular (definitions.wireWithin depth) value)
    (hencode : codec.encode definitions depth value stage = .ok written after) :
    ∃ code, after.stream.written = stage.stream.written ++ code ∧
      written.bytes = code.length ∧
      ∀ (source : Stage Source) (suffix : List UInt8), source.stream.bytes = code ++ suffix →
        source.stream.remaining ≤ maxWord →
        ((∃ last, codec.decode definitions depth source = .ok value last ∧
            last.stream.bytes = suffix) ↔
          codec.ItemSizesFit (definitions.wireWithin depth) value) ∧
        (¬ codec.ItemSizesFit (definitions.wireWithin depth) value →
          ∃ last, codec.decode definitions depth source = .error .overflow last) := by
  obtain ⟨code, hcode, hstream, hbytes⟩ :=
    codec.writes_encode definitions depth value stage written after hencode
  refine ⟨code, by rw [hstream, Sink.written_extend], hbytes, ?_⟩
  intro source suffix hsource hword
  have hlength : (code ++ suffix).length ≤ maxWord := by
    rwa [← hsource, ← Source.remaining_eq_length]
  rcases codec.readsBack_decodeWith (definitions.decodeWithin depth) false hdelimits value code
    hcode hregular source suffix hsource (by simp) hlength with ⟨hfits, hread⟩ | ⟨hfits, hstops⟩
  · exact ⟨iff_of_true hread hfits, fun hnot ↦ absurd hfits hnot⟩
  · refine ⟨iff_of_false ?_ hfits, fun _ ↦ hstops⟩
    rintro ⟨last, hread, -⟩
    obtain ⟨failed, hstops⟩ := hstops
    rw [Codec.decode, hstops] at hread
    cases hread

/-- No names to refer to. -/
def Signature.empty : Signature := ⟨Empty, nofun⟩

/-- Text behind its number of characters, a frame of words and a list of truth values come back in
front of another byte. -/
theorem Codec.decode_encoded_nested :
    let codec : Codec Signature.empty _ := .tuple
      (.cons (.countedText (.leaf (.length .u8)) .unbounded .utf8)
        (.cons
          (.byteCounted (.leaf (.length .u16)) .unbounded (.exhaustList (.leaf (.word 2)) none))
          (.cons (.countedList (.leaf (.length .u8)) .unbounded (.leaf .bool)) .nil)))
    let definitions : Definitions Signature.empty := nofun
    let value := ("é", [0x0102#16, 0x0304#16], [true], ())
    let source : Stage Source :=
      ⟨⟨[[1, 0xC3], [0xA9, 0, 4, 1, 2, 3, 4, 1, 1, 0x7F]]⟩, Cells.fresh⟩
    codec.Delimits (definitions.wireWithin 0) false ∧
      codec.Regular (definitions.wireWithin 0) value ∧
      codec.encode definitions 0 value ⟨Sink.growable, Cells.fresh⟩ =
        .ok ⟨3, 11⟩ ⟨⟨[1, 0xC3, 0xA9, 0, 4, 1, 2, 3, 4, 1, 1], maxAllocation⟩, Cells.fresh⟩ ∧
      ∃ last, codec.decode definitions 0 source = .ok value last ∧ last.stream.bytes = [0x7F] := by
  intro codec definitions value source
  have hword : ∀ value code, (Codec.leaf (.word 2) : Codec Signature.empty _).wire?
      (definitions.wireWithin 0) value = some code → code ≠ [] :=
    fun _ _ hcode ↦ Codec.ne_nil_of_isPositive rfl hcode
  have hdelimits : codec.Delimits (definitions.wireWithin 0) false :=
    ⟨⟨trivial, fun _ ↦ trivial⟩, ⟨trivial, rfl, trivial, hword⟩,
      ⟨trivial, fun _ ↦ trivial⟩, trivial⟩
  have hregular : codec.Regular (definitions.wireWithin 0) value :=
    ⟨⟨trivial, trivial⟩, ⟨fun _ _ ↦ trivial, fun _ _ ↦ trivial⟩,
      ⟨trivial, trivial, fun _ _ ↦ trivial⟩, trivial⟩
  have hencode : codec.encode definitions 0 value ⟨Sink.growable, Cells.fresh⟩ =
      .ok ⟨3, 11⟩ ⟨⟨[1, 0xC3, 0xA9, 0, 4, 1, 2, 3, 4, 1, 1], maxAllocation⟩, Cells.fresh⟩ := by
    rfl
  have hfits : codec.ItemSizesFit (definitions.wireWithin 0) value :=
    ⟨⟨trivial, trivial⟩, ⟨fun _ _ ↦ trivial, fun _ _ ↦ trivial⟩,
      ⟨trivial, nofun, fun _ _ ↦ trivial⟩, trivial⟩
  refine ⟨hdelimits, hregular, hencode, ?_⟩
  obtain ⟨code, hcode, -, hdecode⟩ := Codec.decode_encoded hdelimits hregular hencode
  obtain rfl : [1, 0xC3, 0xA9, 0, 4, 1, 2, 3, 4, 1, 1] = code := hcode
  exact (hdecode source [0x7F] rfl (by decide)).1.mpr hfits

/-- A list without items is written, but does not come back where its items would have more bytes
than a machine word counts. -/
theorem Codec.decode_fails_on_empty_list :
    let codec : Codec Signature.empty _ := .countedList (.leaf (.length .u8)) .unbounded
      (.tuple (.cons (.leaf (.bytes maxWord)) (.cons (.leaf (.word 1)) .nil)))
    let definitions : Definitions Signature.empty := nofun
    codec.Delimits (definitions.wireWithin 0) false ∧
      codec.Regular (definitions.wireWithin 0) [] ∧
      codec.encode definitions 0 [] ⟨Sink.growable, Cells.fresh⟩ =
        .ok ⟨0, 1⟩ ⟨⟨[0], maxAllocation⟩, Cells.fresh⟩ ∧
      codec.decode definitions 0 ⟨Source.ofBytes [0], Cells.fresh⟩ =
        .error .overflow ⟨⟨[[]]⟩, Cells.fresh⟩ := by
  intro codec definitions
  refine ⟨⟨trivial, fun _ ↦ ⟨trivial, trivial, trivial⟩⟩, ⟨trivial, trivial, nofun⟩, rfl, ?_⟩
  rfl

end WireFormat
