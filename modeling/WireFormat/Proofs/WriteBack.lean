import WireFormat.Proofs.Delivery
import WireFormat.Proofs.Recoding
import WireFormat.Proofs.SelfDelimiting

/-!
# Writing what was read

A codec whose conversions go back and forth writes whatever it has read, from well-formed and from
odd bytes alike, and it writes no more bytes than were read (`Codec.Inverts`,
`Codec.encode_decoded`). They are the very bytes that were read where the leaves have one form only
for what was read (`Codec.IsCanonical`). A frame may be written with fewer bytes than it was read
from; its length is then smaller, so that the range of the frame must not have a lower end, and the
codec of the length must not need more bytes for smaller numbers.
-/

set_option autoImplicit false
set_option relaxedAutoImplicit false

namespace WireFormat

/-! ### Steps -/

/-- What contains a length contains every shorter one. -/
def LengthRange.DownwardClosed (range : LengthRange) : Prop :=
  ∀ small n, small ≤ n → range.contains n = true → range.contains small = true

/-- Where a number has bytes so has every smaller one, and no more of them. -/
def Shrinks (wire : Nat → Option (List UInt8)) : Prop :=
  ∀ small n code, small ≤ n → wire n = some code →
    ∃ shorter, wire small = some shorter ∧ shorter.length ≤ code.length

theorem Source.remaining_le_of_recodes {wire : Option (List UInt8)} {canonical : Prop}
    {source rest : Source} (h : Recodes wire canonical source.bytes rest.bytes)
    (hword : source.remaining ≤ maxWord) : rest.remaining ≤ maxWord := by
  obtain ⟨front, code, hbytes, -⟩ := h
  rw [remaining_eq_length, hbytes, List.length_append] at hword
  rw [remaining_eq_length]
  omega

namespace Decoding

variable {α β : Type}

/-- Every value that is read from a source of machine size is of a kind. -/
def Yields (decoder : Decoding α) (ofKind : α → Prop) : Prop :=
  ∀ stage value after, decoder stage = .ok value after → stage.stream.remaining ≤ maxWord →
    ofKind value

/-- What is read can be written. -/
def ReadsWritable (decoder : Decoding α) (wire : α → Option (List UInt8))
    (canonical : α → Prop) : Prop :=
  ∀ stage value after, decoder stage = .ok value after → stage.stream.remaining ≤ maxWord →
    Recodes (wire value) (canonical value) stage.stream.bytes after.stream.bytes

variable {item : Decoding α} {wire : α → Option (List UInt8)} {canonical : α → Prop}
  {stage after : Stage Source} {values : List α}

/-- An item and the others behind it. -/
theorem recodes_cons {value : α} {middle : Stage Source} (hitem : item.ReadsWritable wire canonical)
    (hvalue : item stage = .ok value middle) (hword : stage.stream.remaining ≤ maxWord)
    (hothers : Recodes (wireAll wire values) (∀ value ∈ values, canonical value)
      middle.stream.bytes after.stream.bytes) :
    Recodes (wireAll wire (value :: values)) (∀ other ∈ value :: values, canonical other)
      stage.stream.bytes after.stream.bytes :=
  recodes_append (hitem stage value middle hvalue hword) hothers
    (fun front back hfront hback ↦ wireAll_cons_eq_some.mpr ⟨front, back, hfront, hback, rfl⟩)
    List.forall_mem_cons.mp

theorem recodes_items (hitem : item.ReadsWritable wire canonical) {sized : Bool}
    {requested left : Nat} (h : items item sized requested left stage = .ok values after)
    (hword : stage.stream.remaining ≤ maxWord) :
    values.length = left ∧
      Recodes (wireAll wire values) (∀ value ∈ values, canonical value) stage.stream.bytes
        after.stream.bytes := by
  induction left generalizing stage values with
  | zero =>
    cases h
    exact ⟨rfl, recodes_nil rfl⟩
  | succ left ih =>
    obtain ⟨value, middle, others, hvalue, hothers, rfl⟩ := items_succ_eq_ok h
    have hmiddle := Source.remaining_le_of_recodes (hitem stage value middle hvalue hword) hword
    obtain ⟨hlength, hrecodes⟩ := ih hothers hmiddle
    exact ⟨congrArg (· + 1) hlength, recodes_cons hitem hvalue hword hrecodes⟩

/-- By induction on the number of bytes that are left. -/
theorem recodes_itemsToEnd (hitem : item.ReadsWritable wire canonical) {allowance : Option Nat}
    (h : itemsToEnd item allowance stage = .ok values after)
    (hword : stage.stream.remaining ≤ maxWord) :
    (∀ max, allowance = some max → values.length ≤ max) ∧
      Recodes (wireAll wire values) (∀ value ∈ values, canonical value) stage.stream.bytes
        after.stream.bytes := by
  induction hleft : stage.stream.remaining using Nat.strong_induction_on
    generalizing stage allowance values with
  | h left ih =>
    rcases itemsToEnd_eq_ok h with
        ⟨rfl, rfl, -⟩ | ⟨value, middle, others, hmore, hvalue, hprogress, hothers, rfl⟩
    · exact ⟨fun max _ ↦ Nat.zero_le max, recodes_nil rfl⟩
    · obtain ⟨hbound, hrecodes⟩ :=
        ih _ (hleft ▸ hprogress) hothers (hprogress.le.trans hword) rfl
      refine ⟨?_, recodes_cons hitem hvalue hword hrecodes⟩
      rintro (_ | max) rfl
      · exact absurd rfl hmore
      · exact Nat.succ_le_succ (hbound max rfl)

/-- What is read from a frame is written behind its own length, which may be smaller than the one
that was read. -/
theorem recodes_frame {length : Decoding Nat} {range : LengthRange} {payload : Decoding α}
    {lengthWire : Nat → Option (List UInt8)} {lengthCanonical : Nat → Prop} {value : α}
    (hlength : length.ReadsWritable lengthWire lengthCanonical)
    (hpayload : payload.ReadsWritable wire canonical) (hrange : range.DownwardClosed)
    (hshrinks : Shrinks lengthWire)
    (h : (do
      let n ← ofExcept (range.check (← length))
      let frame ← Stage.onStream (Source.take n)
      inFrame frame payload) stage = .ok value after)
    (hword : stage.stream.remaining ≤ maxWord) :
    ∃ inner lead, wire value = some inner ∧ range.contains inner.length = true ∧
      lengthWire inner.length = some lead ∧
      Recodes (some (lead ++ inner)) (lengthCanonical inner.length ∧ canonical value)
        stage.stream.bytes after.stream.bytes := by
  obtain ⟨n, s1, hn, hcontains, hrun⟩ := counted_eq_ok h
  obtain ⟨frame, s2, htake, hinside⟩ := bind_eq_ok.mp hrun
  obtain ⟨hframe, hrest⟩ := Source.take_eq_ok (Stage.onStream_eq_ok.mp htake).1
  obtain ⟨last, hvalue, hlast, rfl⟩ := inFrame_eq_ok hinside
  have hfirst := hlength stage n s1 hn hword
  have hmiddle := Source.remaining_le_of_recodes hfirst hword
  have hframeWord : (Source.ofBytes frame).remaining ≤ maxWord := by
    rw [Source.remaining_eq_length, hrest, List.length_append] at hmiddle
    rw [Source.remaining_eq_length, Source.bytes_ofBytes]
    omega
  obtain ⟨front, lead, hbytes, hlead, hleadShort, hleadSame⟩ := hfirst
  obtain ⟨whole, inner, hwhole, hinner, hinnerShort, hinnerSame⟩ :=
    hpayload _ value last hvalue hframeWord
  rw [Source.bytes_ofBytes, hlast, List.append_nil] at hwhole
  subst hwhole
  have hle : inner.length ≤ n := hinnerShort.trans_eq hframe
  obtain ⟨shorter, hshorter, hshorterLength⟩ := hshrinks inner.length n lead hle hlead
  refine ⟨inner, shorter, hinner, hrange _ n hle hcontains, hshorter, front ++ frame, _, ?_, rfl,
    ?_, fun ⟨hlengthCanonical, hpayloadCanonical⟩ ↦ ?_⟩
  · rw [hbytes, hrest, List.append_assoc]
  · rw [List.length_append, List.length_append]
    exact Nat.add_le_add (hshorterLength.trans hleadShort) hinnerShort
  · -- The frame is as long as it was, and so its length is written as it was.
    have hsame := hinnerSame hpayloadCanonical
    have hn : inner.length = n := hsame ▸ hframe
    rw [hn] at hlengthCanonical hshorter
    rw [hsame, ← hleadSame hlengthCanonical, Option.some.inj (hshorter.symm.trans hlead)]

end Decoding

/-! ### Codecs and their values -/

/-- No value of a name has bytes: what is said of codecs with these is said of codecs that do not
refer to any name. -/
def Signature.noCodes (S : Signature) : (name : S.Name) → S.Value name → Option (List UInt8) :=
  fun _ _ ↦ none

variable {S : Signature}

mutual

/-- Whatever the codec reads it can write: the conversions, the variants and the counts of values go
back to what was read. The lengths of frames may become smaller. -/
def Codec.Inverts (decoders : (name : S.Name) → Decoding (S.Value name)) :
    {α : Type} → Codec S α → Prop
  | _, .leaf leaf => leaf.Inverts
  | _, .tuple items => items.Inverts decoders
  | _, .fixedList item _ => item.Inverts decoders
  | _, .exhaustList item _ => item.Inverts decoders
  | _, .map toWire fromWire wire =>
    (∀ inner value, fromWire inner = .ok value → toWire value = inner) ∧ wire.Inverts decoders
  | _, .case wrap unwrap payload =>
    (∀ inner, unwrap (wrap inner) = some inner) ∧ payload.Inverts decoders
  | _, .byteCounted length range payload =>
    range.DownwardClosed ∧ Shrinks (length.wire? S.noCodes) ∧ length.Inverts decoders ∧
      payload.Inverts decoders
  | _, .itemCounted length _ count body =>
    length.Inverts decoders ∧
      ∀ n, (body n).Inverts decoders ∧ ((body n).decodeWith decoders).Yields (count · = n)
  | _, .record _ _ => False
  | _, .tagged (i := _) _ _ _ _ _ _ _ => False
  | _, .choice (i := _) (j := _) tag _ _ kind _ table =>
    tag.Inverts decoders ∧ table.Inverts decoders kind
  | _, .lazy _ _ => False

/-- So it is with every part of a tuple. -/
def Items.Inverts (decoders : (name : S.Name) → Decoding (S.Value name)) :
    {α : Type} → Items S α → Prop
  | _, .nil => True
  | _, .cons item rest => item.Inverts decoders ∧ rest.Inverts decoders

/-- So it is with every codec of a table, which reads values of its own kind. -/
def Table.Inverts (decoders : (name : S.Name) → Decoding (S.Value name)) :
    {K V : Type} → (V → K) → Table S K V → Prop
  | _, _, _, .nil => True
  | _, _, kind, .cons key codec rest =>
    codec.Inverts decoders ∧ (codec.decodeWith decoders).Yields (kind · = key) ∧
      rest.Inverts decoders kind

end

/-- No leaf that the value is written with has another form for what it writes. -/
def Codec.IsCanonical {α : Type} (codec : Codec S α) (value : α) : Prop :=
  codec.Admits S.noCodes (fun leaf _ ↦ leaf.IsCanonical) (fun _ ↦ True) value

/-! ### What is read can be written -/

open Decoding

variable {decoders : (name : S.Name) → Decoding (S.Value name)}

mutual

/-- By induction on the codec: what it reads can be written. -/
theorem Codec.readsWritable_decodeWith : {α : Type} → (codec : Codec S α) →
    codec.Inverts decoders →
    (codec.decodeWith decoders).ReadsWritable (codec.wire? S.noCodes) codec.IsCanonical
  | _, .leaf leaf, hinverts, stage, value, after, h, hword =>
    Leaf.recodes_decode hinverts (Stage.onStream_eq_ok.mp h).1 hword
  | _, .tuple items, hinverts, stage, value, after, h, hword =>
    items.readsWritable_decodeWith hinverts stage value after h hword
  | _, .fixedList item count, hinverts, stage, values, after, h, hword => by
    obtain ⟨hlength, hitems⟩ :=
      recodes_items (item.readsWritable_decodeWith hinverts) (Codec.items_of_fixedList h) hword
    exact recodes_congr hitems (fun _ hcode ↦ (if_pos hlength).trans hcode) And.right
  | _, .exhaustList item max, hinverts, stage, values, after, h, hword => by
    obtain ⟨hbound, hitems⟩ :=
      recodes_itemsToEnd (item.readsWritable_decodeWith hinverts) h hword
    have hmax : ¬ max.any (· < values.length) = true := by
      cases max with
      | none => simp
      | some bound => simpa using hbound bound rfl
    exact recodes_congr hitems (fun _ hcode ↦ (if_neg hmax).trans hcode) id
  | _, .map toWire fromWire wire, hinverts, stage, value, after, h, hword => by
    obtain ⟨inner, middle, hinner, hrun⟩ := bind_eq_ok.mp h
    obtain ⟨hvalue, rfl⟩ := ofExcept_eq_ok.mp hrun
    obtain rfl := hinverts.1 inner value hvalue
    exact wire.readsWritable_decodeWith hinverts.2 stage _ _ hinner hword
  | _, .case wrap unwrap payload, hinverts, stage, value, after, h, hword => by
    obtain ⟨inner, middle, hinner, hreturn⟩ := bind_eq_ok.mp h
    cases hreturn
    have hback := hinverts.1 inner
    exact recodes_congr (payload.readsWritable_decodeWith hinverts.2 stage inner _ hinner hword)
      (fun _ hcode ↦ Codec.wire?_case_eq_some.mpr ⟨inner, hback, hcode⟩)
      fun hcanonical ↦ hcanonical inner hback
  | _, .byteCounted length range payload, hinverts, stage, value, after, h, hword => by
    obtain ⟨hrange, hshrinks, hlength, hpayload⟩ := hinverts
    obtain ⟨inner, lead, hinner, hcontains, hlead, hframe⟩ :=
      recodes_frame (length.readsWritable_decodeWith hlength)
        (payload.readsWritable_decodeWith hpayload) hrange hshrinks h hword
    exact recodes_congr hframe
      (fun _ hcode ↦ Codec.wire?_byteCounted_eq_some.mpr
        ⟨inner, lead, hinner, hcontains, hlead, (Option.some.inj hcode).symm⟩)
      fun hcanonical ↦ ⟨hcanonical.1 inner hinner, hcanonical.2⟩
  | _, .itemCounted length range count body, hinverts, stage, value, after, h, hword => by
    obtain ⟨hlength, hbody⟩ := hinverts
    obtain ⟨n, s1, hn, hcontains, hrun⟩ := counted_eq_ok h
    have hfirst := length.readsWritable_decodeWith hlength stage n s1 hn hword
    have hmiddle := Source.remaining_le_of_recodes hfirst hword
    obtain ⟨hbodyInverts, hcount⟩ := hbody n
    have hsecond := (body n).readsWritable_decodeWith hbodyInverts s1 value after hrun hmiddle
    obtain rfl := hcount s1 value after hrun hmiddle
    exact recodes_append hfirst hsecond
      (fun lead inner hlead hinner ↦ Codec.wire?_itemCounted_eq_some.mpr
        ⟨lead, inner, hcontains, hlead, hinner, rfl⟩) id
  | _, .choice (i := _) (j := _) tag _ _ kind registry table, hinverts, stage, value, after, h,
      hword => by
    obtain ⟨htag, htable⟩ := hinverts
    obtain ⟨key, s1, hkey, hrun⟩ := bind_eq_ok.mp h
    have hfirst := tag.readsWritable_decodeWith htag stage key s1 hkey hword
    have hmiddle := Source.remaining_le_of_recodes hfirst hword
    cases hkind : registry.kindOf? key with
    | none =>
      simp only [hkind] at hrun
      cases hrun
    | some wanted =>
      simp only [hkind] at hrun
      cases hdecode : table.decodeAt decoders wanted with
      | none =>
        simp only [hdecode] at hrun
        cases hrun
      | some decode =>
        simp only [hdecode] at hrun
        obtain ⟨wire, hwire, rfl, hsecond⟩ := table.readsWritable_decodeAt kind htable wanted decode
          hdecode s1 value after hrun hmiddle
        have htagOf := Registry.tagOf?_of_kindOf? hkind
        exact recodes_append hfirst hsecond
          (fun lead inner hlead hinner ↦ Codec.wire?_choice_eq_some.mpr
            ⟨key, wire, lead, inner, htagOf, hwire, hlead, hinner, rfl⟩)
          fun hcanonical ↦ ⟨hcanonical.1 key htagOf, hcanonical.2⟩

theorem Items.readsWritable_decodeWith : {α : Type} → (items : Items S α) →
    items.Inverts decoders →
    (items.decodeWith decoders).ReadsWritable (items.wire? S.noCodes)
      (items.Admits S.noCodes (fun leaf _ ↦ leaf.IsCanonical) (fun _ ↦ True))
  | _, .nil, _, stage, (), after, h, _ => by
    cases h
    exact recodes_nil rfl
  | _, .cons item rest, hinverts, stage, value, after, h, hword => by
    obtain ⟨first, middle, hfirst, hrun⟩ := bind_eq_ok.mp h
    obtain ⟨others, last, hothers, hreturn⟩ := bind_eq_ok.mp hrun
    cases hreturn
    have hrecodes := item.readsWritable_decodeWith hinverts.1 stage first middle hfirst hword
    have hmiddle := Source.remaining_le_of_recodes hrecodes hword
    exact recodes_append hrecodes
      (rest.readsWritable_decodeWith hinverts.2 middle others _ hothers hmiddle)
      (fun front back hfront hback ↦ Items.wire?_cons_eq_some.mpr ⟨front, back, hfront, hback, rfl⟩)
      id

theorem Table.readsWritable_decodeAt : {K V : Type} → [DecidableEq K] → (kind : V → K) →
    (table : Table S K V) → table.Inverts decoders kind → (wanted : K) → (decode : Decoding V) →
    table.decodeAt decoders wanted = some decode → (stage : Stage Source) → (value : V) →
    (after : Stage Source) → decode stage = .ok value after → stage.stream.remaining ≤ maxWord →
    ∃ wire, table.wireAt S.noCodes wanted = some wire ∧ kind value = wanted ∧
      Recodes (wire value)
        (table.AdmitsAt S.noCodes (fun leaf _ ↦ leaf.IsCanonical) (fun _ ↦ True) wanted value)
        stage.stream.bytes after.stream.bytes
  | _, _, _, _, .nil, _, _, _, hdecode, _, _, _, _, _ => by cases hdecode
  | _, _, _, kind, .cons key codec rest, hinverts, wanted, decode, hdecode, stage, value, after, h,
      hword => by
    obtain ⟨hcodec, hkind, hrest⟩ := hinverts
    rw [Table.decodeAt] at hdecode
    rw [Table.wireAt, Table.AdmitsAt]
    by_cases hkey : key = wanted
    · rw [if_pos hkey] at hdecode
      cases hdecode
      rw [if_pos hkey, if_pos hkey]
      exact ⟨_, rfl, (hkind stage value after h hword).trans hkey,
        codec.readsWritable_decodeWith hcodec stage value after h hword⟩
    · rw [if_neg hkey] at hdecode
      rw [if_neg hkey, if_neg hkey]
      exact rest.readsWritable_decodeAt kind hrest wanted decode hdecode stage value after h hword

end

/-! ### Codecs that write what they read -/

theorem LengthRange.downwardClosed {range : LengthRange} (h : range.lower = .unbounded) :
    range.DownwardClosed := by
  intro small n hle hcontains
  unfold contains at hcontains ⊢
  rw [h] at hcontains ⊢
  cases hupper : range.upper with
  | unbounded => rfl
  | included last =>
    simp only [hupper, admitsBelow, admitsAbove, Bool.true_and, decide_eq_true_eq] at hcontains ⊢
    omega
  | excluded last =>
    simp only [hupper, admitsBelow, admitsAbove, Bool.true_and, decide_eq_true_eq] at hcontains ⊢
    omega

/-- Lengths of every width may become smaller. -/
theorem LengthWidth.shrinks (width : LengthWidth) : Shrinks width.wire? := by
  intro small n code hle hcode
  obtain ⟨hlimit, hwire⟩ := Option.ite_none_left_eq_some.mp hcode
  have hsmall : ¬ width.limit ≤ small := by omega
  cases hcount : width.byteCount? with
  | some bytes =>
    simp only [hcount, Option.some.injEq] at hwire
    refine ⟨BigEndian.bytes bytes small, ?_, ?_⟩
    · simp only [wire?, if_neg hsmall, hcount]
    · rw [← hwire, BigEndian.length_bytes, BigEndian.length_bytes]
  | none =>
    simp only [hcount, Option.some.injEq] at hwire
    refine ⟨Varint.groups small, ?_, ?_⟩
    · simp only [wire?, if_neg hsmall, hcount]
    · rw [← hwire, Varint.length_groups, Varint.length_groups]
      exact Varint.size_mono hle

/-- What a variant reads is what its payload can be wrapped into. -/
theorem Codec.yields_case {α β : Type} {wrap : β → α} {unwrap : α → Option β}
    {payload : Codec S β} {ofKind : α → Prop} (h : ∀ inner, ofKind (wrap inner)) :
    ((Codec.case wrap unwrap payload).decodeWith decoders).Yields ofKind := by
  intro stage value after hrun _
  obtain ⟨inner, middle, -, hreturn⟩ := bind_eq_ok.mp hrun
  cases hreturn
  exact h inner

/-- What is written is of a kind, and so is what is read. -/
theorem Codec.yields_of_wire? {α : Type} (codec : Codec S α) {ofKind : α → Prop}
    (hinverts : codec.Inverts decoders)
    (h : ∀ value code, codec.wire? S.noCodes value = some code → ofKind value) :
    (codec.decodeWith decoders).Yields ofKind := by
  intro stage value after hrun hword
  obtain ⟨front, code, -, hcode, -⟩ :=
    codec.readsWritable_decodeWith hinverts stage value after hrun hword
  exact h value code hcode

variable {length : Codec S Nat} {range : LengthRange}

theorem Codec.inverts_countedText (hlength : length.Inverts decoders) (charset : Charset) :
    (Codec.countedText length range charset).Inverts decoders :=
  ⟨hlength, fun _ ↦ ⟨trivial, yields_of_wire? _ trivial fun _ _ h ↦
    (Option.ite_none_right_eq_some.mp h).1⟩⟩

theorem Codec.inverts_countedDigits (hlength : length.Inverts decoders) (format : PackedDigits) :
    (Codec.countedDigits length range format).Inverts decoders :=
  ⟨hlength, fun _ ↦ ⟨trivial, yields_of_wire? _ trivial fun _ _ h ↦
    (PackedDigits.wire?_eq_some.mp h).1⟩⟩

theorem Codec.inverts_countedList {α : Type} {item : Codec S α} (hlength : length.Inverts decoders)
    (hitem : item.Inverts decoders) : (Codec.countedList length range item).Inverts decoders :=
  ⟨hlength, fun _ ↦ ⟨hitem, yields_of_wire? _ hitem fun _ _ h ↦
    (Option.ite_none_right_eq_some.mp h).1⟩⟩

/-- What a codec of this kind reads it writes, with no more bytes than it has read, and with the
same ones where the value has one form only. The room for them is all that is asked of the sink. -/
theorem Codec.encode_decoded {α : Type} {codec : Codec S α} {definitions : Definitions S}
    {depth : Nat} {value : α} {source after : Stage Source}
    (hinverts : codec.Inverts (definitions.decodeWithin depth))
    (hword : source.stream.remaining ≤ maxWord)
    (hdecode : codec.decode definitions depth source = .ok value after) :
    ∃ consumed code, source.stream.bytes = consumed ++ after.stream.bytes ∧
      code.length ≤ consumed.length ∧ (codec.IsCanonical value → code = consumed) ∧
      ∀ stage : Stage Sink, code.length ≤ stage.stream.room → code.length ≤ maxAllocation →
        ∃ written last, codec.encode definitions depth value stage = .ok written last ∧
          last.stream.written = stage.stream.written ++ code ∧ written.bytes = code.length ∧
          last.cells = stage.cells := by
  obtain ⟨consumed, code, hbytes, hcode, hlength, hsame⟩ :=
    codec.readsWritable_decodeWith hinverts source value after hdecode hword
  refine ⟨consumed, code, hbytes, hlength, hsame, fun stage hroom hallocation ↦ ?_⟩
  -- There are no references in the codec, so that none has to get through.
  have hreferences (cell : LazyCell) (name : S.Name) (inner : S.Value name) :
      Encoding.Delivers (do
          Stage.onCells (Cells.use cell)
          definitions.encodeWithin depth name inner)
        (· = stage.cells) (S.noCodes name inner) :=
    Encoding.delivers_none _
  obtain ⟨written, last, hrun, hlast, hwritten, hcells⟩ :=
    codec.delivers_encodeWith hreferences value code hcode stage rfl hroom hallocation
  exact ⟨written, last, hrun, by rw [hlast, Sink.written_extend], hwritten, hcells⟩

/-- A number with more groups than needed, in a frame, and a digit behind odd padding are read from
eight bytes. What is read is written with no more. -/
theorem Codec.encode_decoded_overlong :
    let frame : Codec Signature.empty _ :=
      .byteCounted (.leaf (.length .u8)) .unbounded (.exhaustList (.leaf (.varint 16)) none)
    let registry : Registry (BitVec (8 * 1)) Bool := ⟨[(7, true), (9, false)], by decide, by decide⟩
    let union : Codec Signature.empty (String ⊕ List String) :=
      .choice (.leaf (.word 1)) (fun _ ↦ "") (fun _ ↦ "") Sum.isLeft registry
        (.cons true
          (.case Sum.inl Sum.getLeft? (.countedText (.leaf (.length .u8)) .unbounded .utf8))
          (.cons false
            (.case Sum.inr Sum.getRight?
              (.countedList (.leaf (.length .u8)) .unbounded
                (.countedDigits (.leaf (.length .u8)) .unbounded ⟨.decimal, 0, .beforeDigits, 0⟩)))
            .nil))
    let codec : Codec Signature.empty _ := .tuple (.cons frame (.cons union .nil))
    let definitions : Definitions Signature.empty := nofun
    let source : Stage Source := ⟨⟨[[3, 0x81, 0], [2, 9, 1, 1, 0xF5, 0x7F]]⟩, Cells.fresh⟩
    let value := ([1#16, 2#16], (Sum.inr ["5"] : String ⊕ List String), ())
    codec.Inverts (definitions.decodeWithin 0) ∧ source.stream.remaining ≤ maxWord ∧
      codec.decode definitions 0 source = .ok value ⟨⟨[[0x7F]]⟩, Cells.fresh⟩ ∧
      ∃ written last, codec.encode definitions 0 value ⟨Sink.growable, Cells.fresh⟩ =
        .ok written last ∧ last.stream.written.length ≤ 8 := by
  intro frame registry union codec definitions source value
  have hcount : (Codec.leaf (.length .u8) : Codec Signature.empty Nat).Inverts
      (definitions.decodeWithin 0) := trivial
  have hframe : frame.Inverts (definitions.decodeWithin 0) :=
    ⟨LengthRange.downwardClosed rfl, LengthWidth.shrinks .u8, hcount, trivial⟩
  have hunion : union.Inverts (definitions.decodeWithin 0) :=
    ⟨trivial, ⟨fun _ ↦ rfl, Codec.inverts_countedText hcount _⟩, Codec.yields_case fun _ ↦ rfl,
      ⟨fun _ ↦ rfl, Codec.inverts_countedList hcount (Codec.inverts_countedDigits hcount _)⟩,
      Codec.yields_case fun _ ↦ rfl, trivial⟩
  have hinverts : codec.Inverts (definitions.decodeWithin 0) := ⟨hframe, hunion, trivial⟩
  have hdecode : codec.decode definitions 0 source = .ok value ⟨⟨[[0x7F]]⟩, Cells.fresh⟩ := by
    with_unfolding_all rfl
  refine ⟨hinverts, by decide, hdecode, ?_⟩
  obtain ⟨consumed, code, hbytes, hlength, -, hencode⟩ :=
    Codec.encode_decoded hinverts (by decide) hdecode
  have hconsumed : consumed.length + 1 = 9 :=
    ((congrArg List.length hbytes).trans List.length_append).symm
  have hshort : code.length ≤ 8 := by omega
  have hallocation : code.length ≤ maxAllocation := hshort.trans (by decide)
  obtain ⟨written, last, hrun, hwritten, -⟩ := hencode ⟨Sink.growable, Cells.fresh⟩
    (hallocation.trans_eq Sink.room_growable.symm) hallocation
  refine ⟨written, last, hrun, ?_⟩
  rw [hwritten]
  exact hshort

end WireFormat
