import WireFormat.Codec.Whole
import WireFormat.Proofs.ListTurns

/-!
# What lists that run to the end give back

A list without a count is read by the bytes that are left. Items that take bytes come back one after
another. Of items that take none nothing is written, and the decoder, which refuses such items
wherever there are bytes, finds none of them; the encoder does not refuse them. There is nothing in
between: next to an item without bytes, a codec that reads back whatever it writes has no other
value (`Codec.RoundTrips.eq_of_free`). So a list is lost as a whole or not at all
(`Codec.decode_encoded_exhaustList`).
-/

set_option autoImplicit false
set_option relaxedAutoImplicit false

namespace WireFormat

/-- What writes item after item adds what each of them adds. -/
theorem Encoding.items_of_ok {α : Type} {item : α → Encoding} {encodes : α → List UInt8 → Prop}
    (hitem : ∀ value stage written after, item value stage = .ok written after →
      ∃ code, encodes value code ∧ after.stream = stage.stream.extend code ∧
        written.bytes = code.length) :
    ∀ {values : List α} {stage after : Stage Sink} {n : Nat},
      items item values stage = .ok n after →
      ∃ codes, List.Forall₂ encodes values codes ∧
        after.stream = stage.stream.extend codes.flatten ∧ n = codes.flatten.length
  | [], stage, after, n, h => by
    obtain ⟨rfl, rfl⟩ := pure_eq_ok.mp h
    exact ⟨[], .nil, (Sink.extend_nil _).symm, rfl⟩
  | value :: values, stage, after, n, h => by
    obtain ⟨first, middle, hfirst, h⟩ := bind_eq_ok.mp h
    obtain ⟨others, last, hothers, h⟩ := bind_eq_ok.mp h
    obtain ⟨rfl, rfl⟩ := pure_eq_ok.mp h
    obtain ⟨code, hcode, hmiddle, hbytes⟩ := hitem value _ _ _ hfirst
    obtain ⟨codes, hcodes, hlast, rfl⟩ := Encoding.items_of_ok hitem hothers
    refine ⟨code :: codes, .cons hcode hcodes, ?_, ?_⟩
    · rw [hlast, hmiddle, Sink.extend_extend, List.flatten_cons]
    · rw [hbytes, List.flatten_cons, List.length_append]

/-- The bytes of several values, given those of each. -/
theorem wireAll_of_forall₂ {α : Type} {wire : α → Option (List UInt8)} {values : List α}
    {codes : List (List UInt8)}
    (h : List.Forall₂ (fun value code ↦ wire value = some code) values codes) :
    wireAll wire values = some codes.flatten := by
  induction h with
  | nil => rfl
  | cons hfirst _ ih => exact wireAll_cons_eq_some.mpr ⟨_, _, hfirst, ih, List.flatten_cons⟩

/-- Read backwards: the bytes of several values are those of each, put together. -/
theorem forall₂_of_wireAll {α : Type} {wire : α → Option (List UInt8)} {values : List α}
    {code : List UInt8} (h : wireAll wire values = some code) :
    ∃ codes, List.Forall₂ (fun value code ↦ wire value = some code) values codes ∧
      code = codes.flatten := by
  induction values generalizing code with
  | nil =>
    cases h
    exact ⟨[], .nil, rfl⟩
  | cons value values ih =>
    obtain ⟨first, others, hfirst, hothers, rfl⟩ := wireAll_cons_eq_some.mp h
    obtain ⟨codes, hcodes, rfl⟩ := ih hothers
    exact ⟨first :: codes, .cons hfirst hcodes, List.flatten_cons.symm⟩

/-- Every element of the first of two related lists is related to one of the second. -/
theorem exists_of_mem_left {α β : Type} {related : α → β → Prop} {as : List α} {bs : List β}
    (h : List.Forall₂ related as bs) {a : α} (ha : a ∈ as) : ∃ b ∈ bs, related a b := by
  induction h with
  | nil => cases ha
  | cons hfirst _ ih =>
    rcases List.mem_cons.mp ha with rfl | ha
    · exact ⟨_, List.mem_cons_self, hfirst⟩
    · obtain ⟨b, hb, hrelated⟩ := ih ha
      exact ⟨b, List.mem_cons_of_mem _ hb, hrelated⟩

theorem exists_of_mem_right {α β : Type} {related : α → β → Prop} {as : List α} {bs : List β}
    (h : List.Forall₂ related as bs) {b : β} (hb : b ∈ bs) : ∃ a ∈ as, related a b :=
  exists_of_mem_left h.flip hb

variable {S : Signature} {α : Type} {definitions : Definitions S} {depth : Nat}
  {item : Codec S α} {max : Option Nat} {values : List α}

/-- A list is written when it is not too long, as the bytes of its items. -/
theorem Codec.items_of_encode_exhaustList {stage after : Stage Sink} {written : Written}
    (h : (Codec.exhaustList item max).encode definitions depth values stage = .ok written after) :
    (∀ bound, max = some bound → values.length ≤ bound) ∧
      ∃ codes, List.Forall₂ (item.Encodes definitions depth) values codes ∧
        after.stream = stage.stream.extend codes.flatten ∧
        written = ⟨values.length, codes.flatten.length⟩ := by
  rw [Codec.encode, Codec.encodeWith] at h
  obtain ⟨hmax, h⟩ := guard_eq_ok.mp h
  obtain ⟨n, last, hitems, h⟩ := bind_eq_ok.mp h
  obtain ⟨rfl, rfl⟩ := pure_eq_ok.mp h
  obtain ⟨codes, hcodes, hlast, rfl⟩ :=
    Encoding.items_of_ok (fun _ _ _ _ hvalue ↦ Codec.encodes_of_ok hvalue) hitems
  refine ⟨?_, codes, hcodes, hlast, rfl⟩
  rintro bound rfl
  simpa using hmax

/-- Where a value has no bytes, there is no other: it is what the decoder yields in front of the
bytes of any value. -/
theorem Codec.RoundTrips.eq_of_free (hitem : item.RoundTrips definitions depth) {free value : α}
    {code : List UInt8} (hfree : item.Encodes definitions depth free [])
    (hvalue : item.Encodes definitions depth value code) (hword : code.length ≤ maxWord) :
    value = free ∧ code = [] := by
  let source : Stage Source := ⟨Source.ofBytes code, Cells.fresh⟩
  have hbytes : source.stream.bytes = code := Source.bytes_ofBytes code
  have hsource : source.stream.remaining ≤ maxWord := by
    rwa [Source.remaining_eq_length, hbytes]
  obtain ⟨last, hrun, hlast⟩ := hitem value code hvalue source [] (by simpa using hbytes) hsource
  obtain ⟨last', hrun', hlast'⟩ := hitem free [] hfree source code hbytes hsource
  rw [hrun] at hrun'
  obtain ⟨rfl, rfl⟩ : value = free ∧ last = last' := by simpa using hrun'
  exact ⟨rfl, hlast'.symm.trans hlast⟩

/-- Of no bytes at all, all values are one value. -/
theorem Codec.RoundTrips.eq_replicate_of_free (hitem : item.RoundTrips definitions depth)
    {codes : List (List UInt8)}
    (hcodes : List.Forall₂ (item.Encodes definitions depth) values codes)
    (hfree : codes.flatten = []) {value : α} (hvalue : value ∈ values) :
    values = List.replicate values.length value := by
  have hnone (other : α) (hother : other ∈ values) : item.Encodes definitions depth other [] := by
    obtain ⟨code, hcode, hencodes⟩ := exists_of_mem_left hcodes hother
    rwa [List.flatten_eq_nil_iff.mp hfree code hcode] at hencodes
  refine List.eq_replicate_iff.mpr ⟨rfl, fun other hother ↦ ?_⟩
  exact (hitem.eq_of_free (hnone value hvalue) (hnone other hother) (Nat.zero_le _)).1

/-- Next to an item that takes bytes, no item takes none. -/
theorem Codec.RoundTrips.ne_nil_of_flatten (hitem : item.RoundTrips definitions depth)
    {codes : List (List UInt8)}
    (hcodes : List.Forall₂ (item.Encodes definitions depth) values codes)
    (hword : codes.flatten.length ≤ maxWord) (hbytes : codes.flatten ≠ []) :
    ∀ code ∈ codes, code ≠ [] := by
  rintro code hcode rfl
  obtain ⟨free, -, hfree⟩ := exists_of_mem_right hcodes hcode
  refine hbytes (List.flatten_eq_nil_iff.mpr fun other hother ↦ ?_)
  obtain ⟨value, -, hvalue⟩ := exists_of_mem_right hcodes hother
  have hshort : other.length ≤ codes.flatten.length :=
    (List.sublist_flatten_of_mem hother).length_le
  exact (hitem.eq_of_free hfree hvalue (hshort.trans hword)).2

open Decoding

/-- Items all of which take bytes are read back to the last of them. -/
theorem Codec.decode_exhaustList_of_codes (hitem : item.RoundTrips definitions depth)
    {codes : List (List UInt8)}
    (hcodes : List.Forall₂ (item.Encodes definitions depth) values codes)
    (hnonempty : ∀ code ∈ codes, code ≠ [])
    (hmax : ∀ bound, max = some bound → values.length ≤ bound) {source : Stage Source}
    (hsource : source.stream.bytes = codes.flatten) (hword : source.stream.remaining ≤ maxWord) :
    ∃ last, (Codec.exhaustList item max).decode definitions depth source = .ok values last ∧
      last.stream.bytes = [] := by
  have hreads : List.Forall₂ (fun value code ↦ code ≠ [] ∧
      (item.decode definitions depth).ReadsBack false code value True) values codes := by
    have hboth := (List.forall₂_and_left _ _).mpr ⟨hnonempty, hcodes.flip⟩
    exact hboth.flip.imp fun value code ⟨hne, hcode⟩ ↦ ⟨hne, hitem.readsBack hcode false⟩
  obtain ⟨last, hread, hlast⟩ := entriesRead_of_codes hreads (by rwa [List.append_nil]) hword
  have hend : last.stream.remaining = 0 := Source.remaining_eq_zero_iff.mpr hlast
  exact ⟨last, itemsToEnd_of_itemsEnd hread hmax (.stopped (Or.inl hend)), hlast⟩

/-- Where there are no bytes, there are no items. -/
theorem Codec.decode_exhaustList_of_nil {source : Stage Source}
    (hsource : source.stream.bytes = []) :
    (Codec.exhaustList item max).decode definitions depth source = .ok [] source := by
  have hend : source.stream.remaining = 0 := Source.remaining_eq_zero_iff.mpr hsource
  rw [Codec.decode, Codec.decodeWith, itemsToEnd, if_pos (Or.inl hend)]

/-- The encoder writes what the items write, and the decoder reads all of it: as the list, or, when
nothing was written, as the empty list. Then the list that was written consists of copies of one
value. -/
theorem Codec.decode_encoded_exhaustList (hitem : item.RoundTrips definitions depth)
    {stage after : Stage Sink} {written : Written}
    (hencode : (Codec.exhaustList item max).encode definitions depth values stage =
      .ok written after) :
    ∃ code, after.stream = stage.stream.extend code ∧ written = ⟨values.length, code.length⟩ ∧
      (code = [] → ∀ value ∈ values, values = List.replicate values.length value) ∧
      ∀ source : Stage Source, source.stream.bytes = code → source.stream.remaining ≤ maxWord →
        ∃ last, (Codec.exhaustList item max).decode definitions depth source =
            .ok (if code = [] then [] else values) last ∧
          last.stream.bytes = [] := by
  obtain ⟨hmax, codes, hcodes, hafter, hwritten⟩ := Codec.items_of_encode_exhaustList hencode
  refine ⟨codes.flatten, hafter, hwritten, ?_, ?_⟩
  · intro hfree value hvalue
    exact hitem.eq_replicate_of_free hcodes hfree hvalue
  · intro source hsource hword
    by_cases hfree : codes.flatten = []
    · rw [hfree] at hsource
      rw [if_pos hfree]
      exact ⟨source, Codec.decode_exhaustList_of_nil hsource, hsource⟩
    · rw [if_neg hfree]
      have hlength : codes.flatten.length ≤ maxWord := by
        rwa [← hsource, ← Source.remaining_eq_length]
      exact Codec.decode_exhaustList_of_codes hitem hcodes
        (hitem.ne_nil_of_flatten hcodes hlength hfree) hmax hsource hword

/-- Two numbers of different lengths, as many as the bound allows. -/
theorem Codec.decode_encoded_exhaustList_varints :
    let item : Codec Signature.empty (BitVec 32) := .leaf (.varint 32)
    let definitions : Definitions Signature.empty := nofun
    let after : Stage Sink := ⟨⟨[0x81, 1, 7], maxAllocation⟩, Cells.fresh⟩
    let source : Stage Source := ⟨⟨[[0x81], [1, 7]]⟩, Cells.fresh⟩
    item.RoundTrips definitions 0 ∧
      (Codec.exhaustList item (some 2)).encode definitions 0 [129, 7] ⟨Sink.growable, Cells.fresh⟩ =
        .ok ⟨2, 3⟩ after ∧
      ∃ last, (Codec.exhaustList item (some 2)).decode definitions 0 source =
          .ok [129, 7] last ∧
        last.stream.bytes = [] := by
  intro item definitions after source
  have hitem : item.RoundTrips definitions 0 :=
    Codec.roundTrips_of_delimits (Nat.succ_pos 31) (fun _ ↦ trivial) fun _ ↦ trivial
  have hencode : (Codec.exhaustList item (some 2)).encode definitions 0 [129, 7]
      ⟨Sink.growable, Cells.fresh⟩ = .ok ⟨2, 3⟩ after := by
    with_unfolding_all rfl
  refine ⟨hitem, hencode, ?_⟩
  obtain ⟨code, hcode, -, -, hread⟩ := Codec.decode_encoded_exhaustList hitem hencode
  obtain rfl : [0x81, 1, 7] = code := congrArg Sink.written hcode
  exact hread source rfl (by decide)

/-- Two values without bytes are accepted and come back as none. -/
theorem Codec.exhaustList_loses_free_items :
    let item : Codec Signature.empty (List UInt8) := .leaf (.bytes 0)
    let definitions : Definitions Signature.empty := nofun
    let after : Stage Sink := ⟨Sink.growable, Cells.fresh⟩
    let source : Stage Source := ⟨Source.ofBytes after.stream.written, Cells.fresh⟩
    item.RoundTrips definitions 0 ∧
      (Codec.exhaustList item none).encode definitions 0 [[], []] ⟨Sink.growable, Cells.fresh⟩ =
        .ok ⟨2, 0⟩ after ∧
      (Codec.exhaustList item none).decodeExact definitions 0 source = .ok [] source := by
  intro item definitions after source
  exact ⟨Codec.roundTrips_of_delimits trivial (fun _ ↦ trivial) fun _ ↦ trivial, rfl, by
    with_unfolding_all rfl⟩

end WireFormat
