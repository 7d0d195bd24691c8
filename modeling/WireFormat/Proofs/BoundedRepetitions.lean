import WireFormat.Proofs.ListTurns

/-!
# Bounds on repetitions

A list that runs to the end and a tagged record may have a bound on the number of their items or
entries. Of what stands in the source, the decoder takes exactly as many as the bound says and
leaves the others, with whatever is behind them, to what is read next. The encoder refuses more than
that before it writes anything, and writes fewer as it does without a bound. `Codec.CutsAt` says so
of a family of codecs by their bound, and `Codec.cuts_at_bound` that it holds of both repetitions;
of a tagged record the entries are counted over all tags.
-/

set_option autoImplicit false
set_option relaxedAutoImplicit false

namespace WireFormat

variable {S : Signature}

/-- Of the codecs by their bound, the one with the bound `max` cuts what it reads behind `max`
items, which make the value `collect` of them, and refuses to write values with a `count` above
it. -/
structure Codec.CutsAt {E R : Type} (bounded : Option Nat → Codec S R)
    (definitions : Definitions S) (depth : Nat) (encodes : E → List UInt8 → Prop)
    (collect : List E → R) (count : R → Nat) (max : Nat) : Prop where
  /-- The first items are read, and the bytes of the others and all that follows are left. -/
  decode : ∀ (items : List E) (codes : List (List UInt8)), List.Forall₂ encodes items codes →
    max ≤ items.length → ∀ (source : Stage Source) (suffix : List UInt8),
    source.stream.bytes = codes.flatten ++ suffix → source.stream.remaining ≤ maxWord →
    ∃ last, (bounded (some max)).decode definitions depth source =
        .ok (collect (items.take max)) last ∧
      last.stream.bytes = (codes.drop max).flatten ++ suffix
  /-- Too many are refused, and nothing is written. -/
  refuses : ∀ value stage, max < count value →
    (bounded (some max)).encode definitions depth value stage =
      .error (.error { kind := .lengthOutOfRange (count value) }) stage
  /-- Others are written as without a bound. -/
  agrees : ∀ value, count value ≤ max →
    (bounded (some max)).encode definitions depth value =
      (bounded none).encode definitions depth value

namespace Decoding

/-- Of items that come one after another, the first are read. -/
theorem entriesRead_take {E : Type} {entry : Decoding E} {entries : List E}
    {codes : List (List UInt8)}
    (hcodes : List.Forall₂ (fun e code ↦ code ≠ [] ∧ entry.ReadsBack false code e True) entries
      codes)
    (n : Nat) {source : Stage Source} {suffix : List UInt8}
    (hbytes : source.stream.bytes = codes.flatten ++ suffix)
    (hword : source.stream.remaining ≤ maxWord) :
    ∃ last, EntriesRead entry source (entries.take n) last ∧
      last.stream.bytes = (codes.drop n).flatten ++ suffix := by
  refine entriesRead_of_codes (List.forall₂_take n hcodes) ?_ hword
  rw [hbytes, ← List.append_assoc, ← List.flatten_append, List.take_append_drop]

end Decoding

namespace Encoding

variable {max n : Nat} {action : Encoding}

theorem bound_of_lt (h : max < n) (stage : Stage Sink) :
    (if (some max).any (· < n) then
        fail (.lengthOutOfRange n) >>= fun _ : PUnit ↦ action
      else action) stage = .error (.error { kind := .lengthOutOfRange n }) stage := by
  rw [if_pos (by simpa using h), fail_bind_apply]

theorem bound_of_le (h : n ≤ max) :
    (if (some max).any (· < n) then
        fail (.lengthOutOfRange n) >>= fun _ : PUnit ↦ action
      else action) =
    if (none : Option Nat).any (· < n) then
      fail (.lengthOutOfRange n) >>= fun _ : PUnit ↦ action
    else action := by
  rw [if_neg (by simpa using h), if_neg (by simp)]

end Encoding

open Decoding

variable {definitions : Definitions S} {depth : Nat}

/-- Of a list, the values are its items. -/
theorem Codec.cutsAt_exhaustList {α : Type} {item : Codec S α}
    (hitem : item.RoundTrips definitions depth)
    (hnonempty : ∀ value code, item.Encodes definitions depth value code → code ≠ []) (max : Nat) :
    Codec.CutsAt (Codec.exhaustList item) definitions depth (item.Encodes definitions depth) id
      List.length max where
  decode items codes hcodes hmax source suffix hbytes hword := by
    have hreads : List.Forall₂ (fun value code ↦ code ≠ [] ∧
        (item.decode definitions depth).ReadsBack false code value True) items codes :=
      hcodes.imp fun value code hcode ↦ ⟨hnonempty value code hcode, hitem.readsBack hcode false⟩
    obtain ⟨last, hread, hlast⟩ := entriesRead_take hreads max hbytes hword
    have hlength : (items.take max).length = max := List.length_take_of_le hmax
    refine ⟨last, itemsToEnd_of_itemsEnd hread ?_ (.stopped (Or.inr ?_)), hlast⟩
    · rintro bound ⟨⟩
      exact hlength.le
    · rw [hlength]
  refuses _ stage h := Encoding.bound_of_lt h stage
  agrees _ h := Encoding.bound_of_le h

/-- All entries count, those of one tag each for itself. -/
theorem TaggedRecord.length_entries {K V R : Type} (access : TaggedRecord K V R) (record : R) :
    (access.entries record).length =
      ((access.tags record).map fun tag ↦ (access.getAll record tag).length).sum := by
  simp only [TaggedRecord.entries, List.length_flatMap, List.length_map]

/-- Of a tagged record, the values are the entries added one after another to what the record
starts from. -/
theorem Codec.cutsAt_tagged {K V R : Type} [DecidableEq K] {tag : Codec S K} {display : K → String}
    {table : Table S K V} {fallback : Codec S V} (htag : tag.RoundTrips definitions depth)
    (hvalues : ∀ key, (table.codecOf fallback key).RoundTrips definitions depth)
    (hnonempty : ∀ e code, Codec.EncodesEntry definitions depth tag table fallback e code →
      code ≠ [])
    (access : TaggedRecord K V R) (start : R) (max : Nat) :
    Codec.CutsAt (fun max ↦ .tagged tag display access table fallback max (some start)) definitions
      depth (Codec.EncodesEntry definitions depth tag table fallback) (addAll access.add start)
      (fun record ↦ ((access.tags record).map fun tag ↦ (access.getAll record tag).length).sum)
      max where
  decode entries codes hcodes hmax source suffix hbytes hword := by
    have hreads : List.Forall₂ (fun e code ↦ code ≠ [] ∧
        (Codec.decodeEntry definitions depth tag display table fallback).ReadsBack false code e
          True) entries codes :=
      hcodes.imp fun e code hcode ↦
        ⟨hnonempty e code hcode, Codec.readsBack_decodeEntry htag hvalues hcode⟩
    obtain ⟨last, hread, hlast⟩ := entriesRead_take hreads max hbytes hword
    have hlength : (entries.take max).length = max := List.length_take_of_le hmax
    refine ⟨last, ?_, hlast⟩
    rw [Codec.decode_tagged]
    refine entriesToEnd_of_read hread ?_ (Or.inr ?_)
    · rintro bound ⟨⟩
      exact hlength.le
    · rw [hlength]
  refuses record stage h := by
    rw [← access.length_entries] at h ⊢
    exact Encoding.bound_of_lt h stage
  agrees record h := by
    rw [← access.length_entries] at h
    exact Encoding.bound_of_le h

/-! ### Main statement -/

/-- The number of entries of a map is counted tag by tag. -/
theorem TagMap.size_eq_sum {K V : Type} [DecidableEq K] (m : TagMap K V) :
    m.size = (m.tags.map fun tag ↦ (m.getAll tag).length).sum := by
  rw [← TagMap.length_toList, ← TagMap.entries_access, TaggedRecord.length_entries]
  rfl

/-- Let items, or the tags and the values under every tag, be read back in front of anything, and
let no item and no entry be without bytes. Then a list and a tagged record with a bound are cut
exactly there: the items, or the record of the entries, up to the bound are read, and the others
left with what follows them; more of them are not written, the entries of all tags being counted,
and fewer are written as without a bound. A record kept in a map is the map of the first entries. -/
theorem Codec.cuts_at_bound {α K V R : Type} [DecidableEq K] {definitions : Definitions S}
    {depth : Nat} {item : Codec S α} {tag : Codec S K} {table : Table S K V}
    {fallback : Codec S V} (hitem : item.RoundTrips definitions depth)
    (hitems : ∀ value code, item.Encodes definitions depth value code → code ≠ [])
    (htag : tag.RoundTrips definitions depth)
    (hvalues : ∀ key, (table.codecOf fallback key).RoundTrips definitions depth)
    (hentries : ∀ e code, Codec.EncodesEntry definitions depth tag table fallback e code →
      code ≠ [])
    (max : Nat) :
    Codec.CutsAt (Codec.exhaustList item) definitions depth (item.Encodes definitions depth) id
      List.length max ∧
    (∀ (display : K → String) (access : TaggedRecord K V R) (start : R)
      (bounded : Option Nat → Codec S R),
      (∀ bound, Codec.ofTable tag display access (some start) table fallback bound =
        .ok (bounded bound)) →
      Codec.CutsAt bounded definitions depth
        (Codec.EncodesEntry definitions depth tag table fallback) (addAll access.add start)
        (fun record ↦ ((access.tags record).map fun tag ↦ (access.getAll record tag).length).sum)
        max) ∧
    ∀ (display : K → String) (bounded : Option Nat → Codec S (TagMap K V)),
      (∀ bound, Codec.mapOfTable tag display table fallback bound = .ok (bounded bound)) →
      Codec.CutsAt bounded definitions depth
        (Codec.EncodesEntry definitions depth tag table fallback) TagMap.ofList TagMap.size
        max := by
  refine ⟨Codec.cutsAt_exhaustList hitem hitems max, ?_, ?_⟩
  · intro display access start bounded hbuild
    rw [funext fun bound ↦ Codec.ofTable_eq_ok (hbuild bound)]
    exact Codec.cutsAt_tagged htag hvalues hentries access start max
  · intro display bounded hbuild
    rw [funext fun bound ↦ Codec.mapOfTable_eq_ok (hbuild bound), funext TagMap.size_eq_sum]
    exact Codec.cutsAt_tagged htag hvalues hentries TagMap.access TagMap.empty max

/-- With a bound of two: of three words the third is left, and of three entries the second of which
is under the tag of the first, the third. Three are refused by both encoders. -/
theorem Codec.cuts_at_bound_of_two :
    let item : Codec Signature.empty (BitVec (8 * 2)) := .leaf (.word 2)
    let tag : Codec Signature.empty (BitVec (8 * 1)) := .leaf (.word 1)
    let fallback : Codec Signature.empty (List UInt8) := .leaf (.bytes 1)
    let bounded (bound : Option Nat) : Codec Signature.empty (TagMap _ (List UInt8)) :=
      .tagged tag (fun _ ↦ "tag") TagMap.access .nil fallback bound (some TagMap.empty)
    let definitions : Definitions Signature.empty := nofun
    let words : Stage Source := ⟨⟨[[1, 0, 0], [5, 0, 6, 9]]⟩, Cells.fresh⟩
    let entries : Stage Source := ⟨⟨[[1, 5, 1], [6, 2, 7, 9]]⟩, Cells.fresh⟩
    let m : TagMap (BitVec (8 * 1)) (List UInt8) := TagMap.ofList [(1, [5]), (1, [6]), (2, [7])]
    let sink : Stage Sink := ⟨⟨[8], 64⟩, Cells.fresh⟩
    let tooLong : Failure := .error { kind := .lengthOutOfRange 3 }
    item.RoundTrips definitions 0 ∧ tag.RoundTrips definitions 0 ∧
      fallback.RoundTrips definitions 0 ∧
      (∀ bound, Codec.mapOfTable tag (fun _ ↦ "tag") .nil fallback bound = .ok (bounded bound)) ∧
      (∃ last, (Codec.exhaustList item (some 2)).decode definitions 0 words =
          .ok [256, 5] last ∧ last.stream.bytes = [0, 6, 9]) ∧
      (Codec.exhaustList item (some 2)).encode definitions 0 [256, 5, 6] sink =
        .error tooLong sink ∧
      (∃ last, (bounded (some 2)).decode definitions 0 entries =
          .ok (TagMap.ofList [(1, [5]), (1, [6])]) last ∧ last.stream.bytes = [2, 7, 9]) ∧
      (bounded (some 2)).encode definitions 0 m sink = .error tooLong sink := by
  intro item tag fallback bounded definitions words entries m sink tooLong
  have hitem : item.RoundTrips definitions 0 :=
    Codec.roundTrips_of_delimits trivial (fun _ ↦ trivial) fun _ ↦ trivial
  have htag : tag.RoundTrips definitions 0 :=
    Codec.roundTrips_of_delimits trivial (fun _ ↦ trivial) fun _ ↦ trivial
  have hfallback : fallback.RoundTrips definitions 0 :=
    Codec.roundTrips_of_delimits trivial (fun _ ↦ trivial) fun _ ↦ trivial
  have hvalues (key : BitVec (8 * 1)) :
      ((Table.nil : Table Signature.empty _ _).codecOf fallback key).RoundTrips definitions 0 := by
    rw [Table.codecOf, Table.find?]
    exact hfallback
  have hpositive : item.size.isPositive = true := rfl
  have hitems : ∀ value code, item.Encodes definitions 0 value code → code ≠ [] :=
    fun value code hcode ↦ Codec.ne_nil_of_isPositive hpositive (Codec.wire_of_encodes hcode)
  have hentries : ∀ e code, Codec.EncodesEntry definitions 0 tag .nil fallback e code →
      code ≠ [] := by
    rintro e code ⟨lead, inner, hlead, -, rfl⟩
    have hpositive : tag.size.isPositive = true := rfl
    have hne := Codec.ne_nil_of_isPositive hpositive (Codec.wire_of_encodes hlead)
    exact List.append_ne_nil_of_left_ne_nil hne inner
  have hbuild (bound : Option Nat) : Codec.mapOfTable tag (fun _ ↦ "tag") .nil fallback bound =
      .ok (bounded bound) := rfl
  obtain ⟨hlist, -, hmap⟩ :=
    Codec.cuts_at_bound (R := Unit) hitem hitems htag hvalues hentries 2
  have hmapCuts := hmap _ bounded hbuild
  have hwords : List.Forall₂ (item.Encodes definitions 0) [256, 5, 6] [[1, 0], [0, 5], [0, 6]] :=
    .cons ⟨sink, _, _, rfl, rfl⟩ (.cons ⟨sink, _, _, rfl, rfl⟩ (.cons ⟨sink, _, _, rfl, rfl⟩ .nil))
  have hentry (key : BitVec (8 * 1)) (value lead : UInt8)
      (hlead : tag.Encodes definitions 0 key [lead]) :
      Codec.EncodesEntry definitions 0 tag .nil fallback (key, [value]) [lead, value] :=
    ⟨[lead], [value], hlead, ⟨sink, _, _, rfl, rfl⟩, rfl⟩
  have hcodes : List.Forall₂ (Codec.EncodesEntry definitions 0 tag .nil fallback)
      [(1, [5]), (1, [6]), (2, [7])] [[1, 5], [1, 6], [2, 7]] :=
    .cons (hentry 1 5 1 ⟨sink, _, _, rfl, rfl⟩) (.cons (hentry 1 6 1 ⟨sink, _, _, rfl, rfl⟩)
      (.cons (hentry 2 7 2 ⟨sink, _, _, rfl, rfl⟩) .nil))
  have hlistDecode := hlist.decode _ _ hwords (by decide) words [9] rfl (by decide)
  have hmapDecode := hmapCuts.decode _ _ hcodes (by decide) entries [9] rfl (by decide)
  exact ⟨hitem, htag, hfallback, hbuild, hlistDecode, hlist.refuses [256, 5, 6] sink (by decide),
    hmapDecode, hmapCuts.refuses m sink (by decide)⟩

end WireFormat
