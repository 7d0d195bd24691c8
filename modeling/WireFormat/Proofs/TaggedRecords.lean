import WireFormat.Codec.Build
import WireFormat.Proofs.RoundTrip
import WireFormat.Proofs.TagMaps

/-!
# Tagged records come back grouped by tag

The encoder of a tagged record lists its entries tag by tag; the decoder adds entries in whatever
order it meets them. The bytes that were read are therefore not what is written for the record, but
the record is the same: it lists the entries it was read from grouped by tag, and in this order it
is written and read again (`Codec.decode_encoded_tagMap`).

An entry without bytes would be read again and again. One that was read without a bound on the
number of entries took a byte (`Decoding.EntriesRead`), and so it takes one when it is written.
-/

set_option autoImplicit false
set_option relaxedAutoImplicit false

namespace WireFormat

variable {S : Signature} {K V : Type}

/-! ### The codec of a tag -/

/-- The codec of a key. -/
def Table.find? : {K V : Type} → [DecidableEq K] → Table S K V → K → Option (Codec S V)
  | _, _, _, .nil, _ => none
  | _, _, _, .cons key codec rest, wanted => if key = wanted then some codec else rest.find? wanted

/-- The codec of a key, or `fallback` for other keys. -/
def Table.codecOf [DecidableEq K] (table : Table S K V) (fallback : Codec S V) (key : K) :
    Codec S V :=
  (table.find? key).getD fallback

theorem Table.encodeAt_eq (references : (name : S.Name) → S.Value name → Encoding) :
    {K V : Type} → [DecidableEq K] → (wanted : K) → (table : Table S K V) →
    table.encodeAt references wanted =
      (table.find? wanted).map fun codec ↦ codec.encodeWith references
  | _, _, _, _, .nil => rfl
  | _, _, _, wanted, .cons key codec rest => by
    rw [Table.encodeAt, Table.find?]
    by_cases hkey : key = wanted
    · rw [if_pos hkey, if_pos hkey, Option.map_some]
    · rw [if_neg hkey, if_neg hkey, Table.encodeAt_eq references wanted rest]

theorem Table.decodeAt_eq (references : (name : S.Name) → Decoding (S.Value name)) :
    {K V : Type} → [DecidableEq K] → (wanted : K) → (table : Table S K V) →
    table.decodeAt references wanted =
      (table.find? wanted).map fun codec ↦ codec.decodeWith references
  | _, _, _, _, .nil => rfl
  | _, _, _, wanted, .cons key codec rest => by
    rw [Table.decodeAt, Table.find?]
    by_cases hkey : key = wanted
    · rw [if_pos hkey, if_pos hkey, Option.map_some]
    · rw [if_neg hkey, if_neg hkey, Table.decodeAt_eq references wanted rest]

section

variable [DecidableEq K] {definitions : Definitions S} {depth : Nat} {tag : Codec S K}
  {display : K → String} {table : Table S K V} {fallback : Codec S V} {max : Option Nat}

/-! ### Writing entries -/

/-- The bytes of an entry: those of its tag, then those of its value by the codec of the tag. -/
def Codec.EncodesEntry (definitions : Definitions S) (depth : Nat) (tag : Codec S K)
    (table : Table S K V) (fallback : Codec S V) (entry : K × V) (code : List UInt8) : Prop :=
  ∃ lead inner, tag.Encodes definitions depth entry.1 lead ∧
    (table.codecOf fallback entry.1).Encodes definitions depth entry.2 inner ∧
    code = lead ++ inner

/-- What runs entry after entry adds what each entry adds, and counts them. -/
theorem Encoding.entries_of_ok {E : Type} {entry : E → Encoding}
    {encodes : E → List UInt8 → Prop}
    (hentry : ∀ e stage written after, entry e stage = .ok written after →
      ∃ code, encodes e code ∧ after.stream = stage.stream.extend code ∧
        written.bytes = code.length) :
    ∀ {es : List E} {stage after : Stage Sink} {written : Written},
      entries entry es stage = .ok written after →
      ∃ codes, List.Forall₂ encodes es codes ∧
        after.stream = stage.stream.extend codes.flatten ∧
        written = ⟨es.length, codes.flatten.length⟩
  | [], stage, after, written, h => by
    obtain ⟨rfl, rfl⟩ := pure_eq_ok.mp h
    exact ⟨[], .nil, (Sink.extend_nil _).symm, rfl⟩
  | e :: es, stage, after, written, h => by
    obtain ⟨first, middle, hfirst, h⟩ := bind_eq_ok.mp h
    obtain ⟨others, last, hothers, h⟩ := bind_eq_ok.mp h
    obtain ⟨rfl, rfl⟩ := pure_eq_ok.mp h
    obtain ⟨code, hcode, hmiddle, hbytes⟩ := hentry e _ _ _ hfirst
    obtain ⟨codes, hcodes, hlast, rfl⟩ := Encoding.entries_of_ok hentry hothers
    refine ⟨code :: codes, .cons hcode hcodes, ?_, ?_⟩
    · rw [hlast, hmiddle, Sink.extend_extend, List.flatten_cons]
    · rw [oneMore, hbytes, List.length_cons, List.flatten_cons, List.length_append,
        Nat.add_comm 1]

/-- The encoder of a map writes the entries in the order of its list. -/
theorem Codec.entries_of_encode_tagMap {m : TagMap K V} {factory : Option (TagMap K V)}
    {stage after : Stage Sink} {written : Written}
    (h : (Codec.tagged tag display TagMap.access table fallback max factory).encode definitions
      depth m stage = .ok written after) :
    (∀ bound, max = some bound → m.toList.length ≤ bound) ∧
      ∃ codes,
        List.Forall₂ (Codec.EncodesEntry definitions depth tag table fallback) m.toList codes ∧
        after.stream = stage.stream.extend codes.flatten ∧
        written = ⟨m.toList.length, codes.flatten.length⟩ := by
  rw [Codec.encode, Codec.encodeWith, TagMap.entries_access] at h
  obtain ⟨hmax, h⟩ := guard_eq_ok.mp h
  refine ⟨?_, Encoding.entries_of_ok ?_ h⟩
  · rintro bound rfl
    simpa using hmax
  · rintro ⟨key, value⟩ stage written after hentry
    obtain ⟨lead, middle, hlead, h⟩ := bind_eq_ok.mp (inField_eq_ok.mp hentry)
    obtain ⟨inner, last, hvalue, h⟩ : ∃ inner last,
        (table.codecOf fallback key).encode definitions depth value middle = .ok inner last ∧
        (pure ⟨lead.count + inner.count, lead.bytes + inner.bytes⟩ : Encoding) last =
          .ok written after := by
      rw [Table.encodeAt_eq] at h
      rw [Table.codecOf]
      cases hfind : table.find? key with
      | none =>
        rw [hfind] at h
        exact bind_eq_ok.mp h
      | some codec =>
        rw [hfind] at h
        exact bind_eq_ok.mp h
    obtain ⟨rfl, rfl⟩ := pure_eq_ok.mp h
    obtain ⟨leadCode, hleadCode, hmiddle, hleadBytes⟩ := Codec.encodes_of_ok hlead
    obtain ⟨innerCode, hinnerCode, hlast, hinnerBytes⟩ := Codec.encodes_of_ok hvalue
    refine ⟨leadCode ++ innerCode, ⟨leadCode, innerCode, hleadCode, hinnerCode, rfl⟩, ?_, ?_⟩
    · rw [hlast, hmiddle, Sink.extend_extend]
    · rw [hleadBytes, hinnerBytes, List.length_append]

/-! ### Reading entries -/

/-- Reads an entry: its tag, then its value by the codec of the tag. -/
def Codec.decodeEntry (definitions : Definitions S) (depth : Nat) (tag : Codec S K)
    (display : K → String) (table : Table S K V) (fallback : Codec S V) : Decoding (K × V) := do
  let key ← tag.decode definitions depth
  let value ← inField (display key) ((table.codecOf fallback key).decode definitions depth)
  return (key, value)

/-- A tagged record with a factory runs the loop over its entries. -/
theorem Codec.decode_tagged {R : Type} {access : TaggedRecord K V R} (start : R) :
    (Codec.tagged tag display access table fallback max (some start)).decode definitions depth =
      Decoding.entriesToEnd (Codec.decodeEntry definitions depth tag display table fallback)
        access.add max start := by
  rw [Codec.decode, Codec.decodeWith, decodeEntry]
  congr 2
  funext key
  rw [Table.decodeAt_eq, Table.codecOf]
  cases table.find? key <;> rfl

theorem Codec.decode_tagMap (start : TagMap K V) :
    (Codec.tagged tag display TagMap.access table fallback max (some start)).decode definitions
        depth =
      Decoding.entriesToEnd (Codec.decodeEntry definitions depth tag display table fallback)
        TagMap.add max start :=
  Codec.decode_tagged start

namespace Decoding

/-- Entries that are read one after another, each of which takes a byte. -/
inductive EntriesRead {E : Type} (entry : Decoding E) : Stage Source → List E → Stage Source → Prop
  | nil (stage : Stage Source) : EntriesRead entry stage [] stage
  | cons {stage middle last : Stage Source} {e : E} {es : List E}
      (read : entry stage = .ok e middle)
      (progress : middle.stream.remaining < stage.stream.remaining)
      (others : EntriesRead entry middle es last) : EntriesRead entry stage (e :: es) last

variable {E R : Type} {entry : Decoding (K × V)} {add : R → K → V → R}

omit [DecidableEq K] in
/-- Without a bound, entries are read until there are no bytes, and all of them are added. -/
theorem entriesRead_of_ok {record result : R} {stage last : Stage Source}
    (h : entriesToEnd entry add none record stage = .ok result last) :
    ∃ entries, EntriesRead entry stage entries last ∧ last.stream.bytes = [] ∧
      result = entries.foldl (fun record (tag, value) ↦ add record tag value) record := by
  induction hleft : stage.stream.remaining using Nat.strong_induction_on
    generalizing stage record with
  | _ left ih =>
    rcases entriesToEnd_eq_ok h with
      ⟨rfl, rfl, hstop⟩ | ⟨tag, value, middle, -, hread, hprogress, hothers⟩
    · have hend : stage.stream.remaining = 0 := hstop.resolve_right nofun
      exact ⟨[], .nil _, Source.remaining_eq_zero_iff.mp hend, rfl⟩
    · obtain ⟨entries, hentries, hlast, hresult⟩ :=
        ih middle.stream.remaining (hleft ▸ hprogress rfl) hothers rfl
      exact ⟨(tag, value) :: entries, .cons hread (hprogress rfl) hentries, hlast, hresult⟩

omit [DecidableEq K] in
/-- Entries that were read are added one after another. The loop stops behind them at the end of
the source, or when there are as many as the bound allows. -/
theorem entriesToEnd_of_read {allowance : Option Nat} {record : R} {entries : List (K × V)}
    {stage last : Stage Source} (h : EntriesRead entry stage entries last)
    (hmax : ∀ max, allowance = some max → entries.length ≤ max)
    (hstop : last.stream.remaining = 0 ∨ allowance = some entries.length) :
    entriesToEnd entry add allowance record stage =
      .ok (entries.foldl (fun record (tag, value) ↦ add record tag value) record) last := by
  induction h generalizing allowance record with
  | nil stage => exact entriesToEnd_of_end hstop
  | cons hread hprogress hothers ih =>
    rename_i stage middle last e entries
    have hgoes : ¬ (stage.stream.remaining = 0 ∨ allowance = some 0) := by
      rintro (hend | hfull)
      · omega
      · exact Nat.not_succ_le_zero _ (hmax 0 hfull)
    rw [entriesToEnd_of_entry hgoes hread fun _ ↦ hprogress]
    refine ih (le_of_allowance hmax) (hstop.imp_right fun hfull ↦ ?_)
    rw [hfull, List.length_cons, Option.map_some, Nat.add_sub_cancel]

/-- Where bytes are read back as entries, and none of these is without bytes, the entries are read
in front of any other bytes. -/
theorem entriesRead_of_codes {entry : Decoding E} {entries : List E} {codes : List (List UInt8)}
    (hcodes : List.Forall₂ (fun e code ↦ code ≠ [] ∧ entry.ReadsBack false code e True) entries
      codes)
    {stage : Stage Source} {behind : List UInt8}
    (hbytes : stage.stream.bytes = codes.flatten ++ behind)
    (hword : stage.stream.remaining ≤ maxWord) :
    ∃ last, EntriesRead entry stage entries last ∧ last.stream.bytes = behind := by
  induction hcodes generalizing stage with
  | nil => exact ⟨stage, .nil stage, hbytes⟩
  | cons hcode hcodes ih =>
    rename_i e code entries codes
    obtain ⟨hnonempty, hreads⟩ := hcode
    rw [List.flatten_cons, List.append_assoc] at hbytes
    have hword' : (code ++ (codes.flatten ++ behind)).length ≤ maxWord := by
      rwa [← hbytes, ← Source.remaining_eq_length]
    rcases hreads stage (codes.flatten ++ behind) hbytes (by simp) hword' with
      ⟨-, middle, hrun, hmiddle⟩ | ⟨hnot, -⟩
    · have hprogress : middle.stream.remaining < stage.stream.remaining := by
        have hpositive : 0 < code.length := List.length_pos_iff.mpr hnonempty
        rw [Source.remaining_eq_length, Source.remaining_eq_length, hmiddle, hbytes]
        simp only [List.length_append]
        omega
      obtain ⟨last, hothers, hlast⟩ := ih hmiddle (hprogress.le.trans hword)
      exact ⟨last, .cons hrun hprogress hothers, hlast⟩
    · exact absurd trivial hnot

end Decoding

open Decoding

variable (htag : tag.RoundTrips definitions depth)
  (hvalues : ∀ key, (table.codecOf fallback key).RoundTrips definitions depth)

include htag hvalues

/-- An entry is read back when its tag and its value are. -/
theorem Codec.readsBack_decodeEntry {e : K × V} {code : List UInt8}
    (hcode : Codec.EncodesEntry definitions depth tag table fallback e code) :
    ReadsBack (Codec.decodeEntry definitions depth tag display table fallback) false code e
      True := by
  obtain ⟨key, value⟩ := e
  obtain ⟨lead, inner, hlead, hinner, rfl⟩ := hcode
  have hfront := htag.readsBack hlead false
  have hback : ReadsBack
      (inField (display key) ((table.codecOf fallback key).decode definitions depth)) false inner
      value True :=
    readsBack_inField ((hvalues key).readsBack hinner false)
  have hpair : ReadsBack
      (inField (display key) ((table.codecOf fallback key).decode definitions depth) >>=
        fun value ↦ pure (key, value)) false inner (key, value) True :=
    readsBack_convert hback fun _ ↦ rfl
  exact readsBack_congr (readsBack_bind hfront hpair) (and_self_iff)

/-- What is written for an entry that took a byte takes a byte. -/
theorem Codec.ne_nil_of_entriesRead {stage last : Stage Source} {entries : List (K × V)}
    (hread : EntriesRead (Codec.decodeEntry definitions depth tag display table fallback) stage
      entries last)
    (hword : stage.stream.remaining ≤ maxWord) :
    ∀ e ∈ entries, ∀ code, Codec.EncodesEntry definitions depth tag table fallback e code →
      code ≠ [] := by
  induction hread with
  | nil => simp
  | cons hrun hprogress hothers ih =>
    rename_i start middle _ first _
    rw [List.forall_mem_cons]
    refine ⟨?_, ih (hprogress.le.trans hword)⟩
    rintro code hcode rfl
    have hreads : ReadsBack (Codec.decodeEntry definitions depth tag display table fallback) false
        [] first True := Codec.readsBack_decodeEntry htag hvalues hcode
    rw [Source.remaining_eq_length] at hword
    rcases hreads start start.stream.bytes rfl (by simp) hword with
      ⟨-, after, hafter, hbytes⟩ | ⟨hnot, -⟩
    · rw [hrun] at hafter
      obtain rfl : middle = after := by simpa using hafter
      rw [Source.remaining_eq_length, Source.remaining_eq_length, hbytes] at hprogress
      exact Nat.lt_irrefl _ hprogress
    · exact hnot trivial

/-- The bytes of a map whose entries take bytes are read as the map. -/
theorem Codec.decode_of_entries {m : TagMap K V} {codes : List (List UInt8)}
    (hcodes : List.Forall₂ (Codec.EncodesEntry definitions depth tag table fallback) m.toList
      codes)
    (hnonempty : ∀ e ∈ m.toList, ∀ code,
      Codec.EncodesEntry definitions depth tag table fallback e code → code ≠ [])
    (hmax : ∀ bound, max = some bound → m.toList.length ≤ bound) {source : Stage Source}
    (hsource : source.stream.bytes = codes.flatten) (hword : source.stream.remaining ≤ maxWord) :
    ∃ last, (Codec.tagged tag display TagMap.access table fallback max
        (some TagMap.empty)).decode definitions depth source = .ok m last ∧
      last.stream.bytes = [] := by
  have heach : List.Forall₂ (fun e code ↦ code ≠ [] ∧
      ReadsBack (Codec.decodeEntry definitions depth tag display table fallback) false code e
        True) m.toList codes := by
    refine List.Forall₂.imp ?_ (List.forall₂_and_left _ _ |>.mpr ⟨hnonempty, hcodes⟩)
    rintro e code ⟨hne, hcode⟩
    exact ⟨hne code hcode, Codec.readsBack_decodeEntry htag hvalues hcode⟩
  obtain ⟨last, hread, hlast⟩ := entriesRead_of_codes heach (by rwa [List.append_nil]) hword
  have hend : last.stream.remaining = 0 := Source.remaining_eq_zero_iff.mpr hlast
  refine ⟨last, ?_, hlast⟩
  rw [Codec.decode_tagMap, entriesToEnd_of_read hread hmax (Or.inl hend)]
  exact congrArg (EStateM.Result.ok · last) m.ofList_toList

omit htag hvalues in
/-- A tagged record that was put together is one of its table. -/
theorem Codec.ofTable_eq_ok {R : Type} {access : TaggedRecord K V R} {factory : Option R}
    {codec : Codec S R}
    (h : Codec.ofTable tag display access factory table fallback max = .ok codec) :
    codec = .tagged tag display access table fallback max factory := by
  unfold Codec.ofTable at h
  split at h
  · cases h
  · exact (Except.ok.inj h).symm

omit htag hvalues in
/-- One that is kept in a map starts from the empty map. -/
theorem Codec.mapOfTable_eq_ok {codec : Codec S (TagMap K V)}
    (h : Codec.mapOfTable tag display table fallback max = .ok codec) :
    codec = .tagged tag display TagMap.access table fallback max (some TagMap.empty) :=
  Codec.ofTable_eq_ok h

end

/-- Let the codecs of the tags and of the values under every tag read back what they write. Then a
map whose entries take bytes is written entry by entry, grouped by tag in the order of addition, and
these bytes are read as the map. Conversely, what was read without a bound on the number of entries
lists exactly the entries that were met, grouped by tag; where it can be written, the bytes, which
need not be those it was read from, are read as the same map. -/
theorem Codec.decode_encoded_tagMap [DecidableEq K] {definitions : Definitions S} {depth : Nat}
    {tag : Codec S K} {display : K → String} {table : Table S K V} {fallback : Codec S V}
    {max : Option Nat} {codec : Codec S (TagMap K V)}
    (hbuild : Codec.mapOfTable tag display table fallback max = .ok codec)
    (htag : tag.RoundTrips definitions depth)
    (hvalues : ∀ key, (table.codecOf fallback key).RoundTrips definitions depth) :
    (∀ (m : TagMap K V) (stage after : Stage Sink) (written : Written),
      (∀ e ∈ m.toList, ∀ code,
        Codec.EncodesEntry definitions depth tag table fallback e code → code ≠ []) →
      codec.encode definitions depth m stage = .ok written after →
      (∀ added, TagMap.ofList added = m → m.toList = TagMap.grouped added) ∧
      ∃ codes,
        List.Forall₂ (Codec.EncodesEntry definitions depth tag table fallback) m.toList codes ∧
        after.stream.written = stage.stream.written ++ codes.flatten ∧
        written = ⟨m.size, codes.flatten.length⟩ ∧
        ∀ source : Stage Source, source.stream.bytes = codes.flatten →
          source.stream.remaining ≤ maxWord →
          ∃ last, codec.decode definitions depth source = .ok m last ∧ last.stream.bytes = []) ∧
    (max = none →
      ∀ (source last : Stage Source) (m : TagMap K V), source.stream.remaining ≤ maxWord →
      codec.decode definitions depth source = .ok m last →
      ∃ entries,
        Decoding.EntriesRead (Codec.decodeEntry definitions depth tag display table fallback)
          source entries last ∧
        last.stream.bytes = [] ∧ m.toList = TagMap.grouped entries ∧
        (TagMap.grouped entries).Perm entries ∧
        ∀ (stage after : Stage Sink) (written : Written),
          codec.encode definitions depth m stage = .ok written after →
          ∃ code, after.stream.written = stage.stream.written ++ code ∧
            ∀ again : Stage Source, again.stream.bytes = code →
              again.stream.remaining ≤ maxWord →
              ∃ last, codec.decode definitions depth again = .ok m last ∧
                last.stream.bytes = []) := by
  obtain rfl := Codec.mapOfTable_eq_ok hbuild
  refine ⟨?_, ?_⟩
  · intro m stage after written hnonempty hencode
    obtain ⟨hmax, codes, hcodes, hafter, hwritten⟩ := Codec.entries_of_encode_tagMap hencode
    refine ⟨?_, codes, hcodes, by rw [hafter, Sink.written_extend], ?_, ?_⟩
    · rintro added rfl
      exact TagMap.toList_ofList added
    · rw [hwritten, TagMap.length_toList]
    · intro source hsource hword
      exact Codec.decode_of_entries htag hvalues hcodes hnonempty hmax hsource hword
  · rintro rfl source last m hword hdecode
    rw [Codec.decode_tagMap] at hdecode
    obtain ⟨entries, hentries, hlast, hm⟩ := Decoding.entriesRead_of_ok hdecode
    have hgrouped : m.toList = TagMap.grouped entries := by
      rw [hm]
      exact TagMap.toList_ofList entries
    have hperm : (TagMap.grouped entries).Perm entries := by
      rw [← TagMap.toList_ofList]
      exact TagMap.toList_ofList_perm entries
    refine ⟨entries, hentries, hlast, hgrouped, hperm, ?_⟩
    intro stage after written hencode
    obtain ⟨hmax, codes, hcodes, hafter, -⟩ := Codec.entries_of_encode_tagMap hencode
    refine ⟨codes.flatten, by rw [hafter, Sink.written_extend], ?_⟩
    intro again hagain hword'
    -- The entries of the map are those that were read, and each of these took a byte.
    have hnonempty : ∀ e ∈ m.toList, ∀ code,
        Codec.EncodesEntry definitions depth tag table fallback e code → code ≠ [] := by
      intro e he
      rw [hgrouped, hperm.mem_iff] at he
      exact Codec.ne_nil_of_entriesRead htag hvalues hentries hword e he
    exact Codec.decode_of_entries htag hvalues hcodes hnonempty hmax hagain hword'

/-- Entries under three tags, the first of which comes back after the second, are read from two
chunks; the map is written with the values of the first tag side by side, and read again. -/
theorem Codec.decode_encoded_tagMap_interleaved :
    let tag : Codec Signature.empty (BitVec (8 * 1)) := .leaf (.word 1)
    let table : Table Signature.empty (BitVec (8 * 1)) (List UInt8) :=
      .cons 1 (.leaf (.bytes 1)) (.cons 2 (.leaf (.bytes 2)) .nil)
    let fallback : Codec Signature.empty (List UInt8) :=
      .byteCounted (.leaf (.length .u8)) .unbounded (.leaf .remainingBytes)
    let codec : Codec Signature.empty (TagMap (BitVec (8 * 1)) (List UInt8)) :=
      .tagged tag (fun _ ↦ "tag") TagMap.access table fallback none (some TagMap.empty)
    let definitions : Definitions Signature.empty := nofun
    let source : Stage Source :=
      ⟨⟨[[2, 0xA, 0xB, 1], [0xC, 2, 0xD, 0xE, 7, 1, 0xF]]⟩, Cells.fresh⟩
    let m : TagMap (BitVec (8 * 1)) (List UInt8) :=
      TagMap.ofList [(2, [0xA, 0xB]), (1, [0xC]), (2, [0xD, 0xE]), (7, [0xF])]
    Codec.mapOfTable tag (fun _ ↦ "tag") table fallback none = .ok codec ∧
      codec.decode definitions 0 source = .ok m ⟨⟨[[]]⟩, Cells.fresh⟩ ∧
      codec.encode definitions 0 m ⟨Sink.growable, Cells.fresh⟩ =
        .ok ⟨4, 11⟩
          ⟨⟨[2, 0xA, 0xB, 2, 0xD, 0xE, 1, 0xC, 7, 1, 0xF], maxAllocation⟩, Cells.fresh⟩ ∧
      ∃ last, codec.decode definitions 0
          ⟨Source.ofBytes [2, 0xA, 0xB, 2, 0xD, 0xE, 1, 0xC, 7, 1, 0xF], Cells.fresh⟩ =
        .ok m last := by
  intro tag table fallback codec definitions source m
  have hbuild : Codec.mapOfTable tag (fun _ ↦ "tag") table fallback none = .ok codec := by rfl
  have htag : tag.RoundTrips definitions 0 :=
    Codec.roundTrips_of_delimits trivial (fun _ ↦ trivial) fun _ ↦ trivial
  have hvalues : ∀ key, (table.codecOf fallback key).RoundTrips definitions 0 := by
    have hbytes (n : Nat) : (Codec.leaf (.bytes n) : Codec Signature.empty _).RoundTrips
        definitions 0 :=
      Codec.roundTrips_of_delimits trivial (fun _ ↦ trivial) fun _ ↦ trivial
    have hfallback : fallback.RoundTrips definitions 0 :=
      Codec.roundTrips_of_delimits ⟨trivial, rfl⟩ (fun _ ↦ ⟨fun _ _ ↦ trivial, trivial⟩)
        fun _ ↦ ⟨fun _ _ ↦ trivial, trivial⟩
    intro key
    unfold Table.codecOf
    simp only [table, Table.find?]
    split_ifs
    · exact hbytes 1
    · exact hbytes 2
    · exact hfallback
  have hdecode : codec.decode definitions 0 source = .ok m ⟨⟨[[]]⟩, Cells.fresh⟩ := by
    with_unfolding_all rfl
  have hencode : codec.encode definitions 0 m ⟨Sink.growable, Cells.fresh⟩ =
      .ok ⟨4, 11⟩
        ⟨⟨[2, 0xA, 0xB, 2, 0xD, 0xE, 1, 0xC, 7, 1, 0xF], maxAllocation⟩, Cells.fresh⟩ := by
    rfl
  refine ⟨hbuild, hdecode, hencode, ?_⟩
  obtain ⟨-, hconverse⟩ := Codec.decode_encoded_tagMap hbuild htag hvalues
  obtain ⟨-, -, -, -, -, hagain⟩ := hconverse rfl source _ m (by decide) hdecode
  obtain ⟨code, hcode, hread⟩ := hagain _ _ _ hencode
  obtain rfl : [2, 0xA, 0xB, 2, 0xD, 0xE, 1, 0xC, 7, 1, 0xF] = code := hcode
  obtain ⟨last, hlast, -⟩ := hread ⟨Source.ofBytes _, Cells.fresh⟩ (Source.bytes_ofBytes _)
    (by decide)
  exact ⟨last, hlast⟩

end WireFormat
