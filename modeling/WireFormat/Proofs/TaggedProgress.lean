import WireFormat.Proofs.Repetition
import WireFormat.Proofs.TaggedRecords

/-!
# Which entries are paid for

The loop over the entries of a tagged record looks at the end of the source and at its bound, but
not at whether an entry took a byte. As long as every entry takes one, a record has no more entries
than bytes were read, and the loop ends after as many turns at the latest. An entry that takes none
is not refused. It leaves everything as it was, so that it is read again: as often as the bound
allows, and without a bound for ever. `Codec.decode_tagged_entries` says for every tagged record and
every source which of these it is.
-/

set_option autoImplicit false
set_option relaxedAutoImplicit false

namespace WireFormat

namespace Decoding

/-- Entries that are read one after another, whether they take bytes or not. -/
inductive EntriesTaken {E : Type} (entry : Decoding E) :
    Stage Source → List E → Stage Source → Prop
  | nil (stage : Stage Source) : EntriesTaken entry stage [] stage
  | cons {stage middle last : Stage Source} {e : E} {es : List E}
      (read : entry stage = .ok e middle) (others : EntriesTaken entry middle es last) :
      EntriesTaken entry stage (e :: es) last

variable {K V R E : Type}

/-- Every one of these entries is paid for by a byte. -/
theorem length_add_remaining_le {entry : Decoding E} {stage last : Stage Source} {entries : List E}
    (h : EntriesRead entry stage entries last) :
    entries.length + last.stream.remaining ≤ stage.stream.remaining := by
  induction h with
  | nil stage => rw [List.length_nil, Nat.zero_add]
  | cons _ hprogress _ ih =>
    rw [List.length_cons]
    omega

/-- What is yielded without taking a byte leaves all bytes. -/
theorem bytes_of_free {entry : Decoding E} (hentry : Repeats entry) {stage after : Stage Source}
    {e : E} (hread : entry stage = .ok e after) (hword : stage.stream.remaining ≤ maxWord)
    (hfree : ¬ after.stream.remaining < stage.stream.remaining) :
    after.stream.bytes = stage.stream.bytes := by
  rw [Source.remaining_eq_length, Source.remaining_eq_length] at hfree
  exact (hentry _ _ _ hread hword).suffix.eq_of_length_le (Nat.le_of_not_lt hfree)

/-! ### An entry without bytes -/

section Free

variable {entry : Decoding E} {stage after t : Stage Source} {e : E}

/-- An entry without bytes is read again at once, and from then on whenever the bytes are the same
and what it resolved is resolved. -/
theorem read_again (hentry : Repeats entry) (hword : stage.stream.remaining ≤ maxWord)
    (hread : entry stage = .ok e after) (hbytes : after.stream.bytes = stage.stream.bytes)
    (ht : t = stage ∨ t.stream.bytes = stage.stream.bytes ∧ after.cells.ResolvedIn t.cells) :
    ∃ t', entry t = .ok e t' ∧ t'.stream.bytes = stage.stream.bytes ∧
      after.cells.ResolvedIn t'.cells := by
  rcases ht with rfl | ⟨hsame, hresolved⟩
  · exact ⟨after, hread, hbytes, Cells.resolvedIn_refl _⟩
  · obtain ⟨t', hrun, hbytes', hcells⟩ :=
      (hentry _ _ _ hread hword).again t hsame hresolved
    exact ⟨t', hrun, hbytes'.trans hbytes, hcells ▸ hresolved⟩

/-- Any number of copies of an entry without bytes can be read one after another. -/
theorem entriesTaken_replicate (hentry : Repeats entry)
    (hword : stage.stream.remaining ≤ maxWord) (hread : entry stage = .ok e after)
    (hbytes : after.stream.bytes = stage.stream.bytes) (n : Nat)
    (ht : t = stage ∨ t.stream.bytes = stage.stream.bytes ∧ after.cells.ResolvedIn t.cells) :
    ∃ last, EntriesTaken entry t (List.replicate n e) last ∧
      last.stream.bytes = stage.stream.bytes := by
  induction n generalizing t with
  | zero =>
    refine ⟨t, .nil t, ?_⟩
    rcases ht with rfl | ⟨hsame, -⟩
    · rfl
    · exact hsame
  | succ n ih =>
    obtain ⟨t', hrun, hsame⟩ := read_again hentry hword hread hbytes ht
    obtain ⟨last, htaken, hlast⟩ := ih (Or.inr hsame)
    exact ⟨last, .cons hrun htaken, hlast⟩

end Free

/-- Adds entries to a record, one after another. -/
def addAll (add : R → K → V → R) (record : R) (entries : List (K × V)) : R :=
  entries.foldl (fun record (tag, value) ↦ add record tag value) record

/-- An entry without bytes is added as often as the bound allows. -/
theorem entriesToEnd_of_repeated {entry : Decoding (K × V)} {stage after t : Stage Source}
    {e : K × V} (hentry : Repeats entry) (hword : stage.stream.remaining ≤ maxWord)
    (hread : entry stage = .ok e after) (hbytes : after.stream.bytes = stage.stream.bytes)
    (hend : stage.stream.remaining ≠ 0) (add : R → K → V → R) (n : Nat) {record : R}
    (ht : t = stage ∨ t.stream.bytes = stage.stream.bytes ∧ after.cells.ResolvedIn t.cells) :
    ∃ last, entriesToEnd entry add (some n) record t =
        .ok (addAll add record (List.replicate n e)) last ∧
      last.stream.bytes = stage.stream.bytes := by
  have hsame : t.stream.bytes = stage.stream.bytes := by
    rcases ht with rfl | ⟨hsame, -⟩
    · rfl
    · exact hsame
  induction n generalizing record t with
  | zero => exact ⟨t, entriesToEnd_of_end (Or.inr rfl), hsame⟩
  | succ n ih =>
    obtain ⟨t', hrun, hagain⟩ := read_again hentry hword hread hbytes ht
    have hgoes : ¬ (t.stream.remaining = 0 ∨ some (n + 1) = some 0) := by
      rw [Source.remaining_eq_length, hsame, ← Source.remaining_eq_length]
      simp [hend]
    obtain ⟨last, hothers, hlast⟩ := @ih t' (add record e.1 e.2) (Or.inr hagain) hagain.1
    exact ⟨last, (entriesToEnd_of_entry hgoes hrun (by simp)).trans hothers, hlast⟩

/-! ### The run of the loop -/

/-- How the loop ends that has read `entries`, each of which took a byte, and has come to `middle`:
with which result. -/
inductive EntriesEnd (entry : Decoding (K × V)) (add : R → K → V → R) (record : R) :
    Option Nat → List (K × V) → Stage Source → EStateM.Result Failure (Stage Source) R → Prop
  /-- There are no more bytes, or as many entries as the bound allows. -/
  | stopped {allowance : Option Nat} {entries : List (K × V)} {middle : Stage Source}
      (stop : middle.stream.remaining = 0 ∨ allowance = some entries.length) :
      EntriesEnd entry add record allowance entries middle (.ok (addAll add record entries) middle)
  /-- The next entry fails. -/
  | failed {allowance : Option Nat} {entries : List (K × V)} {middle after : Stage Source}
      {failure : Failure}
      (goes : ¬ (middle.stream.remaining = 0 ∨ allowance = some entries.length))
      (read : entry middle = .error failure after) :
      EntriesEnd entry add record allowance entries middle (.error failure after)
  /-- The next entry takes no byte. It is added as often as the bound allows. -/
  | repeated {bound : Nat} {entries : List (K × V)} {middle after last : Stage Source} {e : K × V}
      (goes : ¬ (middle.stream.remaining = 0 ∨ bound = entries.length))
      (read : entry middle = .ok e after) (free : after.stream.bytes = middle.stream.bytes)
      (left : last.stream.bytes = middle.stream.bytes) :
      EntriesEnd entry add record (some bound) entries middle
        (.ok (addAll add record (entries ++ List.replicate (bound - entries.length) e)) last)
  /-- The next entry takes no byte, and there is no bound: it is read for ever. -/
  | endless {entries : List (K × V)} {middle after : Stage Source} {e : K × V}
      (goes : middle.stream.remaining ≠ 0) (read : entry middle = .ok e after)
      (free : after.stream.bytes = middle.stream.bytes)
      (again : ∀ n, ∃ last, EntriesTaken entry middle (List.replicate n e) last ∧
        last.stream.bytes = middle.stream.bytes) :
      EntriesEnd entry add record none entries middle (.error .endless after)

/-- One more entry in front, and a bound that is higher by one. -/
theorem entriesEnd_cons {entry : Decoding (K × V)} {add : R → K → V → R} {record : R} {tag : K}
    {value : V} {allowance : Option Nat} (hallowed : allowance ≠ some 0) {entries : List (K × V)}
    {middle : Stage Source} {result : EStateM.Result Failure (Stage Source) R}
    (h : EntriesEnd entry add (add record tag value) (allowance.map (· - 1)) entries middle
      result) :
    EntriesEnd entry add record allowance ((tag, value) :: entries) middle result := by
  have hbound (n : Nat) : allowance.map (· - 1) = some n ↔ allowance = some (n + 1) := by
    cases allowance with
    | none => simp
    | some bound =>
      have hpositive : bound ≠ 0 := fun hzero ↦ hallowed (congrArg some hzero)
      simp only [Option.map_some, Option.some.injEq]
      omega
  generalize hless : allowance.map (· - 1) = less at h
  cases h with
  | stopped stop =>
    rw [← hless, hbound] at stop
    exact .stopped stop
  | failed goes read =>
    rw [← hless, hbound] at goes
    exact .failed goes read
  | repeated goes read free left =>
    rw [hbound] at hless
    subst hless
    rw [← Nat.add_sub_add_right _ 1 entries.length]
    exact .repeated (by simpa using goes) read free left
  | endless goes read free again =>
    obtain rfl := Option.map_eq_none_iff.mp hless
    exact .endless goes read free again

/-- The loop reads entries that take bytes, and then ends in one of these ways. By induction on the
bytes that are left. -/
theorem entriesEnd_entriesToEnd {entry : Decoding (K × V)} (hentry : Repeats entry)
    (add : R → K → V → R) (allowance : Option Nat) (record : R) (stage : Stage Source)
    (hword : stage.stream.remaining ≤ maxWord) :
    ∃ entries middle, EntriesRead entry stage entries middle ∧
      (∀ bound, allowance = some bound → entries.length ≤ bound) ∧
      EntriesEnd entry add record allowance entries middle
        (entriesToEnd entry add allowance record stage) := by
  induction hleft : stage.stream.remaining using Nat.strongRecOn
    generalizing stage allowance record with
  | ind left ih =>
    by_cases hstop : stage.stream.remaining = 0 ∨ allowance = some 0
    · refine ⟨[], stage, .nil stage, fun _ _ ↦ Nat.zero_le _, ?_⟩
      rw [entriesToEnd_of_end hstop]
      exact .stopped hstop
    · cases hread : entry stage with
      | error failure after =>
        refine ⟨[], stage, .nil stage, fun _ _ ↦ Nat.zero_le _, ?_⟩
        rw [entriesToEnd_of_error hstop hread]
        exact .failed hstop hread
      | ok e after =>
        by_cases hless : after.stream.remaining < stage.stream.remaining
        · obtain ⟨entries, middle, hentries, hbound, hends⟩ :=
            ih _ (hleft ▸ hless) (allowance.map (· - 1)) (add record e.1 e.2) after
              (hless.le.trans hword) rfl
          refine ⟨e :: entries, middle, .cons hread hless hentries, ?_, ?_⟩
          · rintro bound rfl
            have hpositive : bound ≠ 0 := fun hzero ↦ hstop (Or.inr (congrArg some hzero))
            have hle := hbound (bound - 1) rfl
            rw [List.length_cons]
            omega
          · rw [entriesToEnd_of_entry hstop hread fun _ ↦ hless]
            exact entriesEnd_cons (not_or.mp hstop).2 hends
        · have hbytes := bytes_of_free hentry hread hword hless
          refine ⟨[], stage, .nil stage, fun _ _ ↦ Nat.zero_le _, ?_⟩
          cases allowance with
          | none =>
            rw [entriesToEnd_of_free (not_or.mp hstop).1 hread hless]
            exact .endless (not_or.mp hstop).1 hread hbytes fun n ↦
              entriesTaken_replicate hentry hword hread hbytes n (Or.inl rfl)
          | some bound =>
            obtain ⟨last, hlast, hsame⟩ := entriesToEnd_of_repeated hentry hword hread hbytes
              (not_or.mp hstop).1 add bound (Or.inl rfl)
            rw [hlast]
            have hgoes : ¬ (stage.stream.remaining = 0 ∨ bound = ([] : List (K × V)).length) := by
              simpa using hstop
            exact .repeated hgoes hread hbytes hsame

end Decoding

open Decoding

variable {S : Signature} {K V R : Type} [DecidableEq K]

/-- Reading an entry can be repeated, whatever the codecs of its tag and its value. -/
theorem Codec.repeats_decodeEntry (definitions : Definitions S) (depth : Nat) (tag : Codec S K)
    (display : K → String) (table : Table S K V) (fallback : Codec S V) :
    Repeats (Codec.decodeEntry definitions depth tag display table fallback) :=
  repeats_bind (tag.repeats_decode definitions depth) fun key ↦
    repeats_bind
      (repeats_inField ((table.codecOf fallback key).repeats_decode definitions depth)) fun _ ↦
      repeats_pure _

/-- Whatever the codecs of the tags and values, the bound and the source: behind entries each of
which is paid for by a byte, and of which there are no more than the bound allows, the decoder
stops, fails as the next entry does, or comes to an entry that takes no byte. Such an entry is not
refused but added again and again, up to the bound, or without a bound for ever. Without a factory
nothing is read. -/
theorem Codec.decode_tagged_entries (definitions : Definitions S) (depth : Nat) (tag : Codec S K)
    (display : K → String) (access : TaggedRecord K V R) (table : Table S K V)
    (fallback : Codec S V) (max : Option Nat) (factory : Option R) {source : Stage Source}
    (hword : source.stream.remaining ≤ maxWord) :
    match factory with
    | some start => ∃ entries middle,
        EntriesRead (Codec.decodeEntry definitions depth tag display table fallback) source entries
          middle ∧
        entries.length + middle.stream.remaining ≤ source.stream.remaining ∧
        (∀ bound, max = some bound → entries.length ≤ bound) ∧
        EntriesEnd (Codec.decodeEntry definitions depth tag display table fallback) access.add
          start max entries middle
          ((Codec.tagged tag display access table fallback max (some start)).decode definitions
            depth source)
    | none => (Codec.tagged tag display access table fallback max none).decode definitions depth
        source = .error (.error { kind := .missing "tagged record factory" }) source := by
  cases factory with
  | none => rfl
  | some start =>
    obtain ⟨entries, middle, hentries, hbound, hends⟩ := entriesEnd_entriesToEnd
      (Codec.repeats_decodeEntry definitions depth tag display table fallback) access.add max start
      source hword
    rw [← Codec.decode_tagged] at hends
    exact ⟨entries, middle, hentries, length_add_remaining_le hentries, hbound, hends⟩

/-- Two entries of two bytes each, which is as many as the bound allows, and bytes that stay. -/
theorem Codec.decode_tagged_entries_bounded :
    let tag : Codec Signature.empty (BitVec (8 * 1)) := .leaf (.word 1)
    let fallback : Codec Signature.empty (List UInt8) := .leaf (.bytes 1)
    let definitions : Definitions Signature.empty := nofun
    let codec : Codec Signature.empty (TagMap (BitVec (8 * 1)) (List UInt8)) :=
      .tagged tag (fun _ ↦ "tag") TagMap.access .nil fallback (some 2) (some TagMap.empty)
    let source : Stage Source := ⟨Source.ofBytes [1, 5, 1, 6, 1, 7], Cells.fresh⟩
    let m : TagMap (BitVec (8 * 1)) (List UInt8) := TagMap.ofList [(1, [5]), (1, [6])]
    let last : Stage Source := ⟨Source.ofBytes [1, 7], Cells.fresh⟩
    codec.decode definitions 0 source = .ok m last ∧ source.stream.remaining ≤ maxWord ∧
      ∃ entries middle,
        EntriesRead (Codec.decodeEntry definitions 0 tag (fun _ ↦ "tag") .nil fallback) source
          entries middle ∧
        entries.length + middle.stream.remaining ≤ source.stream.remaining ∧
        entries.length ≤ 2 ∧
        EntriesEnd (Codec.decodeEntry definitions 0 tag (fun _ ↦ "tag") .nil fallback)
          TagMap.access.add TagMap.empty (some 2) entries middle (.ok m last) := by
  intro tag fallback definitions codec source m last
  have hdecode : codec.decode definitions 0 source = .ok m last := by
    with_unfolding_all rfl
  have hword : source.stream.remaining ≤ maxWord := by decide
  obtain ⟨entries, middle, hentries, hpaid, hbound, hends⟩ :=
    Codec.decode_tagged_entries definitions 0 tag (fun _ ↦ "tag") TagMap.access .nil fallback
      (some 2) (some TagMap.empty) hword
  refine ⟨hdecode, hword, entries, middle, hentries, hpaid, hbound 2 rfl, ?_⟩
  rw [← hdecode]
  exact hends

/-- A tag of no code points and a value of no bytes: the bound of three is used up without a byte
being taken, and without a bound there is no end. -/
theorem Codec.decode_tagged_free_entry :
    let codec (max : Option Nat) : Codec Signature.empty (TagMap String (List UInt8)) :=
      .tagged (.leaf (.text .utf8 0)) Text.quote TagMap.access .nil (.leaf (.bytes 0)) max
        (some TagMap.empty)
    let definitions : Definitions Signature.empty := nofun
    let source : Stage Source := ⟨Source.ofBytes [0xFF], Cells.fresh⟩
    Codec.mapOfTable (.leaf (.text .utf8 0)) Text.quote .nil (.leaf (.bytes 0)) none =
        .ok (codec none) ∧
      (∃ m last, (codec (some 3)).decode definitions 0 source = .ok m last ∧ m.size = 3 ∧
        last.stream.remaining = source.stream.remaining) ∧
      ∃ last, (codec none).decode definitions 0 source = .error .endless last ∧
        last.stream.remaining = source.stream.remaining := by
  intro codec definitions source
  refine ⟨rfl, ⟨TagMap.ofList [("", []), ("", []), ("", [])], source, ?_, by decide, rfl⟩,
    source, ?_, rfl⟩
  · with_unfolding_all rfl
  · with_unfolding_all rfl

end WireFormat
