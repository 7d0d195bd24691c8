import WireFormat.Proofs.BoundedSinks
import WireFormat.Proofs.WritingParts

/-!
# Sums of reports in machine words

Both numbers of a report are machine words, and so is the sum of two reports, which stops where it
is none (`Written.add_of_le`, `Written.add_of_lt`, `Written.sum_eq_ok`). Encoders add their reports
plainly. In a sink whose room is a word the bytes that they report never add up to more, as each
byte takes up some of the room (`Codec.room_encode`). So adding in words makes a difference for
tagged records only, and there only where the count of a tag and the count of its value are no word
together, although nobody asks for their sum (`Codec.encodeTaggedInWords_eq`).
-/

set_option autoImplicit false
set_option relaxedAutoImplicit false

namespace WireFormat

/-! ### Sums -/

namespace Written

variable {a b total : Written} {reports : List Written}

/-- The plain sum of two reports. -/
def plus (a b : Written) : Written := ⟨a.count + b.count, a.bytes + b.bytes⟩

theorem none_plus (a : Written) : none.plus a = a := by
  rw [plus, none, Nat.zero_add, Nat.zero_add]

theorem plus_assoc (a b c : Written) : (a.plus b).plus c = a.plus (b.plus c) := by
  simp only [plus, Nat.add_assoc]

theorem addWords_of_le {m n : Nat} (h : m + n ≤ maxWord) : addWords m n = .ok (m + n) :=
  if_pos h

theorem addWords_of_lt {m n : Nat} (h : maxWord < m + n) : addWords m n = .error .overflow :=
  if_neg (Nat.not_le.mpr h)

theorem add_of_le (hcount : a.count + b.count ≤ maxWord) (hbytes : a.bytes + b.bytes ≤ maxWord) :
    a.add b = .ok (a.plus b) := by
  rw [add, addWords_of_le hcount, addWords_of_le hbytes]
  rfl

theorem add_of_lt (h : maxWord < a.count + b.count ∨ maxWord < a.bytes + b.bytes) :
    a.add b = .error .overflow := by
  unfold add
  rcases Nat.lt_or_ge maxWord (a.count + b.count) with hcount | hcount
  · rw [addWords_of_lt hcount]
    rfl
  · rw [addWords_of_le hcount, addWords_of_lt (h.resolve_left (Nat.not_lt.mpr hcount))]
    rfl

/-- Behind a report, the others can be added where all their counts and all their bytes can. On the
way no sum is greater than the last. -/
theorem foldlM_add_eq_ok {start : Written} (hcount : start.count ≤ maxWord)
    (hbytes : start.bytes ≤ maxWord) :
    reports.foldlM add start = .ok total ↔
      total = start.plus ⟨(reports.map count).sum, (reports.map bytes).sum⟩ ∧
        start.count + (reports.map count).sum ≤ maxWord ∧
        start.bytes + (reports.map bytes).sum ≤ maxWord := by
  induction reports generalizing start with
  | nil =>
    rw [List.foldlM_nil]
    simp [hcount, hbytes, pure, Except.pure, plus, eq_comm]
  | cons report reports ih =>
    rw [List.foldlM_cons, List.map_cons, List.map_cons, List.sum_cons, List.sum_cons, plus,
      ← Nat.add_assoc, ← Nat.add_assoc]
    by_cases hfits : start.count + report.count ≤ maxWord ∧ start.bytes + report.bytes ≤ maxWord
    · rw [add_of_le hfits.1 hfits.2]
      exact ih hfits.1 hfits.2
    · have hlarge : maxWord < start.count + report.count ∨
          maxWord < start.bytes + report.bytes := by omega
      rw [add_of_lt hlarge]
      refine ⟨nofun, fun ⟨_, hcounts, hall⟩ ↦ absurd hlarge ?_⟩
      omega

/-- Reports have a sum where all their counts together are a word and all their bytes are. -/
theorem sum_eq_ok : sum reports = .ok total ↔
    total = ⟨(reports.map count).sum, (reports.map bytes).sum⟩ ∧
      (reports.map count).sum ≤ maxWord ∧ (reports.map bytes).sum ≤ maxWord := by
  have hsum : sum reports = .ok total ↔
      total = none.plus ⟨(reports.map count).sum, (reports.map bytes).sum⟩ ∧
        none.count + (reports.map count).sum ≤ maxWord ∧
        none.bytes + (reports.map bytes).sum ≤ maxWord :=
    foldlM_add_eq_ok (Nat.zero_le _) (Nat.zero_le _)
  rwa [none_plus, none, Nat.zero_add, Nat.zero_add] at hsum

end Written

/-! ### Room -/

variable {S : Signature}

/-- An encoder takes up as much room as it reports. -/
theorem Codec.room_encode {α : Type} {codec : Codec S α} {definitions : Definitions S}
    {depth : Nat} {value : α} {stage after : Stage Sink} {written : Written}
    (h : codec.encode definitions depth value stage = .ok written after) :
    written.bytes + after.stream.room = stage.stream.room := by
  obtain ⟨code, -, hafter, hbytes⟩ := codec.writes_encode definitions depth value _ _ _ h
  obtain ⟨stream, cells⟩ := after
  obtain rfl : stream = stage.stream.extend code := hafter
  have hfits : code.length ≤ stage.stream.room := by
    rcases (codec.narrows_encode definitions depth value).ok_or_out h stage.stream with
      ⟨hfits, -⟩ | ⟨-, e, part, last, hfails, -⟩
    · exact hfits
    · cases h.symm.trans hfails
  rw [hbytes, Sink.room_extend]
  exact Nat.add_sub_of_le hfits

/-! ### Tagged records -/

/-- Goes on with what was worked out in machine words. -/
def ofWords {σ α : Type} : Except Failure α → Action σ α
  | .ok a => pure a
  | .error failure => throw failure

namespace Encoding

variable {E : Type} {total written : Written} {stage middle after : Stage Sink}

/-- Writes entries one after another, and adds each with its bytes to what is written so far, in
machine words. -/
def entriesInWords (entry : E → Encoding) : Written → List E → Encoding
  | total, [] => pure total
  | total, e :: es => do
    let written ← entry e
    let total ← ofWords (total.add ⟨1, written.bytes⟩)
    entriesInWords entry total es

section Plain

variable {entry : E → Encoding} {e : E}

theorem plus_entries_of_ok (h : entry e stage = .ok written middle) (list : List E) :
    (total.plus <$> entries entry (e :: list)) stage =
      ((total.plus ⟨1, written.bytes⟩).plus <$> entries entry list) middle := by
  cases hothers : entries entry list middle with
  | error failure last =>
    have hall : entries entry (e :: list) stage = .error failure last :=
      (bind_of_ok h _).trans (bind_of_error hothers _)
    rw [map_of_error hothers, map_of_error hall]
  | ok rest last =>
    have hall : entries entry (e :: list) stage =
        .ok (Written.plus ⟨1, written.bytes⟩ rest) last :=
      (bind_of_ok h _).trans (bind_of_ok hothers _)
    rw [map_of_ok hothers, map_of_ok hall, Written.plus_assoc]

theorem plus_entries_of_error {failure : Failure} (h : entry e stage = .error failure after)
    (list : List E) :
    (total.plus <$> entries entry (e :: list)) stage = .error failure after := by
  have hall : entries entry (e :: list) stage = .error failure after := bind_of_error h _
  exact map_of_error hall _

end Plain

variable {checked : E → Encoding} {ground : E → Prop}

/-- If there are not too many entries, their plain sum is the one in words, except that an entry may
stop for an overflow. By induction on the entries: what one of them reports it takes from the
room. -/
theorem entriesInWords_eq (entry : E → Encoding) (list : List E)
    (hchecked : ∀ e stage, stage.stream.room ≤ maxWord → checked e stage = entry e stage ∨
      ground e ∧ ∃ after, checked e stage = .error .overflow after)
    (hentry : ∀ e stage written after, entry e stage = .ok written after →
      written.bytes + after.stream.room = stage.stream.room)
    (hcount : total.count + list.length ≤ maxWord)
    (hbytes : total.bytes + stage.stream.room ≤ maxWord) :
    entriesInWords checked total list stage = (total.plus <$> entries entry list) stage ∨
      ∃ e ∈ list, ground e ∧
        ∃ after, entriesInWords checked total list stage = .error .overflow after := by
  induction list generalizing total stage with
  | nil => exact Or.inl rfl
  | cons e list ih =>
    rw [List.length_cons] at hcount
    rcases hchecked e stage (by omega) with hsame | ⟨hground, after, hstops⟩
    · cases hrun : entry e stage with
      | error failure after =>
        left
        rw [plus_entries_of_error hrun]
        exact bind_of_error (hsame.trans hrun) _
      | ok written middle =>
        have hroom := hentry e stage written middle hrun
        let next := total.plus ⟨1, written.bytes⟩
        have hnext : next.count + list.length ≤ maxWord ∧
            next.bytes + middle.stream.room ≤ maxWord := by
          simp only [next, Written.plus]
          omega
        have hsum : total.add ⟨1, written.bytes⟩ = .ok next :=
          Written.add_of_le (Nat.le_of_add_right_le hnext.1) (Nat.le_of_add_right_le hnext.2)
        have hgoes : entriesInWords checked total (e :: list) stage =
            entriesInWords checked next list middle := by
          rw [entriesInWords, bind_of_ok (hsame.trans hrun), hsum]
          rfl
        rw [hgoes, plus_entries_of_ok hrun]
        exact (ih hnext.1 hnext.2).imp_right fun ⟨e', hmem, hstops⟩ ↦
          ⟨e', List.mem_cons_of_mem _ hmem, hstops⟩
    · exact Or.inr ⟨e, List.mem_cons_self, hground, after, bind_of_error hstops _⟩

end Encoding

namespace Codec

section Tagged

variable {K V R : Type} [DecidableEq K]

/-- Writes an entry, and adds the reports of its tag and of its value in machine words. -/
def encodeEntryInWords (definitions : Definitions S) (depth : Nat) (tag : Codec S K)
    (display : K → String) (table : Table S K V) (fallback : Codec S V) (entry : K × V) :
    Encoding :=
  inField (display entry.1) do
    let lead ← tag.encode definitions depth entry.1
    let inner ← (table.codecOf fallback entry.1).encode definitions depth entry.2
    ofWords (lead.add inner)

/-- Writes a tagged record, and adds all reports in machine words. -/
def encodeTaggedInWords (definitions : Definitions S) (depth : Nat) (tag : Codec S K)
    (display : K → String) (access : TaggedRecord K V R) (table : Table S K V)
    (fallback : Codec S V) (max : Option Nat) (value : R) : Encoding := do
  if max.any (· < (access.entries value).length) then
    fail (.lengthOutOfRange (access.entries value).length)
  Encoding.entriesInWords (encodeEntryInWords definitions depth tag display table fallback)
    Written.none (access.entries value)

/-- The entry can be written so that the counts of its tag and of its value are no word together. -/
def CountsOverflow (definitions : Definitions S) (depth : Nat) (tag : Codec S K)
    (table : Table S K V) (fallback : Codec S V) (entry : K × V) : Prop :=
  ∃ stage lead middle inner last, tag.encode definitions depth entry.1 stage = .ok lead middle ∧
    (table.codecOf fallback entry.1).encode definitions depth entry.2 middle = .ok inner last ∧
    maxWord < lead.count + inner.count

variable {definitions : Definitions S} {depth : Nat} {tag : Codec S K} {display : K → String}
  {access : TaggedRecord K V R} {table : Table S K V} {fallback : Codec S V} {max : Option Nat}
  {factory : Option R} {entry : K × V} {stage : Stage Sink}

theorem room_encodeEntry {written : Written} {after : Stage Sink}
    (h : encodeEntry definitions depth tag display table fallback entry stage =
      .ok written after) :
    written.bytes + after.stream.room = stage.stream.room := by
  obtain ⟨lead, middle, hlead, h⟩ := bind_eq_ok.mp (inField_eq_ok.mp h)
  obtain ⟨inner, last, hinner, h⟩ := bind_eq_ok.mp h
  obtain ⟨rfl, rfl⟩ := pure_eq_ok.mp h
  have hfirst := room_encode hlead
  have hsecond := room_encode hinner
  show lead.bytes + inner.bytes + last.stream.room = stage.stream.room
  omega

theorem encodeEntryInWords_eq (hroom : stage.stream.room ≤ maxWord) :
    encodeEntryInWords definitions depth tag display table fallback entry stage =
        encodeEntry definitions depth tag display table fallback entry stage ∨
      CountsOverflow definitions depth tag table fallback entry ∧
        ∃ after, encodeEntryInWords definitions depth tag display table fallback entry stage =
          .error .overflow after := by
  unfold encodeEntryInWords encodeEntry inField
  cases hlead : tag.encode definitions depth entry.1 stage with
  | error failure after =>
    left
    rw [bind_of_error hlead, bind_of_error hlead]
  | ok lead middle =>
    rw [bind_of_ok hlead, bind_of_ok hlead]
    cases hinner : (table.codecOf fallback entry.1).encode definitions depth entry.2 middle with
    | error failure after =>
      left
      rw [bind_of_error hinner, bind_of_error hinner]
    | ok inner last =>
      have hfirst := room_encode hlead
      have hsecond := room_encode hinner
      rw [bind_of_ok hinner, bind_of_ok hinner]
      rcases Nat.lt_or_ge maxWord (lead.count + inner.count) with hlarge | hcount
      · refine Or.inr ⟨⟨stage, lead, middle, inner, last, hlead, hinner, hlarge⟩, last, ?_⟩
        rw [Written.add_of_lt (Or.inl hlarge)]
        rfl
      · left
        rw [Written.add_of_le hcount (by omega)]
        rfl

/-- Adding all reports of a tagged record in words is adding them plainly, if there is a word for
the number of entries and for the room of the sink. The one thing that may come between is an entry
of which the counts of tag and value are no word together. -/
theorem encodeTaggedInWords_eq {value : R} (hentries : (access.entries value).length ≤ maxWord)
    (hroom : stage.stream.room ≤ maxWord) :
    encodeTaggedInWords definitions depth tag display access table fallback max value stage =
        (Codec.tagged tag display access table fallback max factory).encode definitions depth value
          stage ∨
      ∃ entry ∈ access.entries value,
        CountsOverflow definitions depth tag table fallback entry ∧
          ∃ after, encodeTaggedInWords definitions depth tag display access table fallback max value
            stage = .error .overflow after := by
  rw [encode_tagged, encodeTaggedInWords]
  cases max.any (· < (access.entries value).length) with
  | true => exact Or.inl rfl
  | false =>
    simp only [Bool.false_eq_true, if_false]
    have hcount : Written.none.count + (access.entries value).length ≤ maxWord := by
      rwa [Written.none, Nat.zero_add]
    have hbytes : Written.none.bytes + stage.stream.room ≤ maxWord := by
      rwa [Written.none, Nat.zero_add]
    rcases Encoding.entriesInWords_eq (encodeEntry definitions depth tag display table fallback)
        (access.entries value) (fun _ _ ↦ encodeEntryInWords_eq) (fun _ _ _ _ ↦ room_encodeEntry)
        hcount hbytes with hsame | hstops
    · left
      rw [hsame]
      cases hrun : Encoding.entries _ (access.entries value) stage with
      | error failure after => exact map_of_error hrun _
      | ok written after => rw [map_of_ok hrun, Written.none_plus]
    · exact Or.inr hstops

end Tagged

end Codec

end WireFormat
