import WireFormat.Proofs.Charset.Decoding
import WireFormat.Proofs.CountedReading
import WireFormat.Proofs.Leaves

/-!
# Reads one after another

A reader keeps nothing between two reads but its source, and a text asked for in parts is the text
asked for at once: some characters and others behind them are read as both together
(`Charset.readExactly_add`), wherever between them the parts meet. A step of a run leaves a source
that the reader may go on with (`CodePointReader.Ready.read`), for the buffered strategy because
dropping bytes from the front leaves the others in one chunk (`Source.isContiguous_of_advance`). By
induction on the counts, reads that all succeed are one read of their sum
(`CodePointReader.readEach_composes`); and a buffered read that fails is one that was not made.
-/

set_option autoImplicit false
set_option relaxedAutoImplicit false

namespace WireFormat

namespace Source

/-! ### Sources that stay whole -/

theorem isContiguous_iff {source : Source} :
    source.isContiguous = true ↔ source.chunk = source.bytes := by
  refine ⟨chunk_of_isContiguous, fun h ↦ ?_⟩
  rw [isContiguous, h, remaining_eq_length, decide_eq_true rfl]

/-- Chunks without bytes do not hide anything. -/
theorem isContiguous_cons_of_nil {first : List UInt8} {others : List (List UInt8)}
    (h : others.flatten = []) : isContiguous ⟨first :: others⟩ = true := by
  apply isContiguous_iff.mpr
  cases first with
  | nil =>
    have hnone : others.find? (fun c ↦ !c.isEmpty) = none := by
      rw [List.find?_eq_none]
      intro chunk hchunk
      simp [List.flatten_eq_nil_iff.mp h chunk hchunk]
    simp [chunk, bytes, hnone, h]
  | cons byte tail => simp [chunk, bytes, h]

/-- Taking bytes from the front of a contiguous source leaves a contiguous source. -/
theorem isContiguous_of_splitOf {n : Nat} {chunks rest : List (List UInt8)} {taken : List UInt8}
    (hwhole : isContiguous ⟨chunks⟩ = true) (h : splitOf n chunks = some (taken, rest)) :
    isContiguous ⟨rest⟩ = true := by
  induction chunks generalizing n taken with
  | nil =>
    by_cases hn : n = 0
    · simp only [splitOf, if_pos hn, Option.some.injEq, Prod.mk.injEq] at h
      rw [← h.2]
      exact hwhole
    · simp [splitOf, hn] at h
  | cons first others ih =>
    -- Behind a first chunk with bytes in it there are none; an empty one is passed over.
    cases first with
    | nil =>
      have hothers : isContiguous ⟨others⟩ = true := by
        rw [isContiguous_iff] at hwhole ⊢
        simpa [chunk, bytes] using hwhole
      by_cases hn : n ≤ 0
      · simp only [splitOf, List.length_nil, if_pos hn, Option.some.injEq, Prod.mk.injEq] at h
        rw [← h.2, List.drop_nil]
        exact hwhole
      · simp only [splitOf, List.length_nil, if_neg hn, Option.map_eq_some_iff, Prod.mk.injEq] at h
        obtain ⟨⟨more, behind⟩, hsplit, -, rfl⟩ := h
        exact ih hothers hsplit
    | cons byte tail =>
      have hnil : others.flatten = [] := by
        rw [isContiguous_iff] at hwhole
        simpa [chunk, bytes] using hwhole
      by_cases hn : n ≤ (byte :: tail).length
      · simp only [splitOf, if_pos hn, Option.some.injEq, Prod.mk.injEq] at h
        rw [← h.2]
        exact isContiguous_cons_of_nil hnil
      · have hshort : others.flatten.length < n - (byte :: tail).length := by
          rw [hnil, List.length_nil]
          omega
        simp only [splitOf, if_neg hn, splitOf_of_lt hshort, Option.map_none] at h
        cases h

theorem isContiguous_of_advance {n : Nat} {source rest : Source}
    (hwhole : source.isContiguous = true) (h : advance n source = .ok () rest) :
    rest.isContiguous = true := by
  obtain ⟨taken, middle, hget, hpure⟩ := bind_eq_ok.mp h
  cases hpure
  unfold getBytes split? at hget
  cases hsplit : splitOf n source.chunks with
  | none => simp [hsplit] at hget
  | some found =>
    simp only [hsplit, Option.map_some, EStateM.Result.ok.injEq] at hget
    rw [← hget.2]
    exact isContiguous_of_splitOf hwhole hsplit

end Source

namespace Charset

variable {charset : Charset} {bytes : List UInt8} {chars : List Char} {a b n : Nat}

/-- Some characters and others behind them are read as both together. -/
theorem readExactly_add : charset.readExactly (a + b) bytes = .ok (chars, n) ↔
    ∃ front back k m, charset.readExactly a bytes = .ok (front, k) ∧
      charset.readExactly b (bytes.drop k) = .ok (back, m) ∧ chars = front ++ back ∧
        n = k + m := by
  constructor
  · intro h
    obtain ⟨hlength, code, rest, hcode, rfl, rfl⟩ := readExactly_eq_ok.mp h
    rw [← List.take_append_drop a chars] at hcode
    obtain ⟨first, others, hfirst, hothers, rfl⟩ := encodeChars_append_eq_ok hcode
    refine ⟨chars.take a, chars.drop a, first.length, others.length, ?_, ?_,
      (List.take_append_drop a chars).symm, List.length_append⟩
    · refine readExactly_eq_ok.mpr ⟨?_, first, others ++ rest, hfirst, List.append_assoc _ _ _, rfl⟩
      rw [List.length_take]
      omega
    · refine readExactly_eq_ok.mpr ⟨?_, others, rest, hothers, ?_, rfl⟩
      · rw [List.length_drop]
        omega
      · rw [List.append_assoc, List.drop_left]
  · rintro ⟨front, back, k, m, hfront, hback, rfl, rfl⟩
    obtain ⟨rfl, first, behind, hfirst, rfl, rfl⟩ := readExactly_eq_ok.mp hfront
    rw [List.drop_left] at hback
    obtain ⟨rfl, others, rest, hothers, rfl, rfl⟩ := readExactly_eq_ok.mp hback
    refine readExactly_eq_ok.mpr ⟨List.length_append, first ++ others, rest, ?_, ?_, ?_⟩
    · exact encodeChars_append hfirst hothers
    · rw [List.append_assoc]
    · rw [List.length_append]

end Charset

namespace CodePointReader

variable {charset : Charset} {reader : CodePointReader} {source rest : Source} {count : Nat}
  {text : String} {failure : Failure}

/-! ### One read -/

/-- The source admits the strategy of the reader, and its bytes are counted in a word. -/
structure Ready (reader : CodePointReader) (source : Source) : Prop where
  suits : reader.Suits source
  word : source.remaining ≤ maxWord

/-- What the buffered strategy leaves is what dropping some bytes leaves. -/
theorem advance_of_readBuffered {chars : List Char}
    (h : readBuffered charset count source = .ok chars rest) :
    ∃ n, Source.advance n source = .ok () rest := by
  rw [readBuffered, get_bind_apply] at h
  obtain ⟨⟨found, n⟩, middle, hwindow, h⟩ := bind_eq_ok.mp h
  obtain ⟨⟨⟩, last, hadvance, h⟩ := bind_eq_ok.mp h
  cases h
  obtain rfl : middle = source := by
    cases hread : readWindow charset
      (source.chunk.take (windowLength charset count source.remaining)) count with
    | error e => simp [hread] at hwindow
    | ok found =>
      rw [hread] at hwindow
      cases hwindow
      rfl
  exact ⟨n, hadvance⟩

/-- A reader that has read is ready to read on. -/
theorem Ready.read (hready : reader.Ready source)
    (h : reader.read count source = .ok text rest) : reader.Ready rest := by
  obtain ⟨n, -, hrest⟩ := readExactly_of_read hready.suits hready.word h
  refine ⟨fun hbuffered ↦ ?_, ?_⟩
  · by_cases hzero : count = 0
    · obtain ⟨-, rfl⟩ : text = "" ∧ source = rest := by
        simpa [CodePointReader.read, hzero, eq_comm] using h
      exact hready.suits hbuffered
    · simp only [CodePointReader.read, if_neg hzero, hbuffered] at h
      obtain ⟨chars, middle, hread, hpure⟩ := bind_eq_ok.mp h
      cases hpure
      obtain ⟨taken, hadvance⟩ := advance_of_readBuffered hread
      exact Source.isContiguous_of_advance (hready.suits hbuffered) hadvance
  · have hword := hready.word
    rw [Source.remaining_eq_length] at hword ⊢
    rw [hrest, List.length_drop]
    omega

/-- A buffered read that fails has taken nothing. -/
theorem Ready.eq_of_error (hready : reader.Ready source) (hstrategy : reader.strategy = .buffered)
    (h : reader.read count source = .error failure rest) : rest = source := by
  obtain ⟨-, -, -, hnothing⟩ := readExactly_of_read_error hready.suits hready.word h
  exact hnothing hstrategy

/-! ### A run of reads -/

/-- What reads one after another answer, each of which goes on where the one before it has left the
source, and the source they leave. A read that fails does not keep the others from being made. -/
def readEach (reader : CodePointReader) : List Nat → Source → List (Except Failure String) × Source
  | [], source => ([], source)
  | count :: counts, source =>
    match reader.read count source with
    | .ok text rest =>
      let (answers, last) := reader.readEach counts rest
      (.ok text :: answers, last)
    | .error failure rest =>
      let (answers, last) := reader.readEach counts rest
      (.error failure :: answers, last)

variable {counts front back : List Nat} {texts : List String} {chars : List Char} {n : Nat}

theorem readEach_of_ok (h : reader.read count source = .ok text rest) (counts : List Nat) :
    reader.readEach (count :: counts) source =
      (.ok text :: (reader.readEach counts rest).1, (reader.readEach counts rest).2) := by
  simp only [readEach, h]

theorem readEach_of_error (h : reader.read count source = .error failure rest)
    (counts : List Nat) :
    reader.readEach (count :: counts) source =
      (.error failure :: (reader.readEach counts rest).1, (reader.readEach counts rest).2) := by
  simp only [readEach, h]

/-- Whatever the reads of a buffered reader come to, it is ready to read on. -/
theorem Ready.readEach (hready : reader.Ready source) (hstrategy : reader.strategy = .buffered)
    (counts : List Nat) : reader.Ready (reader.readEach counts source).2 := by
  induction counts generalizing source with
  | nil => exact hready
  | cons count counts ih =>
    cases h : reader.read count source with
    | ok text rest =>
      rw [readEach_of_ok h]
      exact ih (hready.read h)
    | error failure rest =>
      rw [readEach_of_error h, hready.eq_of_error hstrategy h]
      exact ih hready

/-- A run goes on from where a part of it has left the source. -/
theorem readEach_append (front back : List Nat) (source : Source) :
    reader.readEach (front ++ back) source =
      let (answers, middle) := reader.readEach front source
      let (others, last) := reader.readEach back middle
      (answers ++ others, last) := by
  induction front generalizing source with
  | nil => rfl
  | cons count front ih =>
    cases h : reader.read count source with
    | ok text rest =>
      rw [List.cons_append, readEach_of_ok h, readEach_of_ok h, ih]
      rfl
    | error failure rest =>
      rw [List.cons_append, readEach_of_error h, readEach_of_error h, ih]
      rfl

/-- All reads of the run succeed, and these are their texts. -/
def EachYields (reader : CodePointReader) (counts : List Nat) (source : Source)
    (texts : List String) (rest : Source) : Prop :=
  reader.readEach counts source = (texts.map Except.ok, rest)

theorem eachYields_nil : reader.EachYields [] source texts rest ↔ texts = [] ∧ rest = source := by
  simp only [EachYields, readEach, Prod.mk.injEq, List.nil_eq, List.map_eq_nil_iff,
    eq_comm (a := source)]

/-- All reads succeed when the first one does, and those behind it. -/
theorem eachYields_cons : reader.EachYields (count :: counts) source texts rest ↔
    ∃ text others middle, texts = text :: others ∧ reader.read count source = .ok text middle ∧
      reader.EachYields counts middle others rest := by
  unfold EachYields
  cases hread : reader.read count source with
  | error failure middle =>
    rw [readEach_of_error hread]
    cases texts <;> simp
  | ok text middle =>
    rw [readEach_of_ok hread]
    cases texts with
    | nil => simp
    | cons first others =>
      simp only [List.map_cons, List.cons.injEq, Except.ok.injEq, EStateM.Result.ok.injEq,
        Prod.ext_iff]
      constructor
      · rintro ⟨⟨rfl, hothers⟩, hlast⟩
        exact ⟨text, others, middle, ⟨rfl, rfl⟩, ⟨rfl, rfl⟩, hothers, hlast⟩
      · rintro ⟨_, _, _, ⟨rfl, rfl⟩, ⟨rfl, rfl⟩, hothers, hlast⟩
        exact ⟨⟨rfl, hothers⟩, hlast⟩

/-- Where there are as many characters as all reads ask for, every one of them succeeds. -/
theorem exists_eachYields (hready : reader.Ready source)
    (h : reader.charset.readExactly counts.sum source.bytes = .ok (chars, n)) :
    ∃ texts rest, reader.EachYields counts source texts rest := by
  induction counts generalizing source chars n with
  | nil => exact ⟨[], source, eachYields_nil.mpr ⟨rfl, rfl⟩⟩
  | cons count counts ih =>
    rw [List.sum_cons] at h
    obtain ⟨first, others, k, m, hfirst, hothers, -, -⟩ := Charset.readExactly_add.mp h
    obtain ⟨middle, hread, hmiddle⟩ := read_of_ok hready.suits hready.word hfirst
    rw [← hmiddle] at hothers
    obtain ⟨texts, rest, heach⟩ := ih (hready.read hread) hothers
    exact ⟨_, rest, eachYields_cons.mpr ⟨_, texts, middle, rfl, hread, heach⟩⟩

/-- Reads that all succeed have read as many characters as they ask for together. -/
theorem readExactly_of_eachYields (hready : reader.Ready source)
    (h : reader.EachYields counts source texts rest) :
    ∃ n, reader.charset.readExactly counts.sum source.bytes = .ok ((String.join texts).toList, n) ∧
      rest.bytes = source.bytes.drop n := by
  induction counts generalizing source texts with
  | nil =>
    obtain ⟨rfl, rfl⟩ := eachYields_nil.mp h
    exact ⟨0, rfl, rfl⟩
  | cons count counts ih =>
    obtain ⟨text, others, middle, rfl, hread, hothers⟩ := eachYields_cons.mp h
    obtain ⟨k, hfirst, hmiddle⟩ := readExactly_of_read hready.suits hready.word hread
    obtain ⟨m, hbehind, hrest⟩ := ih (hready.read hread) hothers
    rw [hmiddle] at hbehind
    refine ⟨k + m, ?_, by rw [hrest, hmiddle, List.drop_drop]⟩
    rw [List.sum_cons, String.join_cons, String.toList_append]
    exact Charset.readExactly_add.mpr ⟨_, _, k, m, hfirst, hbehind, rfl, rfl⟩

/-! ### Main statement -/

/-- Reads one after another all succeed exactly when a single read of as many code points as they
ask for together does, and then they yield its text in parts and leave the bytes it leaves. A
buffered read that fails on the way leaves no trace: without it the others answer the same. -/
theorem readEach_composes {strategy : Strategy}
    (hreader : withStrategy source charset strategy = .ok reader)
    (hword : source.remaining ≤ maxWord) (counts : List Nat) :
    ((∃ texts rest, reader.EachYields counts source texts rest) ↔
      ∃ text rest, reader.read counts.sum source = .ok text rest) ∧
    (∀ texts rest text rest', reader.EachYields counts source texts rest →
      reader.read counts.sum source = .ok text rest' →
        String.join texts = text ∧ rest.bytes = rest'.bytes) ∧
    (strategy = .buffered → ∀ front count back answers middle failure rest,
      counts = front ++ count :: back → reader.readEach front source = (answers, middle) →
        reader.read count middle = .error failure rest →
        rest = middle ∧ ∃ later last,
          reader.readEach (front ++ back) source = (answers ++ later, last) ∧
            reader.readEach counts source = (answers ++ .error failure :: later, last)) := by
  obtain ⟨rfl, hsuits⟩ := suits_of_withStrategy hreader
  have hready : reader.Ready source := ⟨hsuits, hword⟩
  refine ⟨⟨?_, ?_⟩, ?_, ?_⟩
  · rintro ⟨texts, rest, heach⟩
    obtain ⟨n, hread, -⟩ := readExactly_of_eachYields hready heach
    obtain ⟨rest', hyields, -⟩ := read_of_ok hsuits hword hread
    exact ⟨_, rest', hyields⟩
  · rintro ⟨text, rest, hread⟩
    obtain ⟨n, hchars, -⟩ := readExactly_of_read hsuits hword hread
    exact exists_eachYields hready hchars
  · intro texts rest text rest' heach hread
    obtain ⟨n, hparts, hrest⟩ := readExactly_of_eachYields hready heach
    obtain ⟨n', hwhole, hrest'⟩ := readExactly_of_read hsuits hword hread
    obtain ⟨htext, rfl⟩ := Prod.mk.inj (Except.ok.inj (hparts.symm.trans hwhole))
    exact ⟨String.toList_inj.mp htext, by rw [hrest, hrest']⟩
  · rintro hstrategy front count back answers middle failure rest rfl hfront hfails
    have hbuffered := (strategy_of_withStrategy hreader).trans hstrategy
    have hmiddle := hready.readEach hbuffered front
    rw [hfront] at hmiddle
    have hsame : rest = middle := hmiddle.eq_of_error hbuffered hfails
    refine ⟨hsame, (reader.readEach back middle).1, (reader.readEach back middle).2, ?_, ?_⟩
    · rw [readEach_append, hfront]
    · rw [readEach_append, hfront]
      simp only [readEach_of_error hfails, hsame]

/-- Characters of one to four bytes, read in four parts, and once more with a read in between that
asks for more than there are. -/
theorem readEach_composes_of_mixed_lengths :
    let source := Source.ofBytes
      [0x61, 0xC3, 0xA9, 0xE2, 0x82, 0xAC, 0xF0, 0x9F, 0x98, 0x80, 0x62]
    let reader : CodePointReader := ⟨.utf8, .buffered⟩
    withStrategy source .utf8 .buffered = .ok reader ∧ source.remaining ≤ maxWord ∧
      (∃ texts rest, reader.EachYields [1, 2, 0, 1] source texts rest ∧
        String.join texts = "aé€😀" ∧ rest.bytes = [0x62]) ∧
      ∃ failure later last, reader.readEach [1, 2, 0, 1] source = (.ok "a" :: later, last) ∧
        reader.readEach [1, 9, 2, 0, 1] source = (.ok "a" :: .error failure :: later, last) := by
  intro source reader
  have hreader : withStrategy source .utf8 .buffered = .ok reader := rfl
  have hword : source.remaining ≤ maxWord := by decide
  have hready : Ready reader source := ⟨(suits_of_withStrategy hreader).2, hword⟩
  have hwhole : Charset.utf8.readExactly 4 source.bytes = .ok ("aé€😀".toList, 10) := by
    decide +kernel
  obtain ⟨rest, hread, hrest⟩ := read_of_ok hready.suits hword hwhole
  obtain ⟨hiff, hsame, -⟩ := readEach_composes hreader hword [1, 2, 0, 1]
  obtain ⟨texts, last, heach⟩ := hiff.mpr ⟨_, rest, hread⟩
  obtain ⟨htexts, hlast⟩ := hsame _ _ _ _ heach hread
  -- Behind the first character there are four, and nine are asked for.
  have hfirst : Charset.utf8.readExactly 1 source.bytes = .ok ("a".toList, 1) := by decide
  obtain ⟨middle, ha, hmiddle⟩ := read_of_ok hready.suits hword hfirst
  have hfront : reader.readEach [1] source = ([.ok "a"], middle) := readEach_of_ok ha []
  have hmissing : Charset.utf8.readExactly 9 middle.bytes =
      .error { kind := .endOfStream "code points" 4 9 } := by
    rw [hmiddle]
    decide
  have hmiddleReady := hready.read ha
  obtain ⟨stopped, hfails, -⟩ := read_of_error hmiddleReady.suits hmiddleReady.word hmissing
  obtain ⟨-, -, hfailing⟩ := readEach_composes hreader hword [1, 9, 2, 0, 1]
  obtain ⟨-, later, final, hwithout, hwith⟩ :=
    hfailing rfl [1] 9 [2, 0, 1] _ middle _ stopped rfl hfront hfails
  exact ⟨hreader, hword, ⟨texts, last, heach, htexts, hlast.trans (hrest.trans rfl)⟩, _, later,
    final, hwithout, hwith⟩

end CodePointReader

end WireFormat
