import WireFormat.Proofs.Charset.Reading
import WireFormat.Proofs.Streams

/-!
# Reading counted text from a source

A counted reader comes to what the bytes of its source hold, whichever strategy it follows and
however the source is cut into chunks (`CodePointReader.read_of_ok`,
`CodePointReader.read_of_error`). Two consequences are the main statements: the two strategies give
the same text or the same error (`CodePointReader.read_buffered_agrees_unbuffered`), and a reader
succeeds exactly when the encoding of a text of the length asked for stands at the front, of which
it takes every byte and none behind (`CodePointReader.read_eq_ok_iff`).

The unbuffered strategy is compared with a reader of lists by looking at a source as the list of
its bytes (`Pull.inBytes`); each loop of the reader commutes with that view.
-/

set_option autoImplicit false
set_option relaxedAutoImplicit false

namespace WireFormat

namespace Pull

/-! ### A source as the list of its bytes -/

/-- The same pull on the list of the bytes of its source. -/
def inBytes (pull : Pull Source) : Pull (List UInt8) :=
  ⟨pull.decoder, pull.pulled, pull.supply.bytes⟩

@[simp] theorem inBytes_decoder (pull : Pull Source) : pull.inBytes.decoder = pull.decoder := rfl

/-- A result on a source as a result on the list of its bytes. -/
def seen {ε α : Type} :
    EStateM.Result ε (Pull Source) α → EStateM.Result ε (Pull (List UInt8)) α
  | .ok a pull => .ok a pull.inBytes
  | .error e pull => .error e pull.inBytes

@[simp] theorem seen_ok {ε α : Type} (a : α) (pull : Pull Source) :
    seen (.ok a pull : EStateM.Result ε _ _) = .ok a pull.inBytes := rfl

@[simp] theorem seen_error {ε α : Type} (e : ε) (pull : Pull Source) :
    seen (.error e pull : EStateM.Result _ _ α) = .error e pull.inBytes := rfl

theorem nextUnit_of_end {σ : Type} [ByteSupply σ] {pull : Pull σ}
    (h : ByteSupply.next? pull.supply = none) :
    nextUnit pull = if pull.decoder.inSequence then .error .truncated pull else .ok none pull := by
  rw [nextUnit]
  split
  · rfl
  · next hnext =>
    rw [h] at hnext
    cases hnext

theorem nextUnit_of_byte {σ : Type} [ByteSupply σ] {pull : Pull σ} {byte : UInt8} {rest : σ}
    (h : ByteSupply.next? pull.supply = some (byte, rest)) :
    nextUnit pull =
      match pull.decoder.push byte with
      | (.unit value, decoder) => .ok (some value) ⟨decoder, pull.pulled + 1, rest⟩
      | (.invalid, decoder) => .error .malformed ⟨decoder, pull.pulled + 1, rest⟩
      | (.more, decoder) => nextUnit ⟨decoder, pull.pulled + 1, rest⟩ := by
  rw [nextUnit]
  split
  · next hnext =>
    rw [h] at hnext
    cases hnext
  · next hnext =>
    rw [h] at hnext
    cases hnext
    rfl

theorem nextUnit_inBytes (pull : Pull Source) :
    nextUnit pull.inBytes = seen (nextUnit pull) := by
  obtain ⟨decoder, pulled, supply⟩ := pull
  -- One byte of the source is one element of the list.
  induction hbytes : supply.bytes generalizing decoder pulled supply with
  | nil =>
    have hlist : ByteSupply.next? (inBytes ⟨decoder, pulled, supply⟩).supply = none := by
      rw [inBytes, hbytes]
      rfl
    rw [nextUnit_of_end hlist, nextUnit_of_end (Source.next?_of_nil hbytes)]
    show (if decoder.inSequence then _ else _) = seen (if decoder.inSequence then _ else _)
    cases decoder.inSequence <;> rfl
  | cons byte others ih =>
    obtain ⟨rest, hnext, hrest⟩ := Source.next?_of_cons hbytes
    have hlist : ByteSupply.next? (inBytes ⟨decoder, pulled, supply⟩).supply =
        some (byte, rest.bytes) := by
      rw [inBytes, hbytes, hrest]
      rfl
    rw [nextUnit_of_byte hlist, nextUnit_of_byte hnext]
    show (match decoder.push byte with
      | (.unit value, decoder) => _
      | (.invalid, decoder) => _
      | (.more, decoder) => _) = seen (match decoder.push byte with
      | (.unit value, decoder) => _
      | (.invalid, decoder) => _
      | (.more, decoder) => _)
    obtain ⟨answer, next⟩ := decoder.push byte
    cases answer with
    | unit value => rfl
    | invalid => rfl
    | more => exact ih next (pulled + 1) rest hrest

theorem nextChar_inBytes (pull : Pull Source) :
    nextChar pull.inBytes = seen (nextChar pull) := by
  have hcharOf (value : Nat) (pull : Pull Source) :
      charOf value pull.inBytes = seen (charOf value pull) := by
    by_cases hvalid : value.isValidChar <;> simp [charOf, hvalid, seen]
  unfold nextChar
  rw [nextUnit_inBytes]
  cases nextUnit pull with
  | error stop next => rfl
  | ok found next =>
    cases found with
    | none => rfl
    | some unit =>
      by_cases hhalf : (next.decoder.charset.hasSurrogates && Utf16.isHighSurrogate unit) = true
      · simp only [seen_ok, inBytes_decoder, hhalf, if_true, nextUnit_inBytes]
        cases nextUnit next with
        | error stop last => rfl
        | ok found last =>
          cases found with
          | none => rfl
          | some low =>
            by_cases hlow : Utf16.isLowSurrogate low = true
            · simp only [seen_ok, if_pos hlow]
              exact hcharOf _ last
            · simp only [seen_ok, seen_error, if_neg hlow]
      · simp only [seen_ok, inBytes_decoder, hhalf]
        exact hcharOf unit next

theorem readUpTo_inBytes (charset : Charset) (limit : Nat) (pull : Pull Source) :
    readUpTo charset limit pull.inBytes = seen (readUpTo charset limit pull) := by
  induction limit generalizing pull with
  | zero => rfl
  | succ limit ih =>
    simp only [readUpTo, nextChar_inBytes]
    cases nextChar pull with
    | error stop next => cases stop <;> rfl
    | ok found next =>
      cases found with
      | none => rfl
      | some c =>
        simp only [seen]
        rw [ih]
        cases readUpTo charset limit next <;> rfl

theorem readExactly_inBytes (charset : Charset) (count : Nat) (pull : Pull Source) :
    readExactly charset count pull.inBytes = seen (readExactly charset count pull) := by
  simp only [readExactly, readUpTo_inBytes]
  cases readUpTo charset count pull with
  | error e next => rfl
  | ok chars next => by_cases hshort : chars.length < count <;> simp [seen, hshort]

end Pull

namespace CodePointReader

variable {charset : Charset} {source : Source} {count n : Nat} {chars : List Char} {e : Error}

/-! ### What the strategies come to -/

/-- The window is limited by the bytes asked for only where that is enough. -/
theorem readWindow_of_isContiguous (hwhole : source.isContiguous = true)
    (hword : source.remaining ≤ maxWord) (charset : Charset) (count : Nat) :
    readWindow charset (source.chunk.take (windowLength charset count source.remaining)) count =
      charset.readExactly count source.bytes := by
  rw [readWindow_eq, Source.chunk_of_isContiguous hwhole]
  refine Charset.readExactly_window ?_
  rw [← Source.remaining_eq_length, windowLength]
  omega

theorem readBuffered_of_ok (hwhole : source.isContiguous = true)
    (hword : source.remaining ≤ maxWord)
    (h : charset.readExactly count source.bytes = .ok (chars, n)) :
    ∃ rest, readBuffered charset count source = .ok chars rest ∧
      rest.bytes = source.bytes.drop n := by
  have hwindow := readWindow_of_isContiguous hwhole hword charset count
  obtain ⟨-, code, behind, -, hbytes, rfl⟩ := Charset.readExactly_eq_ok.mp h
  have hle : code.length ≤ source.bytes.length := by
    rw [hbytes, List.length_append]
    exact Nat.le_add_right _ _
  obtain ⟨rest, hadvance, hrest⟩ := Source.advance_of_le hle
  refine ⟨rest, ?_, hrest⟩
  rw [readBuffered, get_bind_apply, hwindow, h]
  show (Source.advance code.length >>= fun _ ↦ pure chars) source = .ok chars rest
  rw [bind_of_ok hadvance, pure_apply]

/-- When the buffered strategy fails it has taken nothing. -/
theorem readBuffered_of_error (hwhole : source.isContiguous = true)
    (hword : source.remaining ≤ maxWord)
    (h : charset.readExactly count source.bytes = .error e) :
    readBuffered charset count source = .error (.error e) source := by
  have hwindow := readWindow_of_isContiguous hwhole hword charset count
  rw [readBuffered, get_bind_apply, hwindow, h]
  rfl

theorem outcome_seen_readExactly (charset : Charset) (count : Nat) (source : Source) :
    Pull.outcome (Pull.seen (Pull.readExactly charset count (Pull.start charset source))) =
      (charset.readExactly count source.bytes).map
        fun (chars, n) ↦ (chars, n, source.bytes.drop n) := by
  rw [← Pull.readExactly_inBytes]
  exact Pull.outcome_readExactly charset count source.bytes

theorem readUnbuffered_of_ok (h : charset.readExactly count source.bytes = .ok (chars, n)) :
    ∃ rest, readUnbuffered charset count source = .ok chars rest ∧
      rest.bytes = source.bytes.drop n := by
  have hread := outcome_seen_readExactly charset count source
  rw [h] at hread
  cases hpull : Pull.readExactly charset count (Pull.start charset source) with
  | error e pull =>
    rw [hpull] at hread
    cases hread
  | ok found pull =>
    rw [hpull] at hread
    simp only [Pull.seen, Pull.outcome, Pull.inBytes, Except.map, Except.ok.injEq,
      Prod.mk.injEq] at hread
    obtain ⟨rfl, -, hrest⟩ := hread
    exact ⟨pull.supply, by simp only [readUnbuffered, hpull], hrest⟩

theorem readUnbuffered_of_error (h : charset.readExactly count source.bytes = .error e) :
    ∃ rest, readUnbuffered charset count source = .error (.error e) rest := by
  have hread := outcome_seen_readExactly charset count source
  rw [h] at hread
  cases hpull : Pull.readExactly charset count (Pull.start charset source) with
  | error e' pull =>
    rw [hpull] at hread
    obtain rfl : e' = e := by simpa [Pull.seen, Pull.outcome, Except.map] using hread
    exact ⟨pull.supply, by simp only [readUnbuffered, hpull]⟩
  | ok found pull =>
    rw [hpull] at hread
    cases hread

/-! ### What a reader comes to -/

/-- The strategy of a reader is one that its source admits. -/
def Suits (reader : CodePointReader) (source : Source) : Prop :=
  reader.strategy = .buffered → source.isContiguous = true

theorem suits_of_withStrategy {strategy : Strategy} {reader : CodePointReader}
    (h : withStrategy source charset strategy = .ok reader) :
    reader.charset = charset ∧ reader.Suits source := by
  unfold withStrategy at h
  by_cases hrefused : strategy = .buffered ∧ ¬ source.isContiguous
  · simp [hrefused] at h
  · rw [if_neg hrefused] at h
    cases h
    refine ⟨rfl, fun hbuffered ↦ ?_⟩
    by_contra hchunks
    exact hrefused ⟨hbuffered, hchunks⟩

/-- The strategy asked for is the one that is followed. -/
theorem strategy_of_withStrategy {strategy : Strategy} {reader : CodePointReader}
    (h : withStrategy source charset strategy = .ok reader) : reader.strategy = strategy := by
  unfold withStrategy at h
  split at h
  · cases h
  · cases h
    rfl

/-- The strategy a reader chooses for a source is admitted by it. -/
theorem withStrategy_on (source : Source) (charset : Charset) :
    withStrategy source charset (on source charset).strategy = .ok (on source charset) := by
  cases hwhole : source.isContiguous <;> simp [withStrategy, on, hwhole]

variable {reader : CodePointReader}

/-- A reader yields the characters that stand at the front of its bytes, and takes their bytes. -/
theorem read_of_ok (hsuits : reader.Suits source) (hword : source.remaining ≤ maxWord)
    (h : reader.charset.readExactly count source.bytes = .ok (chars, n)) :
    ∃ rest, reader.read count source = .ok (String.ofList chars) rest ∧
      rest.bytes = source.bytes.drop n := by
  by_cases hzero : count = 0
  · subst hzero
    obtain ⟨rfl, rfl⟩ : chars = [] ∧ n = 0 := by
      simpa [Charset.readExactly, Charset.readUpTo, eq_comm] using h
    exact ⟨source, by simp [read], rfl⟩
  · cases hstrategy : reader.strategy with
    | buffered =>
      obtain ⟨rest, hread, hrest⟩ := readBuffered_of_ok (hsuits hstrategy) hword h
      refine ⟨rest, ?_, hrest⟩
      simp only [read, if_neg hzero, hstrategy]
      rw [bind_of_ok hread, pure_apply]
    | unbuffered =>
      obtain ⟨rest, hread, hrest⟩ := readUnbuffered_of_ok h
      refine ⟨rest, ?_, hrest⟩
      simp only [read, if_neg hzero, hstrategy]
      rw [bind_of_ok hread, pure_apply]

/-- A reader fails as its bytes do. -/
theorem read_of_error (hsuits : reader.Suits source) (hword : source.remaining ≤ maxWord)
    (h : reader.charset.readExactly count source.bytes = .error e) :
    ∃ rest, reader.read count source = .error (.error e) rest ∧
      (reader.strategy = .buffered → rest = source) := by
  have hzero : count ≠ 0 := by
    rintro rfl
    simp [Charset.readExactly, Charset.readUpTo] at h
  cases hstrategy : reader.strategy with
  | buffered =>
    refine ⟨source, ?_, fun _ ↦ rfl⟩
    simp only [read, if_neg hzero, hstrategy]
    rw [bind_of_error (readBuffered_of_error (hsuits hstrategy) hword h)]
  | unbuffered =>
    obtain ⟨rest, hread⟩ := readUnbuffered_of_error h
    refine ⟨rest, ?_, fun hbuffered ↦ ?_⟩
    · simp only [read, if_neg hzero, hstrategy]
      rw [bind_of_error hread]
    · cases hbuffered

/-- What a reader yields stands at the front of its bytes. -/
theorem readExactly_of_read {text : String} {rest : Source} (hsuits : reader.Suits source)
    (hword : source.remaining ≤ maxWord) (h : reader.read count source = .ok text rest) :
    ∃ n, reader.charset.readExactly count source.bytes = .ok (text.toList, n) ∧
      rest.bytes = source.bytes.drop n := by
  cases hread : reader.charset.readExactly count source.bytes with
  | error e =>
    obtain ⟨rest', hfails, -⟩ := read_of_error hsuits hword hread
    rw [hfails] at h
    cases h
  | ok found =>
    obtain ⟨chars, n⟩ := found
    obtain ⟨rest', hyields, hrest⟩ := read_of_ok hsuits hword hread
    rw [hyields] at h
    cases h
    exact ⟨n, by rw [String.toList_ofList], hrest⟩

/-- A reader fails only as its bytes do. -/
theorem readExactly_of_read_error {failure : Failure} {rest : Source}
    (hsuits : reader.Suits source) (hword : source.remaining ≤ maxWord)
    (h : reader.read count source = .error failure rest) :
    ∃ e, failure = .error e ∧ reader.charset.readExactly count source.bytes = .error e ∧
      (reader.strategy = .buffered → rest = source) := by
  cases hread : reader.charset.readExactly count source.bytes with
  | ok found =>
    obtain ⟨chars, n⟩ := found
    obtain ⟨rest', hyields, -⟩ := read_of_ok hsuits hword hread
    rw [hyields] at h
    cases h
  | error e =>
    obtain ⟨rest', hfails, hnothing⟩ := read_of_error hsuits hword hread
    rw [hfails] at h
    cases h
    exact ⟨e, rfl, rfl, hnothing⟩

/-- A reader that chooses its strategy by the chunks takes the encoding of what it yields. -/
theorem read_on_eq_ok {text : String} {rest : Source} (hword : source.remaining ≤ maxWord)
    (h : (on source charset).read count source = .ok text rest) :
    text.toList.length = count ∧
      ∃ code, charset.encode text = .ok code ∧ source.bytes = code ++ rest.bytes := by
  have hsuits := (suits_of_withStrategy (withStrategy_on source charset)).2
  obtain ⟨n, hread, hrest⟩ := readExactly_of_read hsuits hword h
  obtain ⟨hcount, code, behind, hcode, hbytes, rfl⟩ := Charset.readExactly_eq_ok.mp hread
  rw [hbytes, List.drop_left] at hrest
  exact ⟨hcount, code, hcode, by rw [hbytes, hrest]⟩

/-! ### Main statements -/

/-- Both strategies give the same text and leave the same bytes, or give the same error; the
buffered one has then taken nothing. -/
theorem read_buffered_agrees_unbuffered {whole chunked : Source}
    {buffered unbuffered : CodePointReader} (hbytes : chunked.bytes = whole.bytes)
    (hword : whole.remaining ≤ maxWord)
    (hbuffered : withStrategy whole charset .buffered = .ok buffered)
    (hunbuffered : withStrategy chunked charset .unbuffered = .ok unbuffered) (count : Nat) :
    (∃ text rest rest', buffered.read count whole = .ok text rest ∧
      unbuffered.read count chunked = .ok text rest' ∧
        rest.bytes = rest'.bytes ∧ rest.remaining = rest'.remaining) ∨
    ∃ e rest', buffered.read count whole = .error (.error e) whole ∧
      unbuffered.read count chunked = .error (.error e) rest' := by
  obtain ⟨hcharset, hsuits⟩ := suits_of_withStrategy hbuffered
  obtain ⟨hcharset', hsuits'⟩ := suits_of_withStrategy hunbuffered
  have hword' : chunked.remaining ≤ maxWord := by
    rw [Source.remaining_eq_length] at hword ⊢
    rwa [hbytes]
  cases hread : charset.readExactly count whole.bytes with
  | ok found =>
    obtain ⟨chars, n⟩ := found
    obtain ⟨rest, hwhole, hrest⟩ := read_of_ok hsuits hword (hcharset.symm ▸ hread)
    obtain ⟨rest', hchunked, hrest'⟩ :=
      read_of_ok hsuits' hword' (hcharset'.symm ▸ hbytes.symm ▸ hread)
    have hsame : rest.bytes = rest'.bytes := by rw [hrest, hrest', hbytes]
    refine Or.inl ⟨_, rest, rest', hwhole, hchunked, hsame, ?_⟩
    rw [Source.remaining_eq_length, Source.remaining_eq_length, hsame]
  | error e =>
    obtain ⟨rest, hwhole, hnothing⟩ := read_of_error hsuits hword (hcharset.symm ▸ hread)
    obtain ⟨rest', hchunked, -⟩ :=
      read_of_error hsuits' hword' (hcharset'.symm ▸ hbytes.symm ▸ hread)
    have hstrategy : buffered.strategy = .buffered := by
      unfold withStrategy at hbuffered
      split at hbuffered
      · cases hbuffered
      · cases hbuffered
        rfl
    rw [hnothing hstrategy] at hwhole
    exact Or.inr ⟨e, rest', hwhole, hchunked⟩

/-- The strategies agree on a surrogate pair whose halves stand in different chunks, the first of
which is itself cut in two. -/
theorem read_agrees_on_split_pair :
    let whole := Source.ofBytes [0xD8, 0x3D, 0xDE, 0x00, 0x00, 0x41]
    let chunked : Source := ⟨[[0xD8], [0x3D], [], [0xDE, 0x00, 0x00, 0x41]]⟩
    chunked.bytes = whole.bytes ∧ whole.remaining ≤ maxWord ∧
      withStrategy whole .utf16be .buffered = .ok ⟨.utf16be, .buffered⟩ ∧
      withStrategy chunked .utf16be .unbuffered = .ok ⟨.utf16be, .unbuffered⟩ ∧
      ((∃ text rest rest', read ⟨.utf16be, .buffered⟩ 2 whole = .ok text rest ∧
        read ⟨.utf16be, .unbuffered⟩ 2 chunked = .ok text rest' ∧
          rest.bytes = rest'.bytes ∧ rest.remaining = rest'.remaining) ∨
      ∃ e rest', read ⟨.utf16be, .buffered⟩ 2 whole = .error (.error e) whole ∧
        read ⟨.utf16be, .unbuffered⟩ 2 chunked = .error (.error e) rest') := by
  intro whole chunked
  have hbytes : chunked.bytes = whole.bytes := rfl
  have hword : whole.remaining ≤ maxWord := by decide
  have hbuffered : withStrategy whole .utf16be .buffered = .ok ⟨.utf16be, .buffered⟩ := rfl
  have hunbuffered : withStrategy chunked .utf16be .unbuffered = .ok ⟨.utf16be, .unbuffered⟩ :=
    rfl
  exact ⟨hbytes, hword, hbuffered, hunbuffered,
    read_buffered_agrees_unbuffered hbytes hword hbuffered hunbuffered 2⟩

/-- A reader yields a text exactly when the text has the length asked for and its encoding stands
at the front; what it leaves is what stands behind that encoding. -/
theorem read_eq_ok_iff {strategy : Strategy}
    (hreader : withStrategy source charset strategy = .ok reader)
    (hword : source.remaining ≤ maxWord) (count : Nat) (text : String) :
    ((∃ rest, reader.read count source = .ok text rest) ↔
      text.toList.length = count ∧
        ∃ code, charset.encode text = .ok code ∧ code <+: source.bytes) ∧
    ∀ rest, reader.read count source = .ok text rest →
      ∃ code, charset.encode text = .ok code ∧ code ++ rest.bytes = source.bytes := by
  obtain ⟨rfl, hsuits⟩ := suits_of_withStrategy hreader
  have hfound (rest : Source) (h : reader.read count source = .ok text rest) :
      text.toList.length = count ∧
        ∃ code, reader.charset.encode text = .ok code ∧ code ++ rest.bytes = source.bytes := by
    cases hread : reader.charset.readExactly count source.bytes with
    | error e =>
      obtain ⟨rest', hfails, -⟩ := read_of_error hsuits hword hread
      rw [hfails] at h
      cases h
    | ok found =>
      obtain ⟨chars, n⟩ := found
      obtain ⟨rest', hyields, hrest⟩ := read_of_ok hsuits hword hread
      rw [hyields] at h
      cases h
      obtain ⟨hlength, code, behind, hcode, hbytes, rfl⟩ := Charset.readExactly_eq_ok.mp hread
      rw [hbytes, List.drop_left] at hrest
      refine ⟨by rwa [String.toList_ofList], code, ?_, by rw [hrest, hbytes]⟩
      rwa [Charset.encode, String.toList_ofList]
  refine ⟨⟨?_, ?_⟩, fun rest h ↦ (hfound rest h).2⟩
  · rintro ⟨rest, h⟩
    obtain ⟨hlength, code, hcode, hbytes⟩ := hfound rest h
    exact ⟨hlength, code, hcode, rest.bytes, hbytes⟩
  · rintro ⟨hlength, code, hcode, behind, hbytes⟩
    have hread : reader.charset.readExactly count source.bytes = .ok (text.toList, code.length) :=
      Charset.readExactly_eq_ok.mpr ⟨hlength, code, behind, hcode, hbytes.symm, rfl⟩
    obtain ⟨rest, hyields, -⟩ := read_of_ok hsuits hword hread
    rw [String.ofList_toList] at hyields
    exact ⟨rest, hyields⟩

/-- Two characters in front of a third, cut inside the first of them. -/
theorem read_two_of_three :
    let source : Source := ⟨[[0xF0, 0x9F], [0x98, 0x80, 0x41], [0x42]]⟩
    withStrategy source .utf8 .unbuffered = .ok ⟨.utf8, .unbuffered⟩ ∧
      source.remaining ≤ maxWord ∧
      ∃ rest, read ⟨.utf8, .unbuffered⟩ 2 source = .ok "😀A" rest ∧ rest.bytes = [0x42] := by
  intro source
  have hreader : withStrategy source .utf8 .unbuffered = .ok ⟨.utf8, .unbuffered⟩ := rfl
  have hword : source.remaining ≤ maxWord := by decide
  have hcode : Charset.utf8.encode "😀A" = .ok [0xF0, 0x9F, 0x98, 0x80, 0x41] := by decide
  obtain ⟨hiff, htaken⟩ := read_eq_ok_iff hreader hword 2 "😀A"
  obtain ⟨rest, hread⟩ := hiff.mpr ⟨by decide, _, hcode, [0x42], rfl⟩
  obtain ⟨code, hcode', hbytes⟩ := htaken rest hread
  refine ⟨hreader, hword, rest, hread, ?_⟩
  obtain rfl := Except.ok.inj (hcode.symm.trans hcode')
  exact List.append_cancel_left (hbytes.trans (show source.bytes = _ ++ [0x42] from rfl))

end CodePointReader

end WireFormat
