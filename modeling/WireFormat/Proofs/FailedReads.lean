import WireFormat.Proofs.Charset.Refusals
import WireFormat.Proofs.CountedReading

/-!
# What a failed read says

A reader of counted text that fails says why, and the bytes of its source bear it out: they are the
encoding of fewer characters, or such an encoding with an unfinished sequence behind it, or a byte
among them is refused for what stands up to it (`CodePointReader.Grounds`). Bytes give grounds for
one error at most, and where they do, readers of either strategy fail with that one
(`CodePointReader.read_error_grounds`).

Where a failed read leaves its source depends on the strategy. Taking the bytes one at a time it has
come to the end, or to the byte behind the one refused (`ErrorKind.leftBehind`); looking at a window
it has taken none.
-/

set_option autoImplicit false
set_option relaxedAutoImplicit false

namespace WireFormat

/-- The bytes that are left where an error is found by taking one after another. -/
def ErrorKind.leftBehind (bytes : List UInt8) : ErrorKind → List UInt8
  | .malformed _ offset => bytes.drop (offset + 1)
  | _ => []

namespace Pull

variable {charset : Charset} {limit need pulled count : Nat} {bytes : List UInt8} {e : Error}
  {pull : Pull (List UInt8)}

/-- A loop that fails has come to the end of the bytes, or to the byte behind the one refused. -/
theorem supply_of_readUpTo_error
    (h : readUpTo charset limit ⟨⟨charset, [], need⟩, pulled, bytes⟩ = .error e pull) :
    (e = { kind := .truncated charset } ∧ pull.supply = []) ∨
      ∃ offset, pulled ≤ offset ∧ e = { kind := .malformed charset offset } ∧
        pull.supply = bytes.drop (offset + 1 - pulled) := by
  induction limit generalizing need pulled bytes with
  | zero => cases h
  | succ limit ih =>
    have hnext := nextChar_front charset need pulled bytes
    cases hfront : charset.front bytes with
    | ended =>
      rw [hfront] at hnext
      obtain ⟨need', hnext⟩ := hnext
      simp [readUpTo, hnext] at h
    | truncated =>
      rw [hfront] at hnext
      obtain ⟨decoder, hnext⟩ := hnext
      simp only [readUpTo, hnext, EStateM.Result.error.injEq] at h
      obtain ⟨rfl, rfl⟩ := h
      exact Or.inl ⟨rfl, rfl⟩
    | malformed offset =>
      rw [hfront] at hnext
      obtain ⟨need', hnext⟩ := hnext
      simp only [readUpTo, hnext, EStateM.Result.error.injEq] at h
      obtain ⟨rfl, rfl⟩ := h
      refine Or.inr ⟨pulled + offset, Nat.le_add_right _ _, rfl, ?_⟩
      show bytes.drop (offset + 1) = _
      congr 1
      omega
    | char c n =>
      rw [hfront] at hnext
      obtain ⟨need', hnext⟩ := hnext
      cases hread : readUpTo charset limit ⟨⟨charset, [], need'⟩, pulled + n, bytes.drop n⟩ with
      | ok chars last => simp [readUpTo, hnext, hread] at h
      | error e' last =>
        simp only [readUpTo, hnext, hread, EStateM.Result.error.injEq] at h
        obtain ⟨rfl, rfl⟩ := h
        -- The offset counts from the first byte pulled, the supply begins behind the character.
        rcases ih hread with htruncated | ⟨offset, hle, herror, hsupply⟩
        · exact Or.inl htruncated
        · refine Or.inr ⟨offset, by omega, herror, ?_⟩
          rw [hsupply, List.drop_drop]
          congr 1
          omega

/-- A loop that finds too few characters has come to the end of the bytes. -/
theorem supply_of_readUpTo_of_lt {chars : List Char}
    (h : readUpTo charset limit (start charset bytes) = .ok chars pull)
    (hshort : chars.length < limit) : pull.supply = [] := by
  have hlist := outcome_readUpTo charset limit 0 0 bytes
  rw [← Charset.decoder, ← start, h] at hlist
  cases hread : charset.readUpTo limit 0 bytes with
  | error e =>
    rw [hread] at hlist
    cases hlist
  | ok found =>
    obtain ⟨others, stop⟩ := found
    rw [hread] at hlist
    simp only [outcome, Except.map, Except.ok.injEq, Prod.mk.injEq] at hlist
    obtain ⟨rfl, -, hsupply⟩ := hlist
    -- The characters found take all bytes, since there are no others.
    have hall := Charset.encodeChars_of_readUpTo_of_lt hread hshort
    obtain ⟨code, behind, hcode, -, rfl⟩ := Charset.encodeChars_of_readUpTo hread
    obtain rfl : code = bytes := Except.ok.inj (hcode.symm.trans hall)
    simpa using hsupply

/-- A counted read that fails leaves what its error says. -/
theorem supply_of_readExactly_error
    (h : readExactly charset count (start charset bytes) = .error e pull) :
    pull.supply = e.kind.leftBehind bytes := by
  unfold readExactly at h
  cases hread : readUpTo charset count (start charset bytes) with
  | error e' last =>
    simp only [hread, EStateM.Result.error.injEq] at h
    obtain ⟨rfl, rfl⟩ := h
    rcases supply_of_readUpTo_error hread with ⟨rfl, hsupply⟩ | ⟨offset, -, rfl, hsupply⟩
    · exact hsupply
    · exact hsupply
  | ok chars last =>
    by_cases hshort : chars.length < count
    · simp only [hread, if_pos hshort, EStateM.Result.error.injEq] at h
      obtain ⟨rfl, rfl⟩ := h
      exact supply_of_readUpTo_of_lt hread hshort
    · simp [hread, hshort] at h

end Pull

namespace CodePointReader

variable {charset : Charset} {count : Nat} {bytes : List UInt8} {kind : ErrorKind} {e : Error}

/-! ### Grounds of errors -/

/-- However the bytes are cut into chunks and whichever strategy the chunks admit, reading `count`
code points of them fails with the error. -/
def FailsOn (charset : Charset) (count : Nat) (bytes : List UInt8) (kind : ErrorKind) : Prop :=
  ∀ (source : Source) (strategy : Strategy) (reader : CodePointReader),
    withStrategy source charset strategy = .ok reader → source.remaining ≤ maxWord →
      source.bytes = bytes → ∃ rest, reader.read count source = .error (.error { kind }) rest

/-- What an error says of the bytes of which `count` code points were to be read. -/
inductive Grounds (charset : Charset) (count : Nat) (bytes : List UInt8) : ErrorKind → Prop
  /-- They are a text that is too short. -/
  | ended {text : String} (hfew : text.toList.length < count)
      (hcode : charset.encode text = .ok bytes) :
      Grounds charset count bytes (.endOfStream "code points" text.toList.length count)
  /-- They are a text that is too short and begin one more character. -/
  | cut {text : String} {code tail : List UInt8} (hfew : text.toList.length < count)
      (hcode : charset.encode text = .ok code) (hbytes : bytes = code ++ tail)
      (htail : tail ≠ []) (hunfinished : charset.IsUnfinished tail) :
      Grounds charset count bytes (.truncated charset)
  /-- The byte at the offset is refused whatever stands behind it; those in front of it are too
  few, and nothing worse. -/
  | refused {offset : Nat} {before : ErrorKind} (hlt : offset < bytes.length)
      (hupto : ∀ more, FailsOn charset count (bytes.take (offset + 1) ++ more)
        (.malformed charset offset))
      (hbefore : FailsOn charset count (bytes.take offset) before)
      (hcut : before = .truncated charset ∨
        ∃ found, before = .endOfStream "code points" found count) :
      Grounds charset count bytes (.malformed charset offset)

theorem failsOn_of_readExactly (h : charset.readExactly count bytes = .error { kind }) :
    FailsOn charset count bytes kind := by
  intro source strategy reader hreader hword hbytes
  obtain ⟨rfl, hsuits⟩ := suits_of_withStrategy hreader
  obtain ⟨rest, hread, -⟩ := read_of_error hsuits hword (hbytes ▸ h)
  exact ⟨rest, hread⟩

theorem readExactly_of_failsOn (hword : bytes.length ≤ maxWord)
    (h : FailsOn charset count bytes kind) :
    charset.readExactly count bytes = .error { kind } := by
  have hbytes : (Source.ofBytes bytes).bytes = bytes := Source.bytes_ofBytes bytes
  have hremaining : (Source.ofBytes bytes).remaining ≤ maxWord := by
    rwa [Source.remaining_eq_length, hbytes]
  have hreader := withStrategy_on (Source.ofBytes bytes) charset
  obtain ⟨rest, hfails⟩ := h _ _ _ hreader hremaining hbytes
  obtain ⟨hcharset, hsuits⟩ := suits_of_withStrategy hreader
  obtain ⟨e, he, hread, -⟩ := readExactly_of_read_error hsuits hremaining hfails
  cases he
  rwa [hcharset, hbytes] at hread

/-- An error of the bytes has its grounds in them. -/
theorem grounds_of_readExactly (h : charset.readExactly count bytes = .error e) :
    e = { kind := e.kind } ∧ Grounds charset count bytes e.kind := by
  obtain ⟨chars, code, tail, hfew, hcode, hbytes, hcomplaint⟩ :=
    Charset.readExactly_eq_error.mp h
  have hlength : (String.ofList chars).toList.length = chars.length := by
    rw [String.toList_ofList]
  have htext : charset.encode (String.ofList chars) = .ok code := by
    rwa [Charset.encode, String.toList_ofList]
  cases hfront : charset.front tail with
  | ended =>
    rw [hfront] at hcomplaint
    obtain rfl := Option.some.inj hcomplaint
    obtain rfl := Charset.eq_nil_of_front_eq_ended hfront
    rw [List.append_nil] at hbytes
    refine ⟨rfl, ?_⟩
    show Grounds charset count bytes (.endOfStream "code points" chars.length count)
    rw [← hlength] at hfew ⊢
    exact .ended hfew (hbytes ▸ htext)
  | truncated =>
    rw [hfront] at hcomplaint
    obtain rfl := Option.some.inj hcomplaint
    refine ⟨rfl, .cut (hlength.symm ▸ hfew) htext hbytes ?_ (Charset.front_eq_truncated.mp hfront)⟩
    rintro rfl
    rw [Charset.front_nil] at hfront
    cases hfront
  | malformed offset =>
    rw [hfront] at hcomplaint
    obtain rfl := Option.some.inj hcomplaint
    obtain ⟨hlt, hupto, before, hbefore, hcut⟩ := Charset.readExactly_of_malformed h
    exact ⟨rfl, .refused hlt (fun more ↦ failsOn_of_readExactly (hupto more))
      (failsOn_of_readExactly hbefore) hcut⟩
  | char c n =>
    rw [hfront] at hcomplaint
    cases hcomplaint

/-- Bytes that give grounds for an error are not read without it. -/
theorem readExactly_of_grounds (hword : bytes.length ≤ maxWord)
    (h : Grounds charset count bytes kind) :
    charset.readExactly count bytes = .error { kind } := by
  cases h with
  | @ended text hfew hcode =>
    refine Charset.readExactly_eq_error.mpr
      ⟨text.toList, bytes, [], hfew, hcode, (List.append_nil bytes).symm, ?_⟩
    rw [Charset.front_nil]
    rfl
  | @cut text code tail hfew hcode hbytes htail hunfinished =>
    refine Charset.readExactly_eq_error.mpr ⟨text.toList, code, tail, hfew, hcode, hbytes, ?_⟩
    rw [Charset.front_eq_truncated.mpr hunfinished]
    rfl
  | @refused offset before hlt hupto hbefore hcut =>
    have hfails := hupto (bytes.drop (offset + 1))
    rw [List.take_append_drop] at hfails
    exact readExactly_of_failsOn hword hfails

/-! ### Main statement -/

variable {source rest : Source} {strategy : Strategy} {reader : CodePointReader}

/-- Taking bytes one after another, a read that fails leaves what its error says. -/
theorem bytes_of_read_error (hstrategy : reader.strategy = .unbuffered)
    (h : reader.read count source = .error (.error e) rest) :
    rest.bytes = e.kind.leftBehind source.bytes := by
  by_cases hzero : count = 0
  · simp [read, hzero] at h
  · simp only [read, if_neg hzero, hstrategy] at h
    cases hpull : Pull.readExactly reader.charset count (Pull.start reader.charset source) with
    | ok chars pull =>
      rw [bind_of_ok (by simp only [readUnbuffered, hpull]; rfl)] at h
      cases h
    | error e' pull =>
      rw [bind_of_error (by simp only [readUnbuffered, hpull]; rfl)] at h
      cases h
      have hlist := Pull.readExactly_inBytes reader.charset count (Pull.start reader.charset source)
      rw [hpull] at hlist
      exact Pull.supply_of_readExactly_error hlist

/-- A read fails exactly where the bytes give grounds for it, and with the one error that they give
grounds for. Taking them one at a time it has then come to their end, or to the byte behind the one
refused; looking at a window it has taken none. -/
theorem read_error_grounds (hreader : withStrategy source charset strategy = .ok reader)
    (hword : source.remaining ≤ maxWord) (count : Nat) :
    (∀ failure rest, reader.read count source = .error failure rest →
      ∃ kind, failure = .error { kind } ∧ Grounds charset count source.bytes kind ∧
        (∀ other, Grounds charset count source.bytes other → other = kind) ∧
        (strategy = .unbuffered → rest.bytes = kind.leftBehind source.bytes) ∧
        (strategy = .buffered → rest = source)) ∧
    ∀ kind, Grounds charset count source.bytes kind →
      ∃ rest, reader.read count source = .error (.error { kind }) rest := by
  obtain ⟨rfl, hsuits⟩ := suits_of_withStrategy hreader
  obtain rfl := strategy_of_withStrategy hreader
  have hlength : source.bytes.length ≤ maxWord := by rwa [← Source.remaining_eq_length]
  constructor
  · intro failure rest h
    obtain ⟨e, rfl, hread, hnothing⟩ := readExactly_of_read_error hsuits hword h
    obtain ⟨he, hgrounds⟩ := grounds_of_readExactly hread
    refine ⟨e.kind, congrArg Failure.error he, hgrounds, fun other hother ↦ ?_,
      fun hstrategy ↦ bytes_of_read_error hstrategy h, hnothing⟩
    have hsame := (readExactly_of_grounds hlength hother).symm.trans hread
    exact congrArg Error.kind (Except.error.inj hsame)
  · intro kind hgrounds
    obtain ⟨rest, hfails, -⟩ :=
      read_of_error hsuits hword (readExactly_of_grounds hlength hgrounds)
    exact ⟨rest, hfails⟩

/-- Behind one character a pair breaks off: the unit that should end it, cut in two by the chunks,
is a letter. The third character is not looked at. -/
theorem read_error_grounds_of_broken_pair :
    let source : Source := ⟨[[0x00, 0x41, 0xD8, 0x3D, 0x00], [0x42, 0x00, 0x43]]⟩
    withStrategy source .utf16be .unbuffered = .ok ⟨.utf16be, .unbuffered⟩ ∧
      source.remaining ≤ maxWord ∧
      ∃ rest, read ⟨.utf16be, .unbuffered⟩ 3 source =
          .error (.error { kind := .malformed .utf16be 5 }) rest ∧
        Grounds .utf16be 3 source.bytes (.malformed .utf16be 5) ∧ rest.bytes = [0x00, 0x43] := by
  intro source
  have hreader : withStrategy source .utf16be .unbuffered = .ok ⟨.utf16be, .unbuffered⟩ := rfl
  have hword : source.remaining ≤ maxWord := by decide
  have hbytes : Charset.utf16be.readExactly 3 source.bytes =
      .error { kind := .malformed .utf16be 5 } := by decide
  obtain ⟨rest, hread, -⟩ := read_of_error (suits_of_withStrategy hreader).2 hword hbytes
  obtain ⟨hfailing, -⟩ := read_error_grounds hreader hword 3
  obtain ⟨kind, hkind, hgrounds, -, hleft, -⟩ := hfailing _ rest hread
  cases hkind
  exact ⟨hreader, hword, rest, hread, hgrounds, hleft rfl⟩

end CodePointReader

end WireFormat
