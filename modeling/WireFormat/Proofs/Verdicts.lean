import WireFormat.Proofs.Charset.Refusals
import WireFormat.Proofs.CountedReading

/-!
# What two decoders of UTF-8 say of bytes that are no text

A whole text is decoded by a parser that checks the second byte of a sequence against the first at
once; counted text by a machine that does so when the sequence is complete. Bytes that are no text
are refused by both, as cut short or as malformed. The parser calls cut short what begins the
encoding of a character (`Utf8.parse_eq_stop_truncated`), the machine what has the shape of such a
beginning (`Utf8.IsUnfinished`). They differ on the bytes that end inside a sequence which can no
more become a character (`Utf8.EndsRuledOut`), and on no others
(`CodePointReader.verdicts_on_invalid`).
-/

set_option autoImplicit false
set_option relaxedAutoImplicit false

namespace WireFormat

/-- The error says that the bytes ended inside a character. -/
def ErrorKind.isTruncated : ErrorKind → Bool
  | .truncated _ => true
  | _ => false

/-- The error says that a byte cannot stand where it does. -/
def ErrorKind.isMalformed : ErrorKind → Bool
  | .malformed _ _ => true
  | _ => false

namespace Utf8

/-! ### Beginnings of characters -/

/-- The bytes are an unfinished sequence, and no character is encoded by them and bytes behind
them: with any others the form would be overlong, a surrogate or too large a value. -/
def IsRuledOut (bytes : List UInt8) : Prop :=
  IsUnfinished bytes ∧ ∀ c : Char, ¬ bytes <+: String.utf8EncodeChar c

/-- Behind a text the bytes end with an unfinished sequence that is ruled out. -/
def EndsRuledOut (bytes : List UInt8) : Prop :=
  ∃ (text : String) (code tail : List UInt8), Charset.utf8.encode text = .ok code ∧
    bytes = code ++ tail ∧ IsRuledOut tail

variable {bytes code tail : List UInt8} {ch : Char} {n length : Nat} {a : UInt8}

/-- Some byte may follow the lead of a sequence of three. -/
theorem exists_isSecondOfThree (a : UInt8) : ∃ b, isSecondOfThree a b = true := by
  by_cases hsurrogate : a.toNat = 0xED
  · exact ⟨0x80, isSecondOfThree_iff.mpr ⟨rfl, by omega, fun _ ↦ by decide⟩⟩
  · exact ⟨0xA0, isSecondOfThree_iff.mpr ⟨rfl, fun _ ↦ by decide, by omega⟩⟩

/-- Some byte may follow the lead of a sequence of four. -/
theorem exists_isSecondOfFour (a : UInt8) : ∃ b, isSecondOfFour a b = true := by
  by_cases hlarge : a.toNat = 0xF4
  · exact ⟨0x80, isSecondOfFour_iff.mpr ⟨rfl, by omega, fun _ ↦ by decide⟩⟩
  · exact ⟨0x90, isSecondOfFour_iff.mpr ⟨rfl, fun _ ↦ by decide, by omega⟩⟩

theorem eq_four_of_sequenceLength? (h : sequenceLength? a = some length) (hone : length ≠ 1)
    (htwo : length ≠ 2) (hthree : length ≠ 3) : length = 4 := by
  rcases sequenceLength?_le_four h with rfl | rfl | rfl | rfl <;> first | contradiction | rfl

/-- Bytes that others complete to the sequence of a character begin its encoding. -/
theorem exists_prefix_of_begins (more : List UInt8) (h : Begins (bytes ++ more) ch n)
    (hn : n = (bytes ++ more).length) : ∃ c, bytes <+: String.utf8EncodeChar c := by
  obtain ⟨rest, hwhole, hlength⟩ := eq_utf8EncodeChar_of_begins h
  have hrest : rest = [] := by
    rw [hn, hwhole, List.length_append] at hlength
    exact List.eq_nil_of_length_eq_zero (by omega)
  rw [hrest, List.append_nil] at hwhole
  exact ⟨ch, more, hwhole⟩

/-- What the parser calls cut short can be completed to a character. -/
theorem exists_prefix_of_parse (h : parse bytes = .stop .truncated) :
    ∃ c, bytes <+: String.utf8EncodeChar c := by
  revert h
  -- A second byte is chosen for the lead where it is missing; the others may be any continuation.
  fun_cases parse bytes with
  | case3 a ha => exact fun _ ↦ exists_prefix_of_begins [0x80] (.two [] ha rfl) rfl
  | case6 a ha =>
    obtain ⟨b, hb⟩ := exists_isSecondOfThree a
    exact fun _ ↦ exists_prefix_of_begins [b, 0x80] (.three [] ha hb rfl) rfl
  | case7 a ha b hb =>
    exact fun _ ↦ exists_prefix_of_begins [0x80] (.three [] ha hb rfl) rfl
  | case11 a length hone htwo hthree ha =>
    obtain rfl := eq_four_of_sequenceLength? ha hone htwo hthree
    obtain ⟨b, hb⟩ := exists_isSecondOfFour a
    exact fun _ ↦ exists_prefix_of_begins [b, 0x80, 0x80] (.four [] ha hb rfl rfl) rfl
  | case12 a length hone htwo hthree ha b hb =>
    obtain rfl := eq_four_of_sequenceLength? ha hone htwo hthree
    exact fun _ ↦ exists_prefix_of_begins [0x80, 0x80] (.four [] ha hb rfl rfl) rfl
  | case13 a length hone htwo hthree ha b hb c hc =>
    obtain rfl := eq_four_of_sequenceLength? ha hone htwo hthree
    exact fun _ ↦ exists_prefix_of_begins [0x80] (.four [] ha hb hc rfl) rfl
  | _ =>
    intro h
    simp [Parse.stop, Parse.cons] at h

/-- What the parser has refused stays refused, whatever stands behind it. -/
theorem parse_append_of_malformed (h : parse bytes = .stop .malformed) (more : List UInt8) :
    parse (bytes ++ more) = .stop .malformed := by
  revert h
  -- The byte refused is in sight in each of these cases, so the bytes behind it are not looked at.
  fun_cases parse bytes with
  | case5 a ha b rest hb | case10 a ha b rest hb =>
    intro _
    rw [List.cons_append, List.cons_append, parse.eq_def]
    simp [ha, hb]
  | case9 a ha b hb c rest hc =>
    intro _
    rw [List.cons_append, List.cons_append, List.cons_append, parse.eq_def]
    simp [ha, hb, hc]
  | case15 a length hone htwo hthree ha b hb c hc d rest hd =>
    obtain rfl := eq_four_of_sequenceLength? ha hone htwo hthree
    intro _
    rw [List.cons_append, List.cons_append, List.cons_append, List.cons_append, parse.eq_def]
    simp [ha, hb, hc, hd]
  | case16 a length hone htwo hthree ha b hb c rest hc =>
    obtain rfl := eq_four_of_sequenceLength? ha hone htwo hthree
    intro _
    rw [List.cons_append, List.cons_append, List.cons_append, parse.eq_def]
    simp [ha, hb, hc]
  | case17 a length hone htwo hthree ha b rest hb =>
    obtain rfl := eq_four_of_sequenceLength? ha hone htwo hthree
    intro _
    rw [List.cons_append, List.cons_append, parse.eq_def]
    simp [ha, hb]
  | case18 a rest ha =>
    intro _
    rw [List.cons_append, parse.eq_def]
    simp [ha]
  | _ =>
    intro h
    simp [Parse.stop, Parse.cons] at h

/-- The parser calls cut short what begins the encoding of a character, and nothing else. -/
theorem parse_eq_stop_truncated : parse bytes = .stop .truncated ↔
    front bytes = .truncated ∧ ∃ c : Char, bytes <+: String.utf8EncodeChar c := by
  constructor
  · intro h
    obtain ⟨c, more, hwhole⟩ := exists_prefix_of_parse h
    have hmore : more ≠ [] := by
      rintro rfl
      have hbegins := begins_utf8EncodeChar c []
      rw [← hwhole, List.append_nil, List.append_nil] at hbegins
      rw [parse_of_begins hbegins] at h
      cases h
    have hcode : Charset.utf8.encodeChar? c = some (bytes ++ more) := congrArg some hwhole.symm
    refine ⟨(Charset.front_of_cut hcode hmore).resolve_left fun hended ↦ ?_, c, more, hwhole⟩
    rw [Charset.eq_nil_of_front_eq_ended hended] at h
    cases h
  · rintro ⟨hfront, c, more, hwhole⟩
    rcases begins_or_parse_eq_stop bytes with ⟨ch, n, hbegins⟩ | ⟨ending, hstop⟩
    · rw [front_of_begins hbegins] at hfront
      cases hfront
    · cases ending with
      | truncated => exact hstop
      | complete =>
        rw [eq_nil_of_parse_eq_stop hstop] at hfront
        cases hfront
      | malformed =>
        have hbegins := begins_utf8EncodeChar c []
        have hrefused := parse_append_of_malformed hstop more
        rw [hwhole, ← List.append_nil (String.utf8EncodeChar c),
          parse_of_begins hbegins] at hrefused
        cases hrefused

/-- Where the machine wants more bytes, the parser wants them too, or has ruled the sequence out. -/
theorem parse_of_unfinished (h : IsUnfinished tail) :
    (¬ IsRuledOut tail ∧ parse tail = .stop .truncated) ∨
      IsRuledOut tail ∧ parse tail = .stop .malformed := by
  have hfront := front_eq_truncated.mpr h
  rcases begins_or_parse_eq_stop tail with ⟨c, n, hbegins⟩ | ⟨ending, hstop⟩
  · rw [front_of_begins hbegins] at hfront
    cases hfront
  · cases ending with
    | complete =>
      rw [eq_nil_of_parse_eq_stop hstop] at hfront
      cases hfront
    | truncated =>
      obtain ⟨c, hprefix⟩ := (parse_eq_stop_truncated.mp hstop).2
      exact Or.inl ⟨fun hruled ↦ hruled.2 c hprefix, hstop⟩
    | malformed =>
      refine Or.inr ⟨⟨h, fun c hprefix ↦ ?_⟩, hstop⟩
      rw [parse_eq_stop_truncated.mpr ⟨hfront, c, hprefix⟩] at hstop
      cases hstop

/-- A sequence is ruled out where the machine waits for its end and the parser does not. -/
theorem isRuledOut_iff :
    IsRuledOut tail ↔ front tail = .truncated ∧ parse tail = .stop .malformed := by
  constructor
  · intro h
    refine ⟨front_eq_truncated.mpr h.1, ?_⟩
    exact ((parse_of_unfinished h.1).resolve_left fun hnot ↦ hnot.1 h).2
  · rintro ⟨hfront, hstop⟩
    refine ((parse_of_unfinished (front_eq_truncated.mp hfront)).resolve_left fun hcut ↦ ?_).1
    rw [hcut.2] at hstop
    cases hstop

instance (tail : List UInt8) : Decidable (IsRuledOut tail) :=
  decidable_of_iff _ isRuledOut_iff.symm

/-- What the machine refuses the parser refuses. -/
theorem parse_of_refused {offset : Nat} (h : front tail = .malformed offset) :
    parse tail = .stop .malformed := by
  rcases begins_or_parse_eq_stop tail with ⟨c, n, hbegins⟩ | ⟨ending, hstop⟩
  · rw [front_of_begins hbegins] at h
    cases h
  · cases ending with
    | complete =>
      rw [eq_nil_of_parse_eq_stop hstop] at h
      cases h
    | truncated =>
      rw [(parse_eq_stop_truncated.mp hstop).1] at h
      cases h
    | malformed => exact hstop

end Utf8

/-! ### Both decoders on the same bytes -/

namespace Charset

variable {chars : List Char} {code tail : List UInt8} {count : Nat}

/-- Behind a text the decoder of whole texts says what the parser says of the bytes there. -/
theorem decode_of_stop {ending : Utf8.Ending} (hcode : utf8.encodeChars chars = .ok code)
    (hstop : Utf8.parse tail = .stop ending) :
    utf8.decode (code ++ tail) =
      match ending with
      | .complete => .ok (String.ofList chars)
      | .truncated => .error { kind := .truncated .utf8 }
      | .malformed => .error { kind := .malformed .utf8 code.length } := by
  have hparse := parse_append_of_encodeChars hcode tail
  rw [hstop] at hparse
  cases ending <;>
    simp [decode, decodeUtf8, hparse, Utf8.Parse.stop, Except.map]

/-- Bytes that cannot be decoded are the encoding of no text. -/
theorem encode_ne_of_decode {charset : Charset} {bytes : List UInt8} {e : Error}
    (h : charset.decode bytes = .error e) (text : String) : charset.encode text ≠ .ok bytes := by
  intro hcode
  rw [decode_of_encode hcode] at h
  cases h

/-- Bytes that are no text are a text with something behind it with which no character begins. -/
theorem exists_text_of_invalid {bytes : List UInt8}
    (hinvalid : ∀ text, utf8.encode text ≠ .ok bytes) (hcount : bytes.length < count) :
    ∃ chars code tail, utf8.encodeChars chars = .ok code ∧ bytes = code ++ tail ∧
      (utf8.front tail = .truncated ∨ ∃ offset, utf8.front tail = .malformed offset) := by
  cases hread : utf8.readExactly count bytes with
  | ok found =>
    obtain ⟨chars, n⟩ := found
    obtain ⟨rfl, code, rest, hcode, rfl, -⟩ := readExactly_eq_ok.mp hread
    have hle := length_le_of_encodeChars hcode
    rw [List.length_append] at hcount
    omega
  | error e =>
    obtain ⟨chars, code, tail, -, hcode, rfl, hcomplaint⟩ := readExactly_eq_error.mp hread
    refine ⟨chars, code, tail, hcode, rfl, ?_⟩
    cases hfront : utf8.front tail with
    | ended =>
      rw [eq_nil_of_front_eq_ended hfront, List.append_nil] at hinvalid
      refine absurd ?_ (hinvalid (String.ofList chars))
      rwa [encode, String.toList_ofList]
    | truncated => exact Or.inl rfl
    | malformed offset => exact Or.inr ⟨offset, rfl⟩
    | char c n =>
      rw [hfront] at hcomplaint
      cases hcomplaint

/-- Asked for more characters than there are bytes, a counted reader complains of what stands behind
the text in front. -/
theorem readExactly_of_stop {e : Error} (hcode : utf8.encodeChars chars = .ok code)
    (hcount : (code ++ tail).length < count)
    (hfront : utf8.complaint? chars.length count code.length (utf8.front tail) = some e) :
    utf8.readExactly count (code ++ tail) = .error e := by
  have hle := length_le_of_encodeChars hcode
  rw [List.length_append] at hcount
  exact readExactly_eq_error.mpr ⟨chars, code, tail, by omega, hcode, rfl, hfront⟩

end Charset

namespace CodePointReader

/-- Both errors say that the bytes ended inside a character, or both that a byte cannot stand where
it does. -/
def Alike (whole single : ErrorKind) : Prop :=
  (whole.isTruncated = true ∧ single.isTruncated = true) ∨
    (whole.isMalformed = true ∧ single.isMalformed = true)

variable {source : Source} {strategy : Strategy} {reader : CodePointReader} {count : Nat}

/-- Bytes that are no UTF-8 are refused as a whole and by a reader of more code points than there
are bytes, of either strategy and for any chunks: both as cut short, or both as malformed, unless
they end with an unfinished sequence that is ruled out. Such bytes are malformed as a whole, and cut
short to the reader, which looks at the second byte of a sequence only when it has the last. -/
theorem verdicts_on_invalid (hreader : withStrategy source .utf8 strategy = .ok reader)
    (hword : source.remaining ≤ maxWord)
    (hinvalid : ∀ text, Charset.utf8.encode text ≠ .ok source.bytes)
    (hcount : source.bytes.length < count) :
    ∃ whole single rest, Charset.utf8.decode source.bytes = .error { kind := whole } ∧
      reader.read count source = .error (.error { kind := single }) rest ∧
      (¬ Utf8.EndsRuledOut source.bytes → Alike whole single) ∧
      (Utf8.EndsRuledOut source.bytes →
        whole.isMalformed = true ∧ single.isTruncated = true ∧ ¬ Alike whole single) := by
  obtain ⟨hcharset, hsuits⟩ := suits_of_withStrategy hreader
  have hfails {single : ErrorKind}
      (h : Charset.utf8.readExactly count source.bytes = .error { kind := single }) :
      ∃ rest, reader.read count source = .error (.error { kind := single }) rest := by
    obtain ⟨rest, hread, -⟩ := read_of_error hsuits hword (hcharset.symm ▸ h)
    exact ⟨rest, hread⟩
  by_cases hruled : Utf8.EndsRuledOut source.bytes
  · obtain ⟨text, code, tail, hcode, hbytes, htail⟩ := hruled
    obtain ⟨hfront, hstop⟩ := Utf8.isRuledOut_iff.mp htail
    have hfront : Charset.utf8.front tail = .truncated := hfront
    rw [hbytes] at hcount hfails ⊢
    obtain ⟨rest, hread⟩ :=
      hfails (Charset.readExactly_of_stop hcode hcount (by rw [hfront]; rfl))
    refine ⟨_, _, rest, Charset.decode_of_stop hcode hstop, hread, ?_, fun _ ↦ ⟨rfl, rfl, ?_⟩⟩
    · exact fun hnot ↦ absurd ⟨text, code, tail, hcode, rfl, htail⟩ hnot
    · simp [Alike, ErrorKind.isTruncated, ErrorKind.isMalformed]
  · obtain ⟨chars, code, tail, hcode, hbytes, hfront⟩ :=
      Charset.exists_text_of_invalid hinvalid hcount
    rw [hbytes] at hcount hfails hruled ⊢
    rcases hfront with hfront | ⟨offset, hfront⟩
    · have hunfinished := Utf8.front_eq_truncated.mp hfront
      have hnot : ¬ Utf8.IsRuledOut tail := fun htail ↦
        hruled ⟨String.ofList chars, code, tail, by rwa [Charset.encode, String.toList_ofList], rfl,
          htail⟩
      have hstop := ((Utf8.parse_of_unfinished hunfinished).resolve_right fun h ↦ hnot h.1).2
      obtain ⟨rest, hread⟩ :=
        hfails (Charset.readExactly_of_stop hcode hcount (by rw [hfront]; rfl))
      exact ⟨_, _, rest, Charset.decode_of_stop hcode hstop, hread, fun _ ↦ Or.inl ⟨rfl, rfl⟩,
        fun h ↦ absurd h hruled⟩
    · have hstop := Utf8.parse_of_refused hfront
      obtain ⟨rest, hread⟩ :=
        hfails (Charset.readExactly_of_stop hcode hcount (by rw [hfront]; rfl))
      exact ⟨_, _, rest, Charset.decode_of_stop hcode hstop, hread, fun _ ↦ Or.inr ⟨rfl, rfl⟩,
        fun h ↦ absurd h hruled⟩

/-- A letter, and half of a surrogate pair cut in front of its last byte, in two chunks: no text has
such bytes, so that the two verdicts differ. -/
theorem verdicts_on_cut_surrogate :
    let source : Source := ⟨[[0x41, 0xED], [0xA0]]⟩
    withStrategy source .utf8 .unbuffered = .ok ⟨.utf8, .unbuffered⟩ ∧
      source.remaining ≤ maxWord ∧ (∀ text, Charset.utf8.encode text ≠ .ok source.bytes) ∧
      source.bytes.length < 4 ∧ Utf8.EndsRuledOut source.bytes ∧
      ∃ whole single rest, Charset.utf8.decode source.bytes = .error { kind := whole } ∧
        read ⟨.utf8, .unbuffered⟩ 4 source = .error (.error { kind := single }) rest ∧
        whole.isMalformed = true ∧ single.isTruncated = true := by
  intro source
  have hreader : withStrategy source .utf8 .unbuffered = .ok ⟨.utf8, .unbuffered⟩ := rfl
  have hword : source.remaining ≤ maxWord := by decide
  have hinvalid : ∀ text, Charset.utf8.encode text ≠ .ok source.bytes :=
    Charset.encode_ne_of_decode (e := { kind := .malformed .utf8 1 }) rfl
  have hruled : Utf8.EndsRuledOut source.bytes :=
    ⟨"A", [0x41], [0xED, 0xA0], by decide, rfl, by decide⟩
  have hcount : source.bytes.length < 4 := by decide
  obtain ⟨whole, single, rest, hwhole, hsingle, -, hdiffer⟩ :=
    verdicts_on_invalid hreader hword hinvalid hcount
  obtain ⟨hmalformed, htruncated, -⟩ := hdiffer hruled
  exact ⟨hreader, hword, hinvalid, hcount, hruled, whole, single, rest, hwhole, hsingle,
    hmalformed, htruncated⟩

/-- The first two bytes of an overlong form of three: malformed as a whole, cut short when read code
point by code point. -/
theorem verdicts_differ_on_overlong :
    let source := Source.ofBytes [0xE0, 0x80]
    withStrategy source .utf8 .buffered = .ok ⟨.utf8, .buffered⟩ ∧
      (∀ text, Charset.utf8.encode text ≠ .ok source.bytes) ∧ source.bytes.length < 3 ∧
      Charset.utf8.decode source.bytes = .error { kind := .malformed .utf8 0 } ∧
      read ⟨.utf8, .buffered⟩ 3 source = .error (.error { kind := .truncated .utf8 }) source ∧
      ¬ Alike (.malformed .utf8 0) (.truncated .utf8) := by
  intro source
  have hreader : withStrategy source .utf8 .buffered = .ok ⟨.utf8, .buffered⟩ := rfl
  have hdecode : Charset.utf8.decode source.bytes = .error { kind := .malformed .utf8 0 } := rfl
  have hbytes : Charset.utf8.readExactly 3 source.bytes =
      .error { kind := .truncated .utf8 } := by decide
  obtain ⟨rest, hread, hnothing⟩ :=
    read_of_error (suits_of_withStrategy hreader).2 (by decide) hbytes
  rw [hnothing rfl] at hread
  refine ⟨hreader, Charset.encode_ne_of_decode hdecode, by decide, hdecode, hread, ?_⟩
  simp [Alike, ErrorKind.isTruncated, ErrorKind.isMalformed]

end CodePointReader

end WireFormat
