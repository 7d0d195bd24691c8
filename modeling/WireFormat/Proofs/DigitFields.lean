import WireFormat.Codec.Counted
import WireFormat.Proofs.Recoding
import WireFormat.Proofs.RoundTrip

/-!
# Fields of packed digits

A string has bytes exactly if it consists of as many digits as the field has
(`PackedDigits.exists_wire?_iff`), and these bytes are read back as the string in upper case
(`PackedDigits.decode_toUpper`). Bytes are read as digits exactly if every nibble but the padding is
the value of one (`PackedDigits.exists_decode_iff`), and what is written for these digits are the
same bytes with the configured padding (`PackedDigits.wire?_of_decode`). Digits behind their number
are a field of that many digits behind the bytes of the number
(`Codec.encode_countedDigits_eq_ok_iff`, `Codec.decode_countedDigits_eq_ok_iff`).
-/

set_option autoImplicit false
set_option relaxedAutoImplicit false

namespace WireFormat

namespace Alphabet

variable {alphabet : Alphabet} {c : Char} {value : Nat}

/-- The digits of the alphabet: the decimal ones, and for hexadecimal numbers the first six letters
as well, in either case. -/
def isDigit : Alphabet → Char → Bool
  | .decimal, c => c.isDigit
  | .hex, c => c.isDigit || ('A' ≤ c && c ≤ 'F') || ('a' ≤ c && c ≤ 'f')

theorem isDigit_decimal : decimal.isDigit c = true ↔ 48 ≤ c.toNat ∧ c.toNat ≤ 57 := by
  simp only [isDigit, Char.isDigit, Bool.and_eq_true, decide_eq_true_eq]
  exact Iff.rfl

theorem isDigit_hex : hex.isDigit c = true ↔ (48 ≤ c.toNat ∧ c.toNat ≤ 57) ∨
    (65 ≤ c.toNat ∧ c.toNat ≤ 70) ∨ (97 ≤ c.toNat ∧ c.toNat ≤ 102) := by
  simp only [isDigit, Char.isDigit, Bool.and_eq_true, Bool.or_eq_true, decide_eq_true_eq, or_assoc]
  exact Iff.rfl

/-- A character is a digit exactly if it has a value. -/
theorem isDigit_iff : alphabet.isDigit c = true ↔ ∃ value, alphabet.value? c = some value := by
  simp only [value?_eq_some_iff, hexValue?_eq_some_iff]
  cases alphabet with
  | decimal =>
    rw [isDigit_decimal]
    simp only [radix]
    constructor
    · intro h
      exact ⟨c.toNat - 48, by omega⟩
    · rintro ⟨value, h⟩
      omega
  | hex =>
    rw [isDigit_hex]
    simp only [radix]
    constructor
    · rintro (h | h | h)
      · exact ⟨c.toNat - 48, by omega⟩
      · exact ⟨c.toNat - 55, by omega⟩
      · exact ⟨c.toNat - 87, by omega⟩
    · rintro ⟨value, h⟩
      omega

theorem isLower_toUpper (c : Char) : isLower c.toUpper = false := by
  have hlower := Char.isLower_toUpper_eq_false c
  simp only [Char.isLower, Bool.and_eq_false_iff, decide_eq_false_iff_not] at hlower
  have hrange : ¬ 97 ≤ c.toUpper.toNat ∨ ¬ c.toUpper.toNat ≤ 122 := hlower
  rw [isLower, Bool.and_eq_false_iff, decide_eq_false_iff_not, decide_eq_false_iff_not]
  omega

/-- A letter has the same value in upper case. -/
theorem value?_toUpper (h : alphabet.value? c = some value) :
    alphabet.value? c.toUpper = some value := by
  by_cases hlower : c.isLower = true
  · obtain ⟨hhex, hradix⟩ := value?_eq_some_iff.mp h
    have hvalue := hexValue?_eq_some_iff.mp hhex
    have hrange : 97 ≤ c.toNat ∧ c.toNat ≤ 122 := by
      simp only [Char.isLower, Bool.and_eq_true, decide_eq_true_eq] at hlower
      exact hlower
    have hupper : (Char.ofNat (c.toNat - 32)).toNat = c.toNat - 32 :=
      toNat_ofNat_of_isValidChar (Or.inl (by omega))
    refine value?_eq_some_iff.mpr ⟨?_, hradix⟩
    rw [Char.toUpper_eq_of_isLower hlower, hexValue?_eq_some_iff, hupper]
    omega
  · rwa [Char.toUpper_eq_of_not_isLower hlower]

theorem exists_digit?_iff : (∃ c, alphabet.digit? value = some c) ↔ value < alphabet.radix := by
  unfold digit?
  by_cases hradix : value < alphabet.radix
  · simp [hradix]
  · simp [hradix]

end Alphabet

namespace PackedDigits

variable {format : PackedDigits} {text : String} {chars : List Char} {values nibbles : List Nat}
  {position : Nat} {code field rest : List UInt8} {source last : Source} {sink : Sink}

/-! ### Strings of digits -/

/-- The string has as many characters as the field has digits, and all are digits. -/
def IsText (format : PackedDigits) (text : String) : Prop :=
  text.toList.length = format.digits ∧ ∀ c ∈ text.toList, format.alphabet.isDigit c = true

theorem exists_values_iff :
    (∃ values, format.values chars = .ok values) ↔
      ∀ c ∈ chars, format.alphabet.isDigit c = true := by
  induction chars with
  | nil => simp [PackedDigits.values]
  | cons c chars ih =>
    rw [List.forall_mem_cons, Alphabet.isDigit_iff, ← ih]
    constructor
    · rintro ⟨values, hvalues⟩
      obtain ⟨first, others, hfirst, hothers, -⟩ := values_cons_eq_ok.mp hvalues
      exact ⟨⟨first, hfirst⟩, others, hothers⟩
    · rintro ⟨⟨first, hfirst⟩, others, hothers⟩
      exact ⟨first :: others, values_cons_eq_ok.mpr ⟨first, others, hfirst, hothers, rfl⟩⟩

/-- A string has bytes exactly if it is one of digits. -/
theorem exists_wire?_iff : (∃ code, format.wire? text = some code) ↔ format.IsText text := by
  simp only [wire?_eq_some, IsText, ← exists_values_iff]
  constructor
  · rintro ⟨code, hlength, values, hvalues, -⟩
    exact ⟨hlength, values, hvalues⟩
  · rintro ⟨hlength, values, hvalues⟩
    exact ⟨_, hlength, values, hvalues, rfl⟩

theorem exists_encode_iff :
    (∃ written after, format.encode text sink = .ok written after) ↔
      format.IsText text ∧ format.byteLength ≤ sink.room := by
  simp only [encode_eq_ok_iff, ← exists_wire?_iff]
  constructor
  · rintro ⟨written, after, code, hwire, hroom, -⟩
    exact ⟨⟨code, hwire⟩, length_wire? hwire ▸ hroom⟩
  · rintro ⟨⟨code, hwire⟩, hroom⟩
    exact ⟨_, _, code, hwire, (length_wire? hwire).le.trans hroom, rfl, rfl⟩

theorem values_toUpper (h : format.values chars = .ok values) :
    format.values (chars.map Char.toUpper) = .ok values := by
  induction chars generalizing values with
  | nil => exact h
  | cons c chars ih =>
    obtain ⟨first, others, hfirst, hothers, rfl⟩ := values_cons_eq_ok.mp h
    exact values_cons_eq_ok.mpr
      ⟨first, others, Alphabet.value?_toUpper hfirst, ih hothers, rfl⟩

/-- In upper case a string has the same bytes. -/
theorem wire?_toUpper (h : format.wire? text = some code) :
    format.wire? text.toUpper = some code := by
  obtain ⟨hlength, values, hvalues, rfl⟩ := wire?_eq_some.mp h
  refine wire?_eq_some.mpr ⟨?_, values, ?_, rfl⟩
  · rw [String.toUpper, String.toList_map, List.length_map, hlength]
  · rw [String.toUpper, String.toList_map, values_toUpper hvalues]

/-- The bytes of a string are read as that string in upper case. -/
theorem decode_toUpper (h : format.wire? text = some code) (hbytes : source.bytes = code ++ rest) :
    ∃ last, format.decode source = .ok text.toUpper last ∧ last.bytes = rest := by
  refine decode_wire? (wire?_toUpper h) (fun c hc ↦ ?_) hbytes
  rw [String.toUpper, String.toList_map] at hc
  obtain ⟨found, -, rfl⟩ := List.mem_map.mp hc
  exact Alphabet.isLower_toUpper found

/-! ### Fields -/

/-- Every nibble of the field but the padding is the value of a digit. -/
def IsField (format : PackedDigits) (field : List UInt8) : Prop :=
  ∀ index nibble, (unpack field)[index]? = some nibble → format.padIndex? ≠ some index →
    nibble < format.alphabet.radix

/-- The field with the configured padding. -/
def repad (format : PackedDigits) (field : List UInt8) : List UInt8 :=
  pack (format.withPad (unpack field))

/-- Every nibble but the padding is the value of a digit, the first one standing at `position`. -/
def HasDigitsFrom (format : PackedDigits) (position : Nat) (nibbles : List Nat) : Prop :=
  ∀ index nibble, nibbles[index]? = some nibble →
    format.padIndex? ≠ some (position + index) → nibble < format.alphabet.radix

theorem hasDigitsFrom_cons {first : Nat} {others : List Nat} :
    format.HasDigitsFrom position (first :: others) ↔
      (format.padIndex? ≠ some position → first < format.alphabet.radix) ∧
        format.HasDigitsFrom (position + 1) others := by
  constructor
  · intro h
    refine ⟨h 0 first rfl, fun index nibble hnibble hpad ↦ h (index + 1) nibble hnibble ?_⟩
    rwa [Nat.add_comm index, ← Nat.add_assoc]
  · rintro ⟨hfirst, hothers⟩ index nibble hnibble hpad
    cases index with
    | zero =>
      obtain rfl := Option.some.inj hnibble
      exact hfirst hpad
    | succ index =>
      rw [Nat.add_comm index, ← Nat.add_assoc] at hpad
      exact hothers index nibble hnibble hpad

theorem exists_digitsFrom_iff :
    (∃ chars, format.digitsFrom position nibbles = some chars) ↔
      format.HasDigitsFrom position nibbles := by
  induction nibbles generalizing position with
  | nil => simp [digitsFrom, HasDigitsFrom]
  | cons first others ih =>
    rw [hasDigitsFrom_cons, ← ih, digitsFrom]
    by_cases hpad : format.padIndex? = some position
    · simp [hpad]
    · rw [if_neg hpad, ← Alphabet.exists_digit?_iff]
      simp only [Option.bind_eq_bind, Option.bind_eq_some_iff]
      constructor
      · rintro ⟨chars, c, hc, rest, hrest, -⟩
        exact ⟨fun _ ↦ ⟨c, hc⟩, rest, hrest⟩
      · rintro ⟨hfirst, rest, hrest⟩
        obtain ⟨c, hc⟩ := hfirst hpad
        exact ⟨_, c, hc, rest, hrest, rfl⟩

/-- The digits that were read are those of the field in front. -/
theorem digitsFrom_of_decode (hlength : field.length = format.byteLength)
    (hbytes : source.bytes = field ++ rest) (h : format.decode source = .ok text last) :
    last.bytes = rest ∧
      ∃ chars, format.digitsFrom 0 (unpack field) = some chars ∧ text = String.ofList chars := by
  obtain ⟨found, hfound, hsplit, hchars⟩ := decode_eq_ok h
  obtain ⟨rfl, rfl⟩ := List.append_inj (hbytes.symm.trans hsplit) (hlength.trans hfound.symm)
  exact ⟨rfl, hchars⟩

/-- A field is read exactly if its nibbles are those of digits. -/
theorem exists_decode_iff (hlength : field.length = format.byteLength)
    (hbytes : source.bytes = field ++ rest) :
    (∃ text last, format.decode source = .ok text last) ↔ format.IsField field := by
  have hdigits : (∃ chars, format.digitsFrom 0 (unpack field) = some chars) ↔
      format.IsField field := by
    simp only [exists_digitsFrom_iff, HasDigitsFrom, Nat.zero_add, IsField]
  rw [← hdigits]
  constructor
  · rintro ⟨text, last, h⟩
    obtain ⟨-, chars, hchars, -⟩ := digitsFrom_of_decode hlength hbytes h
    exact ⟨chars, hchars⟩
  · rintro ⟨chars, hchars⟩
    obtain ⟨last, hread, -⟩ := decode_of_digitsFrom hchars hlength hbytes
    exact ⟨_, last, hread⟩

/-- What was read from a field is written as that field, with the configured padding. -/
theorem wire?_of_decode (hlength : field.length = format.byteLength)
    (hbytes : source.bytes = field ++ rest) (h : format.decode source = .ok text last) :
    last.bytes = rest ∧ format.wire? text = some (format.repad field) := by
  obtain ⟨hrest, chars, hchars, rfl⟩ := digitsFrom_of_decode hlength hbytes h
  exact ⟨hrest, wire?_of_digitsFrom hlength hchars⟩

/-- Strings and fields are taken for each other, but for the case of letters and the padding. -/
structure Faithful (format : PackedDigits) : Prop where
  /-- A string is written exactly if it is one of digits and there is room for them. -/
  encodes : ∀ text sink, (∃ written after, format.encode text sink = .ok written after) ↔
    format.IsText text ∧ format.byteLength ≤ sink.room
  /-- What is written is as long as the field, and read as the string in upper case. -/
  readsBack : ∀ text sink written after, format.encode text sink = .ok written after →
    ∃ code, code.length = format.byteLength ∧ written = ⟨format.digits, format.byteLength⟩ ∧
      after = sink.extend code ∧ ∀ (source : Source) (rest : List UInt8),
        source.bytes = code ++ rest →
        ∃ last, format.decode source = .ok text.toUpper last ∧ last.bytes = rest
  /-- Bytes are read exactly if they are a field, whatever follows them. -/
  decodes : ∀ (source : Source) (field rest : List UInt8), field.length = format.byteLength →
    source.bytes = field ++ rest →
    ((∃ text last, format.decode source = .ok text last) ↔ format.IsField field)
  /-- What is read leaves what follows, and is written as the field with the configured padding. -/
  writesBack : ∀ (source last : Source) (field rest : List UInt8) text,
    field.length = format.byteLength → source.bytes = field ++ rest →
    format.decode source = .ok text last → last.bytes = rest ∧
      ∀ sink : Sink, format.byteLength ≤ sink.room → format.encode text sink =
        .ok ⟨format.digits, format.byteLength⟩ (sink.extend (format.repad field))

theorem length_repad (hlength : field.length = format.byteLength) :
    (format.repad field).length = format.byteLength := by
  have hnibbles : (format.withPad (unpack field)).length = (unpack field).length := by
    unfold withPad
    cases format.padIndex? with
    | none => rfl
    | some index => exact List.length_set
  rw [repad, length_pack, hnibbles, length_unpack, hlength]
  omega

theorem faithful (format : PackedDigits) : format.Faithful where
  encodes _ _ := exists_encode_iff
  readsBack := by
    intro text sink written after h
    obtain ⟨code, hwire, -, rfl, rfl⟩ := encode_eq_ok_iff.mp h
    have hlength := length_wire? hwire
    exact ⟨code, hlength, by rw [hlength], rfl, fun source rest ↦ decode_toUpper hwire⟩
  decodes _ _ _ := exists_decode_iff
  writesBack := by
    intro source last field rest text hlength hbytes h
    obtain ⟨hrest, hwire⟩ := wire?_of_decode hlength hbytes h
    have hcode := length_repad hlength
    refine ⟨hrest, fun sink hroom ↦ encode_eq_ok_iff.mpr ⟨_, hwire, hcode.le.trans hroom, ?_, rfl⟩⟩
    rw [hcode]

end PackedDigits

/-! ### Digits behind their number -/

namespace Codec

variable {S : Signature} {definitions : Definitions S} {depth : Nat} {length : Codec S Nat}
  {range : LengthRange} {format : PackedDigits} {text : String}

/-- Digits are written behind their number where that is in the range and can be written. -/
theorem encode_countedDigits_eq_ok_iff {stage after : Stage Sink} {written : Written} :
    (countedDigits length range format).encode definitions depth text stage = .ok written after ↔
      range.contains text.toList.length = true ∧ ∃ lead middle inner,
        length.encode definitions depth text.toList.length stage = .ok lead middle ∧
        (format.withDigits text.toList.length).encode text middle.stream =
          .ok inner after.stream ∧
        after.cells = middle.cells ∧
        written = ⟨text.toList.length, lead.bytes + inner.bytes⟩ := by
  constructor
  · intro h
    obtain ⟨n, start, hrun, h⟩ := bind_eq_ok.mp h
    obtain ⟨hcheck, rfl⟩ := ofExcept_eq_ok.mp hrun
    obtain ⟨hrange, rfl⟩ := LengthRange.check_eq_ok.mp hcheck
    obtain ⟨lead, middle, hlead, h⟩ := bind_eq_ok.mp h
    obtain ⟨inner, last, hinner, h⟩ := bind_eq_ok.mp h
    obtain ⟨hinner, hcells⟩ := Stage.onStream_eq_ok.mp hinner
    obtain ⟨rfl, rfl⟩ := pure_eq_ok.mp h
    exact ⟨hrange, lead, middle, inner, hlead, hinner, hcells, rfl⟩
  · rintro ⟨hrange, lead, middle, inner, hlead, hinner, hcells, rfl⟩
    refine bind_eq_ok.mpr ⟨_, stage, ofExcept_eq_ok.mpr
      ⟨LengthRange.check_eq_ok.mpr ⟨hrange, rfl⟩, rfl⟩, ?_⟩
    refine bind_eq_ok.mpr ⟨lead, middle, hlead, bind_eq_ok.mpr ⟨inner, after, ?_, rfl⟩⟩
    exact Stage.onStream_eq_ok.mpr ⟨hinner, hcells⟩

/-- Digits are read behind their number where that is read and in the range. -/
theorem decode_countedDigits_eq_ok_iff {source after : Stage Source} :
    (countedDigits length range format).decode definitions depth source = .ok text after ↔
      ∃ n middle, length.decode definitions depth source = .ok n middle ∧
        range.contains n = true ∧
        (format.withDigits n).decode middle.stream = .ok text after.stream ∧
        after.cells = middle.cells := by
  constructor
  · intro h
    obtain ⟨n, middle, hlead, hrange, h⟩ := Decoding.counted_eq_ok h
    obtain ⟨hdigits, hcells⟩ := Stage.onStream_eq_ok.mp h
    exact ⟨n, middle, hlead, hrange, hdigits, hcells⟩
  · rintro ⟨n, middle, hlead, hrange, hdigits, hcells⟩
    refine bind_eq_ok.mpr ⟨n, middle, hlead, bind_eq_ok.mpr ⟨n, middle, ?_, ?_⟩⟩
    · exact ofExcept_eq_ok.mpr ⟨LengthRange.check_eq_ok.mpr ⟨hrange, rfl⟩, rfl⟩
    · exact Stage.onStream_eq_ok.mpr ⟨hdigits, hcells⟩

/-- Digits behind their number are taken for each other with the fields that the number announces,
as `format` does it for a fixed number. The number has to be in the range. -/
structure FaithfulBehindNumber (length : Codec S Nat) (range : LengthRange)
    (format : PackedDigits) (definitions : Definitions S) (depth : Nat) : Prop where
  /-- A string is written exactly if it consists of digits, their number can be written, and there
  is room behind it. -/
  encodes : ∀ (text : String) (stage : Stage Sink),
    (∃ written after, (countedDigits length range format).encode definitions depth text stage =
      .ok written after) ↔
    range.contains text.toList.length = true ∧
      (∀ c ∈ text.toList, format.alphabet.isDigit c = true) ∧
      ∃ lead middle, length.encode definitions depth text.toList.length stage = .ok lead middle ∧
        (format.withDigits text.toList.length).byteLength ≤ middle.stream.room
  /-- Where numbers are read back, so is what is written, as the string in upper case. -/
  readsBack : ∀ (text : String) (stage after : Stage Sink) (written : Written),
    (countedDigits length range format).encode definitions depth text stage =
      .ok written after →
    ∃ lead code, length.Encodes definitions depth text.toList.length lead ∧
      code.length = (format.withDigits text.toList.length).byteLength ∧
      written = ⟨text.toList.length, (lead ++ code).length⟩ ∧
      after.stream = stage.stream.extend (lead ++ code) ∧
      (length.RoundTrips definitions depth → ∀ (source : Stage Source) (rest : List UInt8),
        source.stream.bytes = lead ++ code ++ rest → source.stream.remaining ≤ maxWord →
        ∃ last, (countedDigits length range format).decode definitions depth source =
          .ok text.toUpper last ∧ last.stream.bytes = rest)
  /-- Behind a number, bytes are read exactly if they are a field of that many digits. -/
  decodes : ∀ (source middle : Stage Source) (n : Nat) (field rest : List UInt8),
    length.decode definitions depth source = .ok n middle →
    field.length = (format.withDigits n).byteLength → middle.stream.bytes = field ++ rest →
    ((∃ text last, (countedDigits length range format).decode definitions depth source =
      .ok text last) ↔ range.contains n = true ∧ (format.withDigits n).IsField field)
  /-- What is read leaves what follows, and is written behind the same number as the field with the
  configured padding. -/
  writesBack : ∀ (source middle last : Stage Source) (n : Nat) (field rest : List UInt8) text,
    length.decode definitions depth source = .ok n middle →
    field.length = (format.withDigits n).byteLength → middle.stream.bytes = field ++ rest →
    (countedDigits length range format).decode definitions depth source = .ok text last →
    last.stream.bytes = rest ∧ text.toList.length = n ∧
      ∀ (stage behind : Stage Sink) lead,
        length.encode definitions depth n stage = .ok lead behind →
        (format.withDigits n).byteLength ≤ behind.stream.room →
        ∃ after, (countedDigits length range format).encode definitions depth text stage =
          .ok ⟨n, lead.bytes + (format.withDigits n).byteLength⟩ after ∧
          after.stream = behind.stream.extend ((format.withDigits n).repad field)

theorem faithfulBehindNumber (length : Codec S Nat) (range : LengthRange) (format : PackedDigits)
    (definitions : Definitions S) (depth : Nat) :
    FaithfulBehindNumber length range format definitions depth where
  encodes := by
    intro text stage
    constructor
    · rintro ⟨written, after, h⟩
      obtain ⟨hrange, lead, middle, inner, hlead, hinner, -⟩ :=
        encode_countedDigits_eq_ok_iff.mp h
      obtain ⟨⟨-, hdigits⟩, hroom⟩ := PackedDigits.exists_encode_iff.mp ⟨_, _, hinner⟩
      exact ⟨hrange, hdigits, lead, middle, hlead, hroom⟩
    · rintro ⟨hrange, hdigits, lead, middle, hlead, hroom⟩
      -- The number of characters is the one asked for, since it is counted first.
      have htext : (format.withDigits text.toList.length).IsText text := ⟨rfl, hdigits⟩
      obtain ⟨inner, stream, hinner⟩ := PackedDigits.exists_encode_iff.mpr ⟨htext, hroom⟩
      exact ⟨_, ⟨stream, middle.cells⟩, encode_countedDigits_eq_ok_iff.mpr
        ⟨hrange, lead, middle, inner, hlead, hinner, rfl, rfl⟩⟩
  readsBack := by
    intro text stage after written h
    obtain ⟨hrange, count, middle, inner, hlead, hinner, -, rfl⟩ :=
      encode_countedDigits_eq_ok_iff.mp h
    obtain ⟨lead, hencodes, hmiddle, hcount⟩ := encodes_of_ok hlead
    obtain ⟨code, hwire, -, rfl, hafter⟩ := PackedDigits.encode_eq_ok_iff.mp hinner
    refine ⟨lead, code, hencodes, PackedDigits.length_wire? hwire, ?_, ?_, ?_⟩
    · rw [hcount, List.length_append]
    · rw [hafter, hmiddle, Sink.extend_extend]
    · intro hlength source rest hbytes hword
      rw [List.append_assoc] at hbytes
      obtain ⟨front, hnumber, hfront⟩ := hlength _ lead hencodes source _ hbytes hword
      obtain ⟨last, hread, hrest⟩ := PackedDigits.decode_toUpper hwire hfront
      exact ⟨⟨last, front.cells⟩, decode_countedDigits_eq_ok_iff.mpr
        ⟨_, front, hnumber, hrange, hread, rfl⟩, hrest⟩
  decodes := by
    intro source middle n field rest hlead hlength hbytes
    rw [← PackedDigits.exists_decode_iff hlength hbytes]
    constructor
    · rintro ⟨text, last, h⟩
      obtain ⟨found, behind, hfound, hrange, hdigits, -⟩ := decode_countedDigits_eq_ok_iff.mp h
      rw [hlead] at hfound
      cases hfound
      exact ⟨hrange, text, _, hdigits⟩
    · rintro ⟨hrange, text, last, hdigits⟩
      exact ⟨text, ⟨last, middle.cells⟩, decode_countedDigits_eq_ok_iff.mpr
        ⟨n, middle, hlead, hrange, hdigits, rfl⟩⟩
  writesBack := by
    intro source middle last n field rest text hlead hlength hbytes h
    obtain ⟨found, behind, hfound, hrange, hdigits, -⟩ := decode_countedDigits_eq_ok_iff.mp h
    rw [hlead] at hfound
    cases hfound
    obtain ⟨hrest, hwire⟩ := PackedDigits.wire?_of_decode hlength hbytes hdigits
    -- What was read has as many characters as was announced, so that the same number is written.
    obtain rfl : text.toList.length = n := (PackedDigits.wire?_eq_some.mp hwire).1
    have hcode := PackedDigits.length_repad hlength
    refine ⟨hrest, rfl, fun stage behind lead hnumber hroom ↦ ?_⟩
    have hinner := PackedDigits.encode_eq_ok_iff.mpr
      ⟨_, hwire, hcode.le.trans hroom, rfl, rfl⟩
    rw [hcode] at hinner
    exact ⟨⟨_, behind.cells⟩, encode_countedDigits_eq_ok_iff.mpr
      ⟨hrange, lead, behind, _, hnumber, hinner, rfl, rfl⟩, rfl⟩

/-! ### Main statement -/

/-- For any number of digits, either alphabet and any padding: exactly the strings of as many digits
are written, and read back in upper case; exactly the bytes whose nibbles but the padding are values
of digits are read, and written back with the configured padding. Behind their number the same holds
of as many digits as the number says. -/
theorem recodes_digits (format : PackedDigits) (length : Codec S Nat) (range : LengthRange)
    (definitions : Definitions S) (depth : Nat) :
    format.Faithful ∧ FaithfulBehindNumber length range format definitions depth :=
  ⟨format.faithful, faithfulBehindNumber length range format definitions depth⟩

/-- Three hexadecimal digits in mixed case, with a padding of ones behind them, are read in upper
case, also behind their number. With another padding they are read as well, and written with that of
ones. -/
theorem recodes_digits_of_three :
    let format : PackedDigits := ⟨.hex, 3, .afterDigits, 15⟩
    let length : Codec Signature.empty Nat := .leaf (.length .u8)
    let codec : Codec Signature.empty String := countedDigits length .unbounded format
    let definitions : Definitions Signature.empty := nofun
    (∃ last, format.decode ⟨[[0xAB], [0xCF, 0x2A]]⟩ = .ok "ABC" last ∧ last.bytes = [0x2A]) ∧
    (∃ text last, format.decode ⟨[[0xAB], [0xC3, 0x2A]]⟩ = .ok text last ∧
      last.bytes = [0x2A] ∧
      format.encode text (Sink.slice 2) = .ok ⟨3, 2⟩ ⟨[0xAB, 0xCF], 2⟩) ∧
    length.RoundTrips definitions 0 ∧
    ∃ last, codec.decode definitions 0 ⟨⟨[[0x03, 0xAB], [0xCF, 0x2A]]⟩, Cells.fresh⟩ =
      .ok "ABC" last ∧ last.stream.bytes = [0x2A] := by
  intro format length codec definitions
  obtain ⟨hfixed, hcounted⟩ := recodes_digits format length .unbounded definitions 0
  have hupper : "aBc".toUpper = "ABC" := by cbv
  have hwritten : format.encode "aBc" (Sink.slice 2) = .ok ⟨3, 2⟩ ⟨[0xAB, 0xCF], 2⟩ := by decide
  have htwo : format.byteLength = 2 := by decide
  have hrepad : format.repad [0xAB, 0xC3] = [0xAB, 0xCF] := by decide
  have hround : length.RoundTrips definitions 0 :=
    roundTrips_of_delimits trivial (fun _ ↦ trivial) fun _ ↦ trivial
  refine ⟨?_, ?_, hround, ?_⟩
  · obtain ⟨code, -, -, hcode, hread⟩ := hfixed.readsBack _ _ _ _ hwritten
    obtain rfl : [0xAB, 0xCF] = code := congrArg Sink.written hcode
    rw [hupper] at hread
    exact hread ⟨[[0xAB], [0xCF, 0x2A]]⟩ [0x2A] rfl
  · have hfield : format.IsField [0xAB, 0xC3] := fun index nibble hnibble _ ↦
      PackedDigits.lt_of_mem_unpack (List.mem_of_getElem? hnibble)
    obtain ⟨text, last, hread⟩ :=
      (hfixed.decodes ⟨[[0xAB], [0xC3, 0x2A]]⟩ [0xAB, 0xC3] [0x2A] htwo.symm rfl).mpr hfield
    obtain ⟨hrest, hagain⟩ := hfixed.writesBack _ last [0xAB, 0xC3] [0x2A] text htwo.symm rfl hread
    have hslice := hagain (Sink.slice 2) htwo.le
    rw [hrepad, htwo] at hslice
    exact ⟨text, last, hread, hrest, hslice⟩
  · have hcode : codec.encode definitions 0 "aBc" ⟨Sink.slice 3, Cells.fresh⟩ =
        .ok ⟨3, 3⟩ ⟨⟨[0x03, 0xAB, 0xCF], 3⟩, Cells.fresh⟩ := by
      have hdigits : (format.withDigits 3).encode "aBc" ⟨[0x03], 3⟩ =
          .ok ⟨3, 2⟩ ⟨[0x03, 0xAB, 0xCF], 3⟩ := by decide
      have hcount : "aBc".toList.length = 3 := by decide
      refine encode_countedDigits_eq_ok_iff.mpr ?_
      rw [hcount]
      exact ⟨rfl, ⟨1, 1⟩, ⟨⟨[0x03], 3⟩, Cells.fresh⟩, ⟨3, 2⟩, rfl, hdigits, rfl, rfl⟩
    obtain ⟨lead, code, -, -, -, hstream, hread⟩ := hcounted.readsBack _ _ _ _ hcode
    have hsplit : [0x03, 0xAB, 0xCF] = lead ++ code := congrArg Sink.written hstream
    rw [← hsplit, hupper] at hread
    exact hread hround ⟨⟨[[0x03, 0xAB], [0xCF, 0x2A]]⟩, Cells.fresh⟩ [0x2A] rfl (by decide)

end Codec

end WireFormat
