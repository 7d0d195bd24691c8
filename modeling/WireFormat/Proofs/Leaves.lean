import WireFormat.Leaf
import WireFormat.Proofs.CountedReading
import WireFormat.Proofs.DeclaredSize
import WireFormat.Proofs.Wire

/-!
# Leaves read what they write

A leaf reads the bytes of a value back as that value and leaves what follows them
(`Leaf.decode_wire`). Two leaves do not keep every text they write: digits come back in upper case
and padded text without the fill characters on the side of the filling, so the texts that come back
are singled out (`Leaf.Regular`). The leaves that take all bytes have to be read from a frame
(`Leaf.Delimits`).
-/

set_option autoImplicit false
set_option relaxedAutoImplicit false

namespace WireFormat

/-! ### Digits -/

namespace Alphabet

/-- A lower-case letter among the digits. -/
def isLower (c : Char) : Bool := 97 ≤ c.toNat && c.toNat ≤ 102

/-- The value of a digit, by the range of characters that the digit is in. -/
theorem hexValue?_eq_some_iff {c : Char} {value : Nat} :
    hexValue? c = some value ↔
      (48 ≤ c.toNat ∧ c.toNat ≤ 57 ∧ value = c.toNat - 48) ∨
        (65 ≤ c.toNat ∧ c.toNat ≤ 70 ∧ value = c.toNat - 55) ∨
          (97 ≤ c.toNat ∧ c.toNat ≤ 102 ∧ value = c.toNat - 87) := by
  unfold hexValue?
  split_ifs <;> simp only [Option.some.injEq, false_iff] <;> omega

theorem value?_eq_some_iff {alphabet : Alphabet} {c : Char} {value : Nat} :
    alphabet.value? c = some value ↔ hexValue? c = some value ∧ value < alphabet.radix := by
  unfold value?
  cases hexValue? c with
  | none => simp
  | some found =>
    simp only [Option.ite_none_right_eq_some, Option.some.injEq]
    constructor
    · rintro ⟨hradix, rfl⟩
      exact ⟨rfl, hradix⟩
    · rintro ⟨rfl, hradix⟩
      exact ⟨hradix, rfl⟩

/-- A digit that is no lower-case letter is the digit of its value. -/
theorem digit?_value? {alphabet : Alphabet} {c : Char} {value : Nat}
    (h : alphabet.value? c = some value) (hupper : isLower c = false) :
    value < 16 ∧ alphabet.digit? value = some c := by
  obtain ⟨hhex, hradix⟩ := value?_eq_some_iff.mp h
  have hlower : ¬ (97 ≤ c.toNat ∧ c.toNat ≤ 102) := by
    simpa [isLower] using hupper
  unfold digit?
  rw [if_pos hradix]
  rcases hexValue?_eq_some_iff.mp hhex with ⟨hfirst, hlast, rfl⟩ | ⟨hfirst, hlast, rfl⟩ |
    ⟨hfirst, hlast, -⟩
  · refine ⟨by omega, ?_⟩
    rw [if_pos (by omega), Nat.add_sub_cancel' hfirst, Char.ofNat_toNat]
  · refine ⟨by omega, ?_⟩
    rw [if_neg (by omega), Nat.add_sub_cancel' (by omega), Char.ofNat_toNat]
  · exact absurd ⟨hfirst, hlast⟩ hlower

end Alphabet

namespace PackedDigits

variable {format : PackedDigits}

/-- The digits of nibbles, the first of which stands at `position`; the padding is none. -/
def digitsFrom (format : PackedDigits) (position : Nat) : List Nat → Option (List Char)
  | [] => some []
  | nibble :: nibbles =>
    if format.padIndex? = some position then format.digitsFrom (position + 1) nibbles
    else do
      let first ← format.alphabet.digit? nibble
      let others ← format.digitsFrom (position + 1) nibbles
      return first :: others

/-- What one nibble adds to the digits is what reading it yields. -/
theorem digitAt_of_digitsFrom {position nibble : Nat} {nibbles : List Nat} {chars : List Char}
    (h : format.digitsFrom position (nibble :: nibbles) = some chars) :
    ∃ front others, (∀ source, format.digitAt position nibble source = .ok front source) ∧
      format.digitsFrom (position + 1) nibbles = some others ∧ chars = front ++ others := by
  unfold digitsFrom at h
  unfold digitAt
  by_cases hpad : format.padIndex? = some position
  · rw [if_pos hpad] at h
    refine ⟨[], chars, fun source ↦ ?_, h, rfl⟩
    rw [if_pos hpad, pure_apply]
  · simp only [if_neg hpad, Option.bind_eq_bind, Option.bind_eq_some_iff] at h
    obtain ⟨c, hdigit, others, hothers, hchars⟩ := h
    refine ⟨[c], others, fun source ↦ ?_, hothers, (Option.some.inj hchars).symm⟩
    simp only [if_neg hpad, hdigit, pure_apply]

/-- Packed nibbles are read back as their digits. -/
theorem readBytes_pack {left index : Nat} {nibbles : List Nat} {chars : List Char}
    {source : Source} {rest : List UInt8}
    (hchars : format.digitsFrom (2 * index) nibbles = some chars)
    (hlength : nibbles.length = 2 * left) (hnibbles : ∀ nibble ∈ nibbles, nibble < 16)
    (hbytes : source.bytes = pack nibbles ++ rest) :
    ∃ last, format.readBytes left index source = .ok chars last ∧ last.bytes = rest := by
  induction left generalizing index nibbles chars source with
  | zero =>
    obtain rfl := List.eq_nil_of_length_eq_zero hlength
    cases hchars
    exact ⟨source, rfl, hbytes⟩
  | succ left ih =>
    match nibbles, hlength with
    | high :: low :: more, hlength =>
      have hhigh : high < 16 := hnibbles high (by simp)
      have hlow : low < 16 := hnibbles low (by simp)
      have hbyte : (UInt8.ofNat (high * 16 + low)).toNat = high * 16 + low :=
        toNat_ofNat_byte (by omega)
      obtain ⟨front, behind, hfirst, hbehind, rfl⟩ := digitAt_of_digitsFrom hchars
      obtain ⟨back, others, hsecond, hothers, rfl⟩ := digitAt_of_digitsFrom hbehind
      have hnext : format.digitsFrom (2 * (index + 1)) more = some others := hothers
      have hmore : more.length = 2 * left := by
        simp only [List.length_cons] at hlength
        omega
      obtain ⟨middle, hget, hmiddle⟩ := Source.getByte_of_cons hbytes
      obtain ⟨last, hread, hlast⟩ := ih hnext hmore
        (fun nibble hnibble ↦ hnibbles nibble (by simp [hnibble])) hmiddle
      refine ⟨last, ?_, hlast⟩
      rw [readBytes, bind_of_ok hget, hbyte, show (high * 16 + low) / 16 = high by omega,
        show (high * 16 + low) % 16 = low by omega, bind_of_ok (hfirst middle),
        bind_of_ok (hsecond middle), bind_of_ok hread, pure_apply, List.append_assoc]

/-- The nibbles of bytes, the high one of a byte first. -/
def unpack (bytes : List UInt8) : List Nat :=
  bytes.flatMap fun byte ↦ [byte.toNat / 16, byte.toNat % 16]

theorem length_unpack (bytes : List UInt8) : (unpack bytes).length = 2 * bytes.length := by
  induction bytes with
  | nil => rfl
  | cons byte bytes ih =>
    rw [unpack, List.flatMap_cons, List.length_append, ← unpack, ih, List.length_cons,
      List.length_singleton, List.length_cons]
    omega

theorem pack_unpack (bytes : List UInt8) : pack (unpack bytes) = bytes := by
  induction bytes with
  | nil => rfl
  | cons byte bytes ih =>
    rw [unpack, List.flatMap_cons, ← unpack]
    show UInt8.ofNat (byte.toNat / 16 * 16 + byte.toNat % 16) :: pack (unpack bytes) = _
    rw [ih, ofNat_eq_byte byte (by omega)]

theorem lt_of_mem_unpack {bytes : List UInt8} {nibble : Nat} (h : nibble ∈ unpack bytes) :
    nibble < 16 := by
  obtain ⟨byte, -, hnibble⟩ := List.mem_flatMap.mp h
  have hbyte := byte.toNat_lt
  rcases List.mem_pair.mp hnibble with rfl | rfl <;> omega

/-- What reading one nibble yields is what it adds to the digits. -/
theorem digitAt_eq_ok {position nibble : Nat} {source rest : Source} {chars : List Char}
    (h : format.digitAt position nibble source = .ok chars rest) :
    rest = source ∧ ∀ nibbles, format.digitsFrom position (nibble :: nibbles) =
      (format.digitsFrom (position + 1) nibbles).map (chars ++ ·) := by
  unfold digitAt at h
  by_cases hpad : format.padIndex? = some position
  · rw [if_pos hpad] at h
    cases h
    refine ⟨rfl, fun nibbles ↦ ?_⟩
    rw [digitsFrom, if_pos hpad]
    simp
  · rw [if_neg hpad] at h
    cases hdigit : format.alphabet.digit? nibble with
    | none =>
      rw [hdigit] at h
      cases h
    | some c =>
      rw [hdigit] at h
      cases h
      refine ⟨rfl, fun nibbles ↦ ?_⟩
      rw [digitsFrom, if_neg hpad, hdigit]
      cases format.digitsFrom (position + 1) nibbles <;> rfl

/-- The digits that are read are those of the nibbles of the bytes taken. -/
theorem readBytes_eq_ok {left index : Nat} {source rest : Source} {chars : List Char}
    (h : format.readBytes left index source = .ok chars rest) :
    ∃ front, front.length = left ∧ source.bytes = front ++ rest.bytes ∧
      format.digitsFrom (2 * index) (unpack front) = some chars := by
  induction left generalizing index source chars with
  | zero =>
    cases h
    exact ⟨[], rfl, rfl, rfl⟩
  | succ left ih =>
    obtain ⟨byte, s1, hbyte, h⟩ := bind_eq_ok.mp h
    obtain ⟨high, s2, hhigh, h⟩ := bind_eq_ok.mp h
    obtain ⟨low, s3, hlow, h⟩ := bind_eq_ok.mp h
    obtain ⟨others, s4, hothers, h⟩ := bind_eq_ok.mp h
    cases h
    obtain ⟨rfl, hfirst⟩ := digitAt_eq_ok hhigh
    obtain ⟨rfl, hsecond⟩ := digitAt_eq_ok hlow
    obtain ⟨front, hlength, hmore, hdigits⟩ := ih hothers
    refine ⟨byte :: front, by rw [List.length_cons, hlength], ?_, ?_⟩
    · rw [Source.getByte_eq_ok hbyte, hmore, List.cons_append]
    · rw [unpack, List.flatMap_cons, ← unpack]
      show format.digitsFrom (2 * index) (_ :: _ :: unpack front) = _
      rw [hfirst, hsecond, show 2 * index + 1 + 1 = 2 * (index + 1) from rfl, hdigits,
        Option.map_some, Option.map_some, List.append_assoc]

/-- The digits that a field is read as are those of its nibbles. -/
theorem decode_eq_ok {text : String} {source rest : Source}
    (h : format.decode source = .ok text rest) :
    ∃ field, field.length = format.byteLength ∧ source.bytes = field ++ rest.bytes ∧
      ∃ chars, format.digitsFrom 0 (unpack field) = some chars ∧ text = String.ofList chars := by
  obtain ⟨_, middle, hguard, hrun⟩ := bind_eq_ok.mp h
  obtain ⟨-, rfl⟩ := Source.atLeast_eq_ok hguard
  obtain ⟨chars, last, hread, hreturn⟩ := bind_eq_ok.mp hrun
  cases hreturn
  obtain ⟨field, hlength, hbytes, hdigits⟩ := readBytes_eq_ok hread
  exact ⟨field, hlength, hbytes, chars, hdigits, rfl⟩

/-- Packed nibbles are read as their digits, whatever follows. -/
theorem decode_pack {nibbles : List Nat} {chars : List Char} {source : Source}
    {rest : List UInt8} (hchars : format.digitsFrom 0 nibbles = some chars)
    (hlength : nibbles.length = 2 * format.byteLength) (hnibbles : ∀ nibble ∈ nibbles, nibble < 16)
    (hbytes : source.bytes = pack nibbles ++ rest) :
    ∃ last, format.decode source = .ok (String.ofList chars) last ∧ last.bytes = rest := by
  have hle : format.byteLength ≤ source.bytes.length := by
    rw [hbytes, List.length_append, length_pack, hlength]
    omega
  have hstart : format.digitsFrom (2 * 0) nibbles = some chars := hchars
  obtain ⟨last, hread, hlast⟩ := readBytes_pack hstart hlength hnibbles hbytes
  refine ⟨last, ?_, hlast⟩
  rw [decode, bind_of_ok (Source.atLeast_of_le hle), bind_of_ok hread, pure_apply]

/-- A field whose nibbles have digits is read as these, whatever follows. -/
theorem decode_of_digitsFrom {field rest : List UInt8} {chars : List Char} {source : Source}
    (hchars : format.digitsFrom 0 (unpack field) = some chars)
    (hlength : field.length = format.byteLength) (hbytes : source.bytes = field ++ rest) :
    ∃ last, format.decode source = .ok (String.ofList chars) last ∧ last.bytes = rest := by
  refine decode_pack hchars ?_ (fun _ ↦ lt_of_mem_unpack) ?_
  · rw [length_unpack, hlength]
  · rw [pack_unpack, hbytes]

/-- Digits without a padding among them are those of their values. -/
theorem digitsFrom_values {chars : List Char} {values : List Nat}
    (hvalues : format.values chars = .ok values)
    (hupper : ∀ c ∈ chars, Alphabet.isLower c = false) (position : Nat)
    (hpad : ∀ index, format.padIndex? = some index →
      index < position ∨ position + chars.length ≤ index) (behind : List Nat) :
    format.digitsFrom position (values ++ behind) =
      (format.digitsFrom (position + chars.length) behind).map (chars ++ ·) := by
  induction chars generalizing position values with
  | nil =>
    cases hvalues
    simp
  | cons c chars ih =>
    obtain ⟨first, others, hfirst, hothers, rfl⟩ := values_cons_eq_ok.mp hvalues
    have hdigit := (Alphabet.digit?_value? hfirst (hupper c (by simp))).2
    have hnot : format.padIndex? ≠ some position := by
      intro h
      have hindex := hpad position h
      rw [List.length_cons] at hindex
      omega
    have hrest := ih hothers (fun c hc ↦ hupper c (by simp [hc])) (position + 1) fun index h ↦ by
      have hindex := hpad index h
      rw [List.length_cons] at hindex
      omega
    rw [List.cons_append, digitsFrom, if_neg hnot, hdigit, hrest, List.length_cons,
      Nat.add_right_comm, Nat.add_assoc]
    cases format.digitsFrom (position + (chars.length + 1)) behind <;> rfl

theorem values_lt {chars : List Char} {values : List Nat}
    (hvalues : format.values chars = .ok values)
    (hupper : ∀ c ∈ chars, Alphabet.isLower c = false) : ∀ value ∈ values, value < 16 := by
  induction chars generalizing values with
  | nil =>
    cases hvalues
    simp
  | cons c chars ih =>
    obtain ⟨first, others, hfirst, hothers, rfl⟩ := values_cons_eq_ok.mp hvalues
    intro value hvalue
    rcases List.mem_cons.mp hvalue with rfl | hvalue
    · exact (Alphabet.digit?_value? hfirst (hupper c (by simp))).1
    · exact ih hothers (fun c hc ↦ hupper c (by simp [hc])) value hvalue

/-- A padding that is not in front stands behind the last digit. -/
theorem eq_digits_of_padIndex? {index : Nat} (h : format.padIndex? = some (index + 1)) :
    index + 1 = format.digits := by
  unfold padIndex? at h
  by_cases heven : format.digits % 2 = 0
  · rw [if_pos heven] at h
    cases h
  · rw [if_neg heven] at h
    cases hplacement : format.placement with
    | beforeDigits =>
      rw [hplacement] at h
      cases h
    | afterDigits =>
      rw [hplacement] at h
      exact (Option.some.inj h).symm

/-- The nibbles of a string in upper case, the padding among them, show its digits. -/
theorem digitsFrom_nibbles {chars : List Char} {values : List Nat}
    (hlength : chars.length = format.digits) (hvalues : format.values chars = .ok values)
    (hupper : ∀ c ∈ chars, Alphabet.isLower c = false) :
    format.digitsFrom 0 (format.nibbles values) = some chars ∧
      ∀ nibble ∈ format.nibbles values, nibble < 16 := by
  have hlt := values_lt hvalues hupper
  have hpad := format.pad.isLt
  have hdigits := digitsFrom_values hvalues hupper
  cases hindex : format.padIndex? with
  | none =>
    have hnone := hdigits 0 (by simp [hindex]) []
    simp only [nibbles, hindex]
    refine ⟨?_, hlt⟩
    rw [List.append_nil] at hnone
    rw [hnone]
    simp [digitsFrom]
  | some index =>
    cases index with
    | zero =>
      have hbefore := hdigits 1 (by simp [hindex]) []
      simp only [nibbles, hindex]
      constructor
      · rw [List.append_nil] at hbefore
        rw [digitsFrom, if_pos hindex, hbefore]
        simp [digitsFrom]
      · intro nibble hnibble
        rcases List.mem_cons.mp hnibble with rfl | hnibble
        · exact hpad
        · exact hlt nibble hnibble
    | succ index =>
      have hlast : index + 1 = format.digits := eq_digits_of_padIndex? hindex
      have hbehind := hdigits 0 (by simp [hindex]; omega) [format.pad.val]
      simp only [nibbles, hindex]
      constructor
      · rw [hbehind, Nat.zero_add, hlength, ← hlast, digitsFrom, if_pos hindex]
        simp [digitsFrom]
      · intro nibble hnibble
        rcases List.mem_append.mp hnibble with hnibble | hnibble
        · exact hlt nibble hnibble
        · rw [List.mem_singleton.mp hnibble]
          exact hpad

/-- A string of digits in upper case is read back, whatever the padding is. -/
theorem decode_wire? {text : String} {code rest : List UInt8} {source : Source}
    (h : format.wire? text = some code)
    (hupper : ∀ c ∈ text.toList, Alphabet.isLower c = false)
    (hbytes : source.bytes = code ++ rest) :
    ∃ last, format.decode source = .ok text last ∧ last.bytes = rest := by
  obtain ⟨hdigits, values, hvalues, rfl⟩ := wire?_eq_some.mp h
  obtain ⟨hchars, hnibbles⟩ := digitsFrom_nibbles hdigits hvalues hupper
  have hcount := length_nibbles ((length_values hvalues).trans hdigits)
  have hread := decode_pack hchars hcount hnibbles hbytes
  rwa [String.ofList_toList] at hread

end PackedDigits

/-! ### Padded text -/

namespace Charset

variable {charset : Charset}

/-- Texts are encoded one after the other. -/
theorem encodeChars_append {front back : List Char} {code more : List UInt8}
    (hfront : charset.encodeChars front = .ok code) (hback : charset.encodeChars back = .ok more) :
    charset.encodeChars (front ++ back) = .ok (code ++ more) := by
  induction front generalizing code with
  | nil =>
    obtain rfl := encodeChars_nil_eq_ok.mp hfront
    exact hback
  | cons c chars ih =>
    obtain ⟨first, others, hchar, hothers, rfl⟩ := encodeChars_cons_eq_ok.mp hfront
    exact encodeChars_cons_eq_ok.mpr
      ⟨first, others ++ more, hchar, ih hothers, List.append_assoc _ _ _⟩

theorem encodeChars_replicate {c : Char} {code : List UInt8}
    (h : charset.encodeChars [c] = .ok code) (n : Nat) :
    charset.encodeChars (List.replicate n c) = .ok (List.replicate n code).flatten := by
  induction n with
  | zero => rfl
  | succ n ih =>
    rw [List.replicate_succ, List.replicate_succ, List.flatten_cons]
    exact encodeChars_append h ih

end Charset

namespace PaddedText

variable {format : PaddedText} {text : String} {kept chars : List Char}

/-- A text that reading does not shorten: on the side of the filling it does not show the fill
character. -/
def Keeps (format : PaddedText) (text : String) : Prop :=
  match format.alignment with
  | .left => text.toList.getLast? ≠ some format.fill
  | .right => text.toList.head? ≠ some format.fill

theorem dropWhile_of_head? {chars : List Char} {c : Char} (h : chars.head? ≠ some c) :
    chars.dropWhile (· = c) = chars := by
  cases chars with
  | nil => rfl
  | cons first others =>
    rw [List.head?_cons, ne_eq, Option.some.injEq] at h
    rw [List.dropWhile_cons, if_neg (by simpa using h)]

/-- On the side of the filling, `chars` are `kept` and some fill characters more. -/
def Fills (format : PaddedText) (kept chars : List Char) : Prop :=
  ∃ n, chars = match format.alignment with
    | .left => kept ++ List.replicate n format.fill
    | .right => List.replicate n format.fill ++ kept

theorem dropWhile_replicate_append (c : Char) (n : Nat) (chars : List Char) :
    (List.replicate n c ++ chars).dropWhile (· = c) = chars.dropWhile (· = c) := by
  refine List.dropWhile_append_of_pos fun other hother ↦ ?_
  exact decide_eq_true (List.eq_of_mem_replicate hother)

/-- Filling is stripped together with the fill characters that the text itself shows. -/
theorem trim_of_fills (h : format.Fills kept chars) : format.trim chars = format.trim kept := by
  obtain ⟨n, h⟩ := h
  unfold trim
  cases halignment : format.alignment with
  | left =>
    rw [halignment] at h
    simp only [h, List.reverse_append, List.reverse_replicate]
    rw [dropWhile_replicate_append]
  | right =>
    rw [halignment] at h
    simp only [h]
    rw [dropWhile_replicate_append]

theorem trim_of_keeps (h : format.Keeps text) : format.trim text.toList = text.toList := by
  unfold Keeps at h
  unfold trim
  cases halignment : format.alignment with
  | left =>
    rw [halignment, ← List.head?_reverse] at h
    simp only [dropWhile_of_head? h, List.reverse_reverse]
  | right =>
    rw [halignment] at h
    exact dropWhile_of_head? h

/-- The field that holds a text holds it among fill characters. -/
theorem exists_field {code : List UInt8} (h : format.wire? text = some code) :
    ∃ field, format.charset.encodeChars field = .ok code ∧ format.Fills text.toList field := by
  obtain ⟨bytes, fill, hbytes, hfill, -, -, -, rfl⟩ := wire?_eq_some.mp h
  rw [Charset.encode, String.toList_singleton] at hfill
  have hfilling := Charset.encodeChars_replicate hfill
    ((format.length - bytes.length) / fill.length)
  unfold Fills
  cases format.alignment with
  | left => exact ⟨_, Charset.encodeChars_append hbytes hfilling, _, rfl⟩
  | right => exact ⟨_, Charset.encodeChars_append hfilling hbytes, _, rfl⟩

/-- The bytes of a text are read as that text without the fill characters at its side. -/
theorem decode_trim {code rest : List UInt8} {source : Source}
    (h : format.wire? text = some code) (hbytes : source.bytes = code ++ rest) :
    ∃ last, format.decode source = .ok (String.ofList (format.trim text.toList)) last ∧
      last.bytes = rest := by
  obtain ⟨field, hfield, hfills⟩ := exists_field h
  have hencode : format.charset.encode (String.ofList field) = .ok code := by
    rwa [Charset.encode, String.toList_ofList]
  obtain ⟨last, htake, hlast⟩ := Source.take_of_append hbytes (length_wire? h)
  refine ⟨last, ?_, hlast⟩
  rw [decode, bind_of_ok htake, Charset.decode_of_encode hencode, bind_of_ok (ofExcept_ok _ _),
    pure_apply, String.toList_ofList, trim_of_fills hfills]

/-- A text that reading does not shorten is read back. -/
theorem decode_wire? {code rest : List UInt8} {source : Source}
    (h : format.wire? text = some code) (hkeeps : format.Keeps text)
    (hbytes : source.bytes = code ++ rest) :
    ∃ last, format.decode source = .ok text last ∧ last.bytes = rest := by
  have hread := decode_trim h hbytes
  rwa [trim_of_keeps hkeeps, String.ofList_toList] at hread

end PaddedText

/-! ### Leaves -/

/-- A length takes at least one byte. -/
theorem LengthWidth.ne_nil_of_wire? {width : LengthWidth} {length : Nat} {code : List UInt8}
    (h : width.wire? length = some code) : code ≠ [] := by
  obtain ⟨-, hcode⟩ := Option.ite_none_left_eq_some.mp h
  rw [← List.length_pos_iff]
  cases width with
  | varint =>
    obtain rfl := Option.some.inj hcode
    rw [Varint.length_groups, Varint.size]
    omega
  | _ =>
    obtain rfl := Option.some.inj hcode
    rw [BigEndian.length_bytes]
    decide

/-- A length that the width can hold is read back. -/
theorem LengthWidth.decode_wire? {width : LengthWidth} {length : Nat} {code rest : List UInt8}
    {source : Source} (h : width.wire? length = some code)
    (hbytes : source.bytes = code ++ rest) :
    ∃ last, width.decode source = .ok length last ∧ last.bytes = rest := by
  obtain ⟨hlimit, hcode⟩ := Option.ite_none_left_eq_some.mp h
  have hlength : length < width.limit := Nat.not_le.mp hlimit
  have hfixed {n : Nat} (hwidth : width.limit = 256 ^ n)
      (hcode : BigEndian.bytes n length = code) :
      ∃ last, (do return BigEndian.value (← Source.take n) : Action Source Nat) source =
        .ok length last ∧ last.bytes = rest := by
    subst hcode
    obtain ⟨last, htake, hlast⟩ := Source.take_of_append hbytes (BigEndian.length_bytes n length)
    refine ⟨last, ?_, hlast⟩
    rw [bind_of_ok htake, pure_apply, BigEndian.value_bytes,
      Nat.mod_eq_of_lt (hwidth ▸ hlength)]
  cases width with
  | u8 => exact hfixed rfl (Option.some.inj hcode)
  | u16 => exact hfixed rfl (Option.some.inj hcode)
  | u32 => exact hfixed rfl (Option.some.inj hcode)
  | varint =>
    obtain rfl := Option.some.inj hcode
    exact Varint.read_groups hbytes (by decide) hlength

namespace Leaf

/-- The leaf finds the end of its values by itself, or takes all bytes and is read from a frame. A
number needs a width to be read at all. -/
def Delimits {α : Type} (framed : Bool) : Leaf α → Prop
  | .varint width | .signedVarint width => 0 < width
  | .remainingBytes | .remainingText _ => framed = true
  | _ => True

/-- The value is among those that come back as they were written. -/
def Regular {α : Type} : Leaf α → α → Prop
  | .padded format, value => format.Keeps value
  | .digits _, value => ∀ c ∈ value.toList, Alphabet.isLower c = false
  | _, _ => True

/-- A word is read back from its groups. -/
theorem decode_varint_groups {width : Nat} (hwidth : 0 < width) (word : BitVec width)
    {source : Source} {rest : List UInt8}
    (hbytes : source.bytes = Varint.groups word.toNat ++ rest) :
    ∃ last, (Leaf.varint width).decode source = .ok word last ∧ last.bytes = rest := by
  obtain ⟨last, hread, hlast⟩ := Varint.read_groups hbytes hwidth word.isLt
  refine ⟨last, ?_, hlast⟩
  rw [decode, bind_of_ok hread, pure_apply, BitVec.ofNat_toNat, BitVec.setWidth_eq]

/-- A signed number is read where its image is. -/
theorem decode_signedVarint_of_ok {width : Nat} {word : BitVec width} {source rest : Source}
    (h : (Leaf.varint width).decode source = .ok word rest) :
    (Leaf.signedVarint width).decode source = .ok (Varint.unZigZag word) rest := by
  obtain ⟨number, middle, hread, hreturn⟩ := bind_eq_ok.mp h
  obtain ⟨rfl, rfl⟩ := pure_eq_ok.mp hreturn
  exact bind_of_ok hread _

/-- A leaf reads its bytes back as the value, and takes no more than these. -/
theorem decode_wire? {α : Type} {leaf : Leaf α} {value : α} {code rest : List UInt8}
    {source : Source} {framed : Bool} (hdelimits : leaf.Delimits framed)
    (hregular : leaf.Regular value) (h : leaf.wire? value = some code)
    (hbytes : source.bytes = code ++ rest) (hframed : framed = true → rest = [])
    (hword : source.remaining ≤ maxWord) :
    ∃ last, leaf.decode source = .ok value last ∧ last.bytes = rest := by
  cases leaf with
  | word n =>
    cases h
    obtain ⟨last, htake, hlast⟩ := Source.take_of_append hbytes (BigEndian.length_bytes n _)
    refine ⟨last, ?_, hlast⟩
    have hvalue : value.toNat % 256 ^ n = value.toNat := by
      have hlt := value.isLt
      rw [Nat.pow_mul] at hlt
      exact Nat.mod_eq_of_lt hlt
    rw [decode, bind_of_ok htake, pure_apply, BigEndian.value_bytes, hvalue,
      BitVec.ofNat_toNat, BitVec.setWidth_eq]
  | bool =>
    cases h
    obtain ⟨last, hget, hlast⟩ := Source.getByte_of_cons hbytes
    refine ⟨last, ?_, hlast⟩
    rw [decode, bind_of_ok (Source.atLeast_of_getByte hget), bind_of_ok hget]
    cases value <;> rfl
  | length width => exact LengthWidth.decode_wire? h hbytes
  | varint width =>
    cases h
    exact decode_varint_groups hdelimits value hbytes
  | signedVarint width =>
    cases h
    obtain ⟨last, hread, hlast⟩ :=
      decode_varint_groups hdelimits (Varint.zigZag value) hbytes
    refine ⟨last, ?_, hlast⟩
    rw [decode_signedVarint_of_ok hread, Varint.unZigZag_zigZag]
  | bytes count =>
    obtain ⟨hcount, hcode⟩ := Option.ite_none_right_eq_some.mp h
    cases hcode
    exact Source.take_of_append hbytes hcount
  | remainingBytes =>
    cases h
    obtain ⟨last, htake, hlast⟩ := Source.takeAll_eq source
    rw [hbytes, hframed hdelimits, List.append_nil] at htake
    exact ⟨last, htake, hlast.trans (hframed hdelimits).symm⟩
  | fail => cases h
  | text charset count =>
    obtain ⟨hcount, hcode⟩ := Option.ite_none_right_eq_some.mp h
    have hread : charset.readExactly count source.bytes = .ok (value.toList, code.length) :=
      Charset.readExactly_eq_ok.mpr
        ⟨hcount, code, rest, Charset.wire?_eq_some.mp hcode, hbytes, rfl⟩
    obtain ⟨hcharset, hsuits⟩ := CodePointReader.suits_of_withStrategy
      (CodePointReader.withStrategy_on source charset)
    obtain ⟨last, hyields, hlast⟩ :=
      CodePointReader.read_of_ok hsuits hword (hcharset.symm ▸ hread)
    refine ⟨last, ?_, ?_⟩
    · rw [decode, get_bind_apply, hyields, String.ofList_toList]
    · rw [hlast, hbytes, List.drop_left]
  | remainingText charset =>
    have hdecode := Charset.decode_of_encode (Charset.wire?_eq_some.mp h)
    obtain ⟨last, htake, hlast⟩ := Source.takeAll_eq source
    rw [hbytes, hframed hdelimits, List.append_nil] at htake
    refine ⟨last, ?_, hlast.trans (hframed hdelimits).symm⟩
    rw [decode, bind_of_ok htake, hdecode, ofExcept_ok]
  | padded format => exact PaddedText.decode_wire? h hregular hbytes
  | digits format => exact PackedDigits.decode_wire? h hregular hbytes

end Leaf

end WireFormat
