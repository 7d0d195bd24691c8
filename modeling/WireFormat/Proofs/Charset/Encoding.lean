import WireFormat.Proofs.Charset.Front
import WireFormat.Proofs.Streams

/-!
# Characters and the bytes that begin with them

Bytes begin with a character exactly when the encoding of that character stands in front
(`Charset.front_of_encodeChar?`, `Charset.encodeChar?_of_front`). The two directions together are
where overlong forms, encoded surrogates and lone surrogates are refused: they are the encoding of
no character. For UTF-8 and UTF-16 this is arithmetic of the code point in base 64 and in base
1024, done on natural numbers.
-/

set_option autoImplicit false
set_option relaxedAutoImplicit false

namespace WireFormat

theorem toNat_ofNat_of_isValidChar {n : Nat} (h : n.isValidChar) : (Char.ofNat n).toNat = n := by
  unfold Char.ofNat
  rw [dif_pos h]
  rfl

namespace Utf8

/-! ### UTF-8 -/

variable {a b c d : UInt8} {rest : List UInt8}

theorem isContinuation_iff : isContinuation a = true ↔ 0x80 ≤ a.toNat ∧ a.toNat < 0xC0 := by
  simp [isContinuation]

theorem sequenceLength?_eq_one : sequenceLength? a = some 1 ↔ a.toNat < 0x80 := by
  unfold sequenceLength?
  grind

theorem sequenceLength?_eq_two :
    sequenceLength? a = some 2 ↔ 0xC2 ≤ a.toNat ∧ a.toNat < 0xE0 := by
  unfold sequenceLength?
  grind

theorem sequenceLength?_eq_three :
    sequenceLength? a = some 3 ↔ 0xE0 ≤ a.toNat ∧ a.toNat < 0xF0 := by
  unfold sequenceLength?
  grind

theorem sequenceLength?_eq_four :
    sequenceLength? a = some 4 ↔ 0xF0 ≤ a.toNat ∧ a.toNat < 0xF5 := by
  unfold sequenceLength?
  grind

theorem isSecondOfThree_iff : isSecondOfThree a b = true ↔
    isContinuation b = true ∧ (a.toNat = 0xE0 → 0xA0 ≤ b.toNat) ∧
      (a.toNat = 0xED → b.toNat < 0xA0) := by
  simp only [isSecondOfThree, Bool.and_eq_true, Bool.or_eq_true, decide_eq_true_eq]
  grind

theorem isSecondOfFour_iff : isSecondOfFour a b = true ↔
    isContinuation b = true ∧ (a.toNat = 0xF0 → 0x90 ≤ b.toNat) ∧
      (a.toNat = 0xF4 → b.toNat < 0x90) := by
  simp only [isSecondOfFour, Bool.and_eq_true, Bool.or_eq_true, decide_eq_true_eq]
  grind

/-- The low six bits of a number, marked as a continuation. -/
theorem isContinuation_ofNat (number : Nat) :
    isContinuation (UInt8.ofNat (number % 0x40 + 0x80)) = true := by
  have hbyte := toNat_ofNat_byte (n := number % 0x40 + 0x80) (by omega)
  apply isContinuation_iff.mpr
  rw [hbyte]
  omega

theorem utf8EncodeChar_of_one (ha : sequenceLength? a = some 1) :
    String.utf8EncodeChar (Char.ofNat a.toNat) = [a] := by
  have hlead := sequenceLength?_eq_one.mp ha
  have hval : (Char.ofNat a.toNat).val.toNat = a.toNat :=
    toNat_ofNat_of_isValidChar (Or.inl (by omega))
  unfold String.utf8EncodeChar
  simp only [hval]
  rw [if_pos (by omega), UInt8.ofNat_toNat]

theorem utf8EncodeChar_of_two (ha : sequenceLength? a = some 2) (hb : isContinuation b = true) :
    String.utf8EncodeChar (Char.ofNat (value2 a b)) = [a, b] := by
  have hlead := sequenceLength?_eq_two.mp ha
  have hsecond := isContinuation_iff.mp hb
  have hvalue : value2 a b = (a.toNat - 0xC0) * 64 + (b.toNat - 0x80) := by
    unfold value2
    omega
  have hval : (Char.ofNat (value2 a b)).val.toNat = value2 a b :=
    toNat_ofNat_of_isValidChar (Or.inl (by omega))
  unfold String.utf8EncodeChar
  simp only [hval]
  rw [if_neg (by omega), if_pos (by omega), ofNat_eq_byte a (by omega),
    ofNat_eq_byte b (by omega)]

theorem utf8EncodeChar_of_three (ha : sequenceLength? a = some 3)
    (hb : isSecondOfThree a b = true) (hc : isContinuation c = true) :
    String.utf8EncodeChar (Char.ofNat (value3 a b c)) = [a, b, c] := by
  have hlead := sequenceLength?_eq_three.mp ha
  obtain ⟨hcont, hoverlong, hsurrogate⟩ := isSecondOfThree_iff.mp hb
  have hsecond := isContinuation_iff.mp hcont
  have hthird := isContinuation_iff.mp hc
  have hvalue : value3 a b c =
      (a.toNat - 0xE0) * 4096 + (b.toNat - 0x80) * 64 + (c.toNat - 0x80) := by
    unfold value3
    omega
  have hvalid : (value3 a b c).isValidChar := by
    by_cases hhigh : a.toNat ≤ 0xED
    · exact Or.inl (by omega)
    · exact Or.inr ⟨by omega, by omega⟩
  have hval : (Char.ofNat (value3 a b c)).val.toNat = value3 a b c :=
    toNat_ofNat_of_isValidChar hvalid
  unfold String.utf8EncodeChar
  simp only [hval]
  rw [if_neg (by omega), if_neg (by omega), if_pos (by omega),
    ofNat_eq_byte a (by omega), ofNat_eq_byte b (by omega),
    ofNat_eq_byte c (by omega)]

theorem utf8EncodeChar_of_four (ha : sequenceLength? a = some 4)
    (hb : isSecondOfFour a b = true) (hc : isContinuation c = true)
    (hd : isContinuation d = true) :
    String.utf8EncodeChar (Char.ofNat (value4 a b c d)) = [a, b, c, d] := by
  have hlead := sequenceLength?_eq_four.mp ha
  obtain ⟨hcont, hoverlong, hlarge⟩ := isSecondOfFour_iff.mp hb
  have hsecond := isContinuation_iff.mp hcont
  have hthird := isContinuation_iff.mp hc
  have hfourth := isContinuation_iff.mp hd
  have hvalue : value4 a b c d = (a.toNat - 0xF0) * 262144 + (b.toNat - 0x80) * 4096 +
      (c.toNat - 0x80) * 64 + (d.toNat - 0x80) := by
    unfold value4
    omega
  have hval : (Char.ofNat (value4 a b c d)).val.toNat = value4 a b c d :=
    toNat_ofNat_of_isValidChar (Or.inr ⟨by omega, by omega⟩)
  unfold String.utf8EncodeChar
  simp only [hval]
  rw [if_neg (by omega), if_neg (by omega), if_neg (by omega),
    ofNat_eq_byte a (by omega), ofNat_eq_byte b (by omega),
    ofNat_eq_byte c (by omega), ofNat_eq_byte d (by omega)]

/-- The shapes of bytes that begin with a character, by the length of its sequence. -/
inductive Begins : List UInt8 → Char → Nat → Prop where
  | one {a : UInt8} (rest : List UInt8) (ha : sequenceLength? a = some 1) :
    Begins (a :: rest) (Char.ofNat a.toNat) 1
  | two {a b : UInt8} (rest : List UInt8) (ha : sequenceLength? a = some 2)
    (hb : isContinuation b = true) :
    Begins (a :: b :: rest) (Char.ofNat (value2 a b)) 2
  | three {a b c : UInt8} (rest : List UInt8) (ha : sequenceLength? a = some 3)
    (hb : isSecondOfThree a b = true) (hc : isContinuation c = true) :
    Begins (a :: b :: c :: rest) (Char.ofNat (value3 a b c)) 3
  | four {a b c d : UInt8} (rest : List UInt8) (ha : sequenceLength? a = some 4)
    (hb : isSecondOfFour a b = true) (hc : isContinuation c = true)
    (hd : isContinuation d = true) :
    Begins (a :: b :: c :: d :: rest) (Char.ofNat (value4 a b c d)) 4

variable {bytes : List UInt8} {ch : Char} {n : Nat}

theorem begins_of_front (h : front bytes = .char ch n) : Begins bytes ch n := by
  cases bytes with
  | nil => cases h
  | cons a as =>
    cases ha : sequenceLength? a with
    | none => simp [front, ha] at h
    | some length =>
      rcases sequenceLength?_le_four ha with rfl | rfl | rfl | rfl
      · simp only [front, ha, Front.char.injEq] at h
        obtain ⟨rfl, rfl⟩ := h
        exact .one as ha
      · rcases as with _ | ⟨b, bs⟩
        · simp [front, ha] at h
        · cases hb : isContinuation b with
          | false => simp [front, ha, hb] at h
          | true =>
            simp only [front, ha, hb, if_true, Front.char.injEq] at h
            obtain ⟨rfl, rfl⟩ := h
            exact .two bs ha hb
      · rcases as with _ | ⟨b, _ | ⟨c, cs⟩⟩
        · simp [front, ha] at h
        · cases hb : isContinuation b <;> simp [front, ha, hb] at h
        · cases hb : isContinuation b with
          | false => simp [front, ha, hb] at h
          | true =>
            cases hc : (isContinuation c && isSecondOfThree a b) with
            | false => simp [front, ha, hb, hc] at h
            | true =>
              simp only [front, ha, hb, hc, if_true, Front.char.injEq] at h
              obtain ⟨rfl, rfl⟩ := h
              obtain ⟨hlast, hsecond⟩ := Bool.and_eq_true_iff.mp hc
              exact .three cs ha hsecond hlast
      · rcases as with _ | ⟨b, _ | ⟨c, _ | ⟨d, ds⟩⟩⟩
        · simp [front, ha] at h
        · cases hb : isContinuation b <;> simp [front, ha, hb] at h
        · cases hb : isContinuation b <;> cases hc : isContinuation c <;>
            simp [front, ha, hb, hc] at h
        · cases hb : isContinuation b with
          | false => simp [front, ha, hb] at h
          | true =>
            cases hc : isContinuation c with
            | false => simp [front, ha, hb, hc] at h
            | true =>
              cases hd : (isContinuation d && isSecondOfFour a b) with
              | false => simp [front, ha, hb, hc, hd] at h
              | true =>
                simp only [front, ha, hb, hc, hd, if_true, Front.char.injEq] at h
                obtain ⟨rfl, rfl⟩ := h
                obtain ⟨hlast, hsecond⟩ := Bool.and_eq_true_iff.mp hd
                exact .four ds ha hsecond hc hlast

theorem front_of_begins (h : Begins bytes ch n) : front bytes = .char ch n := by
  cases h with
  | one rest ha => simp only [front, ha]
  | two rest ha hb => simp only [front, ha, hb, if_true]
  | three rest ha hb hc =>
    have hcont := (isSecondOfThree_iff.mp hb).1
    simp only [front, ha, hb, hc, hcont, Bool.and_self, if_true]
  | four rest ha hb hc hd =>
    have hcont := (isSecondOfFour_iff.mp hb).1
    simp only [front, ha, hb, hc, hd, hcont, Bool.and_self, if_true]

/-- A number of up to eleven bits in two bytes. -/
theorem begins_of_lt_two (number : Nat) (hlow : 0x80 ≤ number) (hhigh : number < 0x800)
    (rest : List UInt8) :
    Begins (UInt8.ofNat (number / 64 % 0x20 + 0xC0) :: UInt8.ofNat (number % 0x40 + 0x80) :: rest)
      (Char.ofNat number) 2 := by
  have ha := toNat_ofNat_byte (n := number / 64 % 0x20 + 0xC0) (by omega)
  have hb := toNat_ofNat_byte (n := number % 0x40 + 0x80) (by omega)
  have hlead : sequenceLength? (UInt8.ofNat (number / 64 % 0x20 + 0xC0)) = some 2 := by
    apply sequenceLength?_eq_two.mpr
    rw [ha]
    omega
  have hbegins := Begins.two rest hlead (isContinuation_ofNat number)
  have hvalue : value2 (UInt8.ofNat (number / 64 % 0x20 + 0xC0))
      (UInt8.ofNat (number % 0x40 + 0x80)) = number := by
    rw [value2, ha, hb]
    omega
  rwa [hvalue] at hbegins

/-- A number of up to sixteen bits in three bytes, no surrogate. -/
theorem begins_of_lt_three (number : Nat) (hlow : 0x800 ≤ number) (hhigh : number < 0x10000)
    (hsurrogate : number < 0xD800 ∨ 0xDFFF < number) (rest : List UInt8) :
    Begins (UInt8.ofNat (number / 4096 % 0x10 + 0xE0) ::
      UInt8.ofNat (number / 64 % 0x40 + 0x80) :: UInt8.ofNat (number % 0x40 + 0x80) :: rest)
      (Char.ofNat number) 3 := by
  have ha := toNat_ofNat_byte (n := number / 4096 % 0x10 + 0xE0) (by omega)
  have hb := toNat_ofNat_byte (n := number / 64 % 0x40 + 0x80) (by omega)
  have hc := toNat_ofNat_byte (n := number % 0x40 + 0x80) (by omega)
  have hlead : sequenceLength? (UInt8.ofNat (number / 4096 % 0x10 + 0xE0)) = some 3 := by
    apply sequenceLength?_eq_three.mpr
    rw [ha]
    omega
  have hsecond : isSecondOfThree (UInt8.ofNat (number / 4096 % 0x10 + 0xE0))
      (UInt8.ofNat (number / 64 % 0x40 + 0x80)) = true := by
    apply isSecondOfThree_iff.mpr
    rw [ha, hb]
    exact ⟨isContinuation_ofNat _, by omega, by omega⟩
  have hbegins := Begins.three rest hlead hsecond (isContinuation_ofNat number)
  have hvalue : value3 (UInt8.ofNat (number / 4096 % 0x10 + 0xE0))
      (UInt8.ofNat (number / 64 % 0x40 + 0x80)) (UInt8.ofNat (number % 0x40 + 0x80)) =
        number := by
    rw [value3, ha, hb, hc]
    omega
  rwa [hvalue] at hbegins

/-- A number beyond sixteen bits in four bytes. -/
theorem begins_of_lt_four (number : Nat) (hlow : 0x10000 ≤ number) (hhigh : number < 0x110000)
    (rest : List UInt8) :
    Begins (UInt8.ofNat (number / 262144 % 0x08 + 0xF0) ::
      UInt8.ofNat (number / 4096 % 0x40 + 0x80) :: UInt8.ofNat (number / 64 % 0x40 + 0x80) ::
        UInt8.ofNat (number % 0x40 + 0x80) :: rest) (Char.ofNat number) 4 := by
  have ha := toNat_ofNat_byte (n := number / 262144 % 0x08 + 0xF0) (by omega)
  have hb := toNat_ofNat_byte (n := number / 4096 % 0x40 + 0x80) (by omega)
  have hc := toNat_ofNat_byte (n := number / 64 % 0x40 + 0x80) (by omega)
  have hd := toNat_ofNat_byte (n := number % 0x40 + 0x80) (by omega)
  have hlead : sequenceLength? (UInt8.ofNat (number / 262144 % 0x08 + 0xF0)) = some 4 := by
    apply sequenceLength?_eq_four.mpr
    rw [ha]
    omega
  have hsecond : isSecondOfFour (UInt8.ofNat (number / 262144 % 0x08 + 0xF0))
      (UInt8.ofNat (number / 4096 % 0x40 + 0x80)) = true := by
    apply isSecondOfFour_iff.mpr
    rw [ha, hb]
    exact ⟨isContinuation_ofNat _, by omega, by omega⟩
  have hbegins := Begins.four rest hlead hsecond (isContinuation_ofNat (number / 64))
    (isContinuation_ofNat number)
  have hvalue : value4 (UInt8.ofNat (number / 262144 % 0x08 + 0xF0))
      (UInt8.ofNat (number / 4096 % 0x40 + 0x80)) (UInt8.ofNat (number / 64 % 0x40 + 0x80))
        (UInt8.ofNat (number % 0x40 + 0x80)) = number := by
    rw [value4, ha, hb, hc, hd]
    omega
  rwa [hvalue] at hbegins

/-- Bytes in front of which the encoding of a character stands begin with the character. -/
theorem begins_utf8EncodeChar (ch : Char) (rest : List UInt8) :
    Begins (String.utf8EncodeChar ch ++ rest) ch (String.utf8EncodeChar ch).length := by
  have hvalid : ch.toNat < 0xD800 ∨ 0xDFFF < ch.toNat ∧ ch.toNat < 0x110000 := ch.valid
  have hval : ch.val.toNat = ch.toNat := rfl
  have hchar : Char.ofNat ch.toNat = ch := Char.ofNat_toNat ch
  unfold String.utf8EncodeChar
  simp only [hval]
  split_ifs with hone htwo hthree
  · have ha := toNat_ofNat_byte (n := ch.toNat) (by omega)
    have hbegins := Begins.one rest (sequenceLength?_eq_one.mpr (by rw [ha]; omega))
    rwa [ha, hchar] at hbegins
  · have hbegins := begins_of_lt_two ch.toNat (by omega) (by omega) rest
    rwa [hchar] at hbegins
  · have hbegins := begins_of_lt_three ch.toNat (by omega) (by omega) (by omega) rest
    rwa [hchar] at hbegins
  · have hbegins := begins_of_lt_four ch.toNat (by omega) (by omega) rest
    rwa [hchar] at hbegins

/-- Bytes that begin with a character begin with its encoding. -/
theorem eq_utf8EncodeChar_of_begins (h : Begins bytes ch n) :
    ∃ rest, bytes = String.utf8EncodeChar ch ++ rest ∧ n = (String.utf8EncodeChar ch).length := by
  cases h with
  | one rest ha =>
    rw [utf8EncodeChar_of_one ha]
    exact ⟨rest, rfl, rfl⟩
  | two rest ha hb =>
    rw [utf8EncodeChar_of_two ha hb]
    exact ⟨rest, rfl, rfl⟩
  | three rest ha hb hc =>
    rw [utf8EncodeChar_of_three ha hb hc]
    exact ⟨rest, rfl, rfl⟩
  | four rest ha hb hc hd =>
    rw [utf8EncodeChar_of_four ha hb hc hd]
    exact ⟨rest, rfl, rfl⟩

/-- The parser takes the character off that the bytes begin with. -/
theorem parse_of_begins (h : Begins bytes ch n) :
    parse bytes = (parse (bytes.drop n)).cons ch n := by
  cases h with
  | one rest ha =>
    rw [parse.eq_def, List.drop_succ_cons, List.drop_zero]
    simp only [ha]
  | two rest ha hb =>
    rw [parse.eq_def, List.drop_succ_cons, List.drop_succ_cons, List.drop_zero]
    simp only [ha, hb, if_true]
  | three rest ha hb hc =>
    rw [parse.eq_def, List.drop_succ_cons, List.drop_succ_cons, List.drop_succ_cons, List.drop_zero]
    simp only [ha, hb, hc, if_true]
  | four rest ha hb hc hd =>
    rw [parse.eq_def, List.drop_succ_cons, List.drop_succ_cons, List.drop_succ_cons,
      List.drop_succ_cons, List.drop_zero]
    simp only [ha, hb, hc, hd, if_true]

/-- The parser stops at once where the bytes begin with no character. -/
theorem begins_or_parse_eq_stop (bytes : List UInt8) :
    (∃ ch n, Begins bytes ch n) ∨ ∃ ending, parse bytes = .stop ending := by
  fun_cases parse bytes with
  | case2 a rest ha => exact .inl ⟨_, _, .one rest ha⟩
  | case4 a ha b rest hb => exact .inl ⟨_, _, .two rest ha hb⟩
  | case8 a ha b hb c rest hc => exact .inl ⟨_, _, .three rest ha hb hc⟩
  | case14 a length hone htwo hthree ha b hb c hc d rest hd =>
    rcases sequenceLength?_le_four ha with rfl | rfl | rfl | rfl
    · exact absurd rfl hone
    · exact absurd rfl htwo
    · exact absurd rfl hthree
    · exact .inl ⟨_, _, .four rest ha hb hc hd⟩
  | _ => exact .inr ⟨_, rfl⟩

end Utf8

namespace Utf16

/-! ### UTF-16 -/

/-- A way of writing units of sixteen bits as two bytes and of reading them back. -/
structure IsByteOrder (write : Nat → List UInt8) (value : UInt8 → UInt8 → Nat) : Prop where
  value_lt : ∀ a b, value a b < 0x10000
  write_value : ∀ a b, write (value a b) = [a, b]
  value_of_write : ∀ unit < 0x10000, ∃ a b, write unit = [a, b] ∧ value a b = unit

theorem isByteOrder_bigEndian :
    IsByteOrder bigEndian fun a b ↦ a.toNat * 256 + b.toNat where
  value_lt a b := by
    have ha := a.toNat_lt
    have hb := b.toNat_lt
    omega
  write_value a b := by
    have hb := b.toNat_lt
    rw [bigEndian, ofNat_eq_byte a (by omega), ofNat_eq_byte b (by omega)]
  value_of_write unit h := by
    refine ⟨_, _, rfl, ?_⟩
    rw [toNat_ofNat_byte (by omega), toNat_ofNat_byte (by omega)]
    omega

theorem isByteOrder_littleEndian :
    IsByteOrder littleEndian fun a b ↦ b.toNat * 256 + a.toNat where
  value_lt a b := by
    have ha := a.toNat_lt
    have hb := b.toNat_lt
    omega
  write_value a b := by
    have ha := a.toNat_lt
    rw [littleEndian, ofNat_eq_byte a (by omega), ofNat_eq_byte b (by omega)]
  value_of_write unit h := by
    refine ⟨_, _, rfl, ?_⟩
    rw [toNat_ofNat_byte (by omega), toNat_ofNat_byte (by omega)]
    omega

theorem isHighSurrogate_iff {unit : Nat} :
    isHighSurrogate unit = true ↔ 0xD800 ≤ unit ∧ unit < 0xDC00 := by
  simp [isHighSurrogate]

theorem isLowSurrogate_iff {unit : Nat} :
    isLowSurrogate unit = true ↔ 0xDC00 ≤ unit ∧ unit < 0xE000 := by
  simp [isLowSurrogate]

variable {write : Nat → List UInt8} {value : UInt8 → UInt8 → Nat}

/-- The encoding of a character stands in front of bytes that begin with it. -/
theorem front_units (horder : IsByteOrder write value) (ch : Char) (rest : List UInt8) :
    front value ((units ch).flatMap write ++ rest) =
      .char ch ((units ch).flatMap write).length := by
  have hvalid : ch.toNat < 0xD800 ∨ 0xDFFF < ch.toNat ∧ ch.toNat < 0x110000 := ch.valid
  have hchar : Char.ofNat ch.toNat = ch := Char.ofNat_toNat ch
  by_cases hone : ch.toNat < 0x10000
  · obtain ⟨a, b, hwrite, hvalue⟩ := horder.value_of_write ch.toNat hone
    have hhigh : isHighSurrogate ch.toNat = false := by
      rw [← Bool.not_eq_true, isHighSurrogate_iff]
      omega
    simp only [units, if_pos hone, List.flatMap_cons, List.flatMap_nil, hwrite, List.append_nil,
      List.cons_append, List.nil_append, front, hvalue, hhigh, Bool.false_eq_true, if_false]
    rw [if_pos (show ch.toNat.isValidChar from ch.valid), hchar]
    rfl
  · obtain ⟨a, b, hwriteHigh, hvalueHigh⟩ :=
      horder.value_of_write (0xD800 + (ch.toNat - 0x10000) / 1024) (by omega)
    obtain ⟨c, d, hwriteLow, hvalueLow⟩ :=
      horder.value_of_write (0xDC00 + (ch.toNat - 0x10000) % 1024) (by omega)
    have hhigh : isHighSurrogate (0xD800 + (ch.toNat - 0x10000) / 1024) = true :=
      isHighSurrogate_iff.mpr ⟨by omega, by omega⟩
    have hlow : isLowSurrogate (0xDC00 + (ch.toNat - 0x10000) % 1024) = true :=
      isLowSurrogate_iff.mpr ⟨by omega, by omega⟩
    have hpair : pairValue (0xD800 + (ch.toNat - 0x10000) / 1024)
        (0xDC00 + (ch.toNat - 0x10000) % 1024) = ch.toNat := by
      unfold pairValue
      omega
    simp only [units, if_neg hone, List.flatMap_cons, List.flatMap_nil, hwriteHigh, hwriteLow,
      List.append_nil, List.cons_append, List.nil_append, front, hvalueHigh, hvalueLow, hhigh,
      hlow, if_true, hpair, hchar]
    rfl

/-- The units of the character of a surrogate pair are the pair. -/
theorem units_pairValue {high low : Nat} (hhigh : isHighSurrogate high = true)
    (hlow : isLowSurrogate low = true) :
    units (Char.ofNat (pairValue high low)) = [high, low] := by
  have hvalid := Pull.isValidChar_pairValue hhigh hlow
  have hfirst := isHighSurrogate_iff.mp hhigh
  have hsecond := isLowSurrogate_iff.mp hlow
  have hpair : pairValue high low = 0x10000 + (high - 0xD800) * 1024 + (low - 0xDC00) := rfl
  have hleft : 0xD800 + (pairValue high low - 0x10000) / 1024 = high := by omega
  have hright : 0xDC00 + (pairValue high low - 0x10000) % 1024 = low := by omega
  rw [units, toNat_ofNat_of_isValidChar hvalid, if_neg (by omega), hleft, hright]

/-- Bytes that begin with a character begin with its encoding. -/
theorem eq_units_of_front (horder : IsByteOrder write value) {bytes : List UInt8} {ch : Char}
    {n : Nat} (h : front value bytes = .char ch n) :
    ∃ rest, bytes = (units ch).flatMap write ++ rest ∧
      n = ((units ch).flatMap write).length := by
  rcases bytes with _ | ⟨a, _ | ⟨b, rest⟩⟩
  · cases h
  · cases h
  · cases hhigh : isHighSurrogate (value a b) with
    | false =>
      by_cases hvalid : (value a b).isValidChar
      · simp only [front, hhigh, Bool.false_eq_true, if_false, if_pos hvalid,
          Front.char.injEq] at h
        obtain ⟨rfl, rfl⟩ := h
        have hunits : units (Char.ofNat (value a b)) = [value a b] := by
          rw [units, toNat_ofNat_of_isValidChar hvalid, if_pos (horder.value_lt a b)]
        simp only [hunits, List.flatMap_cons, List.flatMap_nil, horder.write_value]
        exact ⟨rest, rfl, rfl⟩
      · simp [front, hhigh, hvalid] at h
    | true =>
      rcases rest with _ | ⟨c, _ | ⟨d, rest⟩⟩
      · simp [front, hhigh] at h
      · simp [front, hhigh] at h
      · cases hlow : isLowSurrogate (value c d) with
        | false => simp [front, hhigh, hlow] at h
        | true =>
          simp only [front, hhigh, hlow, if_true, Front.char.injEq] at h
          obtain ⟨rfl, rfl⟩ := h
          simp only [units_pairValue hhigh hlow, List.flatMap_cons, List.flatMap_nil,
            horder.write_value]
          exact ⟨rest, rfl, rfl⟩

end Utf16

namespace Charset

/-! ### All charsets -/

variable {charset : Charset} {bytes code : List UInt8} {c : Char} {n : Nat}

/-- Bytes in front of which the encoding of a character stands begin with that character. -/
theorem front_of_encodeChar? (h : charset.encodeChar? c = some code) (rest : List UInt8) :
    charset.front (code ++ rest) = .char c code.length := by
  cases charset with
  | ascii =>
    by_cases hc : c.toNat ≤ 0x7F
    · have hbyte : (UInt8.ofNat c.toNat).toNat = c.toNat := toNat_ofNat_byte (by omega)
      simp only [encodeChar?, if_pos hc, Option.some.injEq] at h
      subst h
      simp only [List.cons_append, List.nil_append, front, hbyte, if_pos hc, Char.ofNat_toNat]
      rfl
    · simp [encodeChar?, hc] at h
  | latin1 =>
    by_cases hc : c.toNat ≤ 0xFF
    · have hbyte : (UInt8.ofNat c.toNat).toNat = c.toNat := toNat_ofNat_byte (by omega)
      simp only [encodeChar?, if_pos hc, Option.some.injEq] at h
      subst h
      simp only [List.cons_append, List.nil_append, front, hbyte, Char.ofNat_toNat]
      rfl
    · simp [encodeChar?, hc] at h
  | utf8 =>
    simp only [encodeChar?, Option.some.injEq] at h
    subst h
    exact Utf8.front_of_begins (Utf8.begins_utf8EncodeChar c rest)
  | utf16be =>
    simp only [encodeChar?, Option.some.injEq] at h
    subst h
    exact Utf16.front_units Utf16.isByteOrder_bigEndian c rest
  | utf16le =>
    simp only [encodeChar?, Option.some.injEq] at h
    subst h
    exact Utf16.front_units Utf16.isByteOrder_littleEndian c rest

/-- Bytes that begin with a character begin with its encoding. -/
theorem encodeChar?_of_front (h : charset.front bytes = .char c n) :
    ∃ code rest, charset.encodeChar? c = some code ∧ bytes = code ++ rest ∧ n = code.length := by
  cases charset with
  | ascii =>
    cases bytes with
    | nil => cases h
    | cons a as =>
      by_cases ha : a.toNat ≤ 0x7F
      · simp only [front, if_pos ha, Front.char.injEq] at h
        obtain ⟨rfl, rfl⟩ := h
        have hchar := toNat_ofNat_of_isValidChar (Pull.isValidChar_of_byte a)
        refine ⟨[a], as, ?_, rfl, rfl⟩
        rw [encodeChar?, hchar, if_pos ha, UInt8.ofNat_toNat]
      · simp [front, ha] at h
  | latin1 =>
    cases bytes with
    | nil => cases h
    | cons a as =>
      simp only [front, Front.char.injEq] at h
      obtain ⟨rfl, rfl⟩ := h
      have hchar := toNat_ofNat_of_isValidChar (Pull.isValidChar_of_byte a)
      have ha := a.toNat_lt
      refine ⟨[a], as, ?_, rfl, rfl⟩
      rw [encodeChar?, hchar, if_pos (by omega), UInt8.ofNat_toNat]
  | utf8 =>
    obtain ⟨rest, hbytes, hn⟩ := Utf8.eq_utf8EncodeChar_of_begins (Utf8.begins_of_front h)
    exact ⟨_, rest, rfl, hbytes, hn⟩
  | utf16be =>
    obtain ⟨rest, hbytes, hn⟩ := Utf16.eq_units_of_front Utf16.isByteOrder_bigEndian h
    exact ⟨_, rest, rfl, hbytes, hn⟩
  | utf16le =>
    obtain ⟨rest, hbytes, hn⟩ := Utf16.eq_units_of_front Utf16.isByteOrder_littleEndian h
    exact ⟨_, rest, rfl, hbytes, hn⟩

/-- Every character takes a byte, and none takes more than its charset says. -/
theorem length_encodeChar? (h : charset.encodeChar? c = some code) :
    0 < code.length ∧ code.length ≤ charset.maxBytesPerCodePoint := by
  have hunits : ∀ write : Nat → List UInt8, (∀ unit, (write unit).length = 2) →
      0 < ((Utf16.units c).flatMap write).length ∧
        ((Utf16.units c).flatMap write).length ≤ 4 := by
    intro write hwrite
    by_cases hone : c.toNat < 0x10000 <;> simp [Utf16.units, hone, hwrite]
  cases charset with
  | ascii =>
    by_cases hc : c.toNat ≤ 0x7F
    · simp only [encodeChar?, if_pos hc, Option.some.injEq] at h
      subst h
      exact ⟨Nat.one_pos, Nat.le_refl 1⟩
    · simp [encodeChar?, hc] at h
  | latin1 =>
    by_cases hc : c.toNat ≤ 0xFF
    · simp only [encodeChar?, if_pos hc, Option.some.injEq] at h
      subst h
      exact ⟨Nat.one_pos, Nat.le_refl 1⟩
    · simp [encodeChar?, hc] at h
  | utf8 =>
    obtain rfl := Option.some.inj h
    rw [String.length_utf8EncodeChar]
    exact ⟨c.utf8Size_pos, c.utf8Size_le_four⟩
  | utf16be =>
    obtain rfl := Option.some.inj h
    exact hunits _ fun _ ↦ rfl
  | utf16le =>
    obtain rfl := Option.some.inj h
    exact hunits _ fun _ ↦ rfl

/-- A character at the front takes at least one byte, at most as many as its charset says, and no
more than there are. -/
theorem length_of_front (h : charset.front bytes = .char c n) :
    0 < n ∧ n ≤ charset.maxBytesPerCodePoint ∧ n ≤ bytes.length := by
  obtain ⟨code, rest, hcode, rfl, rfl⟩ := encodeChar?_of_front h
  obtain ⟨hpos, hle⟩ := length_encodeChar? hcode
  refine ⟨hpos, hle, ?_⟩
  rw [List.length_append]
  exact Nat.le_add_right _ _

/-! ### Several characters -/

variable {chars : List Char}

theorem encodeChars_nil_eq_ok : charset.encodeChars [] = .ok code ↔ code = [] := by
  simp [encodeChars, eq_comm]

/-- Characters are encoded one after another. -/
theorem encodeChars_cons_eq_ok : charset.encodeChars (c :: chars) = .ok code ↔
    ∃ first others, charset.encodeChar? c = some first ∧
      charset.encodeChars chars = .ok others ∧ code = first ++ others := by
  cases hchar : charset.encodeChar? c with
  | none => simp [encodeChars, hchar]
  | some first =>
    cases hothers : charset.encodeChars chars with
    | error e => simp [encodeChars, hchar, hothers]
    | ok others => simp [encodeChars, hchar, hothers, eq_comm]

end Charset

end WireFormat
