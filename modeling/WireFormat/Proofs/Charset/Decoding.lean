import WireFormat.Proofs.Charset.Reading

/-!
# Decoded texts are encoded as they were

Bytes have at most one text, and a text has one encoding: whatever bytes are decoded, the text is
encoded as these bytes again (`Charset.encode_of_decode`). The parser of UTF-8 admits no second way
of writing a character (`Utf8.encodeChars_of_parse`), nor does the reader that goes one by one
(`Charset.encodeChars_of_readUpTo`), and neither leaves a byte behind that it does not account for.
-/

set_option autoImplicit false
set_option relaxedAutoImplicit false

namespace WireFormat

namespace Utf8

/-- Only where there are no bytes does the parser stop without complaint. -/
theorem eq_nil_of_parse_eq_stop {bytes : List UInt8} (h : parse bytes = .stop .complete) :
    bytes = [] := by
  revert h
  fun_cases parse bytes with
  | case1 => exact fun _ ↦ rfl
  | _ =>
    intro h
    simp [Parse.stop, Parse.cons] at h

/-- Bytes of which there are some do not end at once. -/
theorem front_cons_ne_ended (a : UInt8) (as : List UInt8) : front (a :: as) ≠ .ended := by
  unfold front
  (repeat' split) <;> simp_all

/-- Bytes that are wholly parsed are the encoding of the characters found. -/
theorem encodeChars_of_parse {bytes : List UInt8} (h : (parse bytes).ending = .complete) :
    Charset.utf8.encodeChars (parse bytes).chars = .ok bytes := by
  induction hlength : bytes.length using Nat.strongRecOn generalizing bytes with
  | ind length ih =>
    rcases begins_or_parse_eq_stop bytes with ⟨c, n, hbegins⟩ | ⟨ending, hstop⟩
    · have hparse := parse_of_begins hbegins
      obtain ⟨rest, hbytes, hn⟩ := eq_utf8EncodeChar_of_begins hbegins
      have hfront : Charset.utf8.front bytes = .char c n := front_of_begins hbegins
      have hpos : 0 < n := (Charset.length_of_front hfront).1
      have hdrop : bytes.drop n = rest := by rw [hbytes, hn, List.drop_left]
      rw [hparse, hdrop, Parse.cons] at h ⊢
      have hrest : rest.length < length := by
        rw [← hlength, hbytes, List.length_append]
        omega
      exact Charset.encodeChars_cons_eq_ok.mpr ⟨_, rest, rfl, ih _ hrest h rfl, hbytes⟩
    · rw [hstop] at h ⊢
      obtain rfl : ending = .complete := h
      rw [eq_nil_of_parse_eq_stop hstop]
      rfl

end Utf8

namespace Charset

variable {charset : Charset} {bytes code : List UInt8} {chars front back : List Char}

theorem eq_nil_of_front_eq_ended (h : charset.front bytes = .ended) : bytes = [] := by
  cases bytes with
  | nil => rfl
  | cons a as =>
    exfalso
    have hutf16 (value : UInt8 → UInt8 → Nat) : Utf16.front value (a :: as) ≠ .ended := by
      cases as with
      | nil => simp [Utf16.front]
      | cons b bs =>
        unfold Utf16.front
        (repeat' split) <;> simp_all
    cases charset with
    | ascii => by_cases ha : a.toNat ≤ 0x7F <;> simp [front, ha] at h
    | latin1 => cases h
    | utf8 => exact Utf8.front_cons_ne_ended a as h
    | utf16be => exact hutf16 _ h
    | utf16le => exact hutf16 _ h

/-- A reader that stops short of its limit has read all bytes. -/
theorem encodeChars_of_readUpTo_of_lt {limit start stop : Nat}
    (h : charset.readUpTo limit start bytes = .ok (chars, stop)) (hshort : chars.length < limit) :
    charset.encodeChars chars = .ok bytes := by
  induction limit generalizing start bytes chars with
  | zero => exact absurd hshort (Nat.not_lt_zero _)
  | succ limit ih =>
    cases hfront : charset.front bytes with
    | ended =>
      rw [readUpTo_of_ended hfront] at h
      cases h
      rw [eq_nil_of_front_eq_ended hfront]
      rfl
    | truncated => simp [readUpTo, hfront] at h
    | malformed offset => simp [readUpTo, hfront] at h
    | char c n =>
      rw [readUpTo_of_char hfront] at h
      cases hrest : charset.readUpTo limit (start + n) (bytes.drop n) with
      | error e => simp [hrest, Except.map] at h
      | ok found =>
        simp only [hrest, Except.map, Except.ok.injEq, Prod.mk.injEq] at h
        obtain ⟨rfl, rfl⟩ := h
        obtain ⟨code, behind, hcode, rfl, rfl⟩ := encodeChar?_of_front hfront
        rw [List.drop_left] at hrest
        exact encodeChars_cons_eq_ok.mpr
          ⟨code, behind, hcode, ih hrest (Nat.lt_of_succ_lt_succ hshort), rfl⟩

/-- Bytes that are read one by one as some characters are their encoding. -/
theorem encodeChars_of_decodeUnits (h : charset.decodeUnits bytes = .ok chars) :
    charset.encodeChars chars = .ok bytes := by
  have hpull := Pull.outcome_readUpTo charset bytes.length 0 0 bytes
  unfold decodeUnits at h
  rw [Pull.start, decoder] at h
  cases hrun : Pull.readUpTo charset bytes.length ⟨⟨charset, [], 0⟩, 0, bytes⟩ with
  | error e pull =>
    rw [hrun] at h
    cases h
  | ok found pull =>
    rw [hrun] at h hpull
    obtain rfl : found = chars := by simpa using h
    cases hread : charset.readUpTo bytes.length 0 bytes with
    | error e =>
      rw [hread] at hpull
      cases hpull
    | ok result =>
      obtain ⟨others, stop⟩ := result
      rw [hread] at hpull
      obtain ⟨rfl, -⟩ : found = others ∧ _ := by
        simpa [Pull.outcome, Except.map] using hpull
      by_cases hshort : found.length < bytes.length
      · exact encodeChars_of_readUpTo_of_lt hread hshort
      · -- As many characters as there are bytes leave none of these over.
        obtain ⟨code, rest, hcode, hbytes, -⟩ := encodeChars_of_readUpTo hread
        have hle := length_le_of_encodeChars hcode
        have hnil : rest = [] := by
          rw [hbytes, List.length_append] at hshort
          exact List.eq_nil_of_length_eq_zero (by omega)
        rw [hbytes, hnil, List.append_nil]
        exact hcode

/-- The text of some bytes is encoded as these bytes. -/
theorem encode_of_decode {text : String} (h : charset.decode bytes = .ok text) :
    charset.encode text = .ok bytes := by
  have hmap {result : Except Error (List Char)} (h : result.map String.ofList = .ok text) :
      result = .ok text.toList := by
    cases result with
    | error e => cases h
    | ok chars =>
      cases h
      rw [String.toList_ofList]
  cases charset with
  | utf8 =>
    have hchars : decodeUtf8 bytes = .ok text.toList := hmap h
    unfold decodeUtf8 at hchars
    cases hending : (Utf8.parse bytes).ending with
    | complete =>
      simp only [hending, Except.ok.injEq] at hchars
      rw [encode, ← hchars]
      exact Utf8.encodeChars_of_parse hending
    | truncated => simp [hending] at hchars
    | malformed => simp [hending] at hchars
  | ascii => exact encodeChars_of_decodeUnits (hmap h)
  | latin1 => exact encodeChars_of_decodeUnits (hmap h)
  | utf16be => exact encodeChars_of_decodeUnits (hmap h)
  | utf16le => exact encodeChars_of_decodeUnits (hmap h)

/-- The encoding of texts one after the other is made of theirs. -/
theorem encodeChars_append_eq_ok (h : charset.encodeChars (front ++ back) = .ok code) :
    ∃ first others, charset.encodeChars front = .ok first ∧
      charset.encodeChars back = .ok others ∧ code = first ++ others := by
  induction front generalizing code with
  | nil => exact ⟨[], code, rfl, h, rfl⟩
  | cons c front ih =>
    obtain ⟨lead, more, hlead, hmore, rfl⟩ := encodeChars_cons_eq_ok.mp h
    obtain ⟨first, others, hfirst, hothers, rfl⟩ := ih hmore
    exact ⟨lead ++ first, others, encodeChars_cons_eq_ok.mpr ⟨lead, first, hlead, hfirst, rfl⟩,
      hothers, (List.append_assoc _ _ _).symm⟩

end Charset

end WireFormat
