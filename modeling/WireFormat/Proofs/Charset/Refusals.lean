import WireFormat.Proofs.Charset.Cuts
import WireFormat.Proofs.Charset.Decoding

/-!
# Bytes that are not read

A reader of counted text gives up for one of three reasons: there is nothing behind the characters
it has read, there is an unfinished sequence (`Charset.IsUnfinished`), or a byte stands where it
cannot. What it says is decided by the bytes behind these characters, and by them alone
(`Charset.readExactly_eq_error`). A byte is refused for what stands up to it, and without it there
is nothing to refuse (`Charset.front_of_malformed`, `Charset.readExactly_of_malformed`).
-/

set_option autoImplicit false
set_option relaxedAutoImplicit false

namespace WireFormat

/-! ### Unfinished sequences -/

/-- The bytes are a lead and continuations of it, fewer than it asks for. Whether the second byte
fits the lead does not matter, since only a complete sequence is refused for that. -/
def Utf8.IsUnfinished (bytes : List UInt8) : Prop :=
  ∃ lead tail length, bytes = lead :: tail ∧ sequenceLength? lead = some length ∧
    (∀ byte ∈ tail, isContinuation byte = true) ∧ bytes.length < length

/-- The bytes are half of a unit, or the first unit of a pair and less than a unit behind it. -/
def Utf16.IsUnfinished (value : UInt8 → UInt8 → Nat) (bytes : List UInt8) : Prop :=
  bytes.length = 1 ∨
    ∃ a b tail, bytes = a :: b :: tail ∧ isHighSurrogate (value a b) = true ∧ tail.length < 2

/-- The bytes begin a character and are too few for it. -/
def Charset.IsUnfinished : Charset → List UInt8 → Prop
  | .ascii, _ | .latin1, _ => False
  | .utf8, bytes => Utf8.IsUnfinished bytes
  | .utf16be, bytes => Utf16.IsUnfinished (fun a b ↦ a.toNat * 256 + b.toNat) bytes
  | .utf16le, bytes => Utf16.IsUnfinished (fun a b ↦ b.toNat * 256 + a.toNat) bytes

theorem Utf8.isUnfinished_cons {a : UInt8} {as : List UInt8} : IsUnfinished (a :: as) ↔
    ∃ length, sequenceLength? a = some length ∧
      (∀ byte ∈ as, isContinuation byte = true) ∧ as.length + 1 < length := by
  constructor
  · rintro ⟨lead, tail, length, hbytes, hlead, htail, hshort⟩
    obtain ⟨rfl, rfl⟩ := List.cons.inj hbytes
    exact ⟨length, hlead, htail, hshort⟩
  · rintro ⟨length, hlead, htail, hshort⟩
    exact ⟨a, as, length, rfl, hlead, htail, hshort⟩

theorem Utf8.front_eq_truncated {bytes : List UInt8} :
    front bytes = .truncated ↔ IsUnfinished bytes := by
  cases bytes with
  | nil => simp [front, IsUnfinished]
  | cons a as =>
    rw [isUnfinished_cons]
    cases ha : sequenceLength? a with
    | none => simp [front, ha]
    | some length =>
      rcases sequenceLength?_le_four ha with rfl | rfl | rfl | rfl
      · simp [front, ha]
      · rcases as with _ | ⟨b, bs⟩
        · simp [front, ha]
        · cases hb : isContinuation b <;> simp [front, ha, hb]
      · rcases as with _ | ⟨b, _ | ⟨c, cs⟩⟩
        · simp [front, ha]
        · cases hb : isContinuation b <;> simp [front, ha, hb]
        · cases hb : isContinuation b <;> cases hc : isContinuation c <;>
            cases hsecond : isSecondOfThree a b <;> simp [front, ha, hb, hc, hsecond]
      · rcases as with _ | ⟨b, _ | ⟨c, _ | ⟨d, ds⟩⟩⟩
        · simp [front, ha]
        · cases hb : isContinuation b <;> simp [front, ha, hb]
        · cases hb : isContinuation b <;> cases hc : isContinuation c <;>
            simp [front, ha, hb, hc]
        · cases hb : isContinuation b <;> cases hc : isContinuation c <;>
            cases hd : isContinuation d <;> cases hsecond : isSecondOfFour a b <;>
            simp [front, ha, hb, hc, hd, hsecond]

theorem Utf16.front_eq_truncated {value : UInt8 → UInt8 → Nat} {bytes : List UInt8} :
    front value bytes = .truncated ↔ IsUnfinished value bytes := by
  rcases bytes with _ | ⟨a, _ | ⟨b, tail⟩⟩
  · simp [front, IsUnfinished]
  · simp [front, IsUnfinished]
  · cases hhigh : isHighSurrogate (value a b) with
    | false =>
      by_cases hvalid : (value a b).isValidChar <;> simp [front, IsUnfinished, hhigh, hvalid]
    | true =>
      rcases tail with _ | ⟨c, _ | ⟨d, rest⟩⟩
      · simp [front, IsUnfinished, hhigh]
      · simp [front, IsUnfinished, hhigh]
      · cases hlow : isLowSurrogate (value c d) <;> simp [front, IsUnfinished, hhigh, hlow]

namespace Charset

variable {charset : Charset} {bytes : List UInt8}

/-- Bytes are seen as cut where they are unfinished. -/
theorem front_eq_truncated : charset.front bytes = .truncated ↔ charset.IsUnfinished bytes := by
  cases charset with
  | ascii =>
    rcases bytes with _ | ⟨a, as⟩
    · simp [front, IsUnfinished]
    · by_cases ha : a.toNat ≤ 0x7F <;> simp [front, IsUnfinished, ha]
  | latin1 => rcases bytes with _ | ⟨a, as⟩ <;> simp [front, IsUnfinished]
  | utf8 => exact Utf8.front_eq_truncated
  | utf16be | utf16le => exact Utf16.front_eq_truncated

end Charset

/-! ### Bytes that stand where they cannot -/

/-- A byte is refused for the bytes up to it; those before it are none or unfinished. -/
def Front.RefusedAt (front : List UInt8 → Front) (bytes : List UInt8) (offset : Nat) : Prop :=
  offset < bytes.length ∧ front (bytes.take (offset + 1)) = .malformed offset ∧
    (front (bytes.take offset) = .ended ∨ front (bytes.take offset) = .truncated)

theorem Utf8.front_of_malformed {bytes : List UInt8} {offset : Nat}
    (h : front bytes = .malformed offset) : Front.RefusedAt front bytes offset := by
  rcases bytes with _ | ⟨a, as⟩
  · simp [front] at h
  · cases ha : sequenceLength? a with
    | none =>
      obtain rfl : 0 = offset := by simpa [front, ha] using h
      simp [Front.RefusedAt, front, ha]
    | some length =>
      -- The byte refused is the first that is no continuation. A second byte that does not fit the
      -- lead is refused at the last byte, since it is only looked at when the sequence is complete.
      rcases sequenceLength?_le_four ha with rfl | rfl | rfl | rfl
      · simp [front, ha] at h
      · rcases as with _ | ⟨b, bs⟩
        · simp [front, ha] at h
        · cases hb : isContinuation b <;> simp [front, ha, hb] at h
          subst h
          simp [Front.RefusedAt, front, ha, hb]
      · rcases as with _ | ⟨b, _ | ⟨c, cs⟩⟩
        · simp [front, ha] at h
        · cases hb : isContinuation b <;> simp [front, ha, hb] at h
          subst h
          simp [Front.RefusedAt, front, ha, hb]
        · cases hb : isContinuation b <;>
            cases hc : (isContinuation c && isSecondOfThree a b) <;>
            simp [front, ha, hb, hc] at h <;> subst h <;>
            simp [Front.RefusedAt, front, ha, hb, hc]
      · rcases as with _ | ⟨b, _ | ⟨c, _ | ⟨d, ds⟩⟩⟩
        · simp [front, ha] at h
        · cases hb : isContinuation b <;> simp [front, ha, hb] at h
          subst h
          simp [Front.RefusedAt, front, ha, hb]
        · cases hb : isContinuation b <;> cases hc : isContinuation c <;>
            simp [front, ha, hb, hc] at h <;> subst h <;>
            simp [Front.RefusedAt, front, ha, hb, hc]
        · cases hb : isContinuation b <;> cases hc : isContinuation c <;>
            cases hd : (isContinuation d && isSecondOfFour a b) <;>
            simp [front, ha, hb, hc, hd] at h <;> subst h <;>
            simp [Front.RefusedAt, front, ha, hb, hc, hd]

theorem Utf16.front_of_malformed {value : UInt8 → UInt8 → Nat} {bytes : List UInt8} {offset : Nat}
    (h : front value bytes = .malformed offset) : Front.RefusedAt (front value) bytes offset := by
  rcases bytes with _ | ⟨a, _ | ⟨b, rest⟩⟩
  · simp [front] at h
  · simp [front] at h
  · cases hhigh : isHighSurrogate (value a b) with
    | false =>
      by_cases hvalid : (value a b).isValidChar
      · simp [front, hhigh, hvalid] at h
      · obtain rfl : 1 = offset := by simpa [front, hhigh, hvalid] using h
        simp [Front.RefusedAt, front, hhigh, hvalid]
    | true =>
      rcases rest with _ | ⟨c, _ | ⟨d, rest⟩⟩
      · simp [front, hhigh] at h
      · simp [front, hhigh] at h
      · cases hlow : isLowSurrogate (value c d) with
        | true => simp [front, hhigh, hlow] at h
        | false =>
          obtain rfl : 3 = offset := by simpa [front, hhigh, hlow] using h
          simp [Front.RefusedAt, front, hhigh, hlow]

namespace Charset

variable {charset : Charset} {bytes code tail : List UInt8} {chars : List Char}
  {count limit start offset : Nat} {e : Error}

theorem front_of_malformed (h : charset.front bytes = .malformed offset) :
    Front.RefusedAt charset.front bytes offset := by
  cases charset with
  | ascii =>
    rcases bytes with _ | ⟨a, as⟩
    · simp [front] at h
    · by_cases ha : a.toNat ≤ 0x7F
      · simp [front, ha] at h
      · obtain rfl : 0 = offset := by simpa [front, ha] using h
        simp [Front.RefusedAt, front, ha]
  | latin1 => rcases bytes with _ | ⟨a, as⟩ <;> simp [front] at h
  | utf8 => exact Utf8.front_of_malformed h
  | utf16be | utf16le => exact Utf16.front_of_malformed h

/-! ### Why a reader gives up -/

/-- What a reader of `count` characters, having found fewer up to a position, says of the bytes
there. It has nothing to say of one more character. -/
def complaint? (charset : Charset) (found count position : Nat) : Front → Option Error
  | .ended => some { kind := .endOfStream "code points" found count }
  | .truncated => some { kind := .truncated charset }
  | .malformed offset => some { kind := .malformed charset (position + offset) }
  | .char _ _ => none

/-- A reader that goes on for as long as there are characters gives up where bytes are none, and
what it says does not depend on their number. -/
theorem readUpTo_eq_error (h : charset.readUpTo limit start bytes = .error e) :
    ∃ chars code tail, chars.length < limit ∧ charset.encodeChars chars = .ok code ∧
      bytes = code ++ tail ∧ ∀ found count,
        charset.complaint? found count (start + code.length) (charset.front tail) = some e := by
  induction limit generalizing start bytes with
  | zero => cases h
  | succ limit ih =>
    cases hfront : charset.front bytes with
    | ended =>
      rw [readUpTo_of_ended hfront] at h
      cases h
    | truncated =>
      obtain rfl : { kind := .truncated charset } = e := by simpa [readUpTo, hfront] using h
      exact ⟨[], [], bytes, Nat.succ_pos limit, rfl, rfl, fun _ _ ↦ by rw [hfront]; rfl⟩
    | malformed offset =>
      obtain rfl : { kind := .malformed charset (start + offset) } = e := by
        simpa [readUpTo, hfront] using h
      exact ⟨[], [], bytes, Nat.succ_pos limit, rfl, rfl, fun _ _ ↦ by rw [hfront]; rfl⟩
    | char c n =>
      rw [readUpTo_of_char hfront] at h
      cases hread : charset.readUpTo limit (start + n) (bytes.drop n) with
      | ok found =>
        rw [hread] at h
        cases h
      | error e' =>
        rw [hread] at h
        obtain rfl : e' = e := by simpa [Except.map] using h
        obtain ⟨chars, code, tail, hfew, hcode, hdrop, hcomplaint⟩ := ih hread
        obtain ⟨first, behind, hfirst, rfl, rfl⟩ := encodeChar?_of_front hfront
        rw [List.drop_left] at hdrop
        subst hdrop
        refine ⟨c :: chars, first ++ code, tail, Nat.succ_lt_succ hfew,
          encodeChars_cons_eq_ok.mpr ⟨first, code, hfirst, hcode, rfl⟩,
          (List.append_assoc _ _ _).symm, fun found count ↦ ?_⟩
        rw [List.length_append, ← Nat.add_assoc]
        exact hcomplaint found count

/-- A reader of `count` characters fails exactly behind fewer of them, and for what stands there. -/
theorem readExactly_eq_error : charset.readExactly count bytes = .error e ↔
    ∃ chars code tail, chars.length < count ∧ charset.encodeChars chars = .ok code ∧
      bytes = code ++ tail ∧
        charset.complaint? chars.length count code.length (charset.front tail) = some e := by
  constructor
  · intro h
    unfold readExactly at h
    cases hread : charset.readUpTo count 0 bytes with
    | error e' =>
      rw [hread] at h
      obtain rfl : e' = e := by simpa using h
      obtain ⟨chars, code, tail, hfew, hcode, hbytes, hcomplaint⟩ := readUpTo_eq_error hread
      have hsame := hcomplaint chars.length count
      rw [Nat.zero_add] at hsame
      exact ⟨chars, code, tail, hfew, hcode, hbytes, hsame⟩
    | ok found =>
      obtain ⟨chars, stop⟩ := found
      by_cases hshort : chars.length < count
      · simp only [hread, if_pos hshort, Except.error.injEq] at h
        subst h
        exact ⟨chars, bytes, [], hshort, encodeChars_of_readUpTo_of_lt hread hshort,
          (List.append_nil bytes).symm, by rw [front_nil]; rfl⟩
      · simp [hread, hshort] at h
  · rintro ⟨chars, code, tail, hfew, hcode, rfl, hcomplaint⟩
    obtain ⟨more, rfl⟩ := Nat.exists_eq_add_of_lt hfew
    have hread := readUpTo_of_encodeChars hcode 0 (more + 1) tail
    rw [← Nat.add_assoc, Nat.zero_add] at hread
    unfold readExactly
    cases hfront : charset.front tail with
    | ended =>
      rw [hfront] at hcomplaint
      rw [readUpTo_of_ended hfront] at hread
      simp only [hread, Except.map, List.append_nil, if_pos hfew]
      exact congrArg Except.error (Option.some.inj hcomplaint)
    | truncated | malformed offset =>
      have hstop : charset.readUpTo (more + 1) code.length tail = .error e := by
        rw [hfront] at hcomplaint
        simp only [readUpTo, hfront]
        exact congrArg Except.error (Option.some.inj hcomplaint)
      simp only [hread, hstop, Except.map]
    | char c n =>
      rw [hfront] at hcomplaint
      cases hcomplaint

/-- A byte that is refused is refused whatever stands behind it, and without it the bytes end too
early. -/
theorem readExactly_of_malformed {position : Nat}
    (h : charset.readExactly count bytes = .error { kind := .malformed charset position }) :
    position < bytes.length ∧
      (∀ more, charset.readExactly count (bytes.take (position + 1) ++ more) =
        .error { kind := .malformed charset position }) ∧
      ∃ kind, charset.readExactly count (bytes.take position) = .error { kind } ∧
        (kind = .truncated charset ∨ ∃ found, kind = .endOfStream "code points" found count) := by
  obtain ⟨chars, code, tail, hfew, hcode, rfl, hcomplaint⟩ := readExactly_eq_error.mp h
  cases hfront : charset.front tail with
  | ended | truncated | char c n => simp [hfront, complaint?] at hcomplaint
  | malformed offset =>
    obtain rfl : code.length + offset = position := by
      simpa [hfront, complaint?] using hcomplaint
    obtain ⟨hlt, hupto, hbefore⟩ := front_of_malformed hfront
    have htake (n : Nat) : (code ++ tail).take (code.length + n) = code ++ tail.take n := by
      rw [List.take_append, List.take_of_length_le (Nat.le_add_right _ _), Nat.add_sub_cancel_left]
    refine ⟨by rw [List.length_append]; omega, fun more ↦ ?_, ?_⟩
    · rw [Nat.add_assoc, htake, List.append_assoc]
      refine readExactly_eq_error.mpr ⟨chars, code, _, hfew, hcode, rfl, ?_⟩
      rw [front_append_of_settled (by simp [hupto]) (by simp [hupto]), hupto]
      rfl
    · rw [htake]
      rcases hbefore with hended | htruncated
      · refine ⟨_, readExactly_eq_error.mpr ⟨chars, code, _, hfew, hcode, rfl, ?_⟩,
          Or.inr ⟨chars.length, rfl⟩⟩
        rw [hended]
        rfl
      · refine ⟨_, readExactly_eq_error.mpr ⟨chars, code, _, hfew, hcode, rfl, ?_⟩, Or.inl rfl⟩
        rw [htruncated]
        rfl

end Charset

end WireFormat
