import WireFormat.CodePointReader

/-!
# How bytes begin

The incremental decoders pull bytes one at a time and keep state between them. What they come to on
a list of bytes is decided by its first few bytes alone, and `Charset.front` says how, without
decoders: the bytes begin with a character, or all of them are the beginning of one, or a byte
stands where it cannot. `Pull.nextChar_front` is the agreement of the two. A front is settled by as
many bytes as the longest character of the charset takes (`Charset.front_append`).
-/

set_option autoImplicit false
set_option relaxedAutoImplicit false

namespace WireFormat

/-- How some bytes begin. -/
inductive Front where
  /-- There is no byte. -/
  | ended
  /-- The first `length` bytes are those of a character. -/
  | char (c : Char) (length : Nat)
  /-- The bytes are fewer than those of the character they begin. -/
  | truncated
  /-- The byte at `offset` cannot stand there. -/
  | malformed (offset : Nat)
  deriving DecidableEq, Repr

/-- The front of bytes of UTF-8. Whether the second byte fits the first is looked at only once the
sequence is complete. -/
def Utf8.front : List UInt8 → Front
  | [] => .ended
  | a :: as =>
    match sequenceLength? a with
    | none => .malformed 0
    | some 1 => .char (Char.ofNat a.toNat) 1
    | some 2 =>
      match as with
      | [] => .truncated
      | b :: _ => if isContinuation b then .char (Char.ofNat (value2 a b)) 2 else .malformed 1
    | some 3 =>
      match as with
      | [] => .truncated
      | b :: bs =>
        if isContinuation b then
          match bs with
          | [] => .truncated
          | c :: _ =>
            if isContinuation c && isSecondOfThree a b then .char (Char.ofNat (value3 a b c)) 3
            else .malformed 2
        else .malformed 1
    | some _ =>
      match as with
      | [] => .truncated
      | b :: bs =>
        if isContinuation b then
          match bs with
          | [] => .truncated
          | c :: cs =>
            if isContinuation c then
              match cs with
              | [] => .truncated
              | d :: _ =>
                if isContinuation d && isSecondOfFour a b then
                  .char (Char.ofNat (value4 a b c d)) 4
                else .malformed 3
            else .malformed 2
        else .malformed 1

theorem Utf8.sequenceLength?_le_four {a : UInt8} {length : Nat}
    (h : sequenceLength? a = some length) :
    length = 1 ∨ length = 2 ∨ length = 3 ∨ length = 4 := by
  unfold sequenceLength? at h
  grind

/-- The front of bytes of UTF-16 whose units `value` puts together. -/
def Utf16.front (value : UInt8 → UInt8 → Nat) : List UInt8 → Front
  | [] => .ended
  | [_] => .truncated
  | a :: b :: rest =>
    if isHighSurrogate (value a b) then
      match rest with
      | c :: d :: _ =>
        if isLowSurrogate (value c d) then
          .char (Char.ofNat (pairValue (value a b) (value c d))) 4
        else .malformed 3
      | _ => .truncated
    else if (value a b).isValidChar then .char (Char.ofNat (value a b)) 2
    else .malformed 1

/-- How bytes of a charset begin. -/
def Charset.front : Charset → List UInt8 → Front
  | .ascii, [] | .latin1, [] => .ended
  | .ascii, a :: _ => if a.toNat ≤ 0x7F then .char (Char.ofNat a.toNat) 1 else .malformed 0
  | .latin1, a :: _ => .char (Char.ofNat a.toNat) 1
  | .utf8, bytes => Utf8.front bytes
  | .utf16be, bytes => Utf16.front (fun a b ↦ a.toNat * 256 + b.toNat) bytes
  | .utf16le, bytes => Utf16.front (fun a b ↦ b.toNat * 256 + a.toNat) bytes

@[simp] theorem Charset.front_nil (charset : Charset) : charset.front [] = .ended := by
  cases charset <;> rfl

/-- As many bytes as the longest character takes settle how they begin. -/
theorem Charset.front_append {charset : Charset} {bytes : List UInt8}
    (h : charset.maxBytesPerCodePoint ≤ bytes.length) (more : List UInt8) :
    charset.front (bytes ++ more) = charset.front bytes := by
  cases charset with
  | ascii | latin1 =>
    match bytes, h with
    | a :: _, _ => rfl
  | utf8 | utf16be | utf16le =>
    match bytes, h with
    | a :: b :: c :: d :: _, _ => rfl

namespace Pull

/-! ### Units from a list of bytes -/

variable {charset : Charset} {need pulled : Nat} {decoder next : UnitDecoder} {byte : UInt8}
  {bytes : List UInt8}

theorem nextUnit_nil_of_idle :
    nextUnit ⟨⟨charset, [], need⟩, pulled, ([] : List UInt8)⟩ =
      .ok none ⟨⟨charset, [], need⟩, pulled, []⟩ := by
  rw [nextUnit]
  rfl

theorem nextUnit_nil_of_pending (h : decoder.pending ≠ []) :
    nextUnit ⟨decoder, pulled, ([] : List UInt8)⟩ = .error .truncated ⟨decoder, pulled, []⟩ := by
  have hpending : decoder.inSequence = true := by
    simpa [UnitDecoder.inSequence] using h
  rw [nextUnit]
  exact if_pos hpending

theorem nextUnit_of_unit {value : Nat} (h : decoder.push byte = (.unit value, next)) :
    nextUnit ⟨decoder, pulled, byte :: bytes⟩ = .ok (some value) ⟨next, pulled + 1, bytes⟩ := by
  rw [nextUnit]
  simp only [ByteSupply.next?, h]

theorem nextUnit_of_invalid (h : decoder.push byte = (.invalid, next)) :
    nextUnit ⟨decoder, pulled, byte :: bytes⟩ = .error .malformed ⟨next, pulled + 1, bytes⟩ := by
  rw [nextUnit]
  simp only [ByteSupply.next?, h]

theorem nextUnit_of_more (h : decoder.push byte = (.more, next)) :
    nextUnit ⟨decoder, pulled, byte :: bytes⟩ = nextUnit ⟨next, pulled + 1, bytes⟩ := by
  rw [nextUnit]
  simp only [ByteSupply.next?, h]

/-! ### Characters from a list of bytes -/

/-- The outcome of pulling a character is the one that the front of the bytes foretells. After a
character and after a byte that cannot stand where it does, the decoder is between characters. -/
def Foretells (charset : Charset) (pulled : Nat) (bytes : List UInt8) :
    Front → EStateM.Result Stop (Pull (List UInt8)) (Option Char) → Prop
  | .ended, result => ∃ need, result = .ok none ⟨⟨charset, [], need⟩, pulled, bytes⟩
  | .char c length, result =>
    ∃ need, result = .ok (some c) ⟨⟨charset, [], need⟩, pulled + length, bytes.drop length⟩
  | .truncated, result =>
    ∃ decoder, result = .error .truncated ⟨decoder, pulled + bytes.length, []⟩
  | .malformed offset, result =>
    ∃ need, result =
      .error .malformed ⟨⟨charset, [], need⟩, pulled + (offset + 1), bytes.drop (offset + 1)⟩

theorem nextChar_of_end {pull next : Pull (List UInt8)} (h : pull.nextUnit = .ok none next) :
    pull.nextChar = .ok none next := by
  simp only [nextChar, h]

theorem nextChar_of_stop {pull next : Pull (List UInt8)} {stop : Stop}
    (h : pull.nextUnit = .error stop next) : pull.nextChar = .error stop next := by
  simp only [nextChar, h]

/-- A unit that is not half of a pair is a character or is refused. -/
theorem nextChar_of_whole {pull after : Pull (List UInt8)} {unit : Nat}
    (h : pull.nextUnit = .ok (some unit) after)
    (hunit : (after.decoder.charset.hasSurrogates && Utf16.isHighSurrogate unit) = false) :
    pull.nextChar = charOf unit after := by
  simp only [nextChar, h, hunit, Bool.false_eq_true, if_false]

theorem charOf_of_valid {σ : Type} {value : Nat} (h : value.isValidChar) (pull : Pull σ) :
    charOf value pull = .ok (some (Char.ofNat value)) pull :=
  if_pos h

theorem charOf_of_not_valid {σ : Type} {value : Nat} (h : ¬ value.isValidChar) (pull : Pull σ) :
    charOf value pull = .error .malformed pull :=
  if_neg h

theorem isValidChar_of_byte (byte : UInt8) : byte.toNat.isValidChar :=
  Or.inl (Nat.lt_trans byte.toNat_lt (by decide))

/-! ### One byte to a character -/

theorem nextChar_ascii :
    Foretells .ascii pulled bytes (Charset.ascii.front bytes)
      (nextChar ⟨⟨.ascii, [], need⟩, pulled, bytes⟩) := by
  cases bytes with
  | nil => exact ⟨need, nextChar_of_end nextUnit_nil_of_idle⟩
  | cons a as =>
    by_cases ha : a.toNat ≤ 0x7F
    · have hpush : (UnitDecoder.mk .ascii [] need).push a =
          (.unit a.toNat, ⟨.ascii, [], need⟩) := by
        simp [UnitDecoder.push, ha]
      simp only [Charset.front, if_pos ha]
      refine ⟨need, ?_⟩
      rw [nextChar_of_whole (nextUnit_of_unit hpush) rfl, charOf_of_valid (isValidChar_of_byte a)]
      rfl
    · have hpush : (UnitDecoder.mk .ascii [] need).push a = (.invalid, ⟨.ascii, [], need⟩) := by
        simp [UnitDecoder.push, ha]
      simp only [Charset.front, if_neg ha]
      exact ⟨need, nextChar_of_stop (nextUnit_of_invalid hpush)⟩

theorem nextChar_latin1 :
    Foretells .latin1 pulled bytes (Charset.latin1.front bytes)
      (nextChar ⟨⟨.latin1, [], need⟩, pulled, bytes⟩) := by
  cases bytes with
  | nil => exact ⟨need, nextChar_of_end nextUnit_nil_of_idle⟩
  | cons a as =>
    have hpush : (UnitDecoder.mk .latin1 [] need).push a =
        (.unit a.toNat, ⟨.latin1, [], need⟩) := rfl
    refine ⟨need, ?_⟩
    rw [nextChar_of_whole (nextUnit_of_unit hpush) rfl, charOf_of_valid (isValidChar_of_byte a)]
    rfl

/-! ### Sequences of UTF-8 -/

section Utf8

open Utf8

variable {a b c d : UInt8} {pending : List UInt8}

theorem firstChar?_two (ha : sequenceLength? a = some 2) (hb : isContinuation b = true) :
    firstChar? [a, b] = some (Char.ofNat (value2 a b)) := by
  simp [firstChar?, parse, ha, hb, Parse.cons, Parse.stop]

theorem firstChar?_three (ha : sequenceLength? a = some 3) (hc : isContinuation c = true) :
    firstChar? [a, b, c] =
      if isSecondOfThree a b then some (Char.ofNat (value3 a b c)) else none := by
  by_cases hb : isSecondOfThree a b <;>
    simp [firstChar?, parse, ha, hb, hc, Parse.cons, Parse.stop]

theorem firstChar?_four (ha : sequenceLength? a = some 4) (hc : isContinuation c = true)
    (hd : isContinuation d = true) :
    firstChar? [a, b, c, d] =
      if isSecondOfFour a b then some (Char.ofNat (value4 a b c d)) else none := by
  by_cases hb : isSecondOfFour a b <;>
    simp [firstChar?, parse, ha, hb, hc, hd, Parse.cons, Parse.stop]

theorem push_stray (ha : sequenceLength? a = none) :
    (UnitDecoder.mk .utf8 [] need).push a = (.invalid, ⟨.utf8, [], need⟩) := by
  simp [UnitDecoder.push, UnitDecoder.pushUtf8, ha]

theorem push_single (ha : sequenceLength? a = some 1) :
    (UnitDecoder.mk .utf8 [] need).push a = (.unit a.toNat, ⟨.utf8, [], need⟩) := by
  simp [UnitDecoder.push, UnitDecoder.pushUtf8, ha]

theorem push_lead {more : Nat} (ha : sequenceLength? a = some (more + 2)) :
    (UnitDecoder.mk .utf8 [] need).push a = (.more, ⟨.utf8, [a], more + 2⟩) := by
  simp [UnitDecoder.push, UnitDecoder.pushUtf8, ha, UnitDecoder.extendUtf8]

theorem push_refused (hpending : pending ≠ []) (hb : isContinuation b = false) :
    (UnitDecoder.mk .utf8 pending need).push b = (.invalid, ⟨.utf8, [], need⟩) := by
  simp [UnitDecoder.push, UnitDecoder.pushUtf8, hpending, hb]

theorem push_more (hpending : pending ≠ []) (hb : isContinuation b = true)
    (hneed : pending.length + 1 < need) :
    (UnitDecoder.mk .utf8 pending need).push b = (.more, ⟨.utf8, pending ++ [b], need⟩) := by
  simp [UnitDecoder.push, UnitDecoder.pushUtf8, hpending, hb, UnitDecoder.extendUtf8, hneed]

theorem push_last (hpending : pending ≠ []) (hb : isContinuation b = true)
    (hneed : pending.length + 1 = need) {c : Char} (hc : firstChar? (pending ++ [b]) = some c) :
    (UnitDecoder.mk .utf8 pending need).push b = (.unit c.toNat, ⟨.utf8, [], need⟩) := by
  simp [UnitDecoder.push, UnitDecoder.pushUtf8, hpending, hb, UnitDecoder.extendUtf8, hneed, hc]

theorem push_last_of_none (hpending : pending ≠ []) (hb : isContinuation b = true)
    (hneed : pending.length + 1 = need) (hc : firstChar? (pending ++ [b]) = none) :
    (UnitDecoder.mk .utf8 pending need).push b = (.invalid, ⟨.utf8, [], need⟩) := by
  simp [UnitDecoder.push, UnitDecoder.pushUtf8, hpending, hb, UnitDecoder.extendUtf8, hneed, hc]

/-- In a charset without pairs a unit that is the number of a character is that character. -/
theorem nextChar_of_char {pull after : Pull (List UInt8)} {c : Char}
    (h : pull.nextUnit = .ok (some c.toNat) after)
    (hcharset : after.decoder.charset.hasSurrogates = false) :
    pull.nextChar = .ok (some c) after := by
  rw [nextChar_of_whole h (by rw [hcharset, Bool.false_and]),
    charOf_of_valid (show c.toNat.isValidChar from c.valid), Char.ofNat_toNat]

/-! The next four lemmas tell how a sequence under way goes on: it ends too early, it meets a byte
that is no continuation, or its last byte completes it to a character or to none. -/

section UnderWay

variable {pull : Pull (List UInt8)}

theorem nextChar_cut (hpending : pending ≠ [])
    (h : pull.nextUnit = nextUnit ⟨⟨.utf8, pending, need⟩, pulled, []⟩) :
    pull.nextChar = .error .truncated ⟨⟨.utf8, pending, need⟩, pulled, []⟩ :=
  nextChar_of_stop (h.trans (nextUnit_nil_of_pending hpending))

theorem nextChar_refused (hpending : pending ≠ [])
    (h : pull.nextUnit = nextUnit ⟨⟨.utf8, pending, need⟩, pulled, b :: bytes⟩)
    (hb : isContinuation b = false) :
    pull.nextChar = .error .malformed ⟨⟨.utf8, [], need⟩, pulled + 1, bytes⟩ :=
  nextChar_of_stop (h.trans (nextUnit_of_invalid (push_refused hpending hb)))

theorem nextChar_complete (hpending : pending ≠ [])
    (h : pull.nextUnit = nextUnit ⟨⟨.utf8, pending, need⟩, pulled, b :: bytes⟩)
    (hb : isContinuation b = true) (hneed : pending.length + 1 = need) {c : Char}
    (hc : firstChar? (pending ++ [b]) = some c) :
    pull.nextChar = .ok (some c) ⟨⟨.utf8, [], need⟩, pulled + 1, bytes⟩ :=
  nextChar_of_char (h.trans (nextUnit_of_unit (push_last hpending hb hneed hc))) rfl

theorem nextChar_no_char (hpending : pending ≠ [])
    (h : pull.nextUnit = nextUnit ⟨⟨.utf8, pending, need⟩, pulled, b :: bytes⟩)
    (hb : isContinuation b = true) (hneed : pending.length + 1 = need)
    (hc : firstChar? (pending ++ [b]) = none) :
    pull.nextChar = .error .malformed ⟨⟨.utf8, [], need⟩, pulled + 1, bytes⟩ :=
  nextChar_of_stop (h.trans (nextUnit_of_invalid (push_last_of_none hpending hb hneed hc)))

end UnderWay

/-- The first byte of a longer sequence is kept. -/
theorem nextUnit_lead {more : Nat} (ha : sequenceLength? a = some (more + 2)) :
    nextUnit ⟨⟨.utf8, [], need⟩, pulled, a :: bytes⟩ =
      nextUnit ⟨⟨.utf8, [a], more + 2⟩, pulled + 1, bytes⟩ :=
  nextUnit_of_more (push_lead ha)

/-- A continuation byte before the last is kept. -/
theorem nextUnit_continuation {pull : Pull (List UInt8)} (hpending : pending ≠ [])
    (h : pull.nextUnit = nextUnit ⟨⟨.utf8, pending, need⟩, pulled, b :: bytes⟩)
    (hb : isContinuation b = true) (hneed : pending.length + 1 < need) :
    pull.nextUnit = nextUnit ⟨⟨.utf8, pending ++ [b], need⟩, pulled + 1, bytes⟩ :=
  h.trans (nextUnit_of_more (push_more hpending hb hneed))

theorem nextChar_two {as : List UInt8} (ha : sequenceLength? a = some 2) :
    Foretells .utf8 pulled (a :: as) (Utf8.front (a :: as))
      (nextChar ⟨⟨.utf8, [], need⟩, pulled, a :: as⟩) := by
  have hfirst : nextUnit ⟨⟨.utf8, [], need⟩, pulled, a :: as⟩ =
      nextUnit ⟨⟨.utf8, [a], 2⟩, _, as⟩ :=
    nextUnit_lead ha
  cases as with
  | nil =>
    simp only [Utf8.front, ha]
    exact ⟨_, nextChar_cut (by simp) hfirst⟩
  | cons b bs =>
    cases hb : isContinuation b with
    | false =>
      simp only [Utf8.front, ha, hb, Bool.false_eq_true, if_false]
      exact ⟨2, nextChar_refused (by simp) hfirst hb⟩
    | true =>
      simp only [Utf8.front, ha, hb, if_true]
      exact ⟨2, nextChar_complete (by simp) hfirst hb rfl (firstChar?_two ha hb)⟩

theorem nextChar_three {as : List UInt8} (ha : sequenceLength? a = some 3) :
    Foretells .utf8 pulled (a :: as) (Utf8.front (a :: as))
      (nextChar ⟨⟨.utf8, [], need⟩, pulled, a :: as⟩) := by
  have hfirst : nextUnit ⟨⟨.utf8, [], need⟩, pulled, a :: as⟩ =
      nextUnit ⟨⟨.utf8, [a], 3⟩, _, as⟩ :=
    nextUnit_lead ha
  cases as with
  | nil =>
    simp only [Utf8.front, ha]
    exact ⟨_, nextChar_cut (by simp) hfirst⟩
  | cons b bs =>
    cases hb : isContinuation b with
    | false =>
      simp only [Utf8.front, ha, hb, Bool.false_eq_true, if_false]
      exact ⟨3, nextChar_refused (by simp) hfirst hb⟩
    | true =>
      have hsecond := nextUnit_continuation (by simp) hfirst hb (by simp)
      cases bs with
      | nil =>
        simp only [Utf8.front, ha, hb, if_true]
        exact ⟨_, nextChar_cut (by simp) hsecond⟩
      | cons c cs =>
        cases hc : isContinuation c with
        | false =>
          simp only [Utf8.front, ha, hb, hc, Bool.false_and, Bool.false_eq_true, if_true,
            if_false]
          exact ⟨3, nextChar_refused (by simp) hsecond hc⟩
        | true =>
          have hchar := firstChar?_three (b := b) ha hc
          cases hsequence : isSecondOfThree a b with
          | false =>
            simp only [Utf8.front, ha, hb, hc, hsequence, Bool.and_false, Bool.false_eq_true,
              if_true, if_false] at hchar ⊢
            exact ⟨3, nextChar_no_char (by simp) hsecond hc rfl hchar⟩
          | true =>
            simp only [Utf8.front, ha, hb, hc, hsequence, Bool.and_true, if_true] at hchar ⊢
            exact ⟨3, nextChar_complete (by simp) hsecond hc rfl hchar⟩

theorem nextChar_four {as : List UInt8} (ha : sequenceLength? a = some 4) :
    Foretells .utf8 pulled (a :: as) (Utf8.front (a :: as))
      (nextChar ⟨⟨.utf8, [], need⟩, pulled, a :: as⟩) := by
  have hfirst : nextUnit ⟨⟨.utf8, [], need⟩, pulled, a :: as⟩ =
      nextUnit ⟨⟨.utf8, [a], 4⟩, _, as⟩ :=
    nextUnit_lead ha
  cases as with
  | nil =>
    simp only [Utf8.front, ha]
    exact ⟨_, nextChar_cut (by simp) hfirst⟩
  | cons b bs =>
    cases hb : isContinuation b with
    | false =>
      simp only [Utf8.front, ha, hb, Bool.false_eq_true, if_false]
      exact ⟨4, nextChar_refused (by simp) hfirst hb⟩
    | true =>
      have hsecond := nextUnit_continuation (by simp) hfirst hb (by simp)
      cases bs with
      | nil =>
        simp only [Utf8.front, ha, hb, if_true]
        exact ⟨_, nextChar_cut (by simp) hsecond⟩
      | cons c cs =>
        cases hc : isContinuation c with
        | false =>
          simp only [Utf8.front, ha, hb, hc, Bool.false_eq_true, if_true, if_false]
          exact ⟨4, nextChar_refused (by simp) hsecond hc⟩
        | true =>
          have hthird := nextUnit_continuation (by simp) hsecond hc (by simp)
          cases cs with
          | nil =>
            simp only [Utf8.front, ha, hb, hc, if_true]
            exact ⟨_, nextChar_cut (by simp) hthird⟩
          | cons d ds =>
            cases hd : isContinuation d with
            | false =>
              simp only [Utf8.front, ha, hb, hc, hd, Bool.false_and, Bool.false_eq_true, if_true,
                if_false]
              exact ⟨4, nextChar_refused (by simp) hthird hd⟩
            | true =>
              have hchar := firstChar?_four (b := b) ha hc hd
              cases hsequence : isSecondOfFour a b with
              | false =>
                simp only [Utf8.front, ha, hb, hc, hd, hsequence, Bool.and_false,
                  Bool.false_eq_true, if_true, if_false] at hchar ⊢
                exact ⟨4, nextChar_no_char (by simp) hthird hd rfl hchar⟩
              | true =>
                simp only [Utf8.front, ha, hb, hc, hd, hsequence, Bool.and_true, if_true]
                  at hchar ⊢
                exact ⟨4, nextChar_complete (by simp) hthird hd rfl hchar⟩

theorem nextChar_utf8 :
    Foretells .utf8 pulled bytes (Charset.utf8.front bytes)
      (nextChar ⟨⟨.utf8, [], need⟩, pulled, bytes⟩) := by
  cases bytes with
  | nil => exact ⟨need, nextChar_of_end nextUnit_nil_of_idle⟩
  | cons a as =>
    show Foretells .utf8 pulled (a :: as) (Utf8.front (a :: as)) _
    cases ha : sequenceLength? a with
    | none =>
      simp only [Utf8.front, ha]
      exact ⟨need, nextChar_of_stop (nextUnit_of_invalid (push_stray ha))⟩
    | some length =>
      rcases sequenceLength?_le_four ha with rfl | rfl | rfl | rfl
      · simp only [Utf8.front, ha]
        refine ⟨need, ?_⟩
        rw [nextChar_of_whole (nextUnit_of_unit (push_single ha)) rfl,
          charOf_of_valid (isValidChar_of_byte a)]
        rfl
      · exact nextChar_two ha
      · exact nextChar_three ha
      · exact nextChar_four ha

end Utf8

/-! ### Units of UTF-16 -/

section Utf16

open Utf16

variable {value : UInt8 → UInt8 → Nat}

/-- In a charset of sixteen-bit units two bytes are a unit. -/
theorem nextUnit_pair
    (hpush : ∀ (decoder : UnitDecoder) byte, decoder.charset = charset →
      decoder.push byte = decoder.pushUtf16 value byte) (a b : UInt8) :
    nextUnit ⟨⟨charset, [], need⟩, pulled, a :: b :: bytes⟩ =
      .ok (some (value a b)) ⟨⟨charset, [], need⟩, pulled + 2, bytes⟩ := by
  have hfirst : (UnitDecoder.mk charset [] need).push a = (.more, ⟨charset, [a], need⟩) :=
    hpush _ a rfl
  have hsecond : (UnitDecoder.mk charset [a] need).push b =
      (.unit (value a b), ⟨charset, [], need⟩) :=
    hpush _ b rfl
  rw [nextUnit_of_more hfirst, nextUnit_of_unit hsecond]

theorem nextUnit_half
    (hpush : ∀ (decoder : UnitDecoder) byte, decoder.charset = charset →
      decoder.push byte = decoder.pushUtf16 value byte) (a : UInt8) :
    nextUnit ⟨⟨charset, [], need⟩, pulled, [a]⟩ =
      .error .truncated ⟨⟨charset, [a], need⟩, pulled + 1, []⟩ := by
  have hfirst : (UnitDecoder.mk charset [] need).push a = (.more, ⟨charset, [a], need⟩) :=
    hpush _ a rfl
  rw [nextUnit_of_more hfirst, nextUnit_nil_of_pending (by simp)]

/-- The number of a pair is always that of a character. -/
theorem isValidChar_pairValue {high low : Nat} (hhigh : isHighSurrogate high = true)
    (hlow : isLowSurrogate low = true) : (pairValue high low).isValidChar := by
  simp only [isHighSurrogate, isLowSurrogate, Bool.and_eq_true, decide_eq_true_eq] at hhigh hlow
  refine Or.inr ⟨?_, ?_⟩ <;> unfold pairValue <;> omega

theorem nextChar_utf16 (hsurrogates : charset.hasSurrogates = true)
    (hpush : ∀ (decoder : UnitDecoder) byte, decoder.charset = charset →
      decoder.push byte = decoder.pushUtf16 value byte) :
    Foretells charset pulled bytes (Utf16.front value bytes)
      (nextChar ⟨⟨charset, [], need⟩, pulled, bytes⟩) := by
  match bytes with
  | [] => exact ⟨need, nextChar_of_end nextUnit_nil_of_idle⟩
  | [a] => exact ⟨_, nextChar_of_stop (nextUnit_half hpush a)⟩
  | a :: b :: rest =>
    have hunit : nextUnit ⟨⟨charset, [], need⟩, pulled, a :: b :: rest⟩ = _ :=
      nextUnit_pair hpush a b
    cases hhigh : isHighSurrogate (value a b) with
    | false =>
      have hwhole := nextChar_of_whole hunit (by rw [hhigh, Bool.and_false])
      by_cases hvalid : (value a b).isValidChar
      · simp only [Utf16.front, hhigh, Bool.false_eq_true, if_false, if_pos hvalid]
        exact ⟨need, hwhole.trans (charOf_of_valid hvalid _)⟩
      · simp only [Utf16.front, hhigh, Bool.false_eq_true, if_false, if_neg hvalid]
        exact ⟨need, hwhole.trans (charOf_of_not_valid hvalid _)⟩
    | true =>
      match rest with
      | [] =>
        simp only [Utf16.front, hhigh, if_true]
        refine ⟨⟨charset, [], need⟩, ?_⟩
        simp only [nextChar, hunit, hsurrogates, hhigh, Bool.and_self, if_true,
          nextUnit_nil_of_idle]
        rfl
      | [c] =>
        simp only [Utf16.front, hhigh, if_true]
        refine ⟨⟨charset, [c], need⟩, ?_⟩
        simp only [nextChar, hunit, hsurrogates, hhigh, Bool.and_self, if_true,
          nextUnit_half hpush c]
        rfl
      | c :: d :: rest =>
        cases hlow : isLowSurrogate (value c d) with
        | false =>
          simp only [Utf16.front, hhigh, hlow, if_true, Bool.false_eq_true, if_false]
          refine ⟨need, ?_⟩
          simp only [nextChar, hunit, hsurrogates, hhigh, hlow, Bool.and_self, if_true,
            Bool.false_eq_true, if_false, nextUnit_pair hpush c d]
          rfl
        | true =>
          simp only [Utf16.front, hhigh, hlow, if_true]
          refine ⟨need, ?_⟩
          simp only [nextChar, hunit, hsurrogates, hhigh, hlow, Bool.and_self, if_true,
            nextUnit_pair hpush c d, charOf_of_valid (isValidChar_pairValue hhigh hlow)]
          rfl

end Utf16

/-- Between characters, a decoder comes to what the front of the bytes foretells. -/
theorem nextChar_front (charset : Charset) (need pulled : Nat) (bytes : List UInt8) :
    Foretells charset pulled bytes (charset.front bytes)
      (nextChar ⟨⟨charset, [], need⟩, pulled, bytes⟩) := by
  cases charset with
  | ascii => exact nextChar_ascii
  | latin1 => exact nextChar_latin1
  | utf8 => exact nextChar_utf8
  | utf16be =>
    exact nextChar_utf16 rfl fun decoder byte h ↦ by simp only [UnitDecoder.push, h]
  | utf16le =>
    exact nextChar_utf16 rfl fun decoder byte h ↦ by simp only [UnitDecoder.push, h]

end Pull

end WireFormat
