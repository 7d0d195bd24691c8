import WireFormat.Proofs.Charset.Decoding

/-!
# What a charset can represent

A charset has an encoding for the code points below a limit of its own, or for all of them.
Encoding succeeds where it represents every character of the text and stops at the first one that
it does not (`Charset.encodeChars_eq_error`). What it writes and what decoding accepts are the
same bytes, each of them for one text only: `Charset.encode_inverse_to_decode` is the statement of
both.
-/

set_option autoImplicit false
set_option relaxedAutoImplicit false

namespace WireFormat.Charset

/-- The charset has an encoding for the character. -/
def Represents : Charset → Char → Prop
  | .ascii, c => c.toNat < 0x80
  | .latin1, c => c.toNat < 0x100
  | .utf8, _ | .utf16be, _ | .utf16le, _ => True

variable {charset : Charset} {c : Char} {chars : List Char} {e : Error}

theorem encodeChar?_eq_none : charset.encodeChar? c = none ↔ ¬ charset.Represents c := by
  cases charset with
  | ascii => simp [encodeChar?, Represents, Nat.lt_succ_iff]
  | latin1 => simp [encodeChar?, Represents, Nat.lt_succ_iff]
  | _ => simp [encodeChar?, Represents]

/-- Behind a character with an encoding, encoding fails as it does for the other characters. -/
theorem encodeChars_cons_of_some {code : List UInt8} (h : charset.encodeChar? c = some code) :
    charset.encodeChars (c :: chars) = .error e ↔ charset.encodeChars chars = .error e := by
  cases hchars : charset.encodeChars chars <;> simp [encodeChars, h, hchars]

/-- The character at which an encoding fails is the first that is not represented. -/
theorem encodeChars_eq_error :
    charset.encodeChars chars = .error e ↔
      ∃ front c back, chars = front ++ c :: back ∧ (∀ a ∈ front, charset.Represents a) ∧
        ¬ charset.Represents c ∧ e = { kind := .unmappable charset c } := by
  induction chars with
  | nil => simp [encodeChars]
  | cons first others ih =>
    cases hfirst : charset.encodeChar? first with
    | none =>
      have hnot : ¬ charset.Represents first := encodeChar?_eq_none.mp hfirst
      simp only [encodeChars, hfirst, Except.error.injEq]
      constructor
      · rintro rfl
        exact ⟨[], first, others, rfl, by simp, hnot, rfl⟩
      · rintro ⟨front, c, back, hchars, hfront, -, rfl⟩
        -- The front is empty, as its first character would be represented.
        cases front with
        | nil =>
          obtain ⟨rfl, -⟩ := List.cons.inj hchars
          rfl
        | cons a front =>
          obtain ⟨rfl, -⟩ := List.cons.inj hchars
          exact absurd (hfront _ List.mem_cons_self) hnot
    | some code =>
      have hrepresents : charset.Represents first := by
        by_contra hnot
        rw [encodeChar?_eq_none.mpr hnot] at hfirst
        cases hfirst
      rw [encodeChars_cons_of_some hfirst, ih]
      constructor
      · rintro ⟨front, c, back, rfl, hfront, hnot, rfl⟩
        exact ⟨first :: front, c, back, rfl, List.forall_mem_cons.mpr ⟨hrepresents, hfront⟩, hnot,
          rfl⟩
      · rintro ⟨front, c, back, hchars, hfront, hnot, rfl⟩
        cases front with
        | nil =>
          obtain ⟨rfl, -⟩ := List.cons.inj hchars
          exact absurd hrepresents hnot
        | cons a front =>
          obtain ⟨-, rfl⟩ := List.cons.inj hchars
          exact ⟨front, c, back, rfl, (List.forall_mem_cons.mp hfront).2, hnot, rfl⟩

/-- The bytes of a text are the bytes of which it is the text, and a text without bytes is refused
for its first character that the charset does not represent. -/
theorem encode_inverse_to_decode (charset : Charset) (text : String) :
    (∀ bytes, charset.encode text = .ok bytes ↔ charset.decode bytes = .ok text) ∧
    ∀ e, charset.encode text = .error e ↔
      ∃ front c back, text.toList = front ++ c :: back ∧ (∀ a ∈ front, charset.Represents a) ∧
        ¬ charset.Represents c ∧ e = { kind := .unmappable charset c } :=
  ⟨fun _ ↦ ⟨decode_of_encode, encode_of_decode⟩, fun _ ↦ encodeChars_eq_error⟩

/-- The first of two characters above `U+00FF` is named. -/
example : Charset.latin1.encode "é€ł" = .error { kind := .unmappable .latin1 '€' } := by
  decide +kernel

end WireFormat.Charset
