import WireFormat.Proofs.Charset.Reading

/-!
# Text that is cut short

A character or a byte that cannot stand where it does is settled by the bytes up to it, whatever
comes behind (`Charset.front_append_of_settled`). The bytes of a character that is cut short are
therefore seen as such, and so is the encoding of a text: of a part of it, a reader of as many
characters says that there are too few of them or that the last one is cut
(`Charset.readExactly_of_cut`), and never that a byte is wrong.
-/

set_option autoImplicit false
set_option relaxedAutoImplicit false

namespace WireFormat

/-- The error says that the bytes ended too early, and nothing else of them. -/
def ErrorKind.isCut : ErrorKind → Bool
  | .endOfBuffer _ _ | .endOfStream _ _ _ | .truncated _ => true
  | _ => false

/-! ### What is settled stays so -/

theorem Utf8.front_append_of_settled : {bytes : List UInt8} → front bytes ≠ .ended →
    front bytes ≠ .truncated → (more : List UInt8) → front (bytes ++ more) = front bytes
  | [], hended, _, _ => absurd rfl hended
  | [a], _, htruncated, more => by
    cases ha : sequenceLength? a with
    | none => simp [front, ha]
    | some n => rcases sequenceLength?_le_four ha with rfl | rfl | rfl | rfl <;> simp_all [front]
  | [a, b], _, htruncated, more => by
    cases ha : sequenceLength? a with
    | none => simp [front, ha]
    | some n => rcases sequenceLength?_le_four ha with rfl | rfl | rfl | rfl <;> simp_all [front]
  | [a, b, c], _, htruncated, more => by
    cases ha : sequenceLength? a with
    | none => simp [front, ha]
    | some n =>
      rcases sequenceLength?_le_four ha with rfl | rfl | rfl | rfl
      · simp [front, ha]
      · simp [front, ha]
      · simp [front, ha]
      · by_cases hb : isContinuation b <;> by_cases hc : isContinuation c <;> simp_all [front]
  | _ :: _ :: _ :: _ :: _, _, _, _ => rfl

theorem Utf16.front_append_of_settled {value : UInt8 → UInt8 → Nat} : {bytes : List UInt8} →
    front value bytes ≠ .ended → front value bytes ≠ .truncated → (more : List UInt8) →
    front value (bytes ++ more) = front value bytes
  | [], hended, _, _ => absurd rfl hended
  | [_], _, htruncated, _ => absurd rfl htruncated
  | [a, b], _, htruncated, more => by
    by_cases hhigh : isHighSurrogate (value a b) <;> simp_all [front]
  | [a, b, c], _, htruncated, more => by
    by_cases hhigh : isHighSurrogate (value a b) <;> simp_all [front]
  | _ :: _ :: _ :: _ :: _, _, _, _ => rfl

/-- Two parts, one behind the other, are cut within the first, or behind it. -/
theorem cut_append {α : Type} {first others part missing : List α}
    (h : first ++ others = part ++ missing) :
    (∃ lost, lost ≠ [] ∧ first = part ++ lost) ∨
      ∃ rest, part = first ++ rest ∧ others = rest ++ missing := by
  rcases List.append_eq_append_iff.mp h with ⟨rest, hpart, hothers⟩ | ⟨lost, hfirst, hmore⟩
  · exact Or.inr ⟨rest, hpart, hothers⟩
  · by_cases hlost : lost = []
    · subst hlost
      exact Or.inr ⟨[], by simpa using hfirst.symm, by simpa using hmore.symm⟩
    · exact Or.inl ⟨lost, hlost, hfirst⟩

namespace Charset

variable {charset : Charset} {bytes code part missing : List UInt8} {c : Char}
  {chars : List Char}

/-- Once it is clear how bytes begin, more bytes do not change it. -/
theorem front_append_of_settled (hended : charset.front bytes ≠ .ended)
    (htruncated : charset.front bytes ≠ .truncated) (more : List UInt8) :
    charset.front (bytes ++ more) = charset.front bytes := by
  cases charset with
  | ascii | latin1 =>
    cases bytes with
    | nil => exact absurd rfl hended
    | cons a as => rfl
  | utf8 => exact Utf8.front_append_of_settled hended htruncated more
  | utf16be | utf16le => exact Utf16.front_append_of_settled hended htruncated more

/-- A part of the bytes of a character is no character, and no byte of it is wrong. -/
theorem front_of_cut (h : charset.encodeChar? c = some (part ++ missing))
    (hmissing : missing ≠ []) :
    charset.front part = .ended ∨ charset.front part = .truncated := by
  by_contra hsettled
  obtain ⟨hended, htruncated⟩ := not_or.mp hsettled
  have hwhole := front_of_encodeChar? h []
  rw [List.append_nil, front_append_of_settled hended htruncated] at hwhole
  obtain ⟨-, -, hle⟩ := length_of_front hwhole
  rw [List.length_append] at hle
  exact hmissing (List.eq_nil_of_length_eq_zero (by omega))

/-! ### Readers of parts -/

/-- Of a part of the encoding of some characters fewer are read, or the last one is cut. -/
theorem readUpTo_of_cut (h : charset.encodeChars chars = .ok (part ++ missing))
    (hmissing : missing ≠ []) (start : Nat) :
    (∃ found stop, charset.readUpTo chars.length start part = .ok (found, stop) ∧
      found.length < chars.length) ∨
    charset.readUpTo chars.length start part = .error { kind := .truncated charset } := by
  induction chars generalizing part start with
  | nil =>
    have hnil := encodeChars_nil_eq_ok.mp h
    exact absurd (List.append_eq_nil_iff.mp hnil).2 hmissing
  | cons c chars ih =>
    obtain ⟨first, others, hchar, hothers, hcode⟩ := encodeChars_cons_eq_ok.mp h
    rw [List.length_cons]
    rcases cut_append hcode.symm with ⟨lost, hlost, rfl⟩ | ⟨rest, rfl, rfl⟩
    · rcases front_of_cut hchar hlost with hended | htruncated
      · exact Or.inl ⟨[], start, readUpTo_of_ended hended, Nat.succ_pos _⟩
      · exact Or.inr (by simp only [readUpTo, htruncated])
    · rw [readUpTo_of_char (front_of_encodeChar? hchar rest), List.drop_left]
      rcases ih hothers (start + first.length) with ⟨found, stop, hread, hfew⟩ | hread
      · rw [hread]
        exact Or.inl ⟨c :: found, stop, rfl, Nat.succ_lt_succ hfew⟩
      · rw [hread]
        exact Or.inr rfl

/-- A reader that would have found `count` characters in all bytes says of a part of them that the
bytes end too early. -/
theorem readExactly_of_cut {count : Nat}
    (h : charset.encodeChars chars = .ok (part ++ missing)) (hcount : chars.length = count)
    (hmissing : missing ≠ []) :
    ∃ e, charset.readExactly count part = .error e ∧ e.kind.isCut = true := by
  subst hcount
  rcases readUpTo_of_cut h hmissing 0 with ⟨found, stop, hread, hfew⟩ | hread
  · refine ⟨{ kind := .endOfStream "code points" found.length chars.length }, ?_, rfl⟩
    simp only [readExactly, hread, if_pos hfew]
  · refine ⟨{ kind := .truncated charset }, ?_, rfl⟩
    simp only [readExactly, hread]

end Charset

end WireFormat
