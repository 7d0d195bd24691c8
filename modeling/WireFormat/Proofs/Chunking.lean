import WireFormat.Codec.Decode
import WireFormat.Proofs.CountedReading
import WireFormat.Proofs.Hereditary
import WireFormat.Proofs.TwoRuns

/-!
# Chunks do not matter

Whatever a codec reads, two sources with the same bytes in different chunks give the same value or
the same failure, and after a success the same bytes are left (`Codec.decode_of_same_bytes`). This
is shown rule by rule: of raw reads (`Source.respects_getByte`, `Source.respects_getBytes`), of
leaves (`Leaf.respects_decode`), of the repetitions (`Decoding.respects_itemsToEnd`,
`Decoding.respects_entriesToEnd`), from where it passes to everything else
(`Decoding.hereditary_respects`). Only text looks at chunks, to choose its strategy; there the
agreement of the two strategies is what carries the argument.
-/

set_option autoImplicit false
set_option relaxedAutoImplicit false

namespace WireFormat

namespace Source

/-- Sources with the same bytes, no more of them than a machine word counts. Nothing is asked of
what a failed read leaves. -/
def sameBytes : TwoRuns Source where
  same a b := a.bytes = b.bytes ∧ a.remaining ≤ maxWord
  left _ _ := True
  left_of_same _ := trivial

variable {a b a' b' : Source} {n : Nat}

theorem remaining_eq_of_same (h : sameBytes.same a b) : a.remaining = b.remaining := by
  rw [remaining_eq_length, remaining_eq_length, h.1]

/-- Sources stay the same when as many bytes are taken off both. -/
theorem same_of_drop (h : sameBytes.same a b) (ha : a'.bytes = a.bytes.drop n)
    (hb : b'.bytes = b.bytes.drop n) : sameBytes.same a' b' := by
  obtain ⟨hbytes, hword⟩ := h
  refine ⟨by rw [ha, hb, hbytes], ?_⟩
  rw [remaining_eq_length] at hword ⊢
  rw [ha, List.length_drop]
  omega

/-! ### Raw reads -/

theorem respects_atLeast (n : Nat) : sameBytes.Respects (atLeast n) := by
  refine TwoRuns.respects_get_bind (fun a b h ↦ ?_) fun a ↦ ?_
  · rw [remaining_eq_of_same h]
  · exact TwoRuns.respects_ite (TwoRuns.respects_fail _) (TwoRuns.respects_pure _)

theorem respects_getByte : sameBytes.Respects getByte := by
  intro a b h
  cases hbytes : a.bytes with
  | nil =>
    have hb : b.bytes = [] := h.1.symm.trans hbytes
    simp only [getByte, next?_of_nil hbytes, next?_of_nil hb]
    exact TwoRuns.alike_error _ trivial
  | cons byte others =>
    obtain ⟨a', ha, ha'⟩ := getByte_of_cons hbytes
    obtain ⟨b', hb, hb'⟩ := getByte_of_cons (h.1.symm.trans hbytes)
    rw [ha, hb]
    refine TwoRuns.alike_ok byte (same_of_drop (n := 1) h ?_ ?_)
    · rw [ha', hbytes, List.drop_succ_cons, List.drop_zero]
    · rw [hb', ← h.1, hbytes, List.drop_succ_cons, List.drop_zero]

theorem respects_getBytes (n : Nat) : sameBytes.Respects (getBytes n) := by
  intro a b h
  by_cases hn : n ≤ a.bytes.length
  · obtain ⟨a', ha, ha'⟩ := getBytes_of_le hn
    obtain ⟨b', hb, hb'⟩ := getBytes_of_le (h.1 ▸ hn)
    rw [ha, hb, h.1]
    exact TwoRuns.alike_ok _ (same_of_drop h ha' hb')
  · rw [getBytes_of_lt (Nat.lt_of_not_le hn), getBytes_of_lt (h.1 ▸ Nat.lt_of_not_le hn)]
    exact TwoRuns.alike_error _ trivial

theorem respects_take (n : Nat) : sameBytes.Respects (take n) :=
  TwoRuns.respects_bind (respects_atLeast n) fun _ ↦ respects_getBytes n

theorem respects_takeAll : sameBytes.Respects takeAll := by
  refine TwoRuns.respects_get_bind (fun a b h ↦ ?_) fun a ↦ respects_getBytes _
  rw [remaining_eq_of_same h]

end Source

open Source TwoRuns

/-! ### Leaves -/

/-- A reader that chooses its strategy by the chunks comes to the same for all chunks. -/
theorem CodePointReader.respects_read_on (charset : Charset) (count : Nat) :
    sameBytes.Respects (do (on (← get) charset).read count) := by
  intro a b h
  rw [get_bind_apply, get_bind_apply]
  have hword : b.remaining ≤ maxWord := remaining_eq_of_same h ▸ h.2
  have hsuits := (suits_of_withStrategy (withStrategy_on a charset)).2
  have hsuits' := (suits_of_withStrategy (withStrategy_on b charset)).2
  cases hread : charset.readExactly count a.bytes with
  | ok found =>
    obtain ⟨a', ha, ha'⟩ := read_of_ok (n := found.2) hsuits h.2 hread
    obtain ⟨b', hb, hb'⟩ := read_of_ok (n := found.2) hsuits' hword (h.1 ▸ hread)
    rw [ha, hb]
    exact alike_ok _ (same_of_drop h ha' hb')
  | error e =>
    obtain ⟨a', ha, -⟩ := read_of_error hsuits h.2 hread
    obtain ⟨b', hb, -⟩ := read_of_error hsuits' hword (h.1 ▸ hread)
    rw [ha, hb]
    exact alike_error _ trivial

theorem Varint.respects_readFrom (width shift value : Nat) :
    sameBytes.Respects (readFrom width shift value) := by
  induction hroom : width - shift using Nat.strongRecOn generalizing shift value with
  | ind room ih =>
    rw [readFrom]
    by_cases hend : width ≤ shift
    · rw [if_pos hend]
      exact respects_fail _
    · rw [if_neg hend]
      refine respects_bind (respects_atLeast 1) fun _ ↦ ?_
      refine respects_bind respects_getByte fun byte ↦ ?_
      refine respects_ite (respects_fail _) (respects_ite ?_ ?_)
      · exact respects_ite (respects_pure _) (respects_fail _)
      · exact ih (width - (shift + 7)) (by omega) _ _ rfl

theorem LengthWidth.respects_decode (width : LengthWidth) : sameBytes.Respects width.decode := by
  unfold LengthWidth.decode
  cases width.byteCount? with
  | none => exact Varint.respects_readFrom 32 0 0
  | some n => exact respects_bind (respects_take n) fun _ ↦ respects_pure _

theorem PackedDigits.respects_digitAt (format : PackedDigits) (index nibble : Nat) :
    sameBytes.Respects (format.digitAt index nibble) := by
  unfold digitAt
  refine respects_ite (respects_pure _) ?_
  cases format.alphabet.digit? nibble with
  | none => exact respects_fail _
  | some c => exact respects_pure _

theorem PackedDigits.respects_readBytes (format : PackedDigits) (left index : Nat) :
    sameBytes.Respects (format.readBytes left index) := by
  induction left generalizing index with
  | zero => exact respects_pure _
  | succ left ih =>
    refine respects_bind respects_getByte fun byte ↦ ?_
    refine respects_bind (format.respects_digitAt _ _) fun high ↦ ?_
    refine respects_bind (format.respects_digitAt _ _) fun low ↦ ?_
    exact respects_bind (ih (index + 1)) fun rest ↦ respects_pure _

theorem Leaf.respects_decode {α : Type} (leaf : Leaf α) : sameBytes.Respects leaf.decode := by
  cases leaf with
  | word n => exact respects_bind (respects_take n) fun _ ↦ respects_pure _
  | bool =>
    refine respects_bind (respects_atLeast 1) fun _ ↦ ?_
    refine respects_bind respects_getByte fun byte ↦ ?_
    refine respects_ite (respects_pure _) (respects_ite (respects_pure _) ?_)
    exact respects_fail _
  | length width => exact width.respects_decode
  | varint width =>
    exact respects_bind (Varint.respects_readFrom width 0 0) fun _ ↦ respects_pure _
  | signedVarint width =>
    exact respects_bind (Varint.respects_readFrom width 0 0) fun _ ↦ respects_pure _
  | bytes count => exact respects_take count
  | remainingBytes => exact respects_takeAll
  | fail => exact respects_fail _
  | text charset count => exact CodePointReader.respects_read_on charset count
  | remainingText charset =>
    exact respects_bind respects_takeAll fun _ ↦ respects_ofExcept _
  | padded format =>
    refine respects_bind (respects_take _) fun bytes ↦ ?_
    exact respects_bind (respects_ofExcept _) fun text ↦ respects_pure _
  | digits format =>
    refine respects_bind (respects_atLeast _) fun _ ↦ ?_
    exact respects_bind (format.respects_readBytes _ _) fun chars ↦ respects_pure _

/-! ### Stages -/

/-- Stages whose sources have the same bytes and whose references are in the same state. -/
def Stage.sameBytes : TwoRuns (Stage Source) where
  same a b := Source.sameBytes.same a.stream b.stream ∧ a.cells = b.cells
  left a b := a.cells = b.cells
  left_of_same h := h.2

theorem Stage.remaining_eq_of_same {a b : Stage Source} (h : Stage.sameBytes.same a b) :
    a.stream.remaining = b.stream.remaining :=
  Source.remaining_eq_of_same h.1

theorem Stage.respects_onStream {α : Type} {action : Action Source α}
    (h : Source.sameBytes.Respects action) : Stage.sameBytes.Respects (onStream action) := by
  intro a b hsame
  rcases h _ _ hsame.1 with ⟨value, a', b', hafter, ha, hb⟩ | ⟨failure, a', b', -, ha, hb⟩
  · rw [onStream_of_ok ha, onStream_of_ok hb]
    exact alike_ok value ⟨hafter, hsame.2⟩
  · rw [onStream_of_error ha, onStream_of_error hb]
    exact alike_error failure hsame.2

theorem Stage.respects_onCells {α : Type} (action : Action Cells α) :
    Stage.sameBytes.Respects (onCells action : Action (Stage Source) α) := by
  intro a b hsame
  unfold onCells
  rw [hsame.2]
  cases action b.cells with
  | ok value cells => exact alike_ok value ⟨hsame.1, rfl⟩
  | error failure cells => exact alike_error failure rfl

namespace Decoding

variable {α : Type}

/-- A frame is read from a source of its own, which is the same in both runs. -/
theorem respects_inFrame (frame : List UInt8) (inner : Decoding α) :
    Stage.sameBytes.Respects (inFrame frame inner) := by
  have hother : Stage.sameBytes.Respects
      (Stage.onOther (Source.ofBytes frame) inner : Decoding (α × Source)) := by
    intro a b hsame
    unfold Stage.onOther
    rw [hsame.2]
    cases inner ⟨Source.ofBytes frame, b.cells⟩ with
    | ok value other => exact alike_ok _ ⟨hsame.1, rfl⟩
    | error failure other => exact alike_error failure rfl
  refine respects_bind hother fun read ↦ ?_
  exact respects_ite (respects_bind (respects_fail _) fun _ ↦ respects_pure _) (respects_pure _)

theorem respects_expectItem (read requested : Nat) :
    Stage.sameBytes.Respects (expectItem read requested) := by
  refine respects_get_bind (fun a b h ↦ ?_) fun a ↦ ?_
  · rw [Stage.remaining_eq_of_same h]
  · exact respects_ite (respects_fail _) (respects_pure _)

/-- The loop makes the same turns in both runs, because it goes by the number of bytes left. -/
theorem respects_itemsToEnd {item : Decoding α} (h : Stage.sameBytes.Respects item)
    (allowance : Option Nat) : Stage.sameBytes.Respects (itemsToEnd item allowance) := by
  intro a b hsame
  induction hleft : a.stream.remaining using Nat.strongRecOn generalizing a b allowance with
  | ind left ih =>
    have hremaining := Stage.remaining_eq_of_same hsame
    rw [itemsToEnd, itemsToEnd, ← hremaining]
    by_cases hend : a.stream.remaining = 0 ∨ allowance = some 0
    · rw [if_pos hend, if_pos hend]
      exact alike_ok [] hsame
    · rw [if_neg hend, if_neg hend]
      rcases h a b hsame with ⟨value, a', b', hafter, ha, hb⟩ | ⟨failure, a', b', hafter, ha, hb⟩
      · simp only [ha, hb, ← Stage.remaining_eq_of_same hafter]
        by_cases hless : a'.stream.remaining < a.stream.remaining
        · rw [if_pos hless, if_pos hless]
          rcases ih _ (hleft ▸ hless) (allowance.map (· - 1)) a' b' hafter rfl with
              ⟨values, a'', b'', hlast, ha', hb'⟩ | ⟨failure, a'', b'', hlast, ha', hb'⟩
          · simp only [ha', hb']
            exact alike_ok _ hlast
          · simp only [ha', hb']
            exact alike_error failure hlast
        · rw [if_neg hless, if_neg hless]
          exact alike_error _ (Stage.sameBytes.left_of_same hafter)
      · simp only [ha, hb]
        exact alike_error failure hafter

theorem respects_entriesToEnd {K V R : Type} {entry : Decoding (K × V)}
    (h : Stage.sameBytes.Respects entry) (add : R → K → V → R) (allowance : Option Nat)
    (record : R) : Stage.sameBytes.Respects (entriesToEnd entry add allowance record) := by
  intro a b hsame
  induction hleft : allowance.getD a.stream.remaining using Nat.strongRecOn
    generalizing a b allowance record with
  | ind left ih =>
    have hremaining := Stage.remaining_eq_of_same hsame
    rw [entriesToEnd.eq_def _ _ _ _ a, entriesToEnd.eq_def _ _ _ _ b, ← hremaining]
    by_cases hend : a.stream.remaining = 0
    · rw [if_pos hend, if_pos hend]
      exact alike_ok record hsame
    · rw [if_neg hend, if_neg hend]
      rcases h a b hsame with
          ⟨⟨tag, value⟩, a', b', hafter, ha, hb⟩ | ⟨failure, a', b', hafter, ha, hb⟩
      · match allowance with
        | some 0 => exact alike_ok record hsame
        | some (left + 1) =>
          simp only [ha, hb]
          exact ih left (hleft ▸ Nat.lt_succ_self left) (some left) _ a' b' hafter rfl
        | none =>
          simp only [ha, hb, ← Stage.remaining_eq_of_same hafter]
          by_cases hless : a'.stream.remaining < a.stream.remaining
          · rw [if_pos hless, if_pos hless]
            exact ih _ (hleft ▸ hless) none _ a' b' hafter rfl
          · rw [if_neg hless, if_neg hless]
            exact alike_error _ (Stage.sameBytes.left_of_same hafter)
      · match allowance with
        | some 0 => exact alike_ok record hsame
        | some (left + 1) =>
          simp only [ha, hb]
          exact alike_error failure hafter
        | none =>
          simp only [ha, hb]
          exact alike_error failure hafter

end Decoding

/-! ### Codecs -/

/-- The bytes of a frame are the same in both runs, so that what is inside need not be asked. -/
theorem Decoding.hereditary_respects :
    Decoding.Hereditary fun action ↦ Stage.sameBytes.Respects action where
  ofExcept := respects_ofExcept
  overflow := respects_throw _
  tooDeep := respects_throw _
  bind := respects_bind
  inField _ _ := respects_inField
  leaf leaf := Stage.respects_onStream leaf.respects_decode
  frame n _ _ :=
    respects_bind (Stage.respects_onStream (Source.respects_take n)) fun frame ↦
      Decoding.respects_inFrame frame _
  expectItem := Decoding.respects_expectItem
  itemsToEnd allowance h := Decoding.respects_itemsToEnd h allowance
  entriesToEnd add allowance record h := Decoding.respects_entriesToEnd h add allowance record
  use _ := Stage.respects_onCells _

variable {S : Signature}

theorem Codec.respects_decodeWith {references : (name : S.Name) → Decoding (S.Value name)}
    (hreferences : ∀ name, Stage.sameBytes.Respects (references name)) {α : Type}
    (codec : Codec S α) : Stage.sameBytes.Respects (codec.decodeWith references) :=
  codec.hereditary_decodeWith Decoding.hereditary_respects hreferences

theorem Definitions.respects_decodeWithin (definitions : Definitions S) (depth : Nat)
    (name : S.Name) : Stage.sameBytes.Respects (definitions.decodeWithin depth name) :=
  definitions.hereditary_decodeWithin Decoding.hereditary_respects depth name

/-- Sources with the same bytes give the same value, and then the same bytes are left, or the same
failure; in both cases the references are in the same state afterwards. -/
theorem Codec.decode_of_same_bytes {α : Type} (codec : Codec S α) (definitions : Definitions S)
    (depth : Nat) {a b : Source} (hbytes : a.bytes = b.bytes) (hword : a.remaining ≤ maxWord)
    (cells : Cells) :
    (∃ value s t, codec.decode definitions depth ⟨a, cells⟩ = .ok value s ∧
      codec.decode definitions depth ⟨b, cells⟩ = .ok value t ∧
        s.stream.bytes = t.stream.bytes ∧ s.stream.remaining = t.stream.remaining ∧
          s.cells = t.cells) ∨
    ∃ failure s t, codec.decode definitions depth ⟨a, cells⟩ = .error failure s ∧
      codec.decode definitions depth ⟨b, cells⟩ = .error failure t ∧ s.cells = t.cells := by
  have hcodec : Stage.sameBytes.Respects (codec.decode definitions depth) :=
    codec.respects_decodeWith (definitions.respects_decodeWithin depth)
  have hsame : Stage.sameBytes.same ⟨a, cells⟩ ⟨b, cells⟩ := ⟨⟨hbytes, hword⟩, rfl⟩
  rcases hcodec _ _ hsame with ⟨value, s, t, hafter, hs, ht⟩ | ⟨failure, s, t, hcells, hs, ht⟩
  · exact Or.inl ⟨value, s, t, hs, ht, hafter.1.1, Stage.remaining_eq_of_same hafter, hafter.2⟩
  · exact Or.inr ⟨failure, s, t, hs, ht, hcells⟩

/-- Two texts, the second behind a reference, in one chunk and cut inside a surrogate, between the
texts and inside the second one. -/
theorem Codec.decode_of_split_texts :
    let codec : Codec ⟨Unit, fun _ ↦ String⟩ (String × String × Unit) :=
      .tuple (.cons (.leaf (.text .utf16be 1)) (.cons (.lazy ⟨0, fun _ ↦ true⟩ ()) .nil))
    let definitions : Definitions ⟨Unit, fun _ ↦ String⟩ := fun _ ↦ .leaf (.text .utf8 1)
    let a := Source.ofBytes [0xD8, 0x3D, 0xDE, 0x00, 0xC3, 0xA9]
    let b : Source := ⟨[[0xD8], [0x3D, 0xDE, 0x00], [], [0xC3], [0xA9]]⟩
    a.bytes = b.bytes ∧ a.remaining ≤ maxWord ∧
      ((∃ value s t, codec.decode definitions 1 ⟨a, Cells.fresh⟩ = .ok value s ∧
        codec.decode definitions 1 ⟨b, Cells.fresh⟩ = .ok value t ∧
          s.stream.bytes = t.stream.bytes ∧ s.stream.remaining = t.stream.remaining ∧
            s.cells = t.cells) ∨
      ∃ failure s t, codec.decode definitions 1 ⟨a, Cells.fresh⟩ = .error failure s ∧
        codec.decode definitions 1 ⟨b, Cells.fresh⟩ = .error failure t ∧ s.cells = t.cells) := by
  intro codec definitions a b
  have hbytes : a.bytes = b.bytes := rfl
  have hword : a.remaining ≤ maxWord := by decide
  exact ⟨hbytes, hword, codec.decode_of_same_bytes definitions 1 hbytes hword Cells.fresh⟩

end WireFormat
