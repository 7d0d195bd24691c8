import WireFormat.Proofs.Varint.Grammar

/-!
# Groups of seven bits in words

A reader that puts the groups together in a word of sixty-four bits works with masks and shifts, and
has to bring the word into the width at the end. `Varint.readFromInWords` is such a reader, which
stops where a shift drops a bit and where the word is no number of the width. It never does: turn by
turn it does what the reader of numbers does (`Varint.readFromInWords_of_getByte`), and so reads the
same (`Varint.readFromInWords_eq`). With that, `Varint.read_accepts_forms` says what the reader does
with any source.
-/

set_option autoImplicit false
set_option relaxedAutoImplicit false

namespace WireFormat.Varint

variable {width shift : Nat} {byte : UInt8} {source : Source}

/-! ### The reader in words -/

/-- The lowest seven bits of a byte, as a word. -/
def groupOf (byte : UInt8) : BitVec 64 := (byte &&& 0x7F).toBitVec.setWidth 64

/-- Reads the groups as `readFrom` does, putting them together in a word bit by bit. Stops where
shifting a group drops one of its bits, and where the whole is no number of the width. -/
def readFromInWords (width shift : Nat) (value : BitVec 64) : Action Source Nat := do
  if width ≤ shift then overflow
  else
    Source.atLeast 1
    let byte ← Source.getByte
    let room := width - shift
    if room < 7 ∧ groupOf byte >>> room ≠ 0 then overflow
    else if groupOf byte <<< shift >>> shift ≠ groupOf byte then throw .overflow
    else
      let value := value ||| groupOf byte <<< shift
      if byte &&& 0x80 = 0 then
        if value.toNat < 2 ^ width then return value.toNat else throw .overflow
      else readFromInWords width (shift + 7) value
termination_by width - shift

/-- Reads a value below `2 ^ width` in words. -/
def readInWords (width : Nat) : Action Source Nat :=
  readFromInWords width 0 0

theorem toNat_groupOf (byte : UInt8) : (groupOf byte).toNat = byte.toNat % 128 := by
  have hmask : (byte &&& 0x7F).toNat = byte.toNat % 2 ^ 7 := by
    rw [UInt8.toNat_and, ← Nat.and_two_pow_sub_one_eq_mod]
    rfl
  rw [groupOf, BitVec.toNat_setWidth, UInt8.toNat_toBitVec, hmask]
  omega

/-- The high bit says that more follow. -/
theorem and_highBit_eq_zero_iff (byte : UInt8) : byte &&& 0x80 = 0 ↔ byte.toNat < 128 := by
  have hbyte := byte.toNat_lt
  have hbit : (byte &&& 0x80).toNat = (byte.toNat.testBit 7).toNat * 2 ^ 7 := by
    rw [UInt8.toNat_and, ← Nat.and_two_pow]
    rfl
  rw [← UInt8.toNat_inj, hbit, Nat.testBit_eq_decide_div_mod_eq, UInt8.toNat_zero]
  by_cases htop : byte.toNat / 2 ^ 7 % 2 = 1
  · rw [decide_eq_true htop, Bool.toNat_true]
    omega
  · rw [decide_eq_false htop, Bool.toNat_false]
    omega

/-- Where the sum is a number of at most sixty-four bits, its group is shifted whole, and put above
what lower groups gave it is added to them. -/
theorem toNat_or_groupOf {word : BitVec 64} (hwidth : width ≤ 64) (hword : word.toNat < 2 ^ shift)
    (hfits : word.toNat + byte.toNat % 128 * 2 ^ shift < 2 ^ width) :
    groupOf byte <<< shift >>> shift = groupOf byte ∧
      (word ||| groupOf byte <<< shift).toNat = word.toNat + byte.toNat % 128 * 2 ^ shift := by
  have hroom : byte.toNat % 128 * 2 ^ shift < 2 ^ 64 :=
    (Nat.le_add_left _ _).trans_lt (hfits.trans_le (Nat.pow_le_pow_right (by decide) hwidth))
  have hshifted : (groupOf byte <<< shift).toNat = byte.toNat % 128 * 2 ^ shift := by
    rw [BitVec.toNat_shiftLeft, toNat_groupOf, Nat.shiftLeft_eq, Nat.mod_eq_of_lt hroom]
  constructor
  · apply BitVec.eq_of_toNat_eq
    rw [BitVec.toNat_ushiftRight, hshifted, toNat_groupOf, Nat.shiftRight_eq_div_pow,
      Nat.mul_div_cancel _ (Nat.two_pow_pos shift)]
  · rw [BitVec.toNat_or, hshifted, Nat.or_comm, Nat.mul_comm,
      ← Nat.two_pow_add_eq_or_of_lt hword, Nat.add_comm]

/-- One turn in words is one turn of the reader: every group is shifted whole, and the last check
passes. -/
theorem readFromInWords_of_getByte {word : BitVec 64} {rest : Source} (hwidth : width ≤ 64)
    (hshift : shift < width) (hword : word.toNat < 2 ^ shift)
    (hget : Source.getByte source = .ok byte rest) :
    readFromInWords width shift word source =
      (if word.toNat + byte.toNat % 128 * 2 ^ shift < 2 ^ width then
        if byte.toNat < 128 then pure (word.toNat + byte.toNat % 128 * 2 ^ shift)
        else readFromInWords width (shift + 7) (word ||| groupOf byte <<< shift)
      else overflow) rest := by
  have hgroup : byte.toNat % 128 < 128 := Nat.mod_lt _ (by decide)
  have hbits : (width - shift < 7 ∧ groupOf byte >>> (width - shift) ≠ 0) ↔
      2 ^ width ≤ word.toNat + byte.toNat % 128 * 2 ^ shift := by
    rw [← bits_above_iff hshift hword hgroup, ne_eq, ← BitVec.toNat_inj, BitVec.toNat_ushiftRight,
      toNat_groupOf, Nat.shiftRight_eq_div_pow]
    rfl
  rw [readFromInWords, if_neg (Nat.not_le.mpr hshift), bind_of_ok (Source.atLeast_of_getByte hget),
    bind_of_ok hget]
  simp only [hbits, and_highBit_eq_zero_iff]
  by_cases hfits : word.toNat + byte.toNat % 128 * 2 ^ shift < 2 ^ width
  · obtain ⟨hshifted, hsum⟩ := toNat_or_groupOf hwidth hword hfits
    simp only [if_neg (Nat.not_le.mpr hfits), hshifted, ne_eq, not_true_eq_false, if_false, hsum,
      if_pos hfits]
  · simp only [if_pos (Nat.not_lt.mp hfits), if_neg hfits]

/-- In words no bit is lost and the last check passes, whatever the bytes are. -/
theorem readFromInWords_eq {word : BitVec 64} (hwidth : width ≤ 64)
    (hword : word.toNat < 2 ^ shift) :
    readFromInWords width shift word source = readFrom width shift word.toNat source := by
  induction hroom : width - shift using Nat.strongRecOn generalizing shift word source with
  | ind room ih =>
    by_cases hend : width ≤ shift
    · rw [readFromInWords, if_pos hend, readFrom_of_le hend]
    have hshift : shift < width := Nat.not_le.mp hend
    cases hbytes : source.bytes with
    | nil =>
      rw [readFrom_of_nil hshift hbytes, readFromInWords, if_neg hend,
        bind_of_error (Source.atLeast_of_nil hbytes)]
    | cons byte others =>
      obtain ⟨rest, hget, -⟩ := Source.getByte_of_cons hbytes
      rw [readFromInWords_of_getByte hwidth hshift hword hget,
        readFrom_of_getByte hshift hword hget]
      split_ifs with hfits hlast
      · rfl
      · obtain ⟨-, hsum⟩ := toNat_or_groupOf hwidth hword hfits
        have hnext := sum_lt hword byte
        rw [← hsum] at hnext ⊢
        exact ih (width - (shift + 7)) (by omega) hnext rfl
      · rfl

/-! ### Main statement -/

/-- Of any source, a varint of a width yields `value` and leaves `tail` exactly if the source starts
with a form of `value` that the width has room for, `value` being a number of the width, and goes on
with `tail`. If the source ends too early, one more byte is asked for behind all of them; in every
other case the number overflows, behind as many bytes as the width has room for. Put together in
words of sixty-four bits, no shift drops a bit and the number at the end is one of the width. -/
theorem read_accepts_forms (hwidth : width ≤ 64) (source : Source) :
    (∀ value tail, (∃ rest, read width source = .ok value rest ∧ rest.bytes = tail) ↔
      Spells width source.bytes value tail) ∧
    (Unfinished width source.bytes → ∃ rest,
      read width source = .error (.error { kind := .endOfBuffer 1 0 }) rest ∧ rest.bytes = []) ∧
    ((∀ value tail, ¬ Spells width source.bytes value tail) →
      ¬ Unfinished width source.bytes →
      maxGroups width ≤ source.bytes.length ∧ ∃ rest,
        read width source = .error (.error { kind := .invalid "varint" "overflow" }) rest ∧
          rest.bytes = source.bytes.drop (maxGroups width)) ∧
    readInWords width source = read width source := by
  refine ⟨fun value tail ↦ read_iff_spells, fun hends ↦ ?_, fun hspells hends ↦ ?_, ?_⟩
  · obtain ⟨rest, hrest, hread⟩ := read_of_unfinished hends
    exact ⟨rest, hread, hrest⟩
  · obtain ⟨hlength, rest, hrest, hread⟩ := read_eq_overflow hspells hends
    exact ⟨hlength, rest, hread, hrest⟩
  · exact readFromInWords_eq hwidth Nat.one_pos

/-- Of sixteen bits: the largest number, in two chunks and with a byte behind it; one bit more than
that; bytes that end too early; and more of them than the width has room for. -/
theorem read_accepts_forms_of_sixteen :
    (16 : Nat) ≤ 64 ∧
    (∃ rest, read 16 ⟨[[0xFF], [0xFF, 0x03, 0x2A]]⟩ = .ok 65535 rest ∧ rest.bytes = [0x2A]) ∧
    (∃ rest, read 16 ⟨[[0xFF, 0xFF, 0x07]]⟩ =
      .error (.error { kind := .invalid "varint" "overflow" }) rest ∧ rest.bytes = []) ∧
    (∃ rest, read 16 ⟨[[0x80], [0xFF]]⟩ =
      .error (.error { kind := .endOfBuffer 1 0 }) rest ∧ rest.bytes = []) ∧
    readInWords 16 ⟨[[0x80, 0x80, 0x80, 0x00]]⟩ = read 16 ⟨[[0x80, 0x80, 0x80, 0x00]]⟩ := by
  have hwidth : (16 : Nat) ≤ 64 := by decide
  have hlargest : Spells 16 [0xFF, 0xFF, 0x03, 0x2A] 65535 [0x2A] :=
    ⟨[0xFF, 0xFF, 0x03], ⟨[0xFF, 0xFF], 0x03, rfl, by simp, by decide⟩, by decide, rfl, rfl,
      by decide⟩
  have hlarger : IsForm [0xFF, 0xFF, 0x07] := ⟨[0xFF, 0xFF], 0x07, rfl, by simp, by decide⟩
  have hends : Unfinished 16 [0x80, 0xFF] := ⟨by decide, by simp⟩
  obtain ⟨-, -, hrefused, -⟩ := read_accepts_forms hwidth ⟨[[0xFF, 0xFF, 0x07]]⟩
  obtain ⟨-, hoverflow⟩ := hrefused
    (not_spells_of_form hlarger (List.append_nil _).symm (by decide))
    (not_unfinished_of_form hlarger (List.append_nil _).symm)
  exact ⟨hwidth,
    ((read_accepts_forms hwidth ⟨[[0xFF], [0xFF, 0x03, 0x2A]]⟩).1 65535 [0x2A]).mpr hlargest,
    hoverflow, (read_accepts_forms hwidth ⟨[[0x80], [0xFF]]⟩).2.1 hends,
    (read_accepts_forms hwidth ⟨[[0x80, 0x80, 0x80, 0x00]]⟩).2.2.2⟩

end WireFormat.Varint
