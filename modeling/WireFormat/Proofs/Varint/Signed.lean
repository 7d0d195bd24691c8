import WireFormat.Proofs.Leaves

/-!
# Signed integers in groups of seven bits

A signed number is written as an unsigned one, its image: `0, -1, 1, -2, 2` and so on become
`0, 1, 2, 3, 4` (`Varint.image`). The words of a width make the image with two shifts and an
exclusive or, which gives it exactly: twice the number, or its complement where the number is
negative, always fits into the width (`Varint.toNat_zigZag`). Hence every word is the image of one
signed number and of no other (`Varint.image_eq_iff`), and reading a signed number is reading a word
and taking the number it is the image of (`Leaf.decode_signedVarint_of_ok`).
-/

set_option autoImplicit false
set_option relaxedAutoImplicit false

namespace WireFormat

namespace Varint

/-! ### Images -/

/-- The image of a signed number among the numbers from zero on: even for one that is not negative
and odd for any other. -/
def image (value : Int) : Int := if 0 ≤ value then 2 * value else -2 * value - 1

variable {w : Nat}

/-- The sign turns every bit over. -/
theorem zigZag_eq (value : BitVec (w + 1)) :
    zigZag value = if value.msb then ~~~(value <<< 1) else value <<< 1 := by
  rw [zigZag, Nat.add_sub_cancel, sshiftRight_eq]
  cases value.msb with
  | true => exact BitVec.xor_allOnes
  | false => exact BitVec.xor_zero

/-- The word that the shifts give is the image, of which no bit is lost. -/
theorem toNat_zigZag (value : BitVec w) : ((zigZag value).toNat : Int) = image value.toInt := by
  cases w with
  | zero =>
    rw [BitVec.eq_nil value]
    rfl
  | succ w =>
    have hword : value.toNat < 2 ^ w * 2 := value.isLt
    have hdouble : (value <<< 1).toNat = value.toNat * 2 % (2 ^ w * 2) := by
      rw [BitVec.toNat_shiftLeft, Nat.shiftLeft_eq, Nat.pow_one, Nat.pow_succ]
    rw [zigZag_eq, image, BitVec.toInt_eq_msb_cond, Nat.pow_succ]
    cases hsign : value.msb with
    | false =>
      have hsmall : value.toNat < 2 ^ w := by simpa [BitVec.msb_eq_decide] using hsign
      rw [Nat.mod_eq_of_lt (by omega)] at hdouble
      simp only [Bool.false_eq_true, if_false]
      rw [if_pos (by omega), hdouble]
      omega
    | true =>
      have hlarge : 2 ^ w ≤ value.toNat := by simpa [BitVec.msb_eq_decide] using hsign
      -- The top bit is the one that doubling drops.
      rw [Nat.mod_eq_sub_mod (by omega), Nat.mod_eq_of_lt (by omega)] at hdouble
      simp only [if_true]
      rw [if_neg (by omega), BitVec.toNat_not, hdouble, Nat.pow_succ]
      omega

/-- A word is the image of the number that is read from it, and of no other. -/
theorem image_eq_iff {value word : BitVec w} :
    image value.toInt = word.toNat ↔ value = unZigZag word := by
  rw [← toNat_zigZag, Nat.cast_inj, BitVec.toNat_inj]
  constructor
  · rintro rfl
    exact (unZigZag_zigZag value).symm
  · rintro rfl
    exact zigZag_unZigZag word

/-- What is negated to undo an image is zero or one, which are negated within two bits. -/
theorem negOverflow_and_one (hw : 1 < w) (word : BitVec w) :
    (word &&& 1#w).negOverflow = false := by
  have hmsb : (word &&& 1#w).msb = false := by
    rw [BitVec.msb_and, BitVec.msb_one, decide_eq_false hw.ne', Bool.and_false]
  have hnonneg : 0 ≤ (word &&& 1#w).toInt := BitVec.toInt_nonneg_of_msb_false hmsb
  have hpositive : (0 : Int) < 2 ^ (w - 1) := by positivity
  rw [BitVec.negOverflow, beq_eq_false_iff_ne]
  omega

/-- The lowest and the highest number of a width have its last two words. -/
theorem image_extremes (hw : 0 < w) :
    image (BitVec.intMin w).toInt = 2 ^ w - 1 ∧ image (BitVec.intMax w).toInt = 2 ^ w - 2 := by
  have hpositive : (0 : Int) < 2 ^ (w - 1) := by positivity
  have hpow : (2 : Int) ^ w = 2 ^ (w - 1) * 2 := by
    rw [← pow_succ, Nat.sub_add_cancel hw]
  rw [BitVec.toInt_intMin_of_pos hw, BitVec.toInt_intMax, hpow]
  constructor
  · rw [image, if_neg (by omega)]
    ring
  · rw [image, if_pos (by omega)]
    ring

end Varint

namespace Leaf

variable {w : Nat} {value word : BitVec w} {source rest : Source} {failure : Failure}

/-! ### Reading -/

theorem decode_signedVarint_eq_error :
    (Leaf.signedVarint w).decode source = .error failure rest ↔
      (Leaf.varint w).decode source = .error failure rest := by
  rw [decode, decode, bind_eq_error, bind_eq_error]
  simp

/-! ### Main statement -/

/-- In words of at least two bits, whatever the number: there is a word that is its image, the
lowest and the highest number having the last two; the number is written as this word is, and from
what is written it is read back, in front of any bytes, which are left. Conversely, wherever a word
is read, the one number with this image is read instead, and where none is, the failure is the same.
To undo an image, only zero or one is negated. -/
theorem signed_exact_by_images (hw : 1 < w) :
    (∀ value : BitVec w, ∃ word : BitVec w,
      (word.toNat : Int) = Varint.image value.toInt ∧
      (Leaf.signedVarint w).encode value = (Leaf.varint w).encode word ∧
      (∀ sink : Sink, (Varint.groups word.toNat).length ≤ sink.room →
        (Leaf.signedVarint w).encode value sink =
          .ok (Written.ofBytes (Varint.groups word.toNat).length)
            (sink.extend (Varint.groups word.toNat))) ∧
      ∀ (source : Source) (suffix : List UInt8),
        source.bytes = Varint.groups word.toNat ++ suffix →
        ∃ rest, (Leaf.signedVarint w).decode source = .ok value rest ∧ rest.bytes = suffix) ∧
    (∀ (source rest : Source) (word : BitVec w),
      (Leaf.varint w).decode source = .ok word rest →
      ∃ value : BitVec w, (Leaf.signedVarint w).decode source = .ok value rest ∧
        ∀ other : BitVec w, Varint.image other.toInt = word.toNat ↔ other = value) ∧
    (∀ (source rest : Source) (failure : Failure),
      (Leaf.signedVarint w).decode source = .error failure rest ↔
        (Leaf.varint w).decode source = .error failure rest) ∧
    Varint.image (BitVec.intMin w).toInt = 2 ^ w - 1 ∧
    Varint.image (BitVec.intMax w).toInt = 2 ^ w - 2 ∧
    ∀ word : BitVec w, (word &&& 1#w).negOverflow = false := by
  have hpositive : 0 < w := Nat.zero_lt_of_lt hw
  obtain ⟨hlowest, hhighest⟩ := Varint.image_extremes hpositive
  refine ⟨fun value ↦ ⟨Varint.zigZag value, Varint.toNat_zigZag value, rfl, ?_, ?_⟩, ?_, ?_,
    hlowest, hhighest, Varint.negOverflow_and_one hw⟩
  · intro sink hroom
    rw [encode, Varint.write_eq_put]
    exact Sink.put_report_eq_ok.mpr ⟨hroom, rfl, rfl⟩
  · intro source suffix hbytes
    obtain ⟨rest, hread, hrest⟩ :=
      decode_varint_groups hpositive (Varint.zigZag value) hbytes
    refine ⟨rest, ?_, hrest⟩
    rw [decode_signedVarint_of_ok hread, Varint.unZigZag_zigZag]
  · intro source rest word hread
    exact ⟨_, decode_signedVarint_of_ok hread, fun other ↦ Varint.image_eq_iff⟩
  · exact fun source rest failure ↦ decode_signedVarint_eq_error

/-- The lowest number of a width is written with all bits set and the highest with all but one; both
are read back behind the longest groups of the width. So is minus one, which takes one byte. -/
theorem signed_exact_by_images_of_extremes :
    1 < 16 ∧ 1 < 32 ∧ 1 < 64 ∧
    (Leaf.signedVarint 32).encode (BitVec.intMin 32) (Sink.slice 5) =
      .ok ⟨5, 5⟩ ⟨[0xFF, 0xFF, 0xFF, 0xFF, 0x0F], 5⟩ ∧
    (∃ rest, (Leaf.signedVarint 16).decode ⟨[[0xFF, 0xFF], [0x03, 0x2A]]⟩ =
      .ok (BitVec.intMin 16) rest ∧ rest.bytes = [0x2A]) ∧
    (∃ rest, (Leaf.signedVarint 64).decode
        ⟨[[0xFE, 0xFF, 0xFF, 0xFF, 0xFF, 0xFF, 0xFF, 0xFF, 0xFF, 0x01]]⟩ =
      .ok (BitVec.intMax 64) rest ∧ rest.bytes = []) ∧
    ∃ rest, (Leaf.signedVarint 64).decode ⟨[[0x01]]⟩ = .ok (-1#64) rest ∧ rest.bytes = [] := by
  obtain ⟨hwritten, -, -, hlowest, -⟩ := signed_exact_by_images (by decide : 1 < 32)
  obtain ⟨hlow, -, -, hlowest', -⟩ := signed_exact_by_images (by decide : 1 < 16)
  obtain ⟨hread, -, -, -, hhighest, -⟩ := signed_exact_by_images (by decide : 1 < 64)
  refine ⟨by decide, by decide, by decide, ?_, ?_, ?_, ?_⟩
  · obtain ⟨word, himage, -, hencode, -⟩ := hwritten (BitVec.intMin 32)
    have hword : word.toNat = 2 ^ 32 - 1 := by omega
    have hgroups : Varint.groups (2 ^ 32 - 1) = [0xFF, 0xFF, 0xFF, 0xFF, 0x0F] := by cbv
    rw [hword, hgroups] at hencode
    exact hencode (Sink.slice 5) (by decide)
  · obtain ⟨word, himage, -, -, hdecode⟩ := hlow (BitVec.intMin 16)
    have hword : word.toNat = 2 ^ 16 - 1 := by omega
    have hgroups : Varint.groups (2 ^ 16 - 1) = [0xFF, 0xFF, 0x03] := by cbv
    rw [hword, hgroups] at hdecode
    exact hdecode _ [0x2A] rfl
  · obtain ⟨word, himage, -, -, hdecode⟩ := hread (BitVec.intMax 64)
    have hword : word.toNat = 2 ^ 64 - 2 := by omega
    have hgroups : Varint.groups (2 ^ 64 - 2) =
        [0xFE, 0xFF, 0xFF, 0xFF, 0xFF, 0xFF, 0xFF, 0xFF, 0xFF, 0x01] := by cbv
    rw [hword, hgroups] at hdecode
    exact hdecode _ [] rfl
  · obtain ⟨word, himage, -, -, hdecode⟩ := hread (-1#64)
    have hword : word.toNat = 1 := by simpa [Varint.image] using himage
    have hgroups : Varint.groups 1 = [0x01] := by cbv
    rw [hword, hgroups] at hdecode
    exact hdecode _ [] rfl

end Leaf

end WireFormat
