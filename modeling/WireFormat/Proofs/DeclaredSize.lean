import WireFormat.Codec.Size
import WireFormat.Proofs.Charset.Encoding
import WireFormat.Proofs.Wire

/-!
# Declared sizes

Where a codec declares a size, every value that has bytes has exactly that many
(`Codec.length_of_size`). For text this is so because in the charsets that declare one every
character is one byte, for padded text because the filling closes the gap, and for digits because
the padding makes their number even.
-/

set_option autoImplicit false
set_option relaxedAutoImplicit false

namespace WireFormat

/-! ### Leaves -/

namespace Charset

/-- In a charset of single bytes there are as many bytes as characters. -/
theorem length_of_isSingleByte {charset : Charset} (hsingle : charset.isSingleByte = true)
    {chars : List Char} {code : List UInt8} (h : charset.encodeChars chars = .ok code) :
    code.length = chars.length := by
  have hmax : charset.maxBytesPerCodePoint = 1 := by
    cases charset <;> first | rfl | cases hsingle
  induction chars generalizing code with
  | nil =>
    obtain rfl := encodeChars_nil_eq_ok.mp h
    rfl
  | cons c chars ih =>
    obtain ⟨first, others, hchar, hothers, rfl⟩ := encodeChars_cons_eq_ok.mp h
    obtain ⟨hpos, hle⟩ := length_encodeChar? hchar
    rw [List.length_append, List.length_cons, ih hothers]
    omega

end Charset

namespace PackedDigits

variable {format : PackedDigits}

theorem values_cons_eq_ok {c : Char} {chars : List Char} {values : List Nat} :
    format.values (c :: chars) = .ok values ↔
      ∃ first others, format.alphabet.value? c = some first ∧
        format.values chars = .ok others ∧ values = first :: others := by
  cases hfirst : format.alphabet.value? c with
  | none => simp [PackedDigits.values, hfirst]
  | some first =>
    cases hothers : format.values chars with
    | error e => simp [PackedDigits.values, hfirst, hothers]
    | ok others => simp [PackedDigits.values, hfirst, hothers, eq_comm]

theorem length_values {chars : List Char} {values : List Nat}
    (h : format.values chars = .ok values) : values.length = chars.length := by
  induction chars generalizing values with
  | nil =>
    cases h
    rfl
  | cons c chars ih =>
    obtain ⟨first, others, -, hothers, rfl⟩ := values_cons_eq_ok.mp h
    rw [List.length_cons, List.length_cons, ih hothers]

theorem length_pack (nibbles : List Nat) : (pack nibbles).length = nibbles.length / 2 := by
  fun_induction pack nibbles with
  | case1 high low rest ih =>
    simp only [List.length_cons, ih]
    omega
  | case2 nibbles hshort =>
    match nibbles, hshort with
    | [], _ => rfl
    | [nibble], _ =>
      show 0 = 1 / 2
      rfl
    | high :: low :: rest, hshort => exact absurd rfl (hshort high low rest)

/-- With the padding the number of nibbles is even. -/
theorem length_nibbles {values : List Nat} (h : values.length = format.digits) :
    (format.nibbles values).length = 2 * format.byteLength := by
  unfold nibbles padIndex? byteLength
  by_cases heven : format.digits % 2 = 0
  · rw [if_pos heven]
    simp only [h]
    omega
  · rw [if_neg heven]
    cases hplacement : format.placement with
    | beforeDigits =>
      simp only [List.length_cons, h]
      omega
    | afterDigits =>
      cases hdigits : format.digits with
      | zero => exact absurd (by rw [hdigits]) heven
      | succ digits =>
        simp only [List.length_append, List.length_singleton, h]
        omega

theorem length_wire? {text : String} {code : List UInt8}
    (h : format.wire? text = some code) : code.length = format.byteLength := by
  obtain ⟨hlength, values, hvalues, rfl⟩ := wire?_eq_some.mp h
  rw [length_pack, length_nibbles ((length_values hvalues).trans hlength)]
  omega

end PackedDigits

theorem Leaf.length_of_size {α : Type} {leaf : Leaf α} {value : α} {n : Nat} {code : List UInt8}
    (hsize : leaf.size = .fixed n) (h : leaf.wire? value = some code) : code.length = n := by
  cases leaf with
  | word m =>
    cases hsize
    cases h
    exact BigEndian.length_bytes _ _
  | bool =>
    cases hsize
    cases h
    rfl
  | length width =>
    obtain ⟨-, h⟩ := Option.ite_none_left_eq_some.mp h
    cases hcount : width.byteCount? with
    | none =>
      rw [size, hcount] at hsize
      cases hsize
    | some bytes =>
      rw [size, hcount] at hsize
      rw [hcount] at h
      cases hsize
      cases h
      exact BigEndian.length_bytes _ _
  | bytes count =>
    cases hsize
    obtain ⟨hcount, h⟩ := Option.ite_none_right_eq_some.mp h
    cases h
    exact hcount
  | text charset count =>
    obtain ⟨rfl, hcode⟩ := Option.ite_none_right_eq_some.mp h
    rw [size] at hsize
    by_cases hsingle : charset.isSingleByte = true
    · rw [if_pos hsingle] at hsize
      cases hsize
      exact Charset.length_of_isSingleByte hsingle (Charset.wire?_eq_some.mp hcode)
    · rw [if_neg hsingle] at hsize
      cases hsize
  | padded format =>
    cases hsize
    exact PaddedText.length_wire? h
  | digits format =>
    cases hsize
    exact PackedDigits.length_wire? h
  | varint width => cases hsize
  | signedVarint width => cases hsize
  | remainingBytes => cases hsize
  | fail => cases hsize
  | remainingText charset => cases hsize

/-! ### Sizes of several parts -/

theorem Size.times_eq_fixed {item : Size} {count n : Nat} :
    item.times count = .fixed n ↔
      ∃ bytes, item = .fixed bytes ∧ bytes * count ≤ maxWord ∧ n = bytes * count := by
  cases item with
  | fixed bytes =>
    unfold times
    by_cases hword : bytes * count ≤ maxWord <;> simp [hword, eq_comm]
  | varying => simp [times]
  | overflow => simp [times]

/-- A tuple declares a size when its first part and the others do. -/
theorem Items.sizeAfter_cons_eq_fixed {S : Signature} {α β : Type} {item : Codec S α}
    {rest : Items S β} {before n : Nat} :
    (Items.cons item rest).sizeAfter before = .fixed n ↔
      ∃ bytes, item.size = .fixed bytes ∧ before + bytes ≤ maxWord ∧
        rest.sizeAfter (before + bytes) = .fixed n := by
  rw [Items.sizeAfter]
  cases item.size with
  | fixed bytes => by_cases hword : before + bytes ≤ maxWord <;> simp [hword]
  | varying => simp
  | overflow => simp

/-! ### Codecs -/

variable {S : Signature} {references : (name : S.Name) → S.Value name → Option (List UInt8)}

theorem length_wireAll {α : Type} {item : α → Option (List UInt8)} {n : Nat}
    (hitem : ∀ value code, item value = some code → code.length = n) {values : List α}
    {code : List UInt8} (h : wireAll item values = some code) :
    code.length = n * values.length := by
  induction values generalizing code with
  | nil =>
    cases h
    rfl
  | cons value values ih =>
    obtain ⟨first, others, hfirst, hothers, rfl⟩ := wireAll_cons_eq_some.mp h
    rw [List.length_append, List.length_cons, hitem value first hfirst, ih hothers,
      Nat.mul_succ, Nat.add_comm]

mutual

theorem Codec.length_of_size : {α : Type} → (codec : Codec S α) → (n : Nat) →
    codec.size = .fixed n → ∀ value code, codec.wire? references value = some code →
    code.length = n
  | _, .leaf leaf, n, hsize, value, code, h => Leaf.length_of_size hsize h
  | _, .tuple items, n, hsize, value, code, h => by
    have hlength := items.length_of_sizeAfter 0 n hsize value code h
    rwa [Nat.zero_add] at hlength
  | _, .fixedList item count, n, hsize, values, code, h => by
    obtain ⟨bytes, hitem, -, rfl⟩ := Size.times_eq_fixed.mp hsize
    obtain ⟨rfl, hcode⟩ := Option.ite_none_right_eq_some.mp h
    exact length_wireAll (item.length_of_size bytes hitem) hcode
  | _, .map toWire _ wire, n, hsize, value, code, h =>
    wire.length_of_size n hsize (toWire value) code h
  | _, .case _ _ payload, n, hsize, value, code, h => by
    obtain ⟨inner, -, hcode⟩ := Codec.wire?_case_eq_some.mp h
    exact payload.length_of_size n hsize inner code hcode

theorem Items.length_of_sizeAfter : {α : Type} → (items : Items S α) → (before n : Nat) →
    items.sizeAfter before = .fixed n → ∀ value code, items.wire? references value = some code →
    before + code.length = n
  | _, .nil, before, n, hsize, _, code, h => by
    cases h
    exact Size.fixed.inj hsize
  | _, .cons item rest, before, n, hsize, (value, values), code, h => by
    obtain ⟨bytes, hitem, -, hrest⟩ := Items.sizeAfter_cons_eq_fixed.mp hsize
    obtain ⟨first, others, hfirst, hothers, rfl⟩ := Items.wire?_cons_eq_some.mp h
    have hfirstLength := item.length_of_size bytes hitem value first hfirst
    have hothersLength := rest.length_of_sizeAfter _ n hrest values others hothers
    rw [List.length_append]
    omega

end

end WireFormat
