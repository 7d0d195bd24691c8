import WireFormat.Proofs.Charset.Decoding
import WireFormat.Proofs.Leaves

/-!
# Leaves write what they have read

A value that a leaf reads from some bytes has bytes itself, and they are no more than those it was
read from (`Leaf.recodes_decode`). They are the same ones where the leaf has one form for a value
(`Leaf.IsCanonical`): numbers in groups of seven bits may have been written with more groups than
needed, and the padding among an odd number of digits may have been any nibble.
-/

set_option autoImplicit false
set_option relaxedAutoImplicit false

namespace WireFormat

/-- Between `before` and `after` some bytes were read. What was read has bytes, too: no more than
these, and these where `canonical` holds. -/
def Recodes (wire : Option (List UInt8)) (canonical : Prop) (before after : List UInt8) : Prop :=
  ∃ front code, before = front ++ after ∧ wire = some code ∧ code.length ≤ front.length ∧
    (canonical → code = front)

theorem recodes_nil {wire : Option (List UInt8)} {canonical : Prop} {before : List UInt8}
    (hwire : wire = some []) : Recodes wire canonical before before :=
  ⟨[], [], rfl, hwire, Nat.le_refl _, fun _ ↦ rfl⟩

theorem recodes_self {wire : Option (List UInt8)} {canonical : Prop}
    {front before after : List UInt8} (hbytes : before = front ++ after)
    (hwire : wire = some front) : Recodes wire canonical before after :=
  ⟨front, front, hbytes, hwire, Nat.le_refl _, fun _ ↦ rfl⟩

theorem recodes_congr {wire whole : Option (List UInt8)} {canonical next : Prop}
    {before after : List UInt8} (h : Recodes wire canonical before after)
    (hwhole : ∀ code, wire = some code → whole = some code) (hnext : next → canonical) :
    Recodes whole next before after := by
  obtain ⟨front, code, hbytes, hcode, hlength, hfront⟩ := h
  exact ⟨front, code, hbytes, hwhole code hcode, hlength, fun h ↦ hfront (hnext h)⟩

/-- What is read first has its bytes in front of what is read next. -/
theorem recodes_append {first second wire : Option (List UInt8)} {canonical next whole : Prop}
    {before middle after : List UInt8} (hfirst : Recodes first canonical before middle)
    (hsecond : Recodes second next middle after)
    (hwire : ∀ front back, first = some front → second = some back → wire = some (front ++ back))
    (hwhole : whole → canonical ∧ next) : Recodes wire whole before after := by
  obtain ⟨front, code, rfl, hcode, hlength, hfront⟩ := hfirst
  obtain ⟨back, others, rfl, hothers, hlengths, hback⟩ := hsecond
  refine ⟨front ++ back, code ++ others, (List.append_assoc _ _ _).symm,
    hwire code others hcode hothers, ?_, fun h ↦ ?_⟩
  · rw [List.length_append, List.length_append]
    exact Nat.add_le_add hlength hlengths
  · rw [hfront (hwhole h).1, hback (hwhole h).2]

/-! ### Digits -/

namespace Alphabet

/-- The value of the digit of a value is that value. -/
theorem value?_digit? {alphabet : Alphabet} {value : Nat} {c : Char}
    (h : alphabet.digit? value = some c) : alphabet.value? c = some value := by
  unfold digit? at h
  by_cases hradix : value < alphabet.radix
  · rw [if_pos hradix] at h
    have hsixteen : value < 16 := by
      cases alphabet
      · exact hradix.trans (by decide)
      · exact hradix
    have hhex : hexValue? c = some value := by
      obtain rfl := Option.some.inj h
      have hall : ∀ value : Fin 16, hexValue?
          (if value.val < 10 then Char.ofNat (48 + value) else Char.ofNat (55 + value)) =
            some value.val := by
        decide
      exact hall ⟨value, hsixteen⟩
    simp only [value?, hhex, if_pos hradix]
  · rw [if_neg hradix] at h
    cases h

end Alphabet

namespace PackedDigits

variable {format : PackedDigits} {position : Nat} {nibbles : List Nat} {chars : List Char}

/-- Where no padding stands among nibbles, they are the values of their digits. -/
theorem values_of_digitsFrom (h : format.digitsFrom position nibbles = some chars)
    (hpad : ∀ index, format.padIndex? = some index →
      index < position ∨ position + nibbles.length ≤ index) :
    format.values chars = .ok nibbles := by
  induction nibbles generalizing position chars with
  | nil =>
    cases h
    rfl
  | cons nibble nibbles ih =>
    have hnot : format.padIndex? ≠ some position := by
      intro hindex
      have hrange := hpad position hindex
      rw [List.length_cons] at hrange
      omega
    simp only [digitsFrom, if_neg hnot, Option.bind_eq_bind, Option.bind_eq_some_iff] at h
    obtain ⟨c, hdigit, others, hothers, hchars⟩ := h
    obtain rfl := Option.some.inj hchars
    refine values_cons_eq_ok.mpr ⟨nibble, nibbles, Alphabet.value?_digit? hdigit, ?_, rfl⟩
    refine ih hothers fun index hindex ↦ ?_
    have hrange := hpad index hindex
    rw [List.length_cons] at hrange
    omega

theorem digitsFrom_append (front back : List Nat) :
    format.digitsFrom position (front ++ back) =
      (format.digitsFrom position front).bind fun chars ↦
        (format.digitsFrom (position + front.length) back).map (chars ++ ·) := by
  induction front generalizing position with
  | nil => simp [digitsFrom]
  | cons nibble front ih =>
    have hnext : position + 1 + front.length = position + (front.length + 1) := by omega
    rw [List.cons_append, digitsFrom, digitsFrom, ih, hnext, List.length_cons]
    by_cases hpad : format.padIndex? = some position
    · rw [if_pos hpad, if_pos hpad]
    · rw [if_neg hpad, if_neg hpad]
      cases format.alphabet.digit? nibble with
      | none => rfl
      | some c =>
        cases format.digitsFrom (position + 1) front with
        | none => rfl
        | some chars =>
          cases format.digitsFrom (position + (front.length + 1)) back <;> rfl

theorem odd_of_padIndex? {index : Nat} (h : format.padIndex? = some index) :
    format.digits % 2 = 1 := by
  unfold padIndex? at h
  by_cases heven : format.digits % 2 = 0
  · rw [if_pos heven] at h
    cases h
  · omega

theorem even_of_padIndex? (h : format.padIndex? = none) : format.digits % 2 = 0 := by
  unfold padIndex? at h
  by_cases heven : format.digits % 2 = 0
  · exact heven
  · rw [if_neg heven] at h
    cases hplacement : format.placement <;> rw [hplacement] at h <;> cases h

/-- The nibbles of a field, with the configured padding in the place of whatever stands there. -/
def withPad (format : PackedDigits) (nibbles : List Nat) : List Nat :=
  match format.padIndex? with
  | none => nibbles
  | some index => nibbles.set index format.pad.val

/-- The digits of all nibbles of a field have values, as many as there are digits; with the padding
they are these nibbles but for the padding. -/
theorem values_of_field (hlength : nibbles.length = 2 * format.byteLength)
    (h : format.digitsFrom 0 nibbles = some chars) :
    ∃ values, format.values chars = .ok values ∧ values.length = format.digits ∧
      format.nibbles values = format.withPad nibbles := by
  unfold byteLength at hlength
  unfold withPad
  cases hindex : format.padIndex? with
  | none =>
    have heven := even_of_padIndex? hindex
    refine ⟨nibbles, values_of_digitsFrom h (by simp [hindex]), by omega, ?_⟩
    simp only [PackedDigits.nibbles, hindex]
  | some index =>
    have hodd := odd_of_padIndex? hindex
    cases index with
    | zero =>
      cases nibbles with
      | nil =>
        rw [List.length_nil] at hlength
        omega
      | cons pad nibbles =>
        rw [digitsFrom, if_pos hindex] at h
        rw [List.length_cons] at hlength
        refine ⟨nibbles, values_of_digitsFrom h (by simp [hindex]), by omega, ?_⟩
        simp only [PackedDigits.nibbles, hindex, List.set_cons_zero]
    | succ index =>
      have hlast : index + 1 = format.digits := eq_digits_of_padIndex? hindex
      have hsplit := List.take_append_drop format.digits nibbles
      have hfront : (nibbles.take format.digits).length = format.digits :=
        List.length_take_of_le (by omega)
      have hback : (nibbles.drop format.digits).length = 1 := by
        rw [List.length_drop]
        omega
      obtain ⟨pad, hpad⟩ := List.length_eq_one_iff.mp hback
      -- The nibble behind the digits is the padding.
      rw [hpad] at hsplit
      have hplace : format.padIndex? = some format.digits := hlast ▸ hindex
      rw [← hsplit, digitsFrom_append, hfront, Nat.zero_add, digitsFrom, if_pos hplace] at h
      obtain ⟨found, hfound, hchars⟩ := Option.bind_eq_some_iff.mp h
      obtain rfl : found = chars := by simpa [digitsFrom] using hchars
      refine ⟨nibbles.take format.digits, values_of_digitsFrom hfound ?_, hfront, ?_⟩
      · intro other hother
        rw [hplace] at hother
        rw [hfront, ← Option.some.inj hother]
        exact Or.inr (Nat.zero_add _).le
      · have hset : (nibbles.take format.digits ++ [pad]).set format.digits format.pad.val =
            nibbles.take format.digits ++ [format.pad.val] := by
          rw [List.set_append_right _ _ hfront.le, hfront, Nat.sub_self, List.set_cons_zero]
        simp only [PackedDigits.nibbles, hindex]
        rw [hlast, ← hset, hsplit]

/-- What a field shows as digits is written as that field, but for the padding. -/
theorem wire?_of_digitsFrom {field : List UInt8} (hlength : field.length = format.byteLength)
    (h : format.digitsFrom 0 (unpack field) = some chars) :
    format.wire? (String.ofList chars) = some (pack (format.withPad (unpack field))) := by
  have hnibbles : (unpack field).length = 2 * format.byteLength := by
    rw [length_unpack, hlength]
  obtain ⟨values, hvalues, hcount, hpadded⟩ := values_of_field hnibbles h
  refine wire?_eq_some.mpr ⟨?_, values, ?_, by rw [hpadded]⟩
  · rw [String.toList_ofList, ← length_values hvalues, hcount]
  · rw [String.toList_ofList, hvalues]

theorem recodes_decode {text : String} {source rest : Source}
    (h : format.decode source = .ok text rest) :
    Recodes (format.wire? text) (format.digits % 2 = 0) source.bytes rest.bytes := by
  obtain ⟨field, hlength, hbytes, chars, hdigits, rfl⟩ := decode_eq_ok h
  have hwire := wire?_of_digitsFrom hlength hdigits
  refine ⟨field, _, hbytes, hwire, ?_, fun heven ↦ ?_⟩
  · rw [length_wire? hwire, hlength]
  · rw [withPad, padIndex?, if_pos heven, pack_unpack]

end PackedDigits

/-! ### Padded text -/

namespace PaddedText

variable {format : PaddedText}

theorem exists_takeWhile_eq_replicate (c : Char) (chars : List Char) :
    ∃ n, chars = List.replicate n c ++ chars.dropWhile (· = c) := by
  refine ⟨(chars.takeWhile (· = c)).length, ?_⟩
  have hall : chars.takeWhile (· = c) = List.replicate (chars.takeWhile (· = c)).length c :=
    List.eq_replicate_of_mem fun other hother ↦ by
      simpa using List.mem_takeWhile_imp (p := (· = c)) hother
  rw [← hall, List.takeWhile_append_dropWhile]

/-- What is stripped from a field are copies of the fill character on one side. -/
theorem fills_trim (format : PaddedText) (chars : List Char) :
    format.Fills (format.trim chars) chars := by
  unfold Fills trim
  cases format.alignment with
  | left =>
    obtain ⟨n, hn⟩ := exists_takeWhile_eq_replicate format.fill chars.reverse
    refine ⟨n, ?_⟩
    have hreverse := congrArg List.reverse hn
    rwa [List.reverse_reverse, List.reverse_append, List.reverse_replicate] at hreverse
  | right => exact exists_takeWhile_eq_replicate format.fill chars

/-- Copies of the fill are the filling of the gap they leave. -/
theorem filling_mul {fill : List UInt8} (hfill : fill ≠ []) (n : Nat) :
    filling fill (n * fill.length) = (List.replicate n fill).flatten := by
  rw [filling, Nat.mul_div_cancel _ (List.length_pos_iff.mpr hfill)]

section Fill

variable {fill : List UInt8}
  (hfill : format.charset.encode (String.singleton format.fill) = .ok fill)

include hfill

theorem encodeChars_fill : format.charset.encodeChars [format.fill] = .ok fill := by
  rwa [Charset.encode, String.toList_singleton] at hfill

theorem ne_nil_of_fill : fill ≠ [] := by
  rintro rfl
  simpa using Charset.length_le_of_encodeChars (encodeChars_fill hfill)

/-- The bytes of a text among fill characters are those of the text among copies of the fill. -/
theorem exists_bytes_of_fills {kept chars : List Char} {field : List UInt8}
    (hfills : format.Fills kept chars) (hfield : format.charset.encodeChars chars = .ok field) :
    ∃ bytes n, format.charset.encodeChars kept = .ok bytes ∧
      field.length = bytes.length + n * fill.length ∧
      field = match format.alignment with
        | .left => bytes ++ filling fill (n * fill.length)
        | .right => filling fill (n * fill.length) ++ bytes := by
  obtain ⟨n, hchars⟩ := hfills
  have hcopies := Charset.encodeChars_replicate (encodeChars_fill hfill) n
  rw [← filling_mul (ne_nil_of_fill hfill)] at hcopies
  have hlength := length_filling (Nat.mul_mod_left n fill.length)
  cases halignment : format.alignment with
  | left =>
    rw [halignment] at hchars
    subst hchars
    obtain ⟨bytes, copies, hbytes, hback, rfl⟩ := Charset.encodeChars_append_eq_ok hfield
    obtain rfl := Except.ok.inj (hback.symm.trans hcopies)
    exact ⟨bytes, n, hbytes, by rw [List.length_append, hlength], rfl⟩
  | right =>
    rw [halignment] at hchars
    subst hchars
    obtain ⟨copies, bytes, hfront, hbytes, rfl⟩ := Charset.encodeChars_append_eq_ok hfield
    obtain rfl := Except.ok.inj (hfront.symm.trans hcopies)
    exact ⟨bytes, n, hbytes, by rw [List.length_append, hlength, Nat.add_comm], rfl⟩

/-- A field that is a text of the charset is what is written for that text without the filling. -/
theorem wire?_trim {chars : List Char} {field : List UInt8}
    (hfield : format.charset.encodeChars chars = .ok field)
    (hlength : field.length = format.length) :
    format.wire? (String.ofList (format.trim chars)) = some field := by
  obtain ⟨bytes, n, hbytes, hcount, hsplit⟩ :=
    exists_bytes_of_fills hfill (format.fills_trim chars) hfield
  have hgap : format.length - bytes.length = n * fill.length := by omega
  refine wire?_eq_some.mpr
    ⟨bytes, fill, ?_, hfill, by omega, ne_nil_of_fill hfill, ?_, ?_⟩
  · rwa [Charset.encode, String.toList_ofList]
  · rw [hgap, Nat.mul_mod_left]
  · rw [hgap]
    exact hsplit

end Fill

/-- What is read from a field is the text that the field holds, without the filling. -/
theorem decode_eq_ok {text : String} {source rest : Source}
    (h : format.decode source = .ok text rest) :
    ∃ field chars, field.length = format.length ∧ source.bytes = field ++ rest.bytes ∧
      format.charset.encodeChars chars = .ok field ∧
      text = String.ofList (format.trim chars) := by
  obtain ⟨field, middle, htake, hrun⟩ := bind_eq_ok.mp h
  obtain ⟨whole, last, hwhole, hreturn⟩ := bind_eq_ok.mp hrun
  obtain ⟨hdecode, rfl⟩ := ofExcept_eq_ok.mp hwhole
  obtain ⟨rfl, rfl⟩ := pure_eq_ok.mp hreturn
  obtain ⟨hlength, hbytes⟩ := Source.take_eq_ok htake
  exact ⟨field, _, hlength, hbytes, Charset.encode_of_decode hdecode, rfl⟩

theorem recodes_decode {fill : List UInt8} {text : String} {source rest : Source}
    (hfill : format.charset.encode (String.singleton format.fill) = .ok fill)
    (h : format.decode source = .ok text rest) (canonical : Prop) :
    Recodes (format.wire? text) canonical source.bytes rest.bytes := by
  obtain ⟨field, chars, hlength, hbytes, hchars, rfl⟩ := decode_eq_ok h
  exact recodes_self hbytes (wire?_trim hfill hchars hlength)

end PaddedText

/-! ### Numbers -/

theorem Varint.recodes_read {width number : Nat} {source rest : Source}
    (h : read width source = .ok number rest) :
    number < 2 ^ width ∧ Recodes (some (groups number)) False source.bytes rest.bytes := by
  obtain ⟨hlt, front, hbytes, hlength⟩ := read_eq_ok h
  exact ⟨hlt, front, _, hbytes, rfl, hlength, False.elim⟩

theorem LengthWidth.recodes_decode {width : LengthWidth} {length : Nat} {source rest : Source}
    (h : width.decode source = .ok length rest) :
    Recodes (width.wire? length) (width ≠ .varint) source.bytes rest.bytes := by
  have hfixed {n : Nat} (hlimit : width.limit = 256 ^ n) (hcount : width.byteCount? = some n)
      (h : (do return BigEndian.value (← Source.take n) : Action Source Nat) source =
        .ok length rest) :
      Recodes (width.wire? length) (width ≠ .varint) source.bytes rest.bytes := by
    obtain ⟨bytes, middle, htake, hreturn⟩ := bind_eq_ok.mp h
    cases hreturn
    obtain ⟨rfl, hbytes⟩ := Source.take_eq_ok htake
    have hfits : ¬ width.limit ≤ BigEndian.value bytes := by
      rw [hlimit]
      exact Nat.not_le.mpr (BigEndian.value_lt bytes)
    refine recodes_self hbytes ?_
    simp only [wire?, if_neg hfits, hcount, BigEndian.bytes_value]
  cases width with
  | u8 => exact hfixed rfl rfl h
  | u16 => exact hfixed rfl rfl h
  | u32 => exact hfixed rfl rfl h
  | varint =>
    obtain ⟨hlt, hgroups⟩ := Varint.recodes_read h
    have hfits : ¬ LengthWidth.varint.limit ≤ length := Nat.not_le.mpr hlt
    exact recodes_congr hgroups (fun _ hcode ↦ (if_neg hfits).trans hcode) fun hnot ↦ hnot rfl

/-! ### Leaves -/

namespace Leaf

/-- Whatever the leaf reads it can write. A fill character that the charset has no bytes for would
keep padded text from being written. -/
def Inverts {α : Type} : Leaf α → Prop
  | .padded format => ∃ fill, format.charset.encode (String.singleton format.fill) = .ok fill
  | _ => True

/-- The leaf reads a value from one form only. -/
def IsCanonical {α : Type} : Leaf α → Prop
  | .length width => width ≠ .varint
  | .varint _ | .signedVarint _ => False
  | .digits format => format.digits % 2 = 0
  | _ => True

theorem recodes_decode {α : Type} {leaf : Leaf α} {value : α} {source rest : Source}
    (hinverts : leaf.Inverts) (h : leaf.decode source = .ok value rest)
    (hword : source.remaining ≤ maxWord) :
    Recodes (leaf.wire? value) leaf.IsCanonical source.bytes rest.bytes := by
  cases leaf with
  | word n =>
    obtain ⟨bytes, middle, htake, hreturn⟩ := bind_eq_ok.mp h
    cases hreturn
    obtain ⟨rfl, hbytes⟩ := Source.take_eq_ok htake
    have hlt : BigEndian.value bytes < 2 ^ (8 * bytes.length) := by
      rw [Nat.pow_mul]
      exact BigEndian.value_lt bytes
    refine recodes_self hbytes ?_
    rw [wire?, BitVec.toNat_ofNat, Nat.mod_eq_of_lt hlt, BigEndian.bytes_value]
  | bool =>
    obtain ⟨_, middle, hguard, hrun⟩ := bind_eq_ok.mp h
    obtain ⟨-, rfl⟩ := Source.atLeast_eq_ok hguard
    obtain ⟨byte, last, hget, hreturn⟩ := bind_eq_ok.mp hrun
    have hbytes : middle.bytes = [byte] ++ last.bytes := Source.getByte_eq_ok hget
    split_ifs at hreturn with hzero hone
    · cases hreturn
      exact recodes_self hbytes (by rw [hzero]; rfl)
    · cases hreturn
      exact recodes_self hbytes (by rw [hone]; rfl)
    · cases hreturn
  | length width => exact LengthWidth.recodes_decode h
  | varint width =>
    obtain ⟨number, middle, hread, hreturn⟩ := bind_eq_ok.mp h
    cases hreturn
    obtain ⟨hlt, hrecodes⟩ := Varint.recodes_read hread
    rw [wire?, BitVec.toNat_ofNat, Nat.mod_eq_of_lt hlt]
    exact hrecodes
  | signedVarint width =>
    obtain ⟨number, middle, hread, hreturn⟩ := bind_eq_ok.mp h
    cases hreturn
    obtain ⟨hlt, hrecodes⟩ := Varint.recodes_read hread
    rw [wire?, Varint.zigZag_unZigZag, BitVec.toNat_ofNat, Nat.mod_eq_of_lt hlt]
    exact hrecodes
  | bytes count =>
    obtain ⟨hlength, hbytes⟩ := Source.take_eq_ok h
    exact recodes_self hbytes (if_pos hlength)
  | remainingBytes =>
    exact recodes_self (Source.takeAll_eq_ok h) rfl
  | fail => cases h
  | text charset count =>
    obtain ⟨hcount, code, hcode, hbytes⟩ := CodePointReader.read_on_eq_ok hword h
    refine recodes_self hbytes ?_
    rw [wire?, if_pos hcount]
    exact Charset.wire?_eq_some.mpr hcode
  | remainingText charset =>
    obtain ⟨bytes, middle, htake, hrun⟩ := bind_eq_ok.mp h
    obtain ⟨hdecode, rfl⟩ := ofExcept_eq_ok.mp hrun
    exact recodes_self (Source.takeAll_eq_ok htake)
      (Charset.wire?_eq_some.mpr (Charset.encode_of_decode hdecode))
  | padded format =>
    obtain ⟨fill, hfill⟩ := hinverts
    exact PaddedText.recodes_decode hfill h _
  | digits format => exact PackedDigits.recodes_decode h

end Leaf

end WireFormat
