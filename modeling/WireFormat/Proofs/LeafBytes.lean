import WireFormat.Leaf
import WireFormat.Proofs.Numbers

/-!
# The bytes of a value of a leaf

What a leaf writes is a function of the value: `Leaf.wire?` gives the bytes, or nothing where the
leaf has none for the value. Whatever the sink, an encoder goes about them in one of three ways
(`Sink.Puts`): it refuses the value, it puts the bytes all at once, or it puts them in two parts,
which only padded text does (`Leaf.puts_encode`). What becomes of a sink follows from that alone.
-/

set_option autoImplicit false
set_option relaxedAutoImplicit false

namespace WireFormat

/-! ### Bytes -/

/-- The bytes of a text. -/
def Charset.wire? (charset : Charset) (text : String) : Option (List UInt8) :=
  (charset.encode text).toOption

/-- The bytes of a length, where the width can hold it. -/
def LengthWidth.wire? (width : LengthWidth) (length : Nat) : Option (List UInt8) :=
  if width.limit ≤ length then none
  else
    match width.byteCount? with
    | some n => some (BigEndian.bytes n length)
    | none => some (Varint.groups length)

/-- The bytes of a text with its filling, where copies of the fill character close the gap. -/
def PaddedText.wire? (format : PaddedText) (text : String) : Option (List UInt8) := do
  let bytes ← format.charset.wire? text
  let fill ← format.charset.wire? (String.singleton format.fill)
  let gap := format.length - bytes.length
  if format.length < bytes.length ∨ fill = [] ∨ gap % fill.length ≠ 0 then none
  else
    match format.alignment with
    | .left => some (bytes ++ filling fill gap)
    | .right => some (filling fill gap ++ bytes)

/-- The bytes of a string of digits. -/
def PackedDigits.wire? (format : PackedDigits) (text : String) : Option (List UInt8) :=
  if text.toList.length = format.digits then
    (format.values text.toList).toOption.map fun values ↦ pack (format.nibbles values)
  else none

/-- The bytes of a value of a leaf. -/
def Leaf.wire? {α : Type} : Leaf α → α → Option (List UInt8)
  | .word n, value => some (BigEndian.bytes n value.toNat)
  | .bool, value => some [if value then 1 else 0]
  | .length width, value => width.wire? value
  | .varint _, value => some (Varint.groups value.toNat)
  | .signedVarint _, value => some (Varint.groups (Varint.zigZag value).toNat)
  | .bytes count, value => if value.length = count then some value else none
  | .remainingBytes, value => some value
  | .fail, _ => none
  | .text charset count, value =>
    if value.toList.length = count then charset.wire? value else none
  | .remainingText charset, value => charset.wire? value
  | .padded format, value => format.wire? value
  | .digits format, value => format.wire? value

theorem Charset.wire?_eq_some {charset : Charset} {text : String} {code : List UInt8} :
    charset.wire? text = some code ↔ charset.encode text = .ok code := by
  unfold wire?
  cases charset.encode text <;> simp [Except.toOption]

theorem PaddedText.wire?_eq_some {format : PaddedText} {text : String} {code : List UInt8} :
    format.wire? text = some code ↔
      ∃ bytes fill, format.charset.encode text = .ok bytes ∧
        format.charset.encode (String.singleton format.fill) = .ok fill ∧
        bytes.length ≤ format.length ∧ fill ≠ [] ∧
        (format.length - bytes.length) % fill.length = 0 ∧
        code = match format.alignment with
          | .left => bytes ++ filling fill (format.length - bytes.length)
          | .right => filling fill (format.length - bytes.length) ++ bytes := by
  simp only [wire?, Option.bind_eq_bind, Option.bind_eq_some_iff, Charset.wire?_eq_some]
  constructor
  · rintro ⟨bytes, hbytes, fill, hfill, h⟩
    by_cases hgap : format.length < bytes.length ∨ fill = [] ∨
        (format.length - bytes.length) % fill.length ≠ 0
    · rw [if_pos hgap] at h
      cases h
    · rw [if_neg hgap] at h
      obtain ⟨hlength, hgap⟩ := not_or.mp hgap
      obtain ⟨hne, hmod⟩ := not_or.mp hgap
      refine ⟨bytes, fill, hbytes, hfill, Nat.not_lt.mp hlength, hne, Decidable.not_not.mp hmod, ?_⟩
      cases halignment : format.alignment <;> rw [halignment] at h <;> cases h <;> rfl
  · rintro ⟨bytes, fill, hbytes, hfill, hlength, hne, hmod, rfl⟩
    refine ⟨bytes, hbytes, fill, hfill, ?_⟩
    rw [if_neg (by simp [Nat.not_lt.mpr hlength, hne, hmod])]
    cases format.alignment <;> rfl

theorem PackedDigits.wire?_eq_some {format : PackedDigits} {text : String}
    {code : List UInt8} :
    format.wire? text = some code ↔ text.toList.length = format.digits ∧
      ∃ values, format.values text.toList = .ok values ∧ code = pack (format.nibbles values) := by
  unfold wire?
  by_cases hlength : text.toList.length = format.digits
  · cases hvalues : format.values text.toList <;> simp [hlength, Except.toOption, eq_comm]
  · simp [hlength]

/-! ### Ways of putting bytes -/

namespace Sink

/-- What is put and reported. -/
theorem put_report_eq_ok {α : Type} {bytes : List UInt8} {report : Nat → α} {sink after : Sink}
    {a : α} :
    (do return report (← put bytes)) sink = .ok a after ↔
      bytes.length ≤ sink.room ∧ a = report bytes.length ∧ after = sink.extend bytes := by
  rw [bind_eq_ok]
  constructor
  · rintro ⟨n, middle, hput, hreturn⟩
    obtain ⟨hroom, rfl, rfl⟩ := put_eq_ok.mp hput
    obtain ⟨rfl, rfl⟩ := pure_eq_ok.mp hreturn
    exact ⟨hroom, rfl, rfl⟩
  · rintro ⟨hroom, rfl, rfl⟩
    exact ⟨_, _, put_eq_ok.mpr ⟨hroom, rfl, rfl⟩, rfl⟩

/-- Two parts put one after the other. -/
def putBoth (front back : List UInt8) (report : Nat → Nat → Written) : Action Sink Written := do
  let written ← put front
  let writtenBehind ← put back
  return report written writtenBehind

variable {front back : List UInt8} {report : Nat → Nat → Written} {sink after : Sink}
  {written : Written}

theorem putBoth_of_room_lt (h : sink.room < front.length) :
    putBoth front back report sink =
      .error (.error { kind := .endOfBuffer front.length sink.room }) sink :=
  bind_of_error (put_of_lt h) _

theorem putBoth_of_le (h : front.length ≤ sink.room) :
    putBoth front back report sink =
      (do return report front.length (← put back)) (sink.extend front) :=
  bind_of_ok (put_eq_ok.mpr ⟨h, rfl, rfl⟩) _

/-- Where there is room for the first part only, that part is written. -/
theorem putBoth_of_lt (hfront : front.length ≤ sink.room)
    (h : sink.room < (front ++ back).length) :
    putBoth front back report sink =
      .error (.error { kind := .endOfBuffer back.length (sink.room - front.length) })
        (sink.extend front) := by
  rw [List.length_append] at h
  have hrest : (sink.extend front).room < back.length := by
    rw [room_extend]
    omega
  rw [putBoth_of_le hfront, bind_of_error (put_of_lt hrest), room_extend]

/-- What is put in two parts takes the room of both. -/
theorem putBoth_eq_ok :
    putBoth front back report sink = .ok written after ↔
      (front ++ back).length ≤ sink.room ∧ written = report front.length back.length ∧
        after = sink.extend (front ++ back) := by
  rw [List.length_append]
  rcases Nat.lt_or_ge sink.room front.length with hfront | hfront
  · rw [putBoth_of_room_lt hfront]
    exact iff_of_false (by simp) (by omega)
  · rw [putBoth_of_le hfront, put_report_eq_ok, room_extend, extend_extend]
    exact and_congr_left' (by omega)

/-- How an encoder goes about the bytes of a value, whatever the sink. If it puts them in two parts,
these are some that `parts` names. -/
inductive Puts (encoder : Action Sink Written) (code? : Option (List UInt8))
    (parts : List UInt8 → List UInt8 → Prop) : Prop where
  /-- It refuses: there are no bytes, or more than can be allocated. -/
  | refuses (h : Refuses encoder) (hcode : ∀ code, code? = some code → maxAllocation < code.length)
  /-- It puts the bytes all at once. -/
  | once (code : List UInt8) (report : Nat → Written)
    (h : encoder = (do return report (← put code))) (hreport : ∀ n, (report n).bytes = n)
    (hcode : code? = some code)
  /-- It puts the bytes in two parts. -/
  | both (front back : List UInt8) (report : Nat → Nat → Written)
    (h : encoder = putBoth front back report) (hreport : ∀ n m, (report n m).bytes = n + m)
    (hparts : parts front back) (hcode : code? = some (front ++ back))

variable {encoder : Action Sink Written} {code? : Option (List UInt8)}
  {parts : List UInt8 → List UInt8 → Prop}

theorem puts_none (h : Refuses encoder) : Puts encoder none parts :=
  .refuses h nofun

theorem puts_ofBytes (code : List UInt8) :
    Puts (do return Written.ofBytes (← put code)) (some code) parts :=
  .once code Written.ofBytes rfl (fun _ ↦ rfl) rfl

theorem puts_guard {condition : Prop} [Decidable condition] {failure : Failure}
    (h : ¬ condition → Puts encoder code? parts) (hnone : condition → code? = none) :
    Puts (if condition then throw failure >>= fun _ : PUnit ↦ encoder else encoder)
      code? parts := by
  by_cases hcondition : condition
  · rw [if_pos hcondition, hnone hcondition]
    exact puts_none ⟨failure, rfl⟩
  · rw [if_neg hcondition]
    exact h hcondition

theorem puts_ofExcept {α : Type} {result : Except Error α} {next : α → Action Sink Written}
    (h : ∀ a, result = .ok a → Puts (next a) code? parts)
    (hnone : result.toOption = none → code? = none) :
    Puts (ofExcept result >>= next) code? parts := by
  cases result with
  | error e =>
    rw [hnone rfl]
    exact puts_none ⟨.error e, rfl⟩
  | ok a => exact h a rfl

/-- Where it succeeds, the encoder has added the bytes to the sink, and reports their number. -/
theorem Puts.eq_ok {sink after : Sink} {written : Written} (h : Puts encoder code? parts)
    (hrun : encoder sink = .ok written after) :
    ∃ code, code? = some code ∧ after = sink.extend code ∧ written.bytes = code.length := by
  cases h with
  | refuses h =>
    obtain ⟨failure, rfl⟩ := h
    cases hrun
  | once code report h hreport hcode =>
    subst h
    obtain ⟨-, rfl, rfl⟩ := put_report_eq_ok.mp hrun
    exact ⟨code, hcode, rfl, hreport _⟩
  | both front back report h hreport hparts hcode =>
    subst h
    obtain ⟨-, rfl, rfl⟩ := putBoth_eq_ok.mp hrun
    exact ⟨front ++ back, hcode, rfl, (hreport _ _).trans List.length_append.symm⟩

end Sink

/-! ### Encoders -/

namespace LengthWidth

variable {width : LengthWidth} {length : Nat} {code : List UInt8}

/-- The lengths that the width can hold are those below its limit. -/
theorem exists_wire?_iff :
    (∃ code, width.wire? length = some code) ↔ length < width.limit := by
  constructor
  · rintro ⟨code, hcode⟩
    exact Nat.not_le.mp (Option.ite_none_left_eq_some.mp hcode).1
  · intro hlength
    rw [wire?, if_neg (Nat.not_le.mpr hlength)]
    cases width.byteCount? with
    | some n => exact ⟨_, rfl⟩
    | none => exact ⟨_, rfl⟩

/-- A length that the width cannot hold is refused, whatever the sink. -/
theorem encode_of_limit_le (h : width.limit ≤ length) :
    width.encode length = fail (.lengthOutOfRange length) := by
  rw [encode, if_pos h]
  rfl

/-- A length that the width can hold is put all at once. -/
theorem encode_of_wire? (h : width.wire? length = some code) :
    width.encode length = (do return Written.ofBytes (← Sink.put code)) := by
  obtain ⟨hlimit, hcode⟩ := Option.ite_none_left_eq_some.mp h
  rw [encode, if_neg hlimit]
  cases hcount : width.byteCount? with
  | some n =>
    rw [hcount] at hcode
    cases hcode
    rfl
  | none =>
    rw [hcount] at hcode
    cases hcode
    rw [Varint.write_eq_put]

theorem puts_encode (width : LengthWidth) (length : Nat)
    {parts : List UInt8 → List UInt8 → Prop} :
    Sink.Puts (width.encode length) (width.wire? length) parts := by
  rcases Nat.lt_or_ge length width.limit with hlimit | hlimit
  · obtain ⟨code, hcode⟩ := exists_wire?_iff.mpr hlimit
    rw [encode_of_wire? hcode, hcode]
    exact Sink.puts_ofBytes code
  · rw [encode_of_limit_le hlimit, wire?, if_pos hlimit]
    exact Sink.puts_none ⟨_, rfl⟩

end LengthWidth

namespace PaddedText

variable {format : PaddedText} {text : String} {front back : List UInt8}

/-- Copies of the fill close a gap that they divide. -/
theorem length_filling {fill : List UInt8} {gap : Nat} (h : gap % fill.length = 0) :
    (filling fill gap).length = gap := by
  rw [filling, List.length_flatten, List.map_replicate, List.sum_replicate_nat]
  exact Nat.div_mul_cancel (Nat.dvd_of_mod_eq_zero h)

theorem length_wire? {code : List UInt8} (h : format.wire? text = some code) :
    code.length = format.length := by
  obtain ⟨bytes, fill, -, -, hlength, -, hmod, rfl⟩ := wire?_eq_some.mp h
  have hfilling := length_filling hmod
  cases format.alignment <;> simp only [List.length_append, hfilling] <;> omega

/-- The two parts in which a text is written, its bytes and the filling. Copies of the fill
character close the gap, and they can be allocated. -/
def Parts (format : PaddedText) (text : String) (front back : List UInt8) : Prop :=
  ∃ bytes fill, format.charset.encode text = .ok bytes ∧
    format.charset.encode (String.singleton format.fill) = .ok fill ∧
    bytes.length ≤ format.length ∧ fill ≠ [] ∧
    (format.length - bytes.length) % fill.length = 0 ∧
    format.length - bytes.length ≤ maxAllocation ∧
    (front, back) = match format.alignment with
      | .left => (bytes, filling fill (format.length - bytes.length))
      | .right => (filling fill (format.length - bytes.length), bytes)

/-- What has parts is put part by part. -/
theorem encode_of_parts (h : format.Parts text front back) :
    format.encode text =
      Sink.putBoth front back fun n m ↦ ⟨text.toList.length, n + m⟩ := by
  obtain ⟨bytes, fill, hbytes, hfill, hlength, hne, hgap, hallocation, hparts⟩ := h
  have hfits : ¬ (fill = [] ∨ (format.length - bytes.length) % fill.length ≠ 0) := by
    simp [hne, hgap]
  simp only [encode, hbytes, hfill, ofExcept, pure_bind, if_neg (Nat.not_lt.mpr hlength),
    if_neg hfits, if_neg (Nat.not_lt.mpr hallocation)]
  obtain ⟨rfl, rfl⟩ := Prod.mk.inj hparts
  rfl

/-- What has no parts is refused, whatever the sink. -/
theorem refuses_or_parts (format : PaddedText) (text : String) :
    Refuses (format.encode text) ∨ ∃ front back, format.Parts text front back := by
  refine refuses_or_ofExcept fun bytes hbytes ↦ refuses_or_guard fun hlength ↦ ?_
  refine refuses_or_ofExcept fun fill hfill ↦ refuses_or_guard fun hgap ↦ ?_
  refine refuses_or_guard fun hallocation ↦ Or.inr ?_
  obtain ⟨hne, hmod⟩ := not_or.mp hgap
  exact ⟨_, _, bytes, fill, hbytes, hfill, Nat.not_lt.mp hlength, hne, not_not.mp hmod,
    Nat.not_lt.mp hallocation, rfl⟩

/-- The bytes of a text are its parts, one behind the other. -/
theorem wire?_of_parts (h : format.Parts text front back) :
    format.wire? text = some (front ++ back) := by
  obtain ⟨bytes, fill, hbytes, hfill, hlength, hne, hgap, -, hparts⟩ := h
  refine wire?_eq_some.mpr ⟨bytes, fill, hbytes, hfill, hlength, hne, hgap, ?_⟩
  cases halignment : format.alignment <;> rw [halignment] at hparts <;> cases hparts <;> rfl

/-- A text is written where it has parts and there is room for both. -/
theorem encode_eq_ok_iff {sink after : Sink} {written : Written} :
    format.encode text sink = .ok written after ↔
      ∃ front back, format.Parts text front back ∧ (front ++ back).length ≤ sink.room ∧
        written = ⟨text.toList.length, (front ++ back).length⟩ ∧
        after = sink.extend (front ++ back) := by
  constructor
  · intro h
    rcases format.refuses_or_parts text with ⟨failure, hthrow⟩ | ⟨front, back, hparts⟩
    · rw [hthrow] at h
      cases h
    · rw [encode_of_parts hparts] at h
      obtain ⟨hroom, hwritten, hafter⟩ := Sink.putBoth_eq_ok.mp h
      rw [← List.length_append] at hwritten
      exact ⟨front, back, hparts, hroom, hwritten, hafter⟩
  · rintro ⟨front, back, hparts, hroom, hwritten, hafter⟩
    rw [List.length_append] at hwritten
    rw [encode_of_parts hparts]
    exact Sink.putBoth_eq_ok.mpr ⟨hroom, hwritten, hafter⟩

/-- Bytes that can be allocated have parts. -/
theorem exists_parts_of_wire? {code : List UInt8} (h : format.wire? text = some code)
    (hallocation : code.length ≤ maxAllocation) :
    ∃ front back, format.Parts text front back ∧ code = front ++ back := by
  rw [length_wire? h] at hallocation
  obtain ⟨bytes, fill, hbytes, hfill, hlength, hne, hgap, rfl⟩ := wire?_eq_some.mp h
  refine ⟨_, _, ⟨bytes, fill, hbytes, hfill, hlength, hne, hgap, by omega, rfl⟩, ?_⟩
  cases format.alignment <;> rfl

theorem puts_encode (format : PaddedText) (text : String) :
    Sink.Puts (format.encode text) (format.wire? text) (format.Parts text) := by
  rcases format.refuses_or_parts text with hrefuses | ⟨front, back, hparts⟩
  · refine .refuses hrefuses fun code hcode ↦ Nat.not_le.mp fun hallocation ↦ ?_
    -- What has parts is written where there is room, so it is not refused.
    obtain ⟨failure, hthrow⟩ := hrefuses
    obtain ⟨front, back, hparts, -⟩ := exists_parts_of_wire? hcode hallocation
    have hroom : (front ++ back).length ≤ (Sink.slice (front ++ back).length).room :=
      (Nat.sub_zero _).ge
    have hrun := encode_eq_ok_iff.mpr ⟨front, back, hparts, hroom, rfl, rfl⟩
    rw [hthrow] at hrun
    cases hrun
  · exact .both front back _ (encode_of_parts hparts) (fun _ _ ↦ rfl) hparts
      (wire?_of_parts hparts)

end PaddedText

/-- Digits are written where they have bytes and there is room for these. -/
theorem PackedDigits.encode_eq_ok_iff {format : PackedDigits} {text : String} {sink after : Sink}
    {written : Written} :
    format.encode text sink = .ok written after ↔
      ∃ code, format.wire? text = some code ∧ code.length ≤ sink.room ∧
        written = ⟨format.digits, code.length⟩ ∧ after = sink.extend code := by
  constructor
  · intro h
    obtain ⟨hlength, h⟩ := guard_eq_ok.mp h
    obtain ⟨values, middle, hrun, h⟩ := bind_eq_ok.mp h
    obtain ⟨hvalues, rfl⟩ := ofExcept_eq_ok.mp hrun
    obtain ⟨n, middle, hput, h⟩ := bind_eq_ok.mp h
    obtain ⟨hroom, rfl, rfl⟩ := Sink.put_eq_ok.mp hput
    obtain ⟨rfl, rfl⟩ := pure_eq_ok.mp h
    exact ⟨_, wire?_eq_some.mpr ⟨not_not.mp hlength, values, hvalues, rfl⟩, hroom, rfl, rfl⟩
  · rintro ⟨code, hwire, hroom, rfl, rfl⟩
    obtain ⟨hlength, values, hvalues, rfl⟩ := wire?_eq_some.mp hwire
    refine guard_eq_ok.mpr ⟨not_not.mpr hlength, ?_⟩
    rw [bind_of_ok (ofExcept_eq_ok.mpr ⟨hvalues, rfl⟩),
      bind_of_ok (Sink.put_eq_ok.mpr ⟨hroom, rfl, rfl⟩), pure_apply]

theorem PackedDigits.puts_encode (format : PackedDigits) (text : String)
    {parts : List UInt8 → List UInt8 → Prop} :
    Sink.Puts (format.encode text) (format.wire? text) parts := by
  refine Sink.puts_guard (fun hlength ↦ Sink.puts_ofExcept (fun values hvalues ↦ ?_) fun hnone ↦ ?_)
    fun hlength ↦ if_neg hlength
  · exact .once _ _ rfl (fun _ ↦ rfl)
      (wire?_eq_some.mpr ⟨not_not.mp hlength, values, hvalues, rfl⟩)
  · rw [wire?, hnone]
    exact ite_self _

namespace Leaf

variable {α : Type} {leaf : Leaf α} {value : α}

/-- The leaf writes the value in these two parts. -/
def Splits : {α : Type} → Leaf α → α → List UInt8 → List UInt8 → Prop
  | _, .padded format, value, front, back => format.Parts value front back
  | _, _, _, _, _ => False

theorem puts_encode (leaf : Leaf α) (value : α) :
    Sink.Puts (leaf.encode value) (leaf.wire? value) (leaf.Splits value) := by
  cases leaf with
  | word n => exact Sink.puts_ofBytes _
  | bool => exact Sink.puts_ofBytes _
  | length width => exact width.puts_encode value
  | varint width =>
    rw [encode, Varint.write_eq_put]
    exact Sink.puts_ofBytes _
  | signedVarint width =>
    rw [encode, Varint.write_eq_put]
    exact Sink.puts_ofBytes _
  | bytes count =>
    refine Sink.puts_guard (fun hcount ↦ ?_) fun hcount ↦ if_neg hcount
    rw [wire?, if_pos (not_not.mp hcount)]
    exact Sink.puts_ofBytes value
  | remainingBytes => exact Sink.puts_ofBytes value
  | fail => exact Sink.puts_none ⟨_, rfl⟩
  | text charset count =>
    refine Sink.puts_guard (fun hcount ↦ ?_) fun hcount ↦ if_neg hcount
    rw [wire?, if_pos (not_not.mp hcount)]
    exact Sink.puts_ofExcept (fun bytes hbytes ↦ .once bytes _ rfl (fun _ ↦ rfl)
      (Charset.wire?_eq_some.mpr hbytes)) id
  | remainingText charset =>
    exact Sink.puts_ofExcept (fun bytes hbytes ↦ .once bytes _ rfl (fun _ ↦ rfl)
      (Charset.wire?_eq_some.mpr hbytes)) id
  | padded format => exact format.puts_encode value
  | digits format => exact format.puts_encode value

/-- Where it succeeds, a leaf adds the bytes of the value to its sink and reports their number. -/
theorem encode_eq_ok {sink after : Sink} {written : Written}
    (h : leaf.encode value sink = .ok written after) :
    ∃ code, leaf.wire? value = some code ∧ after = sink.extend code ∧
      written.bytes = code.length :=
  (leaf.puts_encode value).eq_ok h

end Leaf

end WireFormat
