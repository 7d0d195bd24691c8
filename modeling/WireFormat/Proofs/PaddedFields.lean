import WireFormat.Proofs.Recoding

/-!
# Fields of padded text

A text has bytes exactly if copies of the fill close the gap it leaves in the field
(`PaddedText.exists_wire?_iff`). Reading takes characters off, not bytes: what is read is the text
without all fill characters at the side of the filling, its own ones among them, and this says which
text it is (`PaddedText.Strips.unique`). Backwards, a field that is a text of the charset ends, or
begins, with whole copies of the fill, so that it is written as it was read
(`PaddedText.wire?_of_decode`).
-/

set_option autoImplicit false
set_option relaxedAutoImplicit false

namespace WireFormat.PaddedText

variable {format : PaddedText} {text : String}

/-! ### Texts and what is left of them -/

/-- Copies of a fill of some bytes close the gap between the bytes of the text and the field. -/
def Closes (format : PaddedText) (fill : List UInt8) (text : String) : Prop :=
  ∃ bytes, format.charset.encode text = .ok bytes ∧ bytes.length ≤ format.length ∧
    fill.length ∣ format.length - bytes.length

theorem head?_dropWhile_ne (c : Char) (chars : List Char) :
    (chars.dropWhile (· = c)).head? ≠ some c := by
  intro h
  have hnot := List.head?_dropWhile_not (· = c) chars
  rw [h] at hnot
  simp at hnot

theorem keeps_trim (format : PaddedText) (chars : List Char) :
    format.Keeps (String.ofList (format.trim chars)) := by
  unfold Keeps trim
  rw [String.toList_ofList]
  cases format.alignment with
  | left =>
    show ((chars.reverse.dropWhile (· = format.fill)).reverse).getLast? ≠ some format.fill
    rw [List.getLast?_reverse]
    exact head?_dropWhile_ne _ _
  | right => exact head?_dropWhile_ne _ _

/-- The text without all fill characters on the side of the filling. -/
def Strips (format : PaddedText) (text kept : String) : Prop :=
  format.Keeps kept ∧ format.Fills kept.toList text.toList

theorem Strips.trim_eq {kept : String} (h : format.Strips text kept) :
    String.ofList (format.trim text.toList) = kept := by
  rw [trim_of_fills h.2, trim_of_keeps h.1, String.ofList_toList]

theorem strips_trim (format : PaddedText) (text : String) :
    format.Strips text (String.ofList (format.trim text.toList)) := by
  refine ⟨format.keeps_trim _, ?_⟩
  rw [String.toList_ofList]
  exact format.fills_trim _

theorem Strips.unique {first second : String} (hfirst : format.Strips text first)
    (hsecond : format.Strips text second) : first = second :=
  hfirst.trim_eq.symm.trans hsecond.trim_eq

/-! ### Fields -/

section Fill

variable {fill : List UInt8}
  (hfill : format.charset.encode (String.singleton format.fill) = .ok fill)

include hfill

theorem exists_wire?_iff : (∃ code, format.wire? text = some code) ↔ format.Closes fill text := by
  simp only [wire?_eq_some]
  constructor
  · rintro ⟨code, bytes, fill', hbytes, hfill', hlength, -, hgap, -⟩
    obtain rfl : fill' = fill := Except.ok.inj (hfill'.symm.trans hfill)
    exact ⟨bytes, hbytes, hlength, Nat.dvd_of_mod_eq_zero hgap⟩
  · rintro ⟨bytes, hbytes, hlength, hgap⟩
    exact ⟨_, bytes, fill, hbytes, hfill, hlength, ne_nil_of_fill hfill,
      Nat.mod_eq_zero_of_dvd hgap, rfl⟩

theorem exists_encode_iff {sink : Sink} (hcapacity : sink.capacity ≤ maxAllocation) :
    (∃ written after, format.encode text sink = .ok written after) ↔
      format.Closes fill text ∧ format.length ≤ sink.room := by
  have hroom : sink.room ≤ maxAllocation := (Nat.sub_le _ _).trans hcapacity
  rw [← exists_wire?_iff hfill]
  constructor
  · rintro ⟨written, after, h⟩
    obtain ⟨front, back, hparts, hfits, -⟩ := encode_eq_ok_iff.mp h
    have hwire := wire?_of_parts hparts
    exact ⟨⟨_, hwire⟩, length_wire? hwire ▸ hfits⟩
  · rintro ⟨⟨code, hwire⟩, hfits⟩
    rw [← length_wire? hwire] at hfits
    obtain ⟨front, back, hparts, rfl⟩ := exists_parts_of_wire? hwire (hfits.trans hroom)
    exact ⟨_, _, encode_eq_ok_iff.mpr ⟨front, back, hparts, hfits, rfl, rfl⟩⟩

/-- A field that is read is what is written for the text that was read. -/
theorem wire?_of_decode {source last : Source} {field rest : List UInt8}
    (hlength : field.length = format.length) (hbytes : source.bytes = field ++ rest)
    (h : format.decode source = .ok text last) :
    last.bytes = rest ∧ format.Keeps text ∧ format.wire? text = some field := by
  obtain ⟨found, chars, hfound, hsplit, hchars, rfl⟩ := decode_eq_ok h
  obtain ⟨rfl, rfl⟩ := List.append_inj (hbytes.symm.trans hsplit) (hlength.trans hfound.symm)
  exact ⟨rfl, format.keeps_trim chars, wire?_trim hfill hchars hlength⟩

end Fill

/-- Padding and stripping are inverse to each other up to fill characters at the side of the
filling. -/
structure PadsAndStrips (format : PaddedText) (fill : List UInt8) : Prop where
  /-- A text is written exactly if copies of the fill close the gap and there is room for the field,
  in any sink that can be allocated. -/
  encodes : ∀ text (sink : Sink), sink.capacity ≤ maxAllocation →
    ((∃ written after, format.encode text sink = .ok written after) ↔
      format.Closes fill text ∧ format.length ≤ sink.room)
  /-- What is written is as long as the field, and read as the text without its fill characters. -/
  readsBack : ∀ text sink written after, format.encode text sink = .ok written after →
    ∃ code, code.length = format.length ∧ written = ⟨text.toList.length, format.length⟩ ∧
      after = sink.extend code ∧ ∀ (source : Source) (rest : List UInt8),
        source.bytes = code ++ rest → ∃ kept last, format.decode source = .ok kept last ∧
          last.bytes = rest ∧ format.Strips text kept
  /-- What is read shows no fill character at its side, and is written as the field it was read
  from. -/
  writesBack : ∀ (source last : Source) (field rest : List UInt8) text,
    field.length = format.length → source.bytes = field ++ rest →
    format.decode source = .ok text last → last.bytes = rest ∧ format.Keeps text ∧
      ∀ sink : Sink, sink.capacity ≤ maxAllocation → format.length ≤ sink.room →
        format.encode text sink = .ok ⟨text.toList.length, format.length⟩ (sink.extend field)

/-! ### Main statement -/

/-- Whatever charset, length and side, and whatever fill character the charset can represent: a text
is written exactly if it takes no more bytes than the field has and copies of the fill close the
gap. It is read back without the fill characters on the side of the filling. Backwards, a field that
is read gives a text that shows no fill character there, and that is written as this field. -/
theorem pads_and_strips (format : PaddedText) {fill : List UInt8}
    (hfill : format.charset.encode (String.singleton format.fill) = .ok fill) :
    format.PadsAndStrips fill where
  encodes _ _ := exists_encode_iff hfill
  readsBack := by
    intro text sink written after h
    obtain ⟨front, back, hparts, -, rfl, rfl⟩ := encode_eq_ok_iff.mp h
    have hwire := wire?_of_parts hparts
    have hlength := length_wire? hwire
    refine ⟨_, hlength, by rw [hlength], rfl, fun source rest hbytes ↦ ?_⟩
    obtain ⟨last, hread, hlast⟩ := decode_trim hwire hbytes
    exact ⟨_, last, hread, hlast, format.strips_trim text⟩
  writesBack := by
    intro source last field rest text hlength hbytes h
    obtain ⟨hrest, hkeeps, hwire⟩ := wire?_of_decode hfill hlength hbytes h
    refine ⟨hrest, hkeeps, fun sink hcapacity hroom ↦ ?_⟩
    have hallocation : sink.room ≤ maxAllocation := (Nat.sub_le _ _).trans hcapacity
    rw [← hlength] at hroom ⊢
    obtain ⟨front, back, hparts, rfl⟩ :=
      exists_parts_of_wire? hwire (hroom.trans hallocation)
    exact encode_eq_ok_iff.mpr ⟨front, back, hparts, hroom, rfl, rfl⟩

/-- Ten bytes of UTF-16 filled in front with a character of four bytes. The gap that `😀a` leaves is
closed by one more `😀`; stripping takes both, and what is left is written with two of them. A text
of two characters of two bytes leaves a gap of six bytes, which no number of them closes. -/
theorem pads_and_strips_of_four_bytes :
    let format : PaddedText := ⟨.utf16le, 10, '😀', .right⟩
    let fill : List UInt8 := [0x3D, 0xD8, 0x00, 0xDE]
    let field : List UInt8 := fill ++ fill ++ [0x61, 0x00]
    format.charset.encode (String.singleton format.fill) = .ok fill ∧
    format.encode "😀a" Sink.growable = .ok ⟨2, 10⟩ (Sink.growable.extend field) ∧
    (∃ last, format.decode ⟨[field.take 3, field.drop 3 ++ [0x2A]]⟩ = .ok "a" last ∧
      last.bytes = [0x2A]) ∧
    format.Keeps "a" ∧
    format.encode "a" (Sink.slice 10) = .ok ⟨1, 10⟩ ⟨field, 10⟩ ∧
    ¬ ∃ written after, format.encode "ab" Sink.growable = .ok written after := by
  intro format fill field
  have hfill : format.charset.encode (String.singleton format.fill) = .ok fill := by decide
  have hwritten : format.encode "😀a" Sink.growable = .ok ⟨2, 10⟩ (Sink.growable.extend field) := by
    decide
  obtain ⟨hencodes, hreads, hwrites⟩ := pads_and_strips format hfill
  obtain ⟨code, -, -, hcode, hread⟩ := hreads _ _ _ _ hwritten
  obtain rfl : field = code := congrArg Sink.written hcode
  obtain ⟨kept, last, hdecode, hlast, hstrips⟩ := hread ⟨[field.take 3, field.drop 3 ++ [0x2A]]⟩
    [0x2A] rfl
  have ha : format.Strips "😀a" "a" := ⟨show "a".toList.head? ≠ some '😀' by decide, 1, rfl⟩
  obtain rfl := hstrips.unique ha
  obtain ⟨-, hkeeps, hback⟩ := hwrites _ _ field [0x2A] _ rfl rfl hdecode
  refine ⟨hfill, hwritten, ⟨last, hdecode, hlast⟩, hkeeps,
    hback (Sink.slice 10) (by decide) (by decide), ?_⟩
  rw [hencodes "ab" Sink.growable (by decide)]
  rintro ⟨⟨bytes, hbytes, -, hgap⟩, -⟩
  obtain rfl : [0x61, 0x00, 0x62, 0x00] = bytes := Except.ok.inj hbytes
  exact absurd hgap (by decide)

end WireFormat.PaddedText
