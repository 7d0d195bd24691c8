import WireFormat.Codec.Whole
import WireFormat.Proofs.Confinement

/-!
# Sizes at the limits of a machine word

Sizes are worked out in machine words. A product that is none counts as not declared; a sum that is
none has no value, and working it out stops the program. `Codec.Overruns` says where that happens:
in a tuple whose leading sizes add up to more than a word holds. Elsewhere a total that is too large
is not declared. Decoding looks at the sizes of the items of a fixed list, also of an empty one, and
reading a whole message looks at the size of the codec; nothing else that a decoder works out leaves
the range of a word, and a source that is too short is an error (`Codec.size_arithmetic`).
-/

set_option autoImplicit false
set_option relaxedAutoImplicit false

namespace WireFormat

open View

variable {S : Signature} {α : Type}

/-! ### Where sizes overrun -/

/-- The declared sizes in front of the first part that declares none. -/
def Size.leading : List Size → List Nat
  | .fixed bytes :: sizes => bytes :: leading sizes
  | _ => []

/-- The sizes of the parts of a tuple, in order. -/
def Items.sizes : {α : Type} → Items S α → List Size
  | _, .nil => []
  | _, .cons item rest => item.size :: rest.sizes

mutual

/-- A tuple, in the codec itself or in what its size is worked out from, has leading sizes that add
up to more than a word holds. -/
def Codec.Overruns : {α : Type} → Codec S α → Prop
  | _, .tuple items => maxWord < (Size.leading items.sizes).sum ∨ items.PartOverruns
  | _, .fixedList item _ => item.Overruns
  | _, .map _ _ wire => wire.Overruns
  | _, .case _ _ payload => payload.Overruns
  | _, _ => False

/-- A part does behind parts that declare their sizes. -/
def Items.PartOverruns : {α : Type} → Items S α → Prop
  | _, .nil => False
  | _, .cons item rest => item.Overruns ∨ (∃ bytes, item.size = .fixed bytes) ∧ rest.PartOverruns

end

theorem Size.times_eq_overflow {item : Size} {count : Nat} :
    item.times count = .overflow ↔ item = .overflow := by
  cases item with
  | fixed bytes =>
    unfold times
    by_cases hword : bytes * count ≤ maxWord <;> simp [hword]
  | varying => simp [times]
  | overflow => simp [times]

theorem Leaf.size_ne_overflow (leaf : Leaf α) : leaf.size ≠ .overflow := by
  intro hsize
  cases leaf with
  | length width => cases width <;> cases hsize
  | text charset count =>
    rw [Leaf.size] at hsize
    split at hsize <;> cases hsize
  | _ => cases hsize

mutual

theorem Codec.size_eq_overflow : {α : Type} → (codec : Codec S α) →
    (codec.size = .overflow ↔ codec.Overruns)
  | _, .leaf leaf => iff_of_false leaf.size_ne_overflow id
  | _, .tuple items => by
    have hitems := items.sizeAfter_eq_overflow (Nat.zero_le maxWord)
    rwa [Nat.zero_add] at hitems
  | _, .fixedList item count => Size.times_eq_overflow.trans item.size_eq_overflow
  | _, .map _ _ wire => wire.size_eq_overflow
  | _, .case _ _ payload => payload.size_eq_overflow
  | _, .exhaustList _ _ => iff_of_false nofun id
  | _, .byteCounted _ _ _ => iff_of_false nofun id
  | _, .itemCounted _ _ _ _ => iff_of_false nofun id
  | _, .record _ _ => iff_of_false nofun id
  | _, .tagged (i := _) _ _ _ _ _ _ _ => iff_of_false nofun id
  | _, .choice (i := _) (j := _) _ _ _ _ _ _ => iff_of_false nofun id
  | _, .lazy _ _ => iff_of_false nofun id

/-- The sizes of the parts that are left are added to those before them. -/
theorem Items.sizeAfter_eq_overflow : {α : Type} → (items : Items S α) → {before : Nat} →
    before ≤ maxWord → (items.sizeAfter before = .overflow ↔
      maxWord < before + (Size.leading items.sizes).sum ∨ items.PartOverruns)
  | _, .nil, before, hbefore => by
    refine iff_of_false nofun (not_or.mpr ⟨?_, id⟩)
    simpa [Items.sizes, Size.leading] using hbefore
  | _, .cons item rest, before, hbefore => by
    have hitem := item.size_eq_overflow
    rw [Items.sizeAfter, Items.sizes, Items.PartOverruns]
    cases hsize : item.size with
    | fixed bytes =>
      rw [hsize] at hitem
      have hnot : ¬ item.Overruns := fun h ↦ nomatch hitem.mpr h
      rw [Size.leading, List.sum_cons, ← Nat.add_assoc]
      by_cases hword : before + bytes ≤ maxWord
      · simp only [if_pos hword, rest.sizeAfter_eq_overflow hword]
        simp [hnot]
      · simp only [if_neg hword, true_iff]
        exact Or.inl (by omega)
    | varying =>
      rw [hsize] at hitem
      have hnot : ¬ item.Overruns := fun h ↦ nomatch hitem.mpr h
      simp [Size.leading, hnot, hbefore]
    | overflow => simp [hitem.mp hsize]

end

/-! ### Totals that are not words -/

/-- The lengths that a leaf is built with are machine words. -/
def Leaf.LengthsFit {α : Type} : Leaf α → Prop
  | .word n => n ≤ maxWord
  | .bytes count => count ≤ maxWord
  | .text _ count => count ≤ maxWord
  | .padded format => format.length ≤ maxWord
  | .digits format => format.digits ≤ maxWord
  | _ => True

mutual

/-- So it is in all leaves that the size of a codec is worked out from. -/
def Codec.LengthsFit : {α : Type} → Codec S α → Prop
  | _, .leaf leaf => leaf.LengthsFit
  | _, .tuple items => items.LengthsFit
  | _, .fixedList item _ => item.LengthsFit
  | _, .map _ _ wire => wire.LengthsFit
  | _, .case _ _ payload => payload.LengthsFit
  | _, _ => True

/-- So it is in every part of a tuple. -/
def Items.LengthsFit : {α : Type} → Items S α → Prop
  | _, .nil => True
  | _, .cons item rest => item.LengthsFit ∧ rest.LengthsFit

end

theorem Leaf.le_of_size {leaf : Leaf α} {n : Nat} (h : leaf.LengthsFit)
    (hsize : leaf.size = .fixed n) : n ≤ maxWord := by
  cases leaf with
  | word m =>
    cases hsize
    exact h
  | bool =>
    cases hsize
    decide
  | length width =>
    cases width with
    | varint => cases hsize
    | _ =>
      cases hsize
      decide
  | bytes count =>
    cases hsize
    exact h
  | text charset count =>
    rw [Leaf.size] at hsize
    split at hsize
    · cases hsize
      exact h
    · cases hsize
  | padded format =>
    cases hsize
    exact h
  | digits format =>
    cases hsize
    have hdigits : format.digits ≤ maxWord := h
    unfold PackedDigits.byteLength
    omega
  | varint width => cases hsize
  | signedVarint width => cases hsize
  | remainingBytes => cases hsize
  | fail => cases hsize
  | remainingText charset => cases hsize

theorem Items.le_of_sizeAfter : {α : Type} → (items : Items S α) → {before n : Nat} →
    before ≤ maxWord → items.sizeAfter before = .fixed n → n ≤ maxWord
  | _, .nil, _, _, hbefore, hsize => Size.fixed.inj hsize ▸ hbefore
  | _, .cons _ rest, _, _, _, hsize => by
    obtain ⟨bytes, -, hword, hrest⟩ := Items.sizeAfter_cons_eq_fixed.mp hsize
    exact rest.le_of_sizeAfter hword hrest

/-- A declared size is a machine word. -/
theorem Codec.le_of_size : {α : Type} → (codec : Codec S α) → {n : Nat} → codec.LengthsFit →
    codec.size = .fixed n → n ≤ maxWord
  | _, .leaf _, _, h, hsize => Leaf.le_of_size h hsize
  | _, .tuple items, _, _, hsize => items.le_of_sizeAfter (Nat.zero_le _) hsize
  | _, .fixedList _ _, _, _, hsize => by
    obtain ⟨bytes, -, hword, rfl⟩ := Size.times_eq_fixed.mp hsize
    exact hword
  | _, .map _ _ wire, _, h, hsize => wire.le_of_size h hsize
  | _, .case _ _ payload, _, h, hsize => payload.le_of_size h hsize

/-- A total that is no machine word is not declared, unless working it out overruns. -/
theorem Codec.size_eq_varying {codec : Codec S α} (hlengths : codec.LengthsFit) {n : Nat}
    (hspan : codec.span = some n) (hn : maxWord < n) (hnot : ¬ codec.Overruns) :
    codec.size = .varying := by
  cases hsize : codec.size with
  | fixed bytes =>
    rw [codec.span_of_size bytes hsize] at hspan
    have hle := codec.le_of_size hlengths hsize
    rw [Option.some.inj hspan] at hle
    exact absurd hle (Nat.not_le.mpr hn)
  | varying => rfl
  | overflow => exact absurd (codec.size_eq_overflow.mp hsize) hnot

/-! ### Decoding -/

variable {names : S.Name → Prop} {definitions : Definitions S} {depth : Nat}

mutual

/-- Where every part declares a size there are no references, and no defect but in the sizes. -/
theorem Codec.soundFor_of_span : {α : Type} → (codec : Codec S α) → {n : Nat} →
    codec.span = some n → codec.SoundFor (· ≠ .overflow) names →
    codec.SoundFor (fun _ ↦ False) fun _ ↦ False
  | _, .leaf _, _, _, _ => trivial
  | _, .tuple items, _, hspan, h => items.soundFor_of_span hspan h
  | _, .fixedList item _, _, hspan, h => by
    obtain ⟨bytes, hitem, -⟩ := Option.map_eq_some_iff.mp hspan
    exact ⟨fun hsize ↦ h.1 hsize rfl, item.soundFor_of_span hitem h.2⟩
  | _, .map _ _ wire, _, hspan, h => wire.soundFor_of_span hspan h
  | _, .case _ _ payload, _, hspan, h => payload.soundFor_of_span hspan h

theorem Items.soundFor_of_span : {α : Type} → (items : Items S α) → {n : Nat} →
    items.span = some n → items.SoundFor (· ≠ .overflow) names →
    items.SoundFor (fun _ ↦ False) fun _ ↦ False
  | _, .nil, _, _, _ => trivial
  | _, .cons item rest, _, hspan, h => by
    obtain ⟨bytes, more, hitem, hrest, -⟩ := Items.span_cons_eq_some.mp hspan
    exact ⟨item.soundFor_of_span hitem h.1, rest.soundFor_of_span hrest h.2⟩

end

theorem View.Confined.ne_overflow {action : Decoding α} {source : Stage Source}
    (h : Stage.view.Confined (· ≠ .overflow) action) (hword : source.stream.remaining ≤ maxWord)
    (after : Stage Source) : action source ≠ .error .overflow after := by
  intro hrun
  have hends := h source ((Source.remaining_eq_length _).symm.trans_le hword)
  rw [hrun] at hends
  exact hends.2 rfl

/-- Fewer bytes than all parts take together are too few. -/
theorem Codec.decode_ne_ok_of_short {codec : Codec S α} {n : Nat} (hspan : codec.span = some n)
    {source : Stage Source} (hword : source.stream.remaining ≤ maxWord)
    (hshort : source.stream.remaining < n) (value : α) (after : Stage Source) :
    codec.decode definitions depth source ≠ .ok value after := by
  intro hrun
  have htakes := codec.takes_of_span n hspan source value after hrun hword
  rw [Source.remaining_eq_length] at hshort
  omega

theorem Codec.decodeExact_of_overflow {codec : Codec S α} (hsize : codec.size = .overflow)
    (source : Stage Source) :
    codec.decodeExact definitions depth source = .error .overflow source := by
  have hexpect : Stage.onStream codec.size.expect source = .error .overflow source := by
    rw [hsize]
    rfl
  exact bind_of_error hexpect _

/-- A list asks for the size of its items whatever their number. -/
theorem Codec.decode_fixedList_of_overflow {item : Codec S α} (hsize : item.size = .overflow)
    (count : Nat) (source : Stage Source) :
    (Codec.fixedList item count).decode definitions depth source = .error .overflow source := by
  rw [Codec.decode, Codec.decodeWith_fixedList, if_pos hsize, throw_apply]

/-- The look at the size changes nothing. -/
theorem Size.expect_eq_ok {size : Size} {source rest : Source} {u : Unit}
    (h : size.expect source = .ok u rest) : rest = source := by
  rw [expect, get_bind_apply] at h
  cases size with
  | fixed bytes =>
    dsimp only at h
    split_ifs at h <;> cases h
    rfl
  | varying =>
    cases h
    rfl
  | overflow => cases h

/-- So does the look at the end. -/
theorem Source.expectEnd_eq_ok {source rest : Source} {u : Unit} :
    expectEnd source = .ok u rest ↔ source.bytes = [] ∧ rest = source := by
  rw [expectEnd, get_bind_apply, remaining_eq_length, ← List.length_eq_zero_iff]
  by_cases hend : source.bytes.length = 0
  · simp [hend, eq_comm]
  · simp [hend, Nat.pos_of_ne_zero hend]

/-- What is read as a whole message is read, and nothing is left. -/
theorem Codec.decode_of_decodeExact {codec : Codec S α} {source last : Stage Source} {value : α}
    (h : codec.decodeExact definitions depth source = .ok value last) :
    codec.decode definitions depth source = .ok value last ∧ last.stream.bytes = [] := by
  obtain ⟨_, start, hexpect, hrun⟩ := bind_eq_ok.mp h
  obtain ⟨found, after, hdecode, hrest⟩ := bind_eq_ok.mp hrun
  obtain ⟨_, rest, hend, hreturn⟩ := bind_eq_ok.mp hrest
  obtain ⟨rfl, rfl⟩ := pure_eq_ok.mp hreturn
  obtain ⟨hempty, -⟩ := Source.expectEnd_eq_ok.mp (Stage.onStream_eq_ok.mp hend).1
  obtain rfl := Stage.eq_of_onStream_eq_ok Size.expect_eq_ok hexpect
  obtain rfl := Stage.eq_of_onStream_eq_ok (fun h ↦ (Source.expectEnd_eq_ok.mp h).2) hend
  exact ⟨hdecode, hempty⟩

section Sound

variable {codec : Codec S α} {source : Stage Source}
  (hsound : codec.SoundFor (· ≠ .overflow) names)
  (hdefinitions : ∀ name, names name → (definitions name).SoundFor (· ≠ .overflow) names)
  (hword : source.stream.remaining ≤ maxWord)

include hsound hdefinitions hword

theorem Codec.decode_ne_overflow (after : Stage Source) :
    codec.decode definitions depth source ≠ .error .overflow after :=
  View.Confined.ne_overflow (Codec.confined_decode nofun hdefinitions hsound depth) hword after

/-- Besides decoding, only the look at the size can overrun. -/
theorem Codec.decodeExact_eq_overflow :
    (∃ after, codec.decodeExact definitions depth source = .error .overflow after) ↔
      codec.Overruns := by
  constructor
  · rintro ⟨after, hrun⟩
    by_contra hnot
    have hsize : codec.size ≠ .overflow := fun h ↦ hnot (codec.size_eq_overflow.mp h)
    have hdecode : Stage.view.Confined (· ≠ .overflow) (codec.decode definitions depth) :=
      Codec.confined_decode nofun hdefinitions hsound depth
    exact (Codec.confined_decodeExact hsize.elim hdecode).ne_overflow hword after hrun
  · intro h
    exact ⟨source, Codec.decodeExact_of_overflow (codec.size_eq_overflow.mpr h) source⟩

theorem Codec.decode_fixedList_eq_overflow (count : Nat) :
    (∃ after, (Codec.fixedList codec count).decode definitions depth source =
      .error .overflow after) ↔ codec.Overruns := by
  constructor
  · rintro ⟨after, hrun⟩
    by_contra hnot
    have hsize : codec.size ≠ .overflow := fun h ↦ hnot (codec.size_eq_overflow.mp h)
    have hlist : (Codec.fixedList codec count).SoundFor (· ≠ .overflow) names :=
      ⟨hsize.elim, hsound⟩
    exact Codec.decode_ne_overflow hlist hdefinitions hword after hrun
  · intro h
    exact ⟨source, Codec.decode_fixedList_of_overflow (codec.size_eq_overflow.mpr h) count source⟩

omit hdefinitions in
/-- Fewer bytes than all parts take together are an error, also of a whole message. -/
theorem Codec.error_of_short {n : Nat} (hspan : codec.span = some n)
    (hshort : source.stream.remaining < n) :
    (∃ e after, codec.decode definitions depth source = .error (.error e) after) ∧
      (codec.Overruns ∨
        ∃ e after, codec.decodeExact definitions depth source = .error (.error e) after) := by
  have hstops : Stage.view.Confined (fun _ ↦ False) (codec.decode definitions depth) :=
    Codec.confined_decode_of_closed (codec.soundFor_of_span hspan hsound) depth
  have hfails (value : α) (after : Stage Source) :
      codec.decode definitions depth source ≠ .ok value after :=
    Codec.decode_ne_ok_of_short hspan hword hshort value after
  refine ⟨hstops.error_of_not_ok hword hfails, or_iff_not_imp_left.mpr fun hnot ↦ ?_⟩
  have hsize : codec.size ≠ .overflow := fun h ↦ hnot (codec.size_eq_overflow.mp h)
  have hexact := Codec.confined_decodeExact hsize.elim hstops
  refine hexact.error_of_not_ok hword fun value after hrun ↦ ?_
  exact hfails value after (Codec.decode_of_decodeExact hrun).1

end Sound

/-! ### The arithmetic of the leaves -/

namespace PackedDigits

/-- Reads bytes as `readBytes` does, the places of the nibbles being worked out in words. -/
def readBytesInWords (format : PackedDigits) : (left index : Nat) → Action Source (List Char)
  | 0, _ => pure []
  | left + 1, index =>
    if maxWord < 2 * index + 1 then throw .overflow
    else do
      let byte ← Source.getByte
      let high ← format.digitAt (2 * index) (byte.toNat / 16)
      let low ← format.digitAt (2 * index + 1) (byte.toNat % 16)
      let rest ← format.readBytesInWords left (index + 1)
      return high ++ low ++ rest

/-- Reads a string of digits as `decode` does, in words. -/
def decodeInWords (format : PackedDigits) : Action Source String := do
  let length := format.digits / 2 + format.digits % 2
  Source.atLeast length
  let chars ← format.readBytesInWords length 0
  return String.ofList chars

/-- The last place is that of the last digit or of the padding. -/
theorem readBytesInWords_eq (format : PackedDigits) {left index : Nat}
    (h : 2 * (index + left) ≤ maxWord + 1) :
    format.readBytesInWords left index = format.readBytes left index := by
  induction left generalizing index with
  | zero => rfl
  | succ left ih =>
    rw [readBytesInWords, readBytes, if_neg (by omega), ih (by omega)]

theorem decodeInWords_eq {format : PackedDigits} (h : format.digits ≤ maxWord) :
    format.decodeInWords = format.decode := by
  have hlength : format.digits / 2 + format.digits % 2 = format.byteLength := by
    unfold byteLength
    omega
  have hplaces : 2 * (0 + format.byteLength) ≤ maxWord + 1 := by
    unfold byteLength
    omega
  unfold decodeInWords decode
  simp only [hlength, format.readBytesInWords_eq hplaces]

end PackedDigits

namespace Pull

/-- A counted reader has counted no more bytes than there are. -/
theorem pulled_le_length (charset : Charset) (count : Nat) (window : List UInt8) :
    (last (readExactly charset count (start charset window))).pulled ≤ window.length := by
  obtain ⟨taken, hsupply, hpulled⟩ := before_readExactly charset count (start charset window)
  have hwindow : window = taken ++
      (last (readExactly charset count (start charset window))).supply := hsupply
  rw [hpulled, start, Nat.zero_add, hwindow, List.length_append]
  exact Nat.le_add_right _ _

theorem pulled_le_remaining (charset : Charset) (count : Nat) (source : Source) :
    (last (readExactly charset count (start charset source))).pulled ≤ source.remaining := by
  have hbytes := pulled_le_length charset count source.bytes
  have hsame : readExactly charset count (start charset source.bytes) =
      seen (readExactly charset count (start charset source)) :=
    readExactly_inBytes charset count (start charset source)
  rw [hsame, ← Source.remaining_eq_length] at hbytes
  cases hread : readExactly charset count (start charset source) <;>
  · rw [hread] at hbytes
    exact hbytes

end Pull

/-! ### Main statement -/

/-- Working out a size overruns where `Codec.Overruns` says so, and nowhere else; any other total
that is no machine word is not declared. If the items of no fixed list overrun, then decoding does
not, reading a whole message does exactly if the size does, and a list of such values does exactly
if the values do, whatever its count; and where all parts declare sizes, fewer bytes than these are
an error. Digits and text work out their places, windows and counts within words. -/
theorem Codec.size_arithmetic (definitions : Definitions S) (depth : Nat) {codec : Codec S α}
    (hlengths : codec.LengthsFit) {source : Stage Source}
    (hword : source.stream.remaining ≤ maxWord) :
    (codec.size = .overflow ↔ codec.Overruns) ∧
    (∀ n, codec.span = some n → maxWord < n → codec.Overruns ∨ codec.size = .varying) ∧
    (∀ names : S.Name → Prop, codec.SoundFor (· ≠ .overflow) names →
      (∀ name, names name → (definitions name).SoundFor (· ≠ .overflow) names) →
      (∀ after, codec.decode definitions depth source ≠ .error .overflow after) ∧
      ((∃ after, codec.decodeExact definitions depth source = .error .overflow after) ↔
        codec.Overruns) ∧
      (∀ count, (∃ after, (Codec.fixedList codec count).decode definitions depth source =
        .error .overflow after) ↔ codec.Overruns) ∧
      ∀ n, codec.span = some n → source.stream.remaining < n →
        (∃ e after, codec.decode definitions depth source = .error (.error e) after) ∧
        (codec.Overruns ∨
          ∃ e after, codec.decodeExact definitions depth source = .error (.error e) after)) ∧
    (∀ format : PackedDigits, format.digits ≤ maxWord → format.decodeInWords = format.decode) ∧
    ∀ charset count,
      CodePointReader.windowLength charset count source.stream.remaining ≤ maxWord ∧
      (Pull.last (Pull.readExactly charset count (Pull.start charset source.stream))).pulled ≤
        maxWord ∧
      ∀ window : List UInt8, window.length ≤ maxWord →
        (Pull.last (Pull.readExactly charset count (Pull.start charset window))).pulled ≤
          maxWord := by
  refine ⟨codec.size_eq_overflow, ?_, ?_, fun _ ↦ PackedDigits.decodeInWords_eq, ?_⟩
  · intro n hspan hn
    exact or_iff_not_imp_left.mpr (Codec.size_eq_varying hlengths hspan hn)
  · intro names hsound hdefinitions
    exact ⟨Codec.decode_ne_overflow hsound hdefinitions hword,
      Codec.decodeExact_eq_overflow hsound hdefinitions hword,
      Codec.decode_fixedList_eq_overflow hsound hdefinitions hword,
      fun n ↦ Codec.error_of_short hsound hword⟩
  · intro charset count
    refine ⟨(Nat.min_le_right _ _).trans hword, ?_, fun window hwindow ↦ ?_⟩
    · exact (Pull.pulled_le_remaining charset count source.stream).trans hword
    · exact (Pull.pulled_le_length charset count window).trans hwindow

/-- Twice the largest number of bytes is no machine word, and the size of a tuple that starts with a
list of that many is not declared; three bytes are too few for it. -/
theorem Codec.size_arithmetic_large :
    let codec : Codec Signature.empty _ := .tuple
      (.cons (.fixedList (.leaf (.bytes maxWord)) 2) (.cons (.leaf (.word 1)) .nil))
    let definitions : Definitions Signature.empty := nofun
    let source : Stage Source := ⟨Source.ofBytes [1, 2, 3], Cells.fresh⟩
    codec.LengthsFit ∧ source.stream.remaining ≤ maxWord ∧
      codec.SoundFor (· ≠ .overflow) (fun _ ↦ False) ∧
      codec.span = some (maxWord * 2 + 1) ∧ codec.size = .varying ∧
      (∃ e after, codec.decode definitions 0 source = .error (.error e) after) ∧
      ∃ e after, codec.decodeExact definitions 0 source = .error (.error e) after := by
  intro codec definitions source
  have hone : 1 ≤ maxWord := by decide
  have hlengths : codec.LengthsFit := ⟨Nat.le_refl maxWord, hone, trivial⟩
  have hword : source.stream.remaining ≤ maxWord := by decide
  have hsound : codec.SoundFor (· ≠ .overflow) (fun _ ↦ False) :=
    ⟨⟨nofun, trivial⟩, trivial, trivial⟩
  have hspan : codec.span = some (maxWord * 2 + 1) := rfl
  obtain ⟨-, htotal, hdecoding, -⟩ := Codec.size_arithmetic definitions 0 hlengths hword
  have hnot : ¬ codec.Overruns := by
    rintro (hsum | hpart | ⟨⟨bytes, hsize⟩, -⟩)
    · exact absurd hsum (by decide)
    · exact hpart
    · cases hsize
  obtain ⟨-, -, -, hshort⟩ := hdecoding (fun _ ↦ False) hsound fun _ ↦ False.elim
  obtain ⟨hdecode, hexact⟩ := hshort _ hspan (by decide)
  exact ⟨hlengths, hword, hsound, hspan, (htotal _ hspan (by decide)).resolve_left hnot, hdecode,
    hexact.resolve_left hnot⟩

/-- The largest number of bytes and one more byte: the sum is worked out where the size is declared,
where a whole message is read, and where a list of no such values is read. -/
theorem Codec.sum_of_sizes_overflows :
    let codec : Codec Signature.empty _ := .tuple
      (.cons (.leaf (.bytes maxWord)) (.cons (.leaf (.word 1)) .nil))
    let definitions : Definitions Signature.empty := nofun
    let source : Stage Source := ⟨Source.ofBytes [], Cells.fresh⟩
    codec.LengthsFit ∧ codec.span = some (maxWord + 1) ∧ codec.size = .overflow ∧
      codec.decodeExact definitions 0 source = .error .overflow source ∧
      (Codec.fixedList codec 0).decode definitions 0 source = .error .overflow source := by
  intro codec definitions source
  have hone : 1 ≤ maxWord := by decide
  exact ⟨⟨Nat.le_refl maxWord, hone, trivial⟩, rfl, rfl, rfl, rfl⟩

end WireFormat
