import WireFormat.Proofs.Depth
import WireFormat.Proofs.Recoding
import WireFormat.Proofs.SizeArithmetic

/-!
# References inside frames

Definitions may refer to each other in a circle, and then nothing in a codec bounds how deeply
references are nested. If every reference stands inside a frame behind a length field, then the
source bounds it (`Codec.Framed`): the length field takes a byte, so that there are fewer bytes in a
frame than around it. With as many levels of references as there are bytes no run is nested too
deeply (`Codec.shallow_decodeWith`), and more levels change nothing. What is left are a value, an
error, or a list whose items have a size out of range (`Codec.decode_framed`).
-/

set_option autoImplicit false
set_option relaxedAutoImplicit false

namespace WireFormat

open View

variable {S : Signature}

/-! ### Where references stand -/

mutual

/-- References stand inside frames behind a length field only, unless the codec is itself `inside`
such a frame. No record is tagged. -/
def Codec.Framed (inside : Bool) : {α : Type} → Codec S α → Prop
  | _, .leaf _ => True
  | _, .tuple items => items.Framed inside
  | _, .fixedList item _ => item.Framed inside
  | _, .exhaustList item _ => item.Framed inside
  | _, .map _ _ wire => wire.Framed inside
  | _, .case _ _ payload => payload.Framed inside
  | _, .byteCounted length _ payload =>
    (∃ width, length = .leaf (.length width)) ∧ payload.Framed true ∨
      length.Framed inside ∧ payload.Framed inside
  | _, .itemCounted length _ _ body => length.Framed inside ∧ ∀ n, (body n).Framed inside
  | _, .record _ fields => fields.Framed inside
  | _, .tagged (i := _) _ _ _ _ _ _ _ => False
  | _, .choice (i := _) (j := _) tag _ _ _ _ table => tag.Framed inside ∧ table.Framed inside
  | _, .lazy _ _ => inside = true

/-- So it is in every part of a tuple. -/
def Items.Framed (inside : Bool) : {α : Type} → Items S α → Prop
  | _, .nil => True
  | _, .cons item rest => item.Framed inside ∧ rest.Framed inside

/-- So it is in every field of a record. -/
def Fields.Framed (inside : Bool) : {R : Type} → Fields S R → Prop
  | _, .nil => True
  | _, .cons _ _ _ _ codec rest => codec.Framed inside ∧ rest.Framed inside

/-- So it is in every codec of a table. -/
def Table.Framed (inside : Bool) : {K V : Type} → Table S K V → Prop
  | _, _, .nil => True
  | _, _, .cons _ codec rest => codec.Framed inside ∧ rest.Framed inside

end

/-! ### Runs that are nested too deeply -/

namespace Decoding

variable {α : Type} {level : Nat}

/-- The defects of a run from `length` bytes: a size is out of range, or references are nested too
deeply although there are no fewer bytes than `level`. -/
def DeepFrom (level length : Nat) (failure : Failure) : Prop :=
  failure = .overflow ∨ failure = .tooDeep ∧ level ≤ length

theorem growing_deepFrom : Growing (DeepFrom level) :=
  fun _ _ hle _ h ↦ h.imp_right fun ⟨hdeep, hlevel⟩ ↦ ⟨hdeep, hlevel.trans hle⟩

/-- The run is confined, and nested too deeply only where there are at least `level` bytes. -/
def Shallow (level : Nat) (decoder : Decoding α) : Prop :=
  Stage.view.ConfinedBy (DeepFrom level) decoder

theorem shallow_mono {more : Nat} (hle : level ≤ more) {decoder : Decoding α}
    (h : Shallow more decoder) : Shallow level decoder := fun s hword ↦
  leaves_mono (fun _ hdefect ↦ hdefect.imp_right fun ⟨hdeep, hmore⟩ ↦ ⟨hdeep, hle.trans hmore⟩)
    (h s hword)

/-- What follows no references is not nested. -/
theorem shallow_of_confined {decoder : Decoding α}
    (h : Stage.view.Confined (fun _ ↦ False) decoder) : Shallow level decoder := fun s hword ↦
  leaves_mono (fun _ ↦ False.elim) (h s hword)

theorem shallow_fail (kind : ErrorKind) : Shallow level (fail kind : Decoding α) :=
  shallow_of_confined (confined_fail kind)

theorem shallow_bind {β : Type} {decoder : Decoding α} {f : α → Decoding β}
    (hdecoder : Shallow level decoder) (hf : ∀ a, Shallow level (f a)) :
    Shallow level (decoder >>= f) :=
  confinedBy_bind growing_deepFrom hdecoder hf

/-- A computation behind a run does not change why it stops. -/
theorem shallow_bind_ofExcept {β : Type} {decoder : Decoding α} (h : Shallow level decoder)
    (f : α → Except Error β) : Shallow level (do ofExcept (f (← decoder))) :=
  shallow_bind h fun a ↦ shallow_of_confined (confined_ofExcept (f a))

theorem shallow_bind_pure {β : Type} {decoder : Decoding α} (h : Shallow level decoder)
    (f : α → β) : Shallow level (do return f (← decoder)) :=
  shallow_bind h fun a ↦ shallow_of_confined (confined_pure (f a))

/-- A frame behind a length field has fewer bytes than there are around it. -/
theorem shallow_lengthFrame (width : LengthWidth) (range : LengthRange) {inner : Decoding α}
    (h : Shallow level inner) :
    Shallow (level + 1) (do
      let n ← ofExcept (range.check (← Stage.onStream width.decode))
      let frame ← Stage.onStream (Source.take n)
      inFrame frame inner) := by
  intro s hword
  have hlength : Stage.view.Confined (fun _ ↦ False) (Stage.onStream width.decode) :=
    Stage.confined_onStream width.confined_decode
  refine leaves_bind (leaves_mono (fun _ ↦ False.elim) (hlength s hword)) ?_
  intro found middle hfound hsuffix
  have hless : middle.stream.bytes.length < s.stream.bytes.length := by
    obtain ⟨front, code, hbytes, hcode, hle, -⟩ :=
      LengthWidth.recodes_decode (Stage.onStream_eq_ok.mp hfound).1
    have hpositive : 0 < code.length :=
      List.length_pos_of_ne_nil (LengthWidth.ne_nil_of_wire? hcode)
    rw [hbytes, List.length_append]
    omega
  have hframe : Shallow level (do
      let n ← ofExcept (range.check found)
      let frame ← Stage.onStream (Source.take n)
      inFrame frame inner) :=
    shallow_bind (shallow_of_confined (confined_ofExcept _)) fun n ↦
      confinedBy_frame growing_deepFrom n h
  refine leaves_mono (fun _ hdefect ↦ ?_) (hframe middle (hless.le.trans hword))
  exact hdefect.imp_right fun ⟨hdeep, hle⟩ ↦ ⟨hdeep, Nat.succ_le_of_lt (hle.trans_lt hless)⟩

end Decoding

open Decoding

/-! ### Codecs -/

/-- Inside a frame behind a length field there are as many levels of references as there were around
it, and outside of all frames there is one more to be had. -/
def levelAt (inside : Bool) (depth : Nat) : Nat := if inside then depth else depth + 1

variable {references : (name : S.Name) → Decoding (S.Value name)} {depth : Nat}

/-! One level of references: if the decoders of the names are nested too deeply only where there are
at least `depth` bytes, then one more byte is needed where all references stand inside frames. -/

mutual

theorem Codec.shallow_decodeWith (hreferences : ∀ name, Shallow depth (references name)) :
    {α : Type} → {inside : Bool} → (codec : Codec S α) → codec.Framed inside →
    Shallow (levelAt inside depth) (codec.decodeWith references)
  | _, _, .leaf leaf, _ => shallow_of_confined (Stage.confined_onStream leaf.confined_decode)
  | _, _, .tuple items, h => items.shallow_decodeWith hreferences h
  | _, _, .fixedList item count, h => by
    rw [Codec.decodeWith_fixedList]
    split
    · exact fun _ _ ↦ ⟨List.suffix_refl _, Or.inl rfl⟩
    · exact confinedBy_items growing_deepFrom (item.shallow_decodeWith hreferences h) _ _ _
  | _, _, .exhaustList item max, h =>
    confinedBy_itemsToEnd growing_deepFrom (item.shallow_decodeWith hreferences h) max
  | _, _, .map _ fromWire wire, h =>
    shallow_bind_ofExcept (wire.shallow_decodeWith hreferences h) fromWire
  | _, _, .case wrap _ payload, h =>
    shallow_bind_pure (payload.shallow_decodeWith hreferences h) wrap
  | _, inside, .byteCounted length range payload, h => by
    obtain ⟨⟨width, rfl⟩, hpayload⟩ | ⟨hlength, hpayload⟩ := h
    · have hinner : Shallow depth (payload.decodeWith references) :=
        payload.shallow_decodeWith hreferences hpayload
      refine shallow_mono ?_ (shallow_lengthFrame width range hinner)
      unfold levelAt
      split <;> omega
    · refine shallow_bind (length.shallow_decodeWith hreferences hlength) fun n ↦ ?_
      refine shallow_bind (shallow_of_confined (confined_ofExcept _)) fun n ↦ ?_
      exact confinedBy_frame growing_deepFrom n (payload.shallow_decodeWith hreferences hpayload)
  | _, _, .itemCounted length range _ body, h => by
    refine shallow_bind (length.shallow_decodeWith hreferences h.1) fun n ↦ ?_
    exact shallow_bind (shallow_of_confined (confined_ofExcept _)) fun n ↦
      (body n).shallow_decodeWith hreferences (h.2 n)
  | _, _, .record factory fields, h => by
    cases factory with
    | none => exact shallow_fail _
    | some start => exact fields.shallow_decodeWith hreferences h start
  | _, _, .choice (i := _) (j := _) tag showTag showKind _ registry table, h => by
    refine shallow_bind (tag.shallow_decodeWith hreferences h.1) fun key ↦ ?_
    cases registry.kindOf? key with
    | none => exact shallow_fail _
    | some kind =>
      have hdecoders := table.shallow_decodeAt hreferences h.2 kind
      cases hdecode : table.decodeAt references kind with
      | none =>
        simp only [hdecode]
        exact shallow_fail _
      | some decode =>
        simp only [hdecode]
        exact hdecoders decode hdecode
  | _, _, .lazy cell name, h => by
    cases h
    exact shallow_bind (shallow_of_confined (Stage.confined_use cell)) fun _ ↦ hreferences name

theorem Items.shallow_decodeWith (hreferences : ∀ name, Shallow depth (references name)) :
    {α : Type} → {inside : Bool} → (items : Items S α) → items.Framed inside →
    Shallow (levelAt inside depth) (items.decodeWith references)
  | _, _, .nil, _ => shallow_of_confined (confined_pure ())
  | _, _, .cons item rest, h =>
    shallow_bind (item.shallow_decodeWith hreferences h.1) fun value ↦
      shallow_bind_pure (rest.shallow_decodeWith hreferences h.2) (value, ·)

theorem Fields.shallow_decodeWith (hreferences : ∀ name, Shallow depth (references name)) :
    {R : Type} → {inside : Bool} → (fields : Fields S R) → fields.Framed inside → (record : R) →
    Shallow (levelAt inside depth) (fields.decodeWith references record)
  | _, _, .nil, _, record => shallow_of_confined (confined_pure record)
  | _, _, .cons _ _ set _ codec rest, h, record =>
    confinedBy_ite
      (shallow_bind (confinedBy_inField (codec.shallow_decodeWith hreferences h.1)) fun value ↦
        rest.shallow_decodeWith hreferences h.2 (set record value))
      (rest.shallow_decodeWith hreferences h.2 record)

theorem Table.shallow_decodeAt (hreferences : ∀ name, Shallow depth (references name)) :
    {K V : Type} → {inside : Bool} → [DecidableEq K] → (table : Table S K V) →
    table.Framed inside → (wanted : K) → ∀ decode, table.decodeAt references wanted = some decode →
    Shallow (levelAt inside depth) decode
  | _, _, _, _, .nil, _, _, _, h => by cases h
  | _, _, _, _, .cons key codec rest, hframed, wanted, decode, h => by
    rw [Table.decodeAt] at h
    by_cases hkey : key = wanted
    · rw [if_pos hkey] at h
      cases h
      exact codec.shallow_decodeWith hreferences hframed.1
    · rw [if_neg hkey] at h
      exact rest.shallow_decodeAt hreferences hframed.2 wanted decode h

end

variable {definitions : Definitions S}

/-- By induction on the levels of references that are left: where there are none, any number of
bytes is enough for a reference to be nested too deeply. -/
theorem Definitions.shallow_decodeWithin (hfamily : ∀ name, (definitions name).Framed false)
    (depth : Nat) (name : S.Name) : Shallow depth (definitions.decodeWithin depth name) := by
  induction depth generalizing name with
  | zero => exact fun _ _ ↦ ⟨List.suffix_refl _, Or.inr ⟨rfl, Nat.zero_le _⟩⟩
  | succ depth ih => exact (definitions name).shallow_decodeWith ih (hfamily name)

/-! ### Main statement -/

/-- If in a family of definitions every reference stands inside a frame behind a length field, then
reading ends on every source: references are nested no more deeply than there are bytes, and with
more levels than that the run is the same. It ends with a value or an error, or because a list has
items with a size out of range; the latter does not happen where no list of the family has such
items. -/
theorem Codec.decode_framed (hfamily : ∀ name, (definitions name).Framed false) {α : Type}
    {codec : Codec S α} (hcodec : codec.Framed false) {source : Stage Source}
    (hword : source.stream.remaining ≤ maxWord) :
    (∀ depth after, codec.decode definitions depth source = .error .tooDeep after →
      depth < source.stream.remaining) ∧
    ∃ result : EStateM.Result Failure (Stage Source) α,
      (∀ depth, source.stream.remaining ≤ depth →
        codec.decode definitions depth source = result) ∧
      ((∃ value after, result = .ok value after) ∨ (∃ e after, result = .error (.error e) after) ∨
        ∃ after, result = .error .overflow after) ∧
      (codec.SoundFor (· ≠ .overflow) (fun _ ↦ True) →
        (∀ name, (definitions name).SoundFor (· ≠ .overflow) fun _ ↦ True) →
        ∀ after, result ≠ .error .overflow after) := by
  have hbytes : source.stream.bytes.length = source.stream.remaining :=
    (Source.remaining_eq_length _).symm
  have hshallow (depth : Nat) : Shallow (depth + 1) (codec.decode definitions depth) :=
    codec.shallow_decodeWith (Definitions.shallow_decodeWithin hfamily depth) hcodec
  have hdeep (depth : Nat) (after : Stage Source)
      (h : codec.decode definitions depth source = .error .tooDeep after) :
      depth < source.stream.remaining := by
    have hends := hshallow depth source (hbytes.trans_le hword)
    rw [h] at hends
    obtain ⟨-, hoverflow | ⟨-, hle⟩⟩ := hends
    · cases hoverflow
    · exact hle.trans_eq hbytes
  refine ⟨hdeep, codec.decode definitions source.stream.remaining source, ?_, ?_, ?_⟩
  · intro depth hle
    exact Codec.decode_of_le hle fun after h ↦ Nat.lt_irrefl _ (hdeep _ after h)
  · have hends := hshallow source.stream.remaining source (hbytes.trans_le hword)
    cases hrun : codec.decode definitions source.stream.remaining source with
    | ok value after => exact Or.inl ⟨value, after, rfl⟩
    | error failure after =>
      rw [hrun] at hends
      cases failure with
      | error e => exact Or.inr (Or.inl ⟨e, after, rfl⟩)
      | overflow => exact Or.inr (Or.inr ⟨after, rfl⟩)
      | tooDeep => exact absurd (hdeep _ after hrun) (Nat.lt_irrefl _)
      | pastEnd | miscounted | endless => simp [DeepFrom, Failure.Within, Leaves] at hends
  · intro hsound hdefinitions
    exact Codec.decode_ne_overflow hsound (fun name _ ↦ hdefinitions name) hword

/-- A definition that refers to itself inside a frame, read as the number of frames that stand
inside each other. One level is not enough for three frames; as many levels as there are bytes are,
and more change nothing. -/
theorem Codec.decode_framed_circle :
    let definitions : Definitions ⟨Unit, fun _ ↦ Nat⟩ := fun _ ↦
      .map (fun _ ↦ []) (fun heights ↦ .ok (heights.foldl max 0 + 1))
        (.byteCounted (.leaf (.length .u8)) .unbounded
          (.exhaustList (.lazy ⟨0, fun _ ↦ true⟩ ()) none))
    let source : Stage Source := ⟨Source.ofBytes [2, 1, 0], Cells.fresh⟩
    (∀ name, (definitions name).Framed false) ∧ source.stream.remaining ≤ maxWord ∧
      (∃ after, (definitions ()).decode definitions 1 source = .error .tooDeep after) ∧
      ∀ depth, 3 ≤ depth →
        ∃ after, (definitions ()).decode definitions depth source = .ok 3 after := by
  intro definitions source
  have hfamily (name : Unit) : (definitions name).Framed false := Or.inl ⟨⟨.u8, rfl⟩, rfl⟩
  have hword : source.stream.remaining ≤ maxWord := by decide
  have hdecode : ∃ after, (definitions ()).decode definitions 3 source = .ok 3 after :=
    ⟨⟨⟨[[]]⟩, Cells.fresh.set 0 ⟨1, true⟩⟩, by with_unfolding_all rfl⟩
  have hcut : ∃ after, (definitions ()).decode definitions 1 source = .error .tooDeep after :=
    ⟨⟨⟨[[]]⟩, Cells.fresh.set 0 ⟨1, true⟩⟩, by with_unfolding_all rfl⟩
  obtain ⟨-, result, hresult, -, -⟩ := Codec.decode_framed hfamily (hfamily ()) hword
  refine ⟨hfamily, hword, hcut, fun depth hdepth ↦ ?_⟩
  rw [hresult depth hdepth, ← hresult 3 (Nat.le_refl 3)]
  exact hdecode

/-- The same with a list of no items in front of the frame, in a tuple. The size of the items is
worked out all the same, so that there is neither a value nor an error. -/
theorem Codec.decode_framed_overflows :
    let definitions : Definitions ⟨Unit, fun _ ↦ Nat⟩ := fun _ ↦
      .map (fun _ ↦ ([], [], ())) (fun (_, heights, _) ↦ .ok (heights.foldl max 0 + 1))
        (.tuple
          (.cons
            (.fixedList (.tuple (.cons (.leaf (.bytes maxWord)) (.cons (.leaf (.word 1)) .nil))) 0)
            (.cons
              (.byteCounted (.leaf (.length .u8)) .unbounded
                (.exhaustList (.lazy ⟨0, fun _ ↦ true⟩ ()) none))
              .nil)))
    let source : Stage Source := ⟨Source.ofBytes [0], Cells.fresh⟩
    (∀ name, (definitions name).Framed false) ∧
      ∀ depth, (definitions ()).decode definitions depth source = .error .overflow source := by
  intro definitions source
  have hframed (name : Unit) : (definitions name).Framed false :=
    ⟨⟨trivial, trivial, trivial⟩, Or.inl ⟨⟨.u8, rfl⟩, rfl⟩, trivial⟩
  exact ⟨hframed, fun depth ↦ rfl⟩

end WireFormat
