import WireFormat.Codec.Build
import WireFormat.Proofs.RoundTrip

/-!
# Records with optional fields

The encoder asks each field for its presence in the whole record, the decoder in the record as far
as it is known. The two agree where presence depends on earlier fields only
(`Fields.PresentByEarlier`): the decoder keeps a record that agrees with the whole one on all
fields it has passed. With fields that do not disturb each other (`Fields.Independent`) it ends up
with its start into which the fields of the whole record are copied (`Fields.readsBack_decodeWith`),
which is that record when the record is nothing but its fields (`Codec.decode_encoded_record`).
-/

set_option autoImplicit false
set_option relaxedAutoImplicit false

namespace WireFormat

variable {S : Signature}

/-! ### What is asked of the fields -/

/-- Every field satisfies a condition on its accessor, its mutator, its presence and its codec. -/
def Fields.Forall : {R : Type} → Fields S R →
    ({F : Type} → (R → Option F) → (R → F → R) → (R → Bool) → Codec S F → Prop) → Prop
  | _, .nil, _ => True
  | _, .cons _ get set present codec rest, condition =>
    condition get set present codec ∧ rest.Forall condition

/-- Every field yields what it was set to, and does not notice when another one is set. -/
def Fields.Independent : {R : Type} → Fields S R → Prop
  | _, .nil => True
  | _, .cons _ get set _ _ rest =>
    (∀ record value, get (set record value) = some value) ∧
      rest.Forall (fun other change _ _ ↦
        (∀ record value, get (change record value) = get record) ∧
          ∀ record value, other (set record value) = other record) ∧
      rest.Independent

/-- Records that agree on the fields before a field agree on its presence. The relation `agree`
says so of the fields before the first one. -/
def Fields.PresentByEarlier : {R : Type} → Fields S R → (R → R → Prop) → Prop
  | _, .nil, _ => True
  | _, .cons _ get _ present _ rest, agree =>
    (∀ a b, agree a b → present a = present b) ∧
      rest.PresentByEarlier fun a b ↦ agree a b ∧ get a = get b

/-- The record `target`, each field set to what it is in `value` where it is set there. -/
def Fields.copyInto : {R : Type} → Fields S R → (target value : R) → R
  | _, .nil, target, _ => target
  | _, .cons _ get set _ _ rest, target, value =>
    match get value with
    | some inner => rest.copyInto (set target inner) value
    | none => rest.copyInto target value

/-- The number of fields that are present in a record. -/
def Fields.countPresent : {R : Type} → Fields S R → R → Nat
  | _, .nil, _ => 0
  | _, .cons _ _ _ present _ rest, value =>
    if present value then 1 + rest.countPresent value else rest.countPresent value

/-- One code for each field that is present in the record, in order: what its codec writes for what
its accessor yields. -/
def Fields.Encodes (definitions : Definitions S) (depth : Nat) :
    {R : Type} → Fields S R → R → List (List UInt8) → Prop
  | _, .nil, _, codes => codes = []
  | _, .cons _ get _ present codec rest, value, codes =>
    if present value then
      ∃ inner code others, get value = some inner ∧ codec.Encodes definitions depth inner code ∧
        rest.Encodes definitions depth value others ∧ codes = code :: others
    else rest.Encodes definitions depth value codes

/-! ### Encoding and decoding of the fields -/

open Decoding

variable {definitions : Definitions S} {depth : Nat}

theorem Fields.forall_of_forall : {R : Type} → (fields : Fields S R) →
    {condition : {F : Type} → (R → Option F) → (R → F → R) → (R → Bool) → Codec S F → Prop} →
    (∀ {F : Type} (get : R → Option F) (set : R → F → R) (present : R → Bool)
      (codec : Codec S F), condition get set present codec) → fields.Forall condition
  | _, .nil, _, _ => trivial
  | _, .cons _ _ _ _ _ rest, _, h => ⟨h _ _ _ _, rest.forall_of_forall h⟩

/-- Two conditions on every field give a third. -/
theorem Fields.Forall.imp₂ : {R : Type} → (fields : Fields S R) →
    {first second third :
      {F : Type} → (R → Option F) → (R → F → R) → (R → Bool) → Codec S F → Prop} →
    (∀ {F : Type} (get : R → Option F) (set : R → F → R) (present : R → Bool)
      (codec : Codec S F), first get set present codec → second get set present codec →
        third get set present codec) →
    fields.Forall first → fields.Forall second → fields.Forall third
  | _, .nil, _, _, _, _, _, _ => trivial
  | _, .cons _ _ _ _ _ rest, _, _, _, himp, hfirst, hsecond =>
    ⟨himp _ _ _ _ hfirst.1 hsecond.1, Fields.Forall.imp₂ rest himp hfirst.2 hsecond.2⟩

/-- The encoder of the fields writes the codes of those that are present, and counts them. -/
theorem Fields.encodes_of_ok : {R : Type} → {fields : Fields S R} → {value : R} →
    {stage after : Stage Sink} → {written : Written} →
    fields.encodeWith (definitions.encodeWithin depth) value stage = .ok written after →
    ∃ codes, fields.Encodes definitions depth value codes ∧
      after.stream = stage.stream.extend codes.flatten ∧
      written.count = fields.countPresent value
  | _, .nil, value, stage, after, written, h => by
    obtain ⟨rfl, rfl⟩ := pure_eq_ok.mp h
    exact ⟨[], rfl, (Sink.extend_nil _).symm, rfl⟩
  | _, .cons name get set present codec rest, value, stage, after, written, h => by
    rw [Fields.encodeWith] at h
    by_cases hpresent : present value = true
    · rw [if_pos hpresent] at h
      obtain ⟨w, middle, hfield, h⟩ := bind_eq_ok.mp h
      obtain ⟨w', last, hrest, h⟩ := bind_eq_ok.mp h
      obtain ⟨rfl, rfl⟩ := pure_eq_ok.mp h
      replace hfield := inField_eq_ok.mp hfield
      cases hget : get value with
      | none =>
        rw [hget] at hfield
        cases hfield
      | some inner =>
        rw [hget] at hfield
        obtain ⟨code, hcode, hmiddle, -⟩ := Codec.encodes_of_ok hfield
        obtain ⟨codes, hcodes, hlast, hcount⟩ := Fields.encodes_of_ok hrest
        refine ⟨code :: codes, ?_, ?_, ?_⟩
        · rw [Fields.Encodes, if_pos hpresent]
          exact ⟨inner, code, codes, hget, hcode, hcodes, rfl⟩
        · rw [hlast, hmiddle, Sink.extend_extend, List.flatten_cons]
        · rw [Fields.countPresent, if_pos hpresent, ← hcount]
          rfl
    · rw [if_neg hpresent] at h
      obtain ⟨codes, hcodes, hafter, hcount⟩ := Fields.encodes_of_ok h
      refine ⟨codes, ?_, hafter, ?_⟩
      · rw [Fields.Encodes, if_neg hpresent]
        exact hcodes
      · rw [Fields.countPresent, if_neg hpresent]
        exact hcount

/-- The decoder of the fields reads these codes back: it starts from `current`, which agrees with
`value` on the fields before, and ends with the fields of `value` copied into it. -/
theorem Fields.readsBack_decodeWith : {R : Type} → (fields : Fields S R) →
    {agree : R → R → Prop} → {current value : R} → {codes : List (List UInt8)} →
    fields.Independent →
    fields.Forall (fun _ _ _ codec ↦ codec.RoundTrips definitions depth) →
    fields.PresentByEarlier agree → agree current value →
    fields.Forall (fun _ set _ _ ↦
      ∀ record inner, agree record value → agree (set record inner) value) →
    fields.Forall (fun get _ present _ ↦ (∃ record, present record = false) →
      get current = none) →
    fields.Forall (fun get _ present _ ↦ (get value).isSome = true → present value = true) →
    fields.Encodes definitions depth value codes →
    ReadsBack (fields.decodeWith (definitions.decodeWithin depth) current) false codes.flatten
      (fields.copyInto current value) True
  | _, .nil, _, _, _, _, _, _, _, _, _, _, _, hcodes => by
    subst hcodes
    exact readsBack_pure _
  | _, .cons name get set present codec rest, agree, current, value, codes, hindependent,
      hcodecs, hpresence, hagree, hstable, hunset, hset, hcodes => by
    obtain ⟨hyields, hothers, hindependent⟩ := hindependent
    obtain ⟨hearlier, hpresence⟩ := hpresence
    have hsame : present current = present value := hearlier current value hagree
    -- On the field passed, too, setting a later one changes nothing.
    have hstable' : rest.Forall fun _ set _ _ ↦ ∀ record inner,
        (agree record value ∧ get record = get value) →
          agree (set record inner) value ∧ get (set record inner) = get value := by
      refine Fields.Forall.imp₂ rest ?_ hstable.2 hothers
      intro _ _ _ _ _ hkeeps hblind record inner hrecord
      exact ⟨hkeeps record inner hrecord.1, (hblind.1 record inner).trans hrecord.2⟩
    rw [Fields.Encodes] at hcodes
    rw [Fields.decodeWith, Fields.copyInto, hsame]
    by_cases hpresent : present value = true
    · rw [if_pos hpresent] at hcodes
      rw [if_pos hpresent]
      obtain ⟨inner, code, others, hget, hcode, hbehind, rfl⟩ := hcodes
      rw [hget]
      have hunset' : rest.Forall fun get _ present _ ↦ (∃ record, present record = false) →
          get (set current inner) = none := by
        refine Fields.Forall.imp₂ rest ?_ hunset.2 hothers
        intro _ _ _ _ _ hnone hblind habsent
        exact (hblind.2 current inner).trans (hnone habsent)
      have hnext : agree (set current inner) value ∧ get (set current inner) = get value :=
        ⟨hstable.1 current inner hagree, (hyields current inner).trans hget.symm⟩
      have hrest := Fields.readsBack_decodeWith rest hindependent hcodecs.2 hpresence hnext
        hstable' hunset' hset.2 hbehind
      exact readsBack_congr
        (readsBack_bind (readsBack_inField (hcodecs.1.readsBack hcode false)) hrest) and_self_iff
    · rw [if_neg hpresent] at hcodes
      rw [if_neg hpresent]
      have hnone : get value = none := by
        cases hget : get value with
        | none => rfl
        | some inner => exact absurd (hset.1 (by rw [hget]; rfl)) hpresent
      have hcurrent : get current = none :=
        hunset.1 ⟨value, Bool.eq_false_iff.mpr hpresent⟩
      rw [hnone]
      exact Fields.readsBack_decodeWith rest hindependent hcodecs.2 hpresence
        ⟨hagree, hcurrent.trans hnone.symm⟩ hstable' hunset.2 hset.2 hcodes

/-! ### Records -/

/-- A record that was put together is one of its fields. -/
theorem Codec.ofFields_eq_ok {R : Type} {factory : Option R} {fields : Fields S R}
    {codec : Codec S R} (h : Codec.ofFields factory fields = .ok codec) :
    codec = .record factory fields := by
  unfold Codec.ofFields at h
  split at h
  · cases h
  · exact (Except.ok.inj h).symm

/-- Let decoding start from a record in which no field is set that can be absent, and let a record
be nothing but that start with its fields, none of which is set where it is not present. Then its
bytes are those of the fields that are present, one after another, their number is reported, and in
front of any bytes they are read as the record. -/
theorem Codec.decode_encoded_record {R : Type} {fields : Fields S R} {start value : R}
    {codec : Codec S R} {stage after : Stage Sink} {written : Written}
    (hbuild : Codec.ofFields (some start) fields = .ok codec)
    (hunset : fields.Forall fun get _ present _ ↦ (∃ record, present record = false) →
      get start = none)
    (hindependent : fields.Independent)
    (hcodecs : fields.Forall fun _ _ _ codec ↦ codec.RoundTrips definitions depth)
    (hpresence : fields.PresentByEarlier fun _ _ ↦ True)
    (honly : fields.copyInto start value = value)
    (hset : fields.Forall fun get _ present _ ↦ (get value).isSome = true →
      present value = true)
    (hencode : codec.encode definitions depth value stage = .ok written after) :
    ∃ codes, fields.Encodes definitions depth value codes ∧
      after.stream.written = stage.stream.written ++ codes.flatten ∧
      written = ⟨fields.countPresent value, codes.flatten.length⟩ ∧
      ∀ (source : Stage Source) (suffix : List UInt8),
        source.stream.bytes = codes.flatten ++ suffix → source.stream.remaining ≤ maxWord →
        ∃ last, codec.decode definitions depth source = .ok value last ∧
          last.stream.bytes = suffix := by
  obtain rfl := Codec.ofFields_eq_ok hbuild
  obtain ⟨codes, hcodes, hafter, hcount⟩ := Fields.encodes_of_ok hencode
  have hwritten : after.stream.written = stage.stream.written ++ codes.flatten := by
    rw [hafter, Sink.written_extend]
  have hbytes : written.bytes = codes.flatten.length := by
    obtain ⟨code, -, hstream, hbytes⟩ := Codec.encodes_of_ok hencode
    rw [hstream, Sink.written_extend] at hwritten
    rw [hbytes, List.append_cancel_left hwritten]
  refine ⟨codes, hcodes, hwritten, by rw [← hcount, ← hbytes], ?_⟩
  intro source suffix hsource hword
  -- Before the first field there is nothing to agree on.
  have hstable : fields.Forall fun {F} _ _ _ _ ↦ R → F → True → True :=
    fields.forall_of_forall fun _ _ _ _ _ _ _ ↦ trivial
  have hreads := fields.readsBack_decodeWith hindependent hcodecs hpresence trivial hstable hunset
    hset hcodes
  rw [honly] at hreads
  rw [Source.remaining_eq_length, hsource] at hword
  rcases hreads source suffix hsource (by simp) hword with ⟨-, hread⟩ | ⟨hnot, -⟩
  · exact hread
  · exact absurd trivial hnot

/-- A record of bytes by name: `size` follows a `kind` of one, `body` follows a size, `extra`
follows a kind of two. Of a record of kind one, three fields are written and read back. -/
theorem Codec.decode_encoded_record_by_name :
    let put (name : String) (record : String → Option (BitVec (8 * 1))) (byte : BitVec (8 * 1)) :
        String → Option (BitVec (8 * 1)) :=
      fun other ↦ if other = name then some byte else record other
    let fields : Fields Signature.empty (String → Option (BitVec (8 * 1))) :=
      .cons "kind" (· "kind") (put "kind") (fun _ ↦ true) (.leaf (.word 1))
        (.cons "size" (· "size") (put "size") (fun record ↦ record "kind" = some 1)
          (.leaf (.word 1))
          (.cons "body" (· "body") (put "body") (fun record ↦ (record "size").isSome)
            (.leaf (.word 1))
            (.cons "extra" (· "extra") (put "extra") (fun record ↦ record "kind" = some 2)
              (.leaf (.word 1)) .nil)))
    let definitions : Definitions Signature.empty := nofun
    let start : String → Option (BitVec (8 * 1)) := fun _ ↦ none
    let value := put "body" (put "size" (put "kind" start 1) 7) 9
    let codec : Codec Signature.empty (String → Option (BitVec (8 * 1))) :=
      .record (some start) fields
    let source : Stage Source := ⟨⟨[[1, 7], [9, 0x7F]]⟩, Cells.fresh⟩
    Codec.ofFields (some start) fields = .ok codec ∧
      fields.Independent ∧ fields.PresentByEarlier (fun _ _ ↦ True) ∧
      codec.encode definitions 0 value ⟨Sink.growable, Cells.fresh⟩ =
        .ok ⟨3, 3⟩ ⟨⟨[1, 7, 9], maxAllocation⟩, Cells.fresh⟩ ∧
      ∃ last, codec.decode definitions 0 source = .ok value last ∧ last.stream.bytes = [0x7F] := by
  intro put fields definitions start value codec source
  have hbuild : Codec.ofFields (some start) fields = .ok codec := by rfl
  have hindependent : fields.Independent := by
    simp [fields, Fields.Independent, Fields.Forall, put]
  have hpresence : fields.PresentByEarlier fun _ _ ↦ True := by
    simp +contextual [fields, Fields.PresentByEarlier]
  have hword : (Codec.leaf (.word 1) : Codec Signature.empty _).RoundTrips definitions 0 :=
    Codec.roundTrips_of_delimits trivial (fun _ ↦ trivial) fun _ ↦ trivial
  have hunset : fields.Forall fun get _ present _ ↦ (∃ record, present record = false) →
      get start = none := ⟨fun _ ↦ rfl, fun _ ↦ rfl, fun _ ↦ rfl, fun _ ↦ rfl, trivial⟩
  have hset : fields.Forall fun get _ present _ ↦ (get value).isSome = true →
      present value = true := ⟨fun _ ↦ rfl, fun _ ↦ rfl, fun _ ↦ rfl, nofun, trivial⟩
  have hencode : codec.encode definitions 0 value ⟨Sink.growable, Cells.fresh⟩ =
      .ok ⟨3, 3⟩ ⟨⟨[1, 7, 9], maxAllocation⟩, Cells.fresh⟩ := by
    rfl
  refine ⟨hbuild, hindependent, hpresence, hencode, ?_⟩
  obtain ⟨codes, -, hcodes, -, hdecode⟩ := Codec.decode_encoded_record hbuild hunset hindependent
    ⟨hword, hword, hword, hword, trivial⟩ hpresence rfl hset hencode
  have hflatten : codes.flatten = [1, 7, 9] := hcodes.symm
  rw [hflatten] at hdecode
  exact hdecode source [0x7F] rfl (by decide)

end WireFormat
