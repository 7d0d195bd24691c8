import WireFormat.Proofs.SizeArithmetic

/-!
# Declared sizes are kept

A codec that declares a size keeps to it in both directions: what it writes has as many bytes, what
it reads is a front of as many bytes, and a source that has fewer is refused with an error
(`Codec.keeps_declared_size`). For the refusal it takes more than the lengths: a codec that declares
a size has no list whose items overrun, no tagged record and no reference
(`Codec.soundFor_of_size`), so that nothing but an error can stop it.
-/

set_option autoImplicit false
set_option relaxedAutoImplicit false

namespace WireFormat

variable {S : Signature} {α : Type}

/-! ### Parts that declare sizes -/

mutual

/-- What declares a size is made of parts that declare sizes, and none of these overruns. -/
theorem Codec.soundFor_of_size : {α : Type} → (codec : Codec S α) → {n : Nat} →
    codec.size = .fixed n → codec.SoundFor (fun _ ↦ False) fun _ ↦ False
  | _, .leaf _, _, _ => trivial
  | _, .tuple items, _, hsize => items.soundFor_of_sizeAfter hsize
  | _, .fixedList item _, _, hsize => by
    obtain ⟨bytes, hitem, -⟩ := Size.times_eq_fixed.mp hsize
    refine ⟨fun hoverflow ↦ ?_, item.soundFor_of_size hitem⟩
    rw [hitem] at hoverflow
    cases hoverflow
  | _, .map _ _ wire, _, hsize => wire.soundFor_of_size hsize
  | _, .case _ _ payload, _, hsize => payload.soundFor_of_size hsize

theorem Items.soundFor_of_sizeAfter : {α : Type} → (items : Items S α) → {before n : Nat} →
    items.sizeAfter before = .fixed n → items.SoundFor (fun _ ↦ False) fun _ ↦ False
  | _, .nil, _, _, _ => trivial
  | _, .cons item rest, _, _, hsize => by
    obtain ⟨bytes, hitem, -, hrest⟩ := Items.sizeAfter_cons_eq_fixed.mp hsize
    exact ⟨item.soundFor_of_size hitem, rest.soundFor_of_sizeAfter hrest⟩

end

/-! ### Both directions -/

section Declared

variable {codec : Codec S α} {n : Nat} {definitions : Definitions S} {depth : Nat}
  (hsize : codec.size = .fixed n)

include hsize

/-- A successful encoder adds as many bytes as the codec declares, and reports that number. -/
theorem Codec.encode_adds_size {value : α} {stage after : Stage Sink} {written : Written}
    (h : codec.encode definitions depth value stage = .ok written after) :
    ∃ code, code.length = n ∧ after.stream = stage.stream.extend code ∧ written.bytes = n := by
  obtain ⟨code, hcode, hafter, hbytes⟩ :=
    codec.writes_encode definitions depth value stage written after h
  have hlength : code.length = n := codec.length_of_size n hsize value code hcode
  exact ⟨code, hlength, hafter, hbytes.trans hlength⟩

/-- Whatever stops the decoder, it is no defect of the format. -/
theorem Codec.confined_decode_of_size :
    Stage.view.Confined (fun _ ↦ False) (codec.decode definitions depth) :=
  Codec.confined_decode_of_closed (codec.soundFor_of_size hsize) depth

/-- A successful decoder takes as many bytes from the front as the codec declares. -/
theorem Codec.decode_takes_size {source after : Stage Source} {value : α}
    (hword : source.stream.remaining ≤ maxWord)
    (h : codec.decode definitions depth source = .ok value after) :
    ∃ front, front.length = n ∧ source.stream.bytes = front ++ after.stream.bytes := by
  have hconfined : Stage.view.Confined (fun _ ↦ False) (codec.decode definitions depth) :=
    Codec.confined_decode_of_size hsize
  have hleaves := hconfined source ((Source.remaining_eq_length _).symm.trans_le hword)
  rw [h] at hleaves
  obtain ⟨front, hfront⟩ := hleaves
  have hbytes : source.stream.bytes = front ++ after.stream.bytes := hfront.symm
  refine ⟨front, ?_, hbytes⟩
  have htakes := codec.takes_of_size n hsize source value after h hword
  rw [hbytes, List.length_append] at htakes
  exact Nat.add_right_cancel htakes

/-- Fewer bytes than the codec declares are an error. -/
theorem Codec.decode_of_fewer {source : Stage Source} (hword : source.stream.remaining ≤ maxWord)
    (hfewer : source.stream.remaining < n) :
    ∃ e after, codec.decode definitions depth source = .error (.error e) after := by
  refine (Codec.confined_decode_of_size hsize).error_of_not_ok hword fun value after hrun ↦ ?_
  obtain ⟨front, hlength, hbytes⟩ := Codec.decode_takes_size hsize hword hrun
  rw [Source.remaining_eq_length, hbytes, List.length_append] at hfewer
  omega

end Declared

/-- A declared size is kept: every successful encoder adds exactly that many bytes to its sink,
every successful decoder takes exactly that many from the front of its source, and a source that has
fewer is an error. -/
theorem Codec.keeps_declared_size (definitions : Definitions S) (depth : Nat) {codec : Codec S α}
    {n : Nat} (hsize : codec.size = .fixed n) :
    (∀ value stage written after,
      codec.encode definitions depth value stage = .ok written after →
      ∃ code, code.length = n ∧ after.stream = stage.stream.extend code ∧ written.bytes = n) ∧
    ∀ source : Stage Source, source.stream.remaining ≤ maxWord →
      (∀ value after, codec.decode definitions depth source = .ok value after →
        ∃ front, front.length = n ∧ source.stream.bytes = front ++ after.stream.bytes) ∧
      (source.stream.remaining < n →
        ∃ e after, codec.decode definitions depth source = .error (.error e) after) := by
  refine ⟨fun value stage written after ↦ Codec.encode_adds_size hsize, fun source hword ↦ ?_⟩
  exact ⟨fun value after ↦ Codec.decode_takes_size hsize hword, Codec.decode_of_fewer hsize hword⟩

/-- Two characters of one byte each, three digits and a text in a field of six bytes take ten bytes;
nine are too few. -/
theorem Codec.keeps_declared_size_ten :
    let codec : Codec Signature.empty (List String × String × String × Unit) := .tuple
      (.cons (.fixedList (.leaf (.text .latin1 1)) 2)
        (.cons (.leaf (.digits { alphabet := .decimal, digits := 3 }))
          (.cons (.leaf (.padded { charset := .utf16be, length := 6 })) .nil)))
    let definitions : Definitions Signature.empty := nofun
    let code : List UInt8 := [0xE9, 0x61, 0x01, 0x23, 0x00, 0x62, 0x00, 0x20, 0x00, 0x20]
    let source : Source := ⟨[code.take 5, code.drop 5 ++ [7]]⟩
    let short : Source := ⟨[code.take 5, [], (code.drop 5).take 4]⟩
    codec.size = .fixed 10 ∧
      codec.encode definitions 0 (["é", "a"], "123", "b", ()) ⟨Sink.slice 12, Cells.fresh⟩ =
        .ok ⟨3, 10⟩ ⟨⟨code, 12⟩, Cells.fresh⟩ ∧
      (∃ added, added.length = 10 ∧ ⟨code, 12⟩ = (Sink.slice 12).extend added) ∧
      (∃ after, codec.decode definitions 0 ⟨source, Cells.fresh⟩ =
          .ok (["é", "a"], "123", "b", ()) after ∧
        ∃ front, front.length = 10 ∧ source.bytes = front ++ after.stream.bytes) ∧
      ∃ e after, codec.decode definitions 0 ⟨short, Cells.fresh⟩ = .error (.error e) after := by
  intro codec definitions code source short
  have hsize : codec.size = .fixed 10 := by decide
  have hencode : codec.encode definitions 0 (["é", "a"], "123", "b", ())
      ⟨Sink.slice 12, Cells.fresh⟩ = .ok ⟨3, 10⟩ ⟨⟨code, 12⟩, Cells.fresh⟩ := by
    with_unfolding_all rfl
  have hdecode : codec.decode definitions 0 ⟨source, Cells.fresh⟩ =
      .ok (["é", "a"], "123", "b", ()) ⟨⟨[[7]]⟩, Cells.fresh⟩ := by
    with_unfolding_all rfl
  obtain ⟨hwrites, hreads⟩ := Codec.keeps_declared_size definitions 0 hsize
  obtain ⟨htakes, -⟩ := hreads ⟨source, Cells.fresh⟩ (by decide)
  obtain ⟨-, hshort⟩ := hreads ⟨short, Cells.fresh⟩ (by decide)
  obtain ⟨added, hlength, hadded, -⟩ := hwrites _ _ _ _ hencode
  exact ⟨hsize, hencode, ⟨added, hlength, hadded⟩, ⟨_, hdecode, htakes _ _ hdecode⟩,
    hshort (by decide)⟩

end WireFormat
