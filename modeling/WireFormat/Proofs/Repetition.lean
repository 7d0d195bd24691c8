import WireFormat.Proofs.Chunking
import WireFormat.Proofs.Confinement

/-!
# Runs that are made again

A run that succeeded has left the end of its bytes, and every reference it has used is resolved
afterwards. So it can be made again: from the same bytes, in whatever chunks, with all of these
references resolved, the decoder yields the same value, leaves the same bytes and does not touch the
references any more (`Decoding.Repeats`, `Codec.repeats_decode`). This holds of every codec,
also of those that read to the end of their source.

For a codec that finds the end of what it reads, other bytes may stand behind those it took:
decoding depends on nothing but these (`Codec.decode_of_front`).
-/

set_option autoImplicit false
set_option relaxedAutoImplicit false

namespace WireFormat

/-- What is resolved in one state of the references is resolved in another. -/
def Cells.ResolvedIn (cells others : Cells) : Prop :=
  ∀ id, (cells id).resolved = true → (others id).resolved = true

namespace Cells

variable {cells others more : Cells}

theorem resolvedIn_refl (cells : Cells) : cells.ResolvedIn cells := fun _ h ↦ h

theorem ResolvedIn.trans (h : cells.ResolvedIn others) (hmore : others.ResolvedIn more) :
    cells.ResolvedIn more :=
  fun id hid ↦ hmore id (h id hid)

/-- Once used, a reference is resolved; the others are as they were. -/
theorem use_eq_ok {cell : LazyCell} {after : Cells} {u : Unit}
    (h : use cell cells = .ok u after) :
    (after cell.id).resolved = true ∧ cells.ResolvedIn after := by
  unfold use at h
  by_cases hresolved : (cells cell.id).resolved = true
  · simp only [if_pos hresolved, EStateM.Result.ok.injEq] at h
    obtain ⟨-, rfl⟩ := h
    exact ⟨hresolved, resolvedIn_refl _⟩
  · simp only [if_neg hresolved] at h
    by_cases hsupply : cell.supply (cells cell.id).calls = true
    · simp only [if_pos hsupply, EStateM.Result.ok.injEq] at h
      obtain ⟨-, rfl⟩ := h
      refine ⟨by simp [set], fun id hid ↦ ?_⟩
      by_cases hsame : id = cell.id
      · simp [set, hsame]
      · simpa [set, hsame] using hid
    · simp [if_neg hsupply] at h

/-- Nothing happens to a reference that is resolved. -/
theorem use_of_resolved {cell : LazyCell} (h : (cells cell.id).resolved = true) :
    use cell cells = .ok () cells := by
  simp only [use, if_pos h]

end Cells

namespace Decoding

variable {α β : Type}

/-- The run from `s` to `s'` with the value `a` can be made again from the same bytes, when what is
resolved after it is resolved beforehand. -/
structure Settled (decoder : Decoding α) (s : Stage Source) (a : α) (s' : Stage Source) :
    Prop where
  suffix : s'.stream.bytes <:+ s.stream.bytes
  resolved : s.cells.ResolvedIn s'.cells
  again : ∀ t : Stage Source, t.stream.bytes = s.stream.bytes → s'.cells.ResolvedIn t.cells →
    ∃ t', decoder t = .ok a t' ∧ t'.stream.bytes = s'.stream.bytes ∧ t'.cells = t.cells

/-- Every run that succeeds can be made again. -/
def Repeats (decoder : Decoding α) : Prop :=
  ∀ s a s', decoder s = .ok a s' → s.stream.remaining ≤ maxWord → Settled decoder s a s'

/-! ### Ways of putting decoders together -/

/-- A run that leaves bytes and references alone can be made again. -/
theorem settled_of_same {decoder : Decoding α} {s s' : Stage Source} {a : α}
    (hbytes : s'.stream.bytes = s.stream.bytes) (hcells : s'.cells = s.cells)
    (hagain : ∀ t : Stage Source, t.stream.bytes = s.stream.bytes → decoder t = .ok a t) :
    Settled decoder s a s' where
  suffix := by rw [hbytes]
  resolved := hcells ▸ Cells.resolvedIn_refl _
  again t ht _ := ⟨t, hagain t ht, ht.trans hbytes.symm, rfl⟩

theorem repeats_pure (a : α) : Repeats (pure a) := by
  rintro s _ _ ⟨⟩ -
  exact settled_of_same rfl rfl fun _ _ ↦ rfl

theorem repeats_throw (failure : Failure) : Repeats (throw failure : Decoding α) :=
  nofun

theorem repeats_ofExcept (result : Except Error α) : Repeats (ofExcept result) := by
  cases result with
  | error e => exact repeats_throw _
  | ok a => exact repeats_pure a

/-- The first of two parts is made again because what it resolved stays resolved in the second,
which has to do so only after values that the first part yields. -/
theorem repeats_bind_of {yields : α → Prop} {decoder : Decoding α} {f : α → Decoding β}
    (hdecoder : Repeats decoder)
    (hyields : ∀ s a s', decoder s = .ok a s' → s.stream.remaining ≤ maxWord → yields a)
    (hf : ∀ a, yields a → Repeats (f a)) : Repeats (decoder >>= f) := by
  intro s b s' h hword
  obtain ⟨a, middle, hfirst, hsecond⟩ := bind_eq_ok.mp h
  have hlead := hdecoder s a middle hfirst hword
  have hword' : middle.stream.remaining ≤ maxWord := by
    rw [Source.remaining_eq_length] at hword ⊢
    exact hlead.suffix.length_le.trans hword
  have hrest := hf a (hyields s a middle hfirst hword) middle b s' hsecond hword'
  refine ⟨hrest.suffix.trans hlead.suffix, hlead.resolved.trans hrest.resolved, ?_⟩
  intro t hbytes hresolved
  obtain ⟨t', hrun, hmiddle, hcells⟩ := hlead.again t hbytes (hrest.resolved.trans hresolved)
  obtain ⟨t'', hrun', hlast, hcells'⟩ := hrest.again t' hmiddle (hcells ▸ hresolved)
  exact ⟨t'', (bind_of_ok hrun f).trans hrun', hlast, hcells'.trans hcells⟩

theorem repeats_bind {decoder : Decoding α} {f : α → Decoding β} (hdecoder : Repeats decoder)
    (hf : ∀ a, Repeats (f a)) : Repeats (decoder >>= f) :=
  repeats_bind_of hdecoder (fun _ _ _ _ _ ↦ trivial) fun a _ ↦ hf a

theorem repeats_inField {name : String} {decoder : Decoding α} (h : Repeats decoder) :
    Repeats (inField name decoder) := by
  intro s a s' hrun hword
  have hsettled := h s a s' (inField_eq_ok.mp hrun) hword
  refine ⟨hsettled.suffix, hsettled.resolved, fun t hbytes hresolved ↦ ?_⟩
  obtain ⟨t', hagain, hafter⟩ := hsettled.again t hbytes hresolved
  exact ⟨t', inField_eq_ok.mpr hagain, hafter⟩

/-- A use of a reference finds it resolved the second time. -/
theorem repeats_use (cell : LazyCell) : Repeats (Stage.onCells (Cells.use cell)) := by
  intro s a s' h _
  obtain ⟨huse, hstream⟩ := Stage.onCells_eq_ok.mp h
  obtain ⟨hcell, hresolved⟩ := Cells.use_eq_ok huse
  refine ⟨by rw [hstream], hresolved, fun t hbytes ht ↦ ⟨t, ?_, ?_, rfl⟩⟩
  · simp only [Stage.onCells, Cells.use_of_resolved (ht cell.id hcell)]
  · rw [hbytes, hstream]

/-- What reads the stream alone does the same on the same bytes. -/
theorem repeats_onStream {action : Action Source α} (hrespects : Source.sameBytes.Respects action)
    (hsuffix : ∀ source a rest, action source = .ok a rest → source.remaining ≤ maxWord →
      rest.bytes <:+ source.bytes) : Repeats (Stage.onStream action) := by
  intro s a s' h hword
  obtain ⟨hstream, hcells⟩ := Stage.onStream_eq_ok.mp h
  refine ⟨hsuffix _ _ _ hstream hword, hcells ▸ Cells.resolvedIn_refl _, fun t hbytes _ ↦ ?_⟩
  rcases hrespects _ _ (⟨hbytes.symm, hword⟩ : Source.sameBytes.same s.stream t.stream) with
    ⟨value, rest, rest', hsame, hs, ht⟩ | ⟨failure, rest, rest', -, hs, -⟩
  · rw [hstream] at hs
    cases hs
    exact ⟨_, Stage.onStream_of_ok ht, hsame.1.symm, rfl⟩
  · rw [hstream] at hs
    cases hs

/-- A frame is the same in both runs; the references in it are resolved in the second. -/
theorem repeats_inFrame {frame : List UInt8} {inner : Decoding α}
    (hframe : frame.length ≤ maxWord) (h : Repeats inner) : Repeats (inFrame frame inner) := by
  intro s a s' hrun _
  obtain ⟨last, hinner, hlast, rfl⟩ := inFrame_eq_ok hrun
  have hword : (Source.ofBytes frame).remaining ≤ maxWord := by
    rwa [Source.remaining_eq_length, Source.bytes_ofBytes]
  have hsettled := h _ _ _ hinner hword
  refine ⟨List.suffix_refl _, hsettled.resolved, fun t hbytes hresolved ↦ ?_⟩
  obtain ⟨t', hagain, hbytes', hcells⟩ :=
    hsettled.again ⟨Source.ofBytes frame, t.cells⟩ rfl hresolved
  exact ⟨_, inFrame_of_ok hagain (hbytes'.trans hlast), hbytes, hcells⟩

/-- A frame is no longer than what it is cut out of. -/
theorem repeats_frame {inner : Decoding α} (n : Nat) (h : Repeats inner) :
    Repeats (Stage.onStream (Source.take n) >>= fun frame ↦ inFrame frame inner) := by
  have htake : Repeats (Stage.onStream (Source.take n)) := by
    refine repeats_onStream (Source.respects_take n) fun source bytes rest htaken _ ↦ ?_
    exact ⟨bytes, (Source.take_eq_ok htaken).2.symm⟩
  have hshort : ∀ (s : Stage Source) frame s', Stage.onStream (Source.take n) s = .ok frame s' →
      s.stream.remaining ≤ maxWord → frame.length ≤ maxWord := by
    intro s frame s' htaken hword
    rw [Source.remaining_eq_length] at hword
    exact (length_le_of_take htaken).trans hword
  exact repeats_bind_of htake hshort fun frame hframe ↦ repeats_inFrame hframe h

/-! ### Lists and entries -/

theorem repeats_expectItem (read requested : Nat) : Repeats (expectItem read requested) := by
  intro s u s' h _
  obtain ⟨hend, rfl⟩ := expectItem_eq_ok h
  refine settled_of_same rfl rfl fun t hbytes ↦ expectItem_of_ne_nil ?_
  rw [hbytes]
  exact mt Source.remaining_eq_zero_iff.mpr hend

/-- The loop makes the same turns again, because it goes by the number of bytes left. -/
theorem repeats_itemsToEnd {item : Decoding α} (h : Repeats item) (allowance : Option Nat) :
    Repeats (itemsToEnd item allowance) := by
  intro s values s' hrun hword
  induction hleft : s.stream.remaining using Nat.strongRecOn generalizing s values allowance with
  | ind left ih =>
    rcases itemsToEnd_eq_ok hrun with
      ⟨rfl, rfl, hstop⟩ | ⟨value, middle, others, hallowed, hvalue, hless, hothers, rfl⟩
    · refine settled_of_same rfl rfl fun t hbytes ↦ ?_
      rw [Source.remaining_eq_length, ← hbytes, ← Source.remaining_eq_length] at hstop
      rw [itemsToEnd, if_pos hstop]
    · have hlead := h s value middle hvalue hword
      have hrest := ih _ (hleft ▸ hless) _ _ _ hothers (hless.le.trans hword) rfl
      refine ⟨hrest.suffix.trans hlead.suffix, hlead.resolved.trans hrest.resolved, ?_⟩
      intro t hbytes hresolved
      obtain ⟨t', hagain, hmiddle, hcells⟩ :=
        hlead.again t hbytes (hrest.resolved.trans hresolved)
      obtain ⟨t'', hagain', hlast, hcells'⟩ := hrest.again t' hmiddle (hcells ▸ hresolved)
      have hless' : t'.stream.remaining < t.stream.remaining := by
        rw [Source.remaining_eq_length, Source.remaining_eq_length] at hless ⊢
        rwa [hmiddle, hbytes]
      refine ⟨t'', ?_, hlast, hcells'.trans hcells⟩
      rw [itemsToEnd, if_neg (not_or.mpr ⟨Nat.ne_zero_of_lt hless', hallowed⟩)]
      simp only [hagain, if_pos hless', hagain']

theorem repeats_entriesToEnd {K V R : Type} {entry : Decoding (K × V)} (h : Repeats entry)
    (add : R → K → V → R) (allowance : Option Nat) (record : R) :
    Repeats (entriesToEnd entry add allowance record) := by
  intro s result s' hrun hword
  induction hleft : allowance.getD s.stream.remaining using Nat.strongRecOn
    generalizing s allowance record with
  | ind left ih =>
    rcases entriesToEnd_eq_ok hrun with
      ⟨rfl, rfl, hstop⟩ | ⟨tag, value, middle, hgoes, hentry, hless, hothers⟩
    · refine settled_of_same rfl rfl fun t hbytes ↦ entriesToEnd_of_end ?_
      rwa [Source.remaining_eq_length, ← hbytes, ← Source.remaining_eq_length] at hstop
    · have hlead := h s (tag, value) middle hentry hword
      have hlength := hlead.suffix.length_le
      rw [← Source.remaining_eq_length, ← Source.remaining_eq_length] at hlength
      have hmeasure : (allowance.map (· - 1)).getD middle.stream.remaining < left := by
        rw [← hleft]
        cases allowance with
        | none => exact hless rfl
        | some bound =>
          have hpositive : bound ≠ 0 := fun hzero ↦ hgoes (Or.inr (congrArg some hzero))
          exact Nat.sub_one_lt hpositive
      have hrest := ih _ hmeasure _ _ _ hothers (hlength.trans hword) rfl
      refine ⟨hrest.suffix.trans hlead.suffix, hlead.resolved.trans hrest.resolved, ?_⟩
      intro t hbytes hresolved
      obtain ⟨t', hagain, hmiddle, hcells⟩ :=
        hlead.again t hbytes (hrest.resolved.trans hresolved)
      obtain ⟨t'', hagain', hlast, hcells'⟩ := hrest.again t' hmiddle (hcells ▸ hresolved)
      have hsame : t.stream.remaining = s.stream.remaining := by
        rw [Source.remaining_eq_length, Source.remaining_eq_length, hbytes]
      have hsame' : t'.stream.remaining = middle.stream.remaining := by
        rw [Source.remaining_eq_length, Source.remaining_eq_length, hmiddle]
      refine ⟨t'', ?_, hlast, hcells'.trans hcells⟩
      rw [← hsame] at hgoes hless
      rw [← hsame'] at hless
      exact (entriesToEnd_of_entry hgoes hagain hless).trans hagain'

end Decoding

open Decoding

/-! ### Codecs -/

/-- A leaf that succeeds leaves the end of its bytes. -/
theorem Leaf.suffix_decode {α : Type} {leaf : Leaf α} {source rest : Source} {value : α}
    (h : leaf.decode source = .ok value rest) (hword : source.remaining ≤ maxWord) :
    rest.bytes <:+ source.bytes := by
  rw [Source.remaining_eq_length] at hword
  have hleaves : Source.view.Leaves (fun _ ↦ False) source (leaf.decode source) :=
    leaf.confined_decode source hword
  rw [h] at hleaves
  exact hleaves

theorem Decoding.hereditary_repeats : Decoding.Hereditary Repeats where
  ofExcept := repeats_ofExcept
  overflow := repeats_throw _
  tooDeep := repeats_throw _
  bind := repeats_bind
  inField _ _ := repeats_inField
  leaf leaf := repeats_onStream leaf.respects_decode fun _ _ _ ↦ Leaf.suffix_decode
  frame n _ := repeats_frame n
  expectItem := repeats_expectItem
  itemsToEnd allowance h := repeats_itemsToEnd h allowance
  entriesToEnd add allowance record h := repeats_entriesToEnd h add allowance record
  use := repeats_use

variable {S : Signature}

theorem Codec.repeats_decode {α : Type} (codec : Codec S α) (definitions : Definitions S)
    (depth : Nat) : Repeats (codec.decode definitions depth) :=
  codec.hereditary_decode Decoding.hereditary_repeats definitions depth

/-! ### Decoding depends on what it takes -/

/-- A codec that finds the end of what it reads takes some bytes off the front. In front of any
other bytes, which it leaves, it reads them as the same value, whatever its encoder would write for
that value; the references are in the same state in both runs, or those that the first run has
resolved are resolved before the second one, too. -/
theorem Codec.decode_of_front {α : Type} {names : S.Name → Prop} {codec : Codec S α}
    {definitions : Definitions S} {depth : Nat} (hcodec : codec.FindsEnd names)
    (hdefinitions : ∀ name, names name → (definitions name).FindsEnd names)
    {source last : Stage Source} {value : α} (hword : source.stream.remaining ≤ maxWord)
    (hdecode : codec.decode definitions depth source = .ok value last) :
    ∃ k, source.stream.remaining = k + last.stream.remaining ∧
      last.stream.bytes = source.stream.bytes.drop k ∧
      ∀ (other : Stage Source) (suffix : List UInt8),
        other.stream.bytes = source.stream.bytes.take k ++ suffix →
        other.stream.remaining ≤ maxWord →
        (other.cells = source.cells ∨ last.cells.ResolvedIn other.cells) →
        ∃ after, codec.decode definitions depth other = .ok value after ∧
          after.stream.bytes = suffix := by
  have hfinds : Stage.view.FindsEnd (codec.decode definitions depth) :=
    codec.findsEnd_decodeWith (Definitions.findsEnd_decodeWithin hdefinitions depth) hcodec
  rw [Source.remaining_eq_length] at hword
  obtain ⟨front, hfront⟩ := hfinds _ _ _ hdecode hword
  have hbytes : source.stream.bytes = front ++ last.stream.bytes := hfront.bytes
  refine ⟨front.length, ?_, ?_, ?_⟩
  · rw [Source.remaining_eq_length, Source.remaining_eq_length, hbytes, List.length_append]
  · rw [hbytes, List.drop_left]
  · intro other suffix hother hword' hcells
    rw [hbytes, List.take_left] at hother
    have hlength : (front ++ suffix).length ≤ maxWord := by
      rwa [← hother, ← Source.remaining_eq_length]
    obtain ⟨after, hrun, hafter, haside⟩ :=
      hfront.again ⟨other.stream, source.cells⟩ suffix hother rfl hlength
    rcases hcells with hsame | hresolved
    · rw [← hsame] at hrun
      exact ⟨after, hrun, hafter⟩
    · have hsettled := codec.repeats_decode definitions depth _ _ _ hrun hword'
      have hcells : after.cells = last.cells := haside
      obtain ⟨after', hrun', hafter', -⟩ :=
        hsettled.again other rfl (hcells ▸ hresolved)
      exact ⟨after', hrun', hafter'.trans hafter⟩

/-- A number in more groups than it needs behind a reference, digits with a nibble of padding that
is not the configured one, a record whose second field is there because of the first, and a list.
The second run has other bytes behind them, other chunks, and finds the reference resolved. -/
theorem Codec.decode_of_front_overlong :
    let record : Codec ⟨Unit, fun _ ↦ BitVec 32⟩ (Bool × Option (BitVec (8 * 1))) :=
      .record (some (false, none))
        (.cons "flag" (fun r ↦ some r.1) (fun r flag ↦ (flag, r.2)) (fun _ ↦ true) (.leaf .bool)
          (.cons "extra" (fun r ↦ r.2) (fun r extra ↦ (r.1, some extra)) (fun r ↦ r.1)
            (.leaf (.word 1)) .nil))
    let codec : Codec ⟨Unit, fun _ ↦ BitVec 32⟩ _ := .tuple
      (.cons (.lazy ⟨0, fun call ↦ call = 2⟩ ())
        (.cons (.leaf (.digits { alphabet := .decimal, digits := 3 }))
          (.cons record (.cons (.fixedList (.leaf (.word 1)) 2) .nil))))
    let definitions : Definitions ⟨Unit, fun _ ↦ BitVec 32⟩ := fun _ ↦ .leaf (.varint 32)
    let source : Stage Source :=
      ⟨Source.ofBytes [0x81, 0x80, 0, 0xF1, 0x23, 1, 5, 7, 8, 9], Cells.fresh.set 0 ⟨2, false⟩⟩
    let value := (1#32, "123", (true, some 5#8), [7#8, 8#8], ())
    let last : Stage Source :=
      ⟨Source.ofBytes [9], (Cells.fresh.set 0 ⟨2, false⟩).set 0 ⟨3, true⟩⟩
    let other : Stage Source :=
      ⟨⟨[[0x81], [0x80, 0, 0xF1], [], [0x23, 1, 5, 7, 8, 0xA], [0xB]]⟩,
        Cells.fresh.set 0 ⟨7, true⟩⟩
    codec.FindsEnd (fun _ ↦ True) ∧ (∀ name, True → (definitions name).FindsEnd fun _ ↦ True) ∧
      source.stream.remaining ≤ maxWord ∧
      codec.decode definitions 1 source = .ok value last ∧
      last.cells.ResolvedIn other.cells ∧
      ∃ after, codec.decode definitions 1 other = .ok value after ∧
        after.stream.bytes = [0xA, 0xB] := by
  intro record codec definitions source value last other
  have hcodec : codec.FindsEnd fun _ ↦ True :=
    ⟨trivial, trivial, ⟨trivial, trivial, trivial⟩, trivial, trivial⟩
  have hdefinitions (name : Unit) (_ : True) : (definitions name).FindsEnd fun _ ↦ True := trivial
  have hword : source.stream.remaining ≤ maxWord := by decide
  have hdecode : codec.decode definitions 1 source = .ok value last := by
    with_unfolding_all rfl
  have hresolved : last.cells.ResolvedIn other.cells := by
    intro id hid
    by_cases hid' : id = 0
    · rw [hid']
      rfl
    · simp [last, Cells.set, Cells.fresh, hid'] at hid
  refine ⟨hcodec, hdefinitions, hword, hdecode, hresolved, ?_⟩
  obtain ⟨k, hk, -, hagain⟩ := Codec.decode_of_front hcodec hdefinitions hword hdecode
  obtain rfl : k = 9 := Nat.add_right_cancel (hk.symm.trans (rfl : _ = 9 + 1))
  exact hagain other [0xA, 0xB] rfl (by decide) (Or.inr hresolved)

end WireFormat
