import WireFormat.Codec.Decode
import WireFormat.Proofs.Charset.Cuts
import WireFormat.Proofs.Leaves

/-!
# What a reader has taken

A run that succeeded has taken some bytes off the front of its source. An action finds the end of
what it reads by itself (`View.FindsEnd`) when these bytes decide the run: in front of any other
bytes it goes the same way, and when some of them are missing at the end it fails, saying so. The
second half is not a case of the first, as it needs the part that is cut, and no other, to fail.

Both are shown rule by rule: for sequences (`View.findsEnd_bind`), bytes (`Source.findsEnd_take`,
`Source.findsEnd_nextByte`), numbers, text and digits (`Leaf.findsEnd_decode`).
-/

set_option autoImplicit false
set_option relaxedAutoImplicit false

namespace WireFormat

/-- What an action can see: bytes, and beside them what they do not decide. -/
structure View (σ : Type) where
  bytes : σ → List UInt8
  Aside : Type
  aside : σ → Aside

namespace View

variable {σ α β : Type} {view : View σ}

/-- The run from `s` to `s'` with the value `a` took the bytes `front`, which decide it. -/
structure Took (view : View σ) (action : Action σ α) (s : σ) (a : α) (s' : σ)
    (front : List UInt8) : Prop where
  bytes : view.bytes s = front ++ view.bytes s'
  again : ∀ t behind, view.bytes t = front ++ behind → view.aside t = view.aside s →
    (front ++ behind).length ≤ maxWord →
    ∃ t', action t = .ok a t' ∧ view.bytes t' = behind ∧ view.aside t' = view.aside s'
  cut : ∀ t missing, front = view.bytes t ++ missing → missing ≠ [] →
    view.aside t = view.aside s →
    ∃ e t', action t = .error (.error e) t' ∧ e.kind.isCut = true

/-- Every run that succeeds is decided by the bytes it took. -/
def FindsEnd (view : View σ) (action : Action σ α) : Prop :=
  ∀ s a s', action s = .ok a s' → (view.bytes s).length ≤ maxWord →
    ∃ front, view.Took action s a s' front

/-! ### Ways of putting actions together -/

/-- What leaves the bytes alone and looks at nothing but what is beside them took none. -/
theorem took_nil {action : Action σ α} {s s' : σ} {a : α}
    (hbytes : view.bytes s' = view.bytes s)
    (h : ∀ t, view.aside t = view.aside s →
      ∃ t', action t = .ok a t' ∧ view.bytes t' = view.bytes t ∧
        view.aside t' = view.aside s') : view.Took action s a s' [] where
  bytes := hbytes.symm
  again t behind hfront haside _ := by
    obtain ⟨t', hrun, hsame, haside'⟩ := h t haside
    exact ⟨t', hrun, hsame.trans hfront, haside'⟩
  cut t missing hfront hmissing _ :=
    absurd (List.append_eq_nil_iff.mp hfront.symm).2 hmissing

theorem findsEnd_pure (a : α) : view.FindsEnd (pure a) := by
  rintro s _ _ ⟨⟩ -
  exact ⟨[], took_nil rfl fun t haside ↦ ⟨t, rfl, rfl, haside⟩⟩

theorem findsEnd_throw (failure : Failure) : view.FindsEnd (throw failure : Action σ α) :=
  nofun

theorem findsEnd_fail (kind : ErrorKind) : view.FindsEnd (fail kind : Action σ α) :=
  findsEnd_throw _

theorem findsEnd_ofExcept (result : Except Error α) :
    view.FindsEnd (ofExcept result : Action σ α) := by
  cases result with
  | error e => exact findsEnd_throw _
  | ok a => exact findsEnd_pure a

theorem findsEnd_ite {condition : Prop} [Decidable condition] {first second : Action σ α}
    (hfirst : view.FindsEnd first) (hsecond : view.FindsEnd second) :
    view.FindsEnd (if condition then first else second) := by
  by_cases h : condition
  · rwa [if_pos h]
  · rwa [if_neg h]

/-- The bytes of two actions, one after the other, are those of both. A cut falls into the bytes of
the first, or the first runs as before and the cut falls into those of the second. -/
theorem findsEnd_bind {action : Action σ α} {f : α → Action σ β}
    (haction : view.FindsEnd action) (hf : ∀ a, view.FindsEnd (f a)) :
    view.FindsEnd (action >>= f) := by
  intro s b s' h hword
  obtain ⟨a, middle, hrun, hrest⟩ := bind_eq_ok.mp h
  obtain ⟨front, hfront⟩ := haction s a middle hrun hword
  have hbytes := hfront.bytes
  rw [hbytes, List.length_append] at hword
  obtain ⟨back, hback⟩ := hf a middle b s' hrest (by omega)
  rw [hback.bytes, List.length_append] at hword
  refine ⟨front ++ back, by rw [hbytes, hback.bytes, List.append_assoc], ?_, ?_⟩
  · intro t behind hsource haside hlength
    rw [List.append_assoc] at hsource hlength
    obtain ⟨t', hrun', hmiddle, haside'⟩ := hfront.again t _ hsource haside hlength
    rw [List.length_append] at hlength
    obtain ⟨t'', hrest', hlast, haside''⟩ := hback.again t' behind hmiddle haside' (by omega)
    exact ⟨t'', (bind_of_ok hrun' f).trans hrest', hlast, haside''⟩
  · intro t missing hcut hmissing haside
    rcases cut_append hcut with ⟨lost, hlost, hlead⟩ | ⟨rest, hlead, hrest'⟩
    · obtain ⟨e, t', hfails, he⟩ := hfront.cut t lost hlead hlost haside
      exact ⟨e, t', bind_of_error hfails f, he⟩
    · have hlength : (front ++ rest).length ≤ maxWord := by
        rw [hrest', List.length_append] at hword
        rw [List.length_append]
        omega
      obtain ⟨t', hrun', hmiddle, haside'⟩ := hfront.again t rest hlead haside hlength
      obtain ⟨e, t'', hfails, he⟩ := hback.cut t' missing (hmiddle ▸ hrest') hmissing haside'
      exact ⟨e, t'', (bind_of_ok hrun' f).trans hfails, he⟩

theorem findsEnd_inField {name : String} {action : Action σ α} (h : view.FindsEnd action) :
    view.FindsEnd (inField name action) := by
  intro s a s' hrun hword
  obtain ⟨front, hfront⟩ := h s a s' (inField_eq_ok.mp hrun) hword
  refine ⟨front, hfront.bytes, ?_, ?_⟩
  · intro t behind hbytes haside hlength
    obtain ⟨t', hrun', hafter⟩ := hfront.again t behind hbytes haside hlength
    exact ⟨t', inField_eq_ok.mpr hrun', hafter⟩
  · intro t missing hcut hmissing haside
    obtain ⟨e, t', hfails, he⟩ := hfront.cut t missing hcut hmissing haside
    refine ⟨e.inField name, t', ?_, he⟩
    simp only [inField, hfails, Failure.inField]

end View

open View

/-! ### Bytes -/

namespace Source

/-- A source is its bytes. -/
def view : View Source := ⟨Source.bytes, Unit, fun _ ↦ ()⟩

theorem findsEnd_take (n : Nat) : view.FindsEnd (take n) := by
  intro source bytes rest h _
  obtain ⟨hlength, hbytes⟩ := take_eq_ok h
  refine ⟨bytes, hbytes, ?_, ?_⟩
  · intro t behind hsource _ _
    obtain ⟨t', htake, hbehind⟩ := take_of_append hsource hlength
    exact ⟨t', htake, hbehind, rfl⟩
  · intro t missing hcut hmissing _
    refine ⟨{ kind := .endOfBuffer n t.bytes.length }, t, take_of_lt ?_, rfl⟩
    have hmore : 0 < missing.length := List.length_pos_iff.mpr hmissing
    rw [hcut, List.length_append] at hlength
    show (view.bytes t).length < n
    omega

/-- Whatever is done with the next byte, it is taken if there is one. -/
theorem findsEnd_nextByte {α : Type} {f : UInt8 → Action Source α}
    (hf : ∀ byte, view.FindsEnd (f byte)) :
    view.FindsEnd (do
      atLeast 1
      let byte ← getByte
      f byte) := by
  have hnext : view.FindsEnd (atLeast 1 >>= fun _ ↦ getByte) := by
    intro source byte rest h _
    obtain ⟨_, middle, hguard, hget⟩ := bind_eq_ok.mp h
    obtain ⟨-, rfl⟩ := atLeast_eq_ok hguard
    refine ⟨[byte], getByte_eq_ok hget, ?_, ?_⟩
    · intro t behind hsource _ _
      obtain ⟨t', hget, hbehind⟩ := getByte_of_cons hsource
      exact ⟨t', (bind_of_ok (atLeast_of_getByte hget) _).trans hget, hbehind, rfl⟩
    · intro t missing hcut hmissing _
      have hempty : t.bytes = [] := by
        rcases List.append_eq_singleton_iff.mp hcut.symm with ⟨hnone, -⟩ | ⟨-, hnone⟩
        · exact hnone
        · exact absurd hnone hmissing
      exact ⟨{ kind := .endOfBuffer 1 0 }, t, bind_of_error (atLeast_of_nil hempty) _, rfl⟩
  have hboth := findsEnd_bind hnext hf
  rwa [bind_assoc] at hboth

end Source

open Source

/-! ### Leaves -/

theorem Varint.findsEnd_readFrom (width shift value : Nat) :
    Source.view.FindsEnd (readFrom width shift value) := by
  induction hroom : width - shift using Nat.strongRecOn generalizing shift value with
  | ind room ih =>
    rw [readFrom]
    by_cases hend : width ≤ shift
    · rw [if_pos hend]
      exact findsEnd_fail _
    · rw [if_neg hend]
      refine findsEnd_nextByte fun byte ↦ findsEnd_ite (findsEnd_fail _) (findsEnd_ite ?_ ?_)
      · exact findsEnd_ite (findsEnd_pure _) (findsEnd_fail _)
      · exact ih (width - (shift + 7)) (by omega) _ _ rfl

theorem LengthWidth.findsEnd_decode (width : LengthWidth) :
    Source.view.FindsEnd width.decode := by
  unfold LengthWidth.decode
  cases width.byteCount? with
  | none => exact Varint.findsEnd_readFrom 32 0 0
  | some n => exact findsEnd_bind (findsEnd_take n) fun _ ↦ findsEnd_pure _

/-- Where the encoding of its text is cut, a reader says that the bytes end too early. -/
theorem CodePointReader.findsEnd_read_on (charset : Charset) (count : Nat) :
    Source.view.FindsEnd (do (on (← get) charset).read count) := by
  have hsuits (source : Source) := (suits_of_withStrategy (withStrategy_on source charset)).2
  intro source text rest h hword
  rw [get_bind_apply] at h
  rw [show view.bytes source = source.bytes from rfl, ← remaining_eq_length] at hword
  obtain ⟨hcount, code, hcode, hbytes⟩ := read_on_eq_ok hword h
  refine ⟨code, hbytes, ?_, ?_⟩
  · intro t behind hsource _ hlength
    have hread : charset.readExactly count t.bytes = .ok (text.toList, code.length) :=
      Charset.readExactly_eq_ok.mpr ⟨hcount, code, behind, hcode, hsource, rfl⟩
    rw [← hsource, show view.bytes t = t.bytes from rfl, ← remaining_eq_length] at hlength
    obtain ⟨t', hyields, ht'⟩ := read_of_ok (hsuits t) hlength hread
    rw [String.ofList_toList] at hyields
    rw [show t.bytes = code ++ behind from hsource, List.drop_left] at ht'
    exact ⟨t', hyields, ht', rfl⟩
  · intro t missing hcut hmissing _
    have hpart : charset.encodeChars text.toList = .ok (t.bytes ++ missing) := hcut ▸ hcode
    obtain ⟨e, hread, he⟩ := Charset.readExactly_of_cut hpart hcount hmissing
    have hword' : t.remaining ≤ maxWord := by
      rw [remaining_eq_length] at hword ⊢
      rw [hbytes, show code = t.bytes ++ missing from hcut, List.length_append,
        List.length_append] at hword
      omega
    obtain ⟨t', hfails, -⟩ := read_of_error (hsuits t) hword' hread
    exact ⟨e, t', hfails, he⟩

theorem PackedDigits.findsEnd_decode (format : PackedDigits) :
    Source.view.FindsEnd format.decode := by
  intro source text rest h _
  obtain ⟨front, hlength, hbytes, chars, hdigits, rfl⟩ := decode_eq_ok h
  refine ⟨front, hbytes, ?_, ?_⟩
  · intro t behind hsource _ _
    obtain ⟨t', hread, ht'⟩ := decode_of_digitsFrom hdigits hlength hsource
    exact ⟨t', hread, ht', rfl⟩
  · intro t missing hcut hmissing _
    have hless : t.bytes.length < format.byteLength := by
      have hmore : 0 < missing.length := List.length_pos_iff.mpr hmissing
      rw [← hlength, show front = t.bytes ++ missing from hcut, List.length_append]
      omega
    exact ⟨_, t, bind_of_error (atLeast_of_lt hless) _, rfl⟩

/-- The leaf does not take whatever is left. -/
def Leaf.FindsEnd {α : Type} : Leaf α → Prop
  | .remainingBytes | .remainingText _ => False
  | _ => True

theorem Leaf.findsEnd_decode {α : Type} {leaf : Leaf α} (h : leaf.FindsEnd) :
    Source.view.FindsEnd leaf.decode := by
  cases leaf with
  | word n => exact findsEnd_bind (findsEnd_take n) fun _ ↦ findsEnd_pure _
  | bool =>
    refine findsEnd_nextByte fun byte ↦ findsEnd_ite (findsEnd_pure _) ?_
    exact findsEnd_ite (findsEnd_pure _) (findsEnd_fail _)
  | length width => exact width.findsEnd_decode
  | varint width =>
    exact findsEnd_bind (Varint.findsEnd_readFrom width 0 0) fun _ ↦ findsEnd_pure _
  | signedVarint width =>
    exact findsEnd_bind (Varint.findsEnd_readFrom width 0 0) fun _ ↦ findsEnd_pure _
  | bytes count => exact findsEnd_take count
  | remainingBytes => exact h.elim
  | fail => exact findsEnd_fail _
  | text charset count => exact CodePointReader.findsEnd_read_on charset count
  | remainingText charset => exact h.elim
  | padded format =>
    refine findsEnd_bind (findsEnd_take _) fun bytes ↦ ?_
    exact findsEnd_bind (findsEnd_ofExcept _) fun text ↦ findsEnd_pure _
  | digits format => exact format.findsEnd_decode

end WireFormat
