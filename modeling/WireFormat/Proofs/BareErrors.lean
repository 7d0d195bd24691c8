import WireFormat.Proofs.Hereditary

/-!
# Errors of leaves

A leaf has no fields, so an error that it raises has crossed none (`Leaf.bare_encode`,
`Leaf.bare_decode`). The same holds of everything an action can do by itself: a test, a raw read or
write, a conversion of text.
-/

set_option autoImplicit false
set_option relaxedAutoImplicit false

namespace WireFormat

/-- Every error with which the action may fail has crossed no field. -/
def Bare {σ α : Type} (action : Action σ α) : Prop :=
  ∀ s e s', action s = .error (.error e) s' → e.path = []

section Actions

variable {σ α β : Type}

theorem bare_pure (a : α) : Bare (pure a : Action σ α) := by
  intro s e s' h
  cases h

theorem bare_fail (kind : ErrorKind) : Bare (fail kind : Action σ α) := by
  intro s e s' h
  cases h
  rfl

theorem bare_ofExcept {result : Except Error α} (h : ∀ e, result = .error e → e.path = []) :
    Bare (ofExcept result : Action σ α) := by
  intro s e s' hrun
  cases result with
  | ok a => cases hrun
  | error e' =>
    cases hrun
    exact h _ rfl

theorem bare_bind {action : Action σ α} {f : α → Action σ β} (haction : Bare action)
    (hf : ∀ a, Bare (f a)) : Bare (action >>= f) := by
  intro s e s' h
  rcases bind_eq_error.mp h with hfirst | ⟨a, middle, -, hsecond⟩
  · exact haction s e s' hfirst
  · exact hf a middle e s' hsecond

theorem bare_get_bind {f : σ → Action σ α} (hf : ∀ s, Bare (f s)) : Bare (get >>= f) :=
  fun s e s' h ↦ hf s s e s' h

theorem bare_ite {condition : Prop} [Decidable condition] {first second : Action σ α}
    (hfirst : Bare first) (hsecond : Bare second) :
    Bare (if condition then first else second) := by
  by_cases h : condition
  · rwa [if_pos h]
  · rwa [if_neg h]

theorem Stage.bare_onStream {action : Action σ α} (h : Bare action) : Bare (onStream action) := by
  intro stage e after hrun
  unfold onStream at hrun
  cases haction : action stage.stream with
  | ok a stream => simp [haction] at hrun
  | error failure stream =>
    simp only [haction, EStateM.Result.error.injEq] at hrun
    obtain ⟨rfl, -⟩ := hrun
    exact h _ _ _ haction

/-- A reference that is not supplied is an error of the reference. -/
theorem Stage.bare_use (cell : LazyCell) :
    Bare (onCells (Cells.use cell) : Action (Stage σ) Unit) := by
  intro stage e after hrun
  unfold onCells Cells.use at hrun
  dsimp only at hrun
  split_ifs at hrun
  cases hrun
  rfl

end Actions

/-! ### Text and digits -/

theorem LengthRange.path_of_check {range : LengthRange} {length : Nat} {e : Error}
    (h : range.check length = .error e) : e.path = [] := by
  unfold check at h
  split at h
  · cases h
  · cases h
    rfl

/-- A length in front of an action either is out of its range or goes on to the action. -/
theorem LengthRange.path_or_next {σ α : Type} {range : LengthRange} {length : Nat}
    {f : Nat → Action σ α} {s s' : σ} {e : Error}
    (h : (ofExcept (range.check length) >>= f) s = .error (.error e) s') :
    e.path = [] ∨ range.contains length = true ∧ f length s = .error (.error e) s' := by
  cases hcheck : range.check length with
  | error cause =>
    simp only [hcheck] at h
    rw [bind_of_error (ofExcept_error cause s)] at h
    cases h
    exact Or.inl (path_of_check hcheck)
  | ok n =>
    rw [hcheck, bind_of_ok (ofExcept_ok n s)] at h
    obtain ⟨hrange, rfl⟩ := check_eq_ok.mp hcheck
    exact Or.inr ⟨hrange, h⟩

theorem Charset.path_of_encode {charset : Charset} {text : String} {e : Error}
    (h : charset.encode text = .error e) : e.path = [] := by
  unfold encode at h
  generalize text.toList = chars at h
  induction chars generalizing e with
  | nil => cases h
  | cons c chars ih =>
    rw [encodeChars] at h
    split at h
    · cases h
      rfl
    · split at h
      · cases h
      · rename_i hothers
        cases h
        exact ih hothers

theorem PackedDigits.path_of_values {format : PackedDigits} {chars : List Char} {e : Error}
    (h : format.values chars = .error e) : e.path = [] := by
  induction chars generalizing e with
  | nil => cases h
  | cons c chars ih =>
    rw [values] at h
    split at h
    · cases h
      rfl
    · split at h
      · cases h
      · rename_i hothers
        cases h
        exact ih hothers

section Pulls

variable {σ : Type} [ByteSupply σ]

theorem Pull.path_of_readUpTo {charset : Charset} {limit : Nat} {pull last : Pull σ} {e : Error}
    (h : readUpTo charset limit pull = .error e last) : e.path = [] := by
  induction limit generalizing pull e with
  | zero => cases h
  | succ limit ih =>
    rw [readUpTo] at h
    split at h
    · rename_i stop _ _
      cases h
      cases stop <;> rfl
    · cases h
    · split at h
      · cases h
      · rename_i hothers
        cases h
        exact ih hothers

theorem Pull.path_of_readExactly {charset : Charset} {count : Nat} {pull last : Pull σ}
    {e : Error} (h : readExactly charset count pull = .error e last) : e.path = [] := by
  unfold readExactly at h
  split at h
  · rename_i hread
    cases h
    exact path_of_readUpTo hread
  · split at h
    · cases h
      rfl
    · cases h

end Pulls

theorem Charset.path_of_decode {charset : Charset} {bytes : List UInt8} {e : Error}
    (h : charset.decode bytes = .error e) : e.path = [] := by
  have hutf8 : ∀ e', decodeUtf8 bytes = .error e' → e'.path = [] := by
    intro e' he'
    unfold decodeUtf8 at he'
    dsimp only at he'
    split at he' <;> cases he' <;> rfl
  have hunits : ∀ charset e', decodeUnits charset bytes = .error e' → e'.path = [] := by
    intro charset e' he'
    unfold decodeUnits at he'
    split at he'
    · cases he'
    · rename_i hread
      cases he'
      exact Pull.path_of_readUpTo hread
  unfold decode at h
  cases charset with
  | utf8 =>
    cases hchars : decodeUtf8 bytes with
    | ok chars => simp [hchars, Except.map] at h
    | error e' =>
      simp only [hchars, Except.map, Except.error.injEq] at h
      exact h ▸ hutf8 e' hchars
  | ascii | latin1 | utf16be | utf16le =>
    all_goals
      simp only [Except.map] at h
      split at h
      · rename_i hread
        cases h
        exact hunits _ _ hread
      · cases h

/-! ### Leaves -/

theorem Sink.hereditary_bare : Sink.Hereditary Bare where
  pure := bare_pure
  fail := bare_fail
  overflow := nofun
  bind := bare_bind
  text _ _ := bare_ofExcept fun _ ↦ Charset.path_of_encode
  digits _ _ := bare_ofExcept fun _ ↦ PackedDigits.path_of_values
  put bytes := by
    refine bare_bind ?_ fun _ ↦ bare_bind ?_ fun _ ↦ bare_pure _
    · exact bare_get_bind fun sink ↦ bare_ite (bare_fail _) (bare_pure _)
    · intro sink e after h
      unfold append at h
      split at h <;> cases h

theorem Leaf.bare_encode {α : Type} (leaf : Leaf α) (value : α) : Bare (leaf.encode value) :=
  leaf.hereditary_encode Sink.hereditary_bare value

namespace Source

theorem bare_atLeast (n : Nat) : Bare (atLeast n) :=
  bare_get_bind fun _ ↦ bare_ite (bare_fail _) (bare_pure _)

theorem bare_getByte : Bare getByte := by
  intro source e rest h
  unfold getByte at h
  split at h <;> cases h

theorem bare_getBytes (n : Nat) : Bare (getBytes n) := by
  intro source e rest h
  unfold getBytes at h
  split at h <;> cases h

theorem bare_take (n : Nat) : Bare (take n) :=
  bare_bind (bare_atLeast n) fun _ ↦ bare_getBytes n

theorem bare_takeAll : Bare takeAll :=
  bare_get_bind fun _ ↦ bare_getBytes _

end Source

open Source

/-- By induction on the bits there is room for. -/
theorem Varint.bare_readFrom (width shift value : Nat) : Bare (readFrom width shift value) := by
  induction hroom : width - shift using Nat.strongRecOn generalizing shift value with
  | ind room ih =>
    rw [readFrom]
    by_cases hshift : width ≤ shift
    · rw [if_pos hshift]
      exact bare_fail _
    · rw [if_neg hshift]
      refine bare_bind (bare_atLeast 1) fun _ ↦ bare_bind bare_getByte fun byte ↦ ?_
      refine bare_ite (bare_fail _) (bare_ite ?_ ?_)
      · exact bare_ite (bare_pure _) (bare_fail _)
      · exact ih _ (by omega) _ _ rfl

namespace CodePointReader

theorem bare_readBuffered (charset : Charset) (count : Nat) :
    Bare (readBuffered charset count) := by
  refine bare_get_bind fun source ↦ bare_bind (bare_ofExcept fun e h ↦ ?_) fun (chars, used) ↦ ?_
  · unfold readWindow at h
    split at h
    · cases h
    · split at h
      · cases h
      · rename_i hread
        cases h
        exact Pull.path_of_readExactly hread
  · exact bare_bind (bare_bind (bare_getBytes _) fun _ ↦ bare_pure _) fun _ ↦ bare_pure _

theorem bare_readUnbuffered (charset : Charset) (count : Nat) :
    Bare (readUnbuffered charset count) := by
  intro source e rest h
  unfold readUnbuffered at h
  split at h
  · cases h
  · rename_i hread
    cases h
    exact Pull.path_of_readExactly hread

theorem bare_read (reader : CodePointReader) (count : Nat) : Bare (reader.read count) := by
  rw [read]
  refine bare_ite (bare_pure _) ?_
  cases reader.strategy with
  | buffered => exact bare_bind (bare_readBuffered _ _) fun _ ↦ bare_pure _
  | unbuffered => exact bare_bind (bare_readUnbuffered _ _) fun _ ↦ bare_pure _

end CodePointReader

theorem PackedDigits.bare_decode (format : PackedDigits) : Bare format.decode := by
  have hdigit (index nibble : Nat) : Bare (format.digitAt index nibble) := by
    refine bare_ite (bare_pure _) ?_
    cases format.alphabet.digit? nibble with
    | some c => exact bare_pure _
    | none => exact bare_fail _
  have hbytes (left index : Nat) : Bare (format.readBytes left index) := by
    induction left generalizing index with
    | zero => exact bare_pure _
    | succ left ih =>
      refine bare_bind bare_getByte fun byte ↦ ?_
      exact bare_bind (hdigit _ _) fun _ ↦ bare_bind (hdigit _ _) fun _ ↦
        bare_bind (ih _) fun _ ↦ bare_pure _
  exact bare_bind (bare_atLeast _) fun _ ↦ bare_bind (hbytes _ _) fun _ ↦ bare_pure _

theorem Leaf.bare_decode {α : Type} (leaf : Leaf α) : Bare leaf.decode := by
  cases leaf with
  | word n => exact bare_bind (bare_take _) fun _ ↦ bare_pure _
  | bool =>
    refine bare_bind (bare_atLeast 1) fun _ ↦ bare_bind bare_getByte fun byte ↦ ?_
    exact bare_ite (bare_pure _) (bare_ite (bare_pure _) (bare_fail _))
  | length width =>
    rw [Leaf.decode, LengthWidth.decode]
    cases width.byteCount? with
    | some n => exact bare_bind (bare_take _) fun _ ↦ bare_pure _
    | none => exact Varint.bare_readFrom _ _ _
  | varint width => exact bare_bind (Varint.bare_readFrom _ _ _) fun _ ↦ bare_pure _
  | signedVarint width => exact bare_bind (Varint.bare_readFrom _ _ _) fun _ ↦ bare_pure _
  | bytes count => exact bare_take _
  | remainingBytes => exact bare_takeAll
  | fail => exact bare_fail _
  | text charset count => exact bare_get_bind fun source ↦ CodePointReader.bare_read _ _
  | remainingText charset =>
    exact bare_bind bare_takeAll fun _ ↦ bare_ofExcept fun _ ↦ Charset.path_of_decode
  | padded format =>
    refine bare_bind (bare_take _) fun _ ↦ bare_bind (bare_ofExcept ?_) fun _ ↦ bare_pure _
    exact fun _ ↦ Charset.path_of_decode
  | digits format => exact format.bare_decode

end WireFormat
