import WireFormat.Codec.Whole
import WireFormat.Proofs.CutMessages

/-!
# What a run leaves, and why it stops

Whether a run succeeds or not, it leaves the last of the bytes there were. It stops with an error,
or for a defect of the format; which defects may arise is read off the codec (`Codec.SoundFor`):
sizes can only be out of range in lists whose items declare one, only tagged records without a bound
may repeat an entry for ever, and only references can be nested too deeply. A raw read past the end
is none of them. `View.Confined` says both things of an action; every way of putting actions
together has a rule here, and `Codec.confined_decodeWith` applies them along a codec.
-/

set_option autoImplicit false
set_option relaxedAutoImplicit false

namespace WireFormat

/-- The failure is an error or one of the defects. -/
def Failure.Within (defects : Failure → Prop) : Failure → Prop
  | .error _ => True
  | failure => defects failure

namespace View

variable {σ α β : Type} {view : View σ} {defects : Failure → Prop}

/-- How a run from `s` may end. -/
def Leaves (view : View σ) (defects : Failure → Prop) (s : σ) :
    EStateM.Result Failure σ α → Prop
  | .ok _ s' => view.bytes s' <:+ view.bytes s
  | .error failure s' => view.bytes s' <:+ view.bytes s ∧ failure.Within defects

/-- However a run ends, it leaves the last of its bytes, and a failure is an error or one of the
defects. -/
def Confined (view : View σ) (defects : Failure → Prop) (action : Action σ α) : Prop :=
  ∀ s, (view.bytes s).length ≤ maxWord → view.Leaves defects s (action s)

/-- So it is with defects that depend on the number of bytes there were. -/
def ConfinedBy (view : View σ) (defects : Nat → Failure → Prop) (action : Action σ α) : Prop :=
  ∀ s, (view.bytes s).length ≤ maxWord →
    view.Leaves (defects (view.bytes s).length) s (action s)

theorem confinedBy_const {action : Action σ α} :
    view.ConfinedBy (fun _ ↦ defects) action ↔ view.Confined defects action := Iff.rfl

/-- From more bytes there are no fewer defects. -/
def Growing (defects : Nat → Failure → Prop) : Prop :=
  ∀ fewer more, fewer ≤ more → ∀ failure, defects fewer failure → defects more failure

theorem growing_const : Growing fun _ ↦ defects := fun _ _ _ _ h ↦ h

/-! ### Ways of putting actions together -/

theorem leaves_mono {more : Failure → Prop} (h : ∀ failure, defects failure → more failure)
    {s : σ} {result : EStateM.Result Failure σ α} (hresult : view.Leaves defects s result) :
    view.Leaves more s result := by
  cases result with
  | ok a s' => exact hresult
  | error failure s' =>
    refine ⟨hresult.1, ?_⟩
    cases failure with
    | error e => trivial
    | _ => exact h _ hresult.2

theorem leaves_trans {s middle : σ} {result : EStateM.Result Failure σ α}
    (hlead : view.bytes middle <:+ view.bytes s) (h : view.Leaves defects middle result) :
    view.Leaves defects s result := by
  cases result with
  | ok a s' => exact List.IsSuffix.trans h hlead
  | error failure s' => exact ⟨h.1.trans hlead, h.2⟩

theorem confined_pure (a : α) : view.Confined defects (pure a) :=
  fun _ _ ↦ List.suffix_refl _

theorem confined_fail (kind : ErrorKind) : view.Confined defects (fail kind : Action σ α) :=
  fun _ _ ↦ ⟨List.suffix_refl _, trivial⟩

/-- Stopping for a defect is stopping for one of the defects. -/
theorem confined_throw {failure : Failure} (h : defects failure) :
    view.Confined defects (throw failure : Action σ α) := by
  refine fun _ _ ↦ ⟨List.suffix_refl _, ?_⟩
  cases failure with
  | error e => trivial
  | _ => exact h

theorem confined_ofExcept (result : Except Error α) :
    view.Confined defects (ofExcept result : Action σ α) := by
  cases result with
  | error e => exact fun _ _ ↦ ⟨List.suffix_refl _, trivial⟩
  | ok a => exact confined_pure a

theorem confinedBy_ite {defects : Nat → Failure → Prop} {condition : Prop} [Decidable condition]
    {first second : Action σ α} (hfirst : view.ConfinedBy defects first)
    (hsecond : view.ConfinedBy defects second) :
    view.ConfinedBy defects (if condition then first else second) := by
  by_cases h : condition
  · rwa [if_pos h]
  · rwa [if_neg h]

theorem confined_ite {condition : Prop} [Decidable condition] {first second : Action σ α}
    (hfirst : view.Confined defects first) (hsecond : view.Confined defects second) :
    view.Confined defects (if condition then first else second) :=
  confinedBy_ite (confinedBy_const.mpr hfirst) hsecond

/-- One run after another, the second from where the first has got to. -/
theorem leaves_bind {action : Action σ α} {f : α → Action σ β} {s : σ}
    (haction : view.Leaves defects s (action s))
    (hf : ∀ a s', action s = .ok a s' → view.bytes s' <:+ view.bytes s →
      view.Leaves defects s' (f a s')) :
    view.Leaves defects s ((action >>= f) s) := by
  cases hrun : action s with
  | error failure s' =>
    rw [hrun] at haction
    rw [bind_of_error hrun]
    exact haction
  | ok a s' =>
    rw [hrun] at haction
    rw [bind_of_ok hrun]
    exact leaves_trans haction (hf a s' hrun haction)

/-- The second run has no more bytes than the first one had. -/
theorem confinedBy_bind {defects : Nat → Failure → Prop} (hgrowing : Growing defects)
    {action : Action σ α} {f : α → Action σ β} (haction : view.ConfinedBy defects action)
    (hf : ∀ a, view.ConfinedBy defects (f a)) : view.ConfinedBy defects (action >>= f) :=
  fun s hword ↦ leaves_bind (haction s hword) fun a s' _ hsuffix ↦
    leaves_mono (hgrowing _ _ hsuffix.length_le) (hf a s' (hsuffix.length_le.trans hword))

theorem confined_bind {action : Action σ α} {f : α → Action σ β}
    (haction : view.Confined defects action) (hf : ∀ a, view.Confined defects (f a)) :
    view.Confined defects (action >>= f) :=
  confinedBy_bind growing_const (confinedBy_const.mpr haction) hf

/-- Crossing a field changes errors only. -/
theorem confinedBy_inField {defects : Nat → Failure → Prop} {name : String} {action : Action σ α}
    (h : view.ConfinedBy defects action) : view.ConfinedBy defects (inField name action) := by
  intro s hword
  have hrun := h s hword
  unfold inField
  cases haction : action s with
  | ok a s' =>
    rw [haction] at hrun
    exact hrun
  | error failure s' =>
    rw [haction] at hrun
    refine ⟨hrun.1, ?_⟩
    cases failure <;> exact hrun.2

theorem confined_inField {name : String} {action : Action σ α}
    (h : view.Confined defects action) : view.Confined defects (inField name action) :=
  confinedBy_inField (confinedBy_const.mpr h)

end View

open View

/-! ### Bytes -/

namespace Source

variable {α : Type} {defects : Failure → Prop}

theorem confined_atLeast (n : Nat) : view.Confined defects (atLeast n) := by
  intro source _
  by_cases hn : n ≤ source.bytes.length
  · rw [atLeast_of_le hn]
    exact List.suffix_refl _
  · rw [atLeast_of_lt (Nat.lt_of_not_le hn)]
    exact ⟨List.suffix_refl _, trivial⟩

/-- A raw read in front of which there are enough bytes. -/
theorem leaves_getBytes {n : Nat} {source : Source} (h : n ≤ source.bytes.length) :
    view.Leaves defects source (getBytes n source) := by
  obtain ⟨rest, hget, hrest⟩ := getBytes_of_le h
  rw [hget]
  show rest.bytes <:+ source.bytes
  rw [hrest]
  exact List.drop_suffix n _

theorem leaves_getByte {source : Source} (h : 0 < source.bytes.length) :
    view.Leaves defects source (getByte source) := by
  obtain ⟨byte, others, hbytes⟩ := List.length_pos_iff_exists_cons.mp h
  obtain ⟨rest, hget, hrest⟩ := getByte_of_cons hbytes
  rw [hget]
  show rest.bytes <:+ source.bytes
  rw [hbytes, hrest]
  exact List.suffix_cons byte others

theorem confined_take (n : Nat) : view.Confined defects (take n) := by
  intro source hword
  refine leaves_bind (confined_atLeast n source hword) fun _ s' hguard _ ↦ ?_
  obtain ⟨hn, rfl⟩ := atLeast_eq_ok hguard
  exact leaves_getBytes hn

theorem confined_takeAll : view.Confined defects takeAll := by
  intro source _
  rw [takeAll, get_bind_apply]
  exact leaves_getBytes (remaining_eq_length source).le

/-- The look that stands in front of a raw read of one byte is enough for it. -/
theorem confined_nextByte {f : UInt8 → Action Source α}
    (hf : ∀ byte, view.Confined defects (f byte)) :
    view.Confined defects (do
      atLeast 1
      let byte ← getByte
      f byte) := by
  intro source hword
  refine leaves_bind (confined_atLeast 1 source hword) fun _ s' hguard _ ↦ ?_
  obtain ⟨hone, rfl⟩ := atLeast_eq_ok hguard
  exact leaves_bind (leaves_getByte hone) fun byte rest _ hsuffix ↦
    hf byte rest (hsuffix.length_le.trans hword)

end Source

open Source

variable {defects : Failure → Prop}

/-! ### Text -/

namespace Pull

/-- From one pull to a later one, the bytes between them were taken and counted. -/
def Before (pull next : Pull (List UInt8)) : Prop :=
  ∃ taken, pull.supply = taken ++ next.supply ∧ next.pulled = pull.pulled + taken.length

theorem before_refl (pull : Pull (List UInt8)) : pull.Before pull :=
  ⟨[], rfl, rfl⟩

theorem Before.trans {pull middle last : Pull (List UInt8)} (hfirst : pull.Before middle)
    (hsecond : middle.Before last) : pull.Before last := by
  obtain ⟨taken, hsupply, hpulled⟩ := hfirst
  obtain ⟨more, hsupply', hpulled'⟩ := hsecond
  refine ⟨taken ++ more, by rw [hsupply, hsupply', List.append_assoc], ?_⟩
  rw [hpulled', hpulled, List.length_append, Nat.add_assoc]

/-- The pull with which a run ends. -/
def last {ε α σ : Type} : EStateM.Result ε (Pull σ) α → Pull σ
  | .ok _ pull => pull
  | .error _ pull => pull

theorem before_nextUnit (pull : Pull (List UInt8)) : pull.Before (last pull.nextUnit) := by
  obtain ⟨decoder, pulled, bytes⟩ := pull
  induction bytes generalizing decoder pulled with
  | nil =>
    rw [nextUnit_of_end rfl]
    cases decoder.inSequence <;> exact before_refl _
  | cons byte others ih =>
    have hone (next : UnitDecoder) :
        Before ⟨decoder, pulled, byte :: others⟩ ⟨next, pulled + 1, others⟩ := ⟨[byte], rfl, rfl⟩
    rcases hpush : decoder.push byte with ⟨answer, next⟩
    cases answer with
    | unit value =>
      rw [nextUnit_of_unit hpush]
      exact hone next
    | invalid =>
      rw [nextUnit_of_invalid hpush]
      exact hone next
    | more =>
      rw [nextUnit_of_more hpush]
      exact (hone next).trans (ih next (pulled + 1))

theorem last_charOf {σ : Type} (value : Nat) (pull : Pull σ) : last (charOf value pull) = pull := by
  unfold charOf
  split <;> rfl

theorem before_nextChar (pull : Pull (List UInt8)) : pull.Before (last pull.nextChar) := by
  have hfirst := before_nextUnit pull
  unfold nextChar
  cases hunit : pull.nextUnit with
  | error stop next =>
    rw [hunit] at hfirst
    exact hfirst
  | ok found next =>
    rw [hunit] at hfirst
    cases found with
    | none => exact hfirst
    | some unit =>
      have hsecond := before_nextUnit next
      dsimp only
      split
      · cases hlow : next.nextUnit with
        | error stop after =>
          rw [hlow] at hsecond
          exact hfirst.trans hsecond
        | ok found after =>
          rw [hlow] at hsecond
          cases found with
          | none => exact hfirst.trans hsecond
          | some low =>
            dsimp only
            split
            · rw [last_charOf]
              exact hfirst.trans hsecond
            · exact hfirst.trans hsecond
      · rw [last_charOf]
        exact hfirst

theorem before_readUpTo (charset : Charset) (limit : Nat) (pull : Pull (List UInt8)) :
    pull.Before (last (readUpTo charset limit pull)) := by
  induction limit generalizing pull with
  | zero => exact before_refl pull
  | succ limit ih =>
    have hfirst := before_nextChar pull
    rw [readUpTo]
    cases hchar : pull.nextChar with
    | error stop next =>
      rw [hchar] at hfirst
      exact hfirst
    | ok found next =>
      rw [hchar] at hfirst
      cases found with
      | none => exact hfirst
      | some c =>
        have hothers := ih next
        dsimp only
        cases hread : readUpTo charset limit next with
        | error e after =>
          rw [hread] at hothers
          exact Before.trans hfirst hothers
        | ok chars after =>
          rw [hread] at hothers
          exact Before.trans hfirst hothers

/-- However a counted reader ends, it has counted the bytes it took. -/
theorem before_readExactly (charset : Charset) (count : Nat) (pull : Pull (List UInt8)) :
    pull.Before (last (readExactly charset count pull)) := by
  have hread := before_readUpTo charset count pull
  unfold readExactly
  cases hrun : readUpTo charset count pull with
  | error e next =>
    rw [hrun] at hread
    exact hread
  | ok chars next =>
    rw [hrun] at hread
    dsimp only
    split <;> exact hread

end Pull

namespace CodePointReader

theorem leaves_readUnbuffered (charset : Charset) (count : Nat) (source : Source) :
    view.Leaves defects source (readUnbuffered charset count source) := by
  have hbefore := Pull.before_readExactly charset count (Pull.start charset source).inBytes
  rw [Pull.readExactly_inBytes] at hbefore
  unfold readUnbuffered
  cases hread : Pull.readExactly charset count (Pull.start charset source) with
  | error e pull =>
    rw [hread] at hbefore
    obtain ⟨taken, hsupply, -⟩ := hbefore
    exact ⟨⟨taken, hsupply.symm⟩, trivial⟩
  | ok chars pull =>
    rw [hread] at hbefore
    obtain ⟨taken, hsupply, -⟩ := hbefore
    exact ⟨taken, hsupply.symm⟩

theorem leaves_readBuffered {charset : Charset} {source : Source}
    (hwhole : source.isContiguous = true) (hword : source.remaining ≤ maxWord) (count : Nat) :
    view.Leaves defects source (readBuffered charset count source) := by
  cases hread : charset.readExactly count source.bytes with
  | error e =>
    rw [readBuffered_of_error hwhole hword hread]
    exact ⟨List.suffix_refl _, trivial⟩
  | ok found =>
    obtain ⟨chars, n⟩ := found
    obtain ⟨rest, hrun, hrest⟩ := readBuffered_of_ok hwhole hword hread
    rw [hrun]
    show rest.bytes <:+ source.bytes
    rw [hrest]
    exact List.drop_suffix n _

/-- A reader takes what it has pulled, or nothing. -/
theorem confined_read_on (charset : Charset) (count : Nat) :
    view.Confined defects (do (on (← get) charset).read count) := by
  intro source hword
  rw [get_bind_apply, read]
  by_cases hzero : count = 0
  · rw [if_pos hzero]
    exact List.suffix_refl _
  · rw [if_neg hzero]
    have hsuits := (suits_of_withStrategy (withStrategy_on source charset)).2
    cases hstrategy : (on source charset).strategy with
    | buffered =>
      refine leaves_bind (leaves_readBuffered (hsuits hstrategy) ?_ count) ?_
      · exact (remaining_eq_length source).trans_le hword
      · exact fun chars rest _ _ ↦ List.suffix_refl rest.bytes
    | unbuffered =>
      exact leaves_bind (leaves_readUnbuffered charset count source) fun chars rest _ _ ↦
        List.suffix_refl rest.bytes

end CodePointReader

/-! ### Leaves -/

theorem Varint.confined_readFrom (width shift value : Nat) :
    view.Confined defects (readFrom width shift value) := by
  induction hroom : width - shift using Nat.strongRecOn generalizing shift value with
  | ind room ih =>
    rw [readFrom]
    by_cases hend : width ≤ shift
    · rw [if_pos hend]
      exact confined_fail _
    · rw [if_neg hend]
      refine confined_nextByte fun byte ↦ confined_ite (confined_fail _) (confined_ite ?_ ?_)
      · exact confined_ite (confined_pure _) (confined_fail _)
      · exact ih (width - (shift + 7)) (by omega) _ _ rfl

theorem LengthWidth.confined_decode (width : LengthWidth) :
    view.Confined defects width.decode := by
  unfold LengthWidth.decode
  cases width.byteCount? with
  | none => exact Varint.confined_readFrom 32 0 0
  | some n => exact confined_bind (confined_take n) fun _ ↦ confined_pure _

namespace PackedDigits

theorem confined_digitAt (format : PackedDigits) (index nibble : Nat) :
    view.Confined defects (format.digitAt index nibble) := by
  unfold digitAt
  refine confined_ite (confined_pure _) ?_
  cases format.alphabet.digit? nibble with
  | none => exact confined_fail _
  | some c => exact confined_pure _

/-- There is a byte for every raw read. -/
theorem leaves_readBytes (format : PackedDigits) {left : Nat} (index : Nat) {source : Source}
    (hleft : left ≤ source.bytes.length) (hword : source.bytes.length ≤ maxWord) :
    view.Leaves defects source (format.readBytes left index source) := by
  induction left generalizing index source with
  | zero => exact List.suffix_refl _
  | succ left ih =>
    rw [readBytes]
    refine leaves_bind (leaves_getByte (Nat.lt_of_lt_of_le left.succ_pos hleft)) ?_
    intro byte rest hget hsuffix
    have hrest : rest.bytes.length ≤ maxWord := hsuffix.length_le.trans hword
    have hmore : left ≤ rest.bytes.length := by
      rw [getByte_eq_ok hget, List.length_cons] at hleft
      exact Nat.le_of_succ_le_succ hleft
    refine leaves_bind (format.confined_digitAt _ _ rest hrest) fun high s1 hhigh _ ↦ ?_
    obtain ⟨rfl, -⟩ := digitAt_eq_ok hhigh
    refine leaves_bind (format.confined_digitAt _ _ _ hrest) fun low s2 hlow _ ↦ ?_
    obtain ⟨rfl, -⟩ := digitAt_eq_ok hlow
    exact leaves_bind (ih (index + 1) hmore hrest) fun _ _ _ _ ↦ List.suffix_refl _

theorem confined_decode (format : PackedDigits) : view.Confined defects format.decode := by
  intro source hword
  refine leaves_bind (confined_atLeast _ source hword) fun _ s' hguard _ ↦ ?_
  obtain ⟨hleft, rfl⟩ := atLeast_eq_ok hguard
  exact leaves_bind (format.leaves_readBytes 0 hleft hword) fun _ _ _ _ ↦ List.suffix_refl _

end PackedDigits

theorem Leaf.confined_decode {α : Type} (leaf : Leaf α) : view.Confined defects leaf.decode := by
  cases leaf with
  | word n => exact confined_bind (confined_take n) fun _ ↦ confined_pure _
  | bool =>
    refine confined_nextByte fun byte ↦ confined_ite (confined_pure _) ?_
    exact confined_ite (confined_pure _) (confined_fail _)
  | length width => exact width.confined_decode
  | varint width =>
    exact confined_bind (Varint.confined_readFrom width 0 0) fun _ ↦ confined_pure _
  | signedVarint width =>
    exact confined_bind (Varint.confined_readFrom width 0 0) fun _ ↦ confined_pure _
  | bytes count => exact confined_take count
  | remainingBytes => exact confined_takeAll
  | fail => exact confined_fail _
  | text charset count => exact CodePointReader.confined_read_on charset count
  | remainingText charset => exact confined_bind confined_takeAll fun _ ↦ confined_ofExcept _
  | padded format =>
    refine confined_bind (confined_take _) fun bytes ↦ ?_
    exact confined_bind (confined_ofExcept _) fun text ↦ confined_pure _
  | digits format => exact format.confined_decode

/-! ### Stages -/

namespace Stage

variable {α : Type}

theorem confined_onStream {action : Action Source α} (h : Source.view.Confined defects action) :
    view.Confined defects (onStream action) := by
  intro s hword
  have hrun := h s.stream hword
  unfold onStream
  cases haction : action s.stream with
  | ok a stream =>
    rw [haction] at hrun
    exact hrun
  | error failure stream =>
    rw [haction] at hrun
    exact hrun

/-- A use of a reference fails for want of its definition only. -/
theorem confined_use (cell : LazyCell) :
    view.Confined defects (onCells (Cells.use cell) : Action (Stage Source) Unit) := by
  intro s _
  unfold onCells Cells.use
  by_cases hresolved : (s.cells cell.id).resolved = true
  · simp only [hresolved, if_true]
    exact List.suffix_refl _
  · by_cases hsupply : cell.supply (s.cells cell.id).calls = true
    · simp only [hresolved, hsupply, if_true]
      exact List.suffix_refl _
    · simp only [hresolved, hsupply]
      exact ⟨List.suffix_refl _, trivial⟩

end Stage

namespace Decoding

variable {α : Type}

/-- The stream behind a frame is left alone, and inside there are the bytes of the frame. -/
theorem leaves_inFrame {defects : Nat → Failure → Prop} {frame : List UInt8} {inner : Decoding α}
    (hframe : frame.length ≤ maxWord) (h : Stage.view.ConfinedBy defects inner)
    (s : Stage Source) :
    Stage.view.Leaves (defects frame.length) s (inFrame frame inner s) := by
  have hinside : Stage.view.bytes ⟨Source.ofBytes frame, s.cells⟩ = frame :=
    Source.bytes_ofBytes frame
  have hinner := h ⟨Source.ofBytes frame, s.cells⟩ (by rwa [hinside])
  rw [hinside] at hinner
  cases hrun : inner ⟨Source.ofBytes frame, s.cells⟩ with
  | error failure last =>
    rw [hrun] at hinner
    rw [inFrame_of_error hrun]
    exact ⟨List.suffix_refl _, hinner.2⟩
  | ok value last =>
    rcases Nat.eq_zero_or_pos last.stream.remaining with hzero | hrest
    · rw [inFrame_of_ok hrun (Source.remaining_eq_zero_iff.mp hzero)]
      exact List.suffix_refl _
    · rw [inFrame_of_extra hrun hrest]
      exact ⟨List.suffix_refl _, trivial⟩

theorem confinedBy_frame {defects : Nat → Failure → Prop} (hgrowing : Growing defects) (n : Nat)
    {inner : Decoding α} (h : Stage.view.ConfinedBy defects inner) :
    Stage.view.ConfinedBy defects
      (Stage.onStream (Source.take n) >>= fun frame ↦ inFrame frame inner) := by
  intro s hword
  refine leaves_bind (Stage.confined_onStream (confined_take n) s hword) fun frame s' htaken _ ↦ ?_
  have hle : frame.length ≤ s.stream.bytes.length := length_le_of_take htaken
  exact leaves_mono (hgrowing _ _ hle) (leaves_inFrame (hle.trans hword) h s')

theorem confined_frame (n : Nat) {inner : Decoding α} (h : Stage.view.Confined defects inner) :
    Stage.view.Confined defects
      (Stage.onStream (Source.take n) >>= fun frame ↦ inFrame frame inner) :=
  confinedBy_frame growing_const n (confinedBy_const.mpr h)

theorem confined_expectItem (read requested : Nat) :
    Stage.view.Confined defects (expectItem read requested) := by
  intro s hword
  rw [expectItem, get_bind_apply]
  exact confined_ite (confined_fail _) (confined_pure _) s hword

section Repetitions

variable {defects : Nat → Failure → Prop} (hgrowing : Growing defects)

include hgrowing

theorem confinedBy_items {item : Decoding α} (h : Stage.view.ConfinedBy defects item)
    (sized : Bool) (requested left : Nat) :
    Stage.view.ConfinedBy defects (items item sized requested left) := by
  induction left with
  | zero => exact fun s hword ↦ confined_pure _ s hword
  | succ left ih =>
    have hvalues : Stage.view.ConfinedBy defects (do
        let value ← item
        let values ← items item sized requested left
        return value :: values) :=
      confinedBy_bind hgrowing h fun value ↦ confinedBy_bind hgrowing ih fun values s hword ↦
        confined_pure _ s hword
    refine confinedBy_ite (confinedBy_bind hgrowing (fun s hword ↦ ?_) fun _ ↦ hvalues) hvalues
    exact confined_expectItem _ _ s hword

/-- An item that takes no byte is an error of the list. -/
theorem confinedBy_itemsToEnd {item : Decoding α} (h : Stage.view.ConfinedBy defects item)
    (allowance : Option Nat) : Stage.view.ConfinedBy defects (itemsToEnd item allowance) := by
  intro s hword
  induction hleft : s.stream.remaining using Nat.strongRecOn generalizing s allowance with
  | ind left ih =>
    have hitem := h s hword
    rw [itemsToEnd]
    by_cases hstop : s.stream.remaining = 0 ∨ allowance = some 0
    · rw [if_pos hstop]
      exact List.suffix_refl _
    · rw [if_neg hstop]
      cases hrun : item s with
      | error failure after =>
        rw [hrun] at hitem
        exact hitem
      | ok value after =>
        rw [hrun] at hitem
        have hsuffix : Stage.view.bytes after <:+ Stage.view.bytes s := hitem
        dsimp only
        by_cases hless : after.stream.remaining < s.stream.remaining
        · rw [if_pos hless]
          have hothers := leaves_trans hsuffix <| leaves_mono (hgrowing _ _ hsuffix.length_le) <|
            ih _ (hleft ▸ hless) (allowance.map (· - 1)) after (hsuffix.length_le.trans hword) rfl
          cases hrest : itemsToEnd item (allowance.map (· - 1)) after with
          | error failure last =>
            rw [hrest] at hothers
            exact hothers
          | ok values last =>
            rw [hrest] at hothers
            exact hothers
        · rw [if_neg hless]
          exact ⟨hsuffix, trivial⟩

/-- Only without a bound may entries be read for ever. -/
theorem confinedBy_entriesToEnd {K V R : Type} {entry : Decoding (K × V)}
    (h : Stage.view.ConfinedBy defects entry) (add : R → K → V → R) {allowance : Option Nat}
    (hendless : allowance = none → ∀ length, defects length .endless) (record : R) :
    Stage.view.ConfinedBy defects (entriesToEnd entry add allowance record) := by
  intro s hword
  induction hleft : allowance.getD s.stream.remaining using Nat.strongRecOn
    generalizing s allowance record with
  | ind left ih =>
    have hentry := h s hword
    by_cases hstop : s.stream.remaining = 0 ∨ allowance = some 0
    · rw [entriesToEnd_of_end hstop]
      exact List.suffix_refl _
    · cases hrun : entry s with
      | error failure after =>
        rw [hrun] at hentry
        rw [entriesToEnd_of_error hstop hrun]
        exact hentry
      | ok e after =>
        rw [hrun] at hentry
        have hsuffix : Stage.view.bytes after <:+ Stage.view.bytes s := hentry
        by_cases hgoes : allowance = none → after.stream.remaining < s.stream.remaining
        · rw [entriesToEnd_of_entry hstop hrun hgoes]
          refine leaves_trans hsuffix <| leaves_mono (hgrowing _ _ hsuffix.length_le) <|
            ih _ ?_ ?_ _ after (hsuffix.length_le.trans hword) rfl
          · rw [← hleft]
            cases allowance with
            | none => exact hgoes rfl
            | some bound =>
              have hpositive : bound ≠ 0 := fun hzero ↦ hstop (Or.inr (congrArg some hzero))
              exact Nat.sub_one_lt hpositive
          · exact fun hnone ↦ hendless (Option.map_eq_none_iff.mp hnone)
        · obtain ⟨rfl, hfree⟩ := Classical.not_imp.mp hgoes
          rw [entriesToEnd_of_free (not_or.mp hstop).1 hrun hfree]
          exact ⟨hsuffix, hendless rfl _⟩

end Repetitions

theorem confined_items {item : Decoding α} (h : Stage.view.Confined defects item) (sized : Bool)
    (requested left : Nat) : Stage.view.Confined defects (items item sized requested left) :=
  confinedBy_items growing_const (confinedBy_const.mpr h) sized requested left

theorem confined_itemsToEnd {item : Decoding α} (h : Stage.view.Confined defects item)
    (allowance : Option Nat) : Stage.view.Confined defects (itemsToEnd item allowance) :=
  confinedBy_itemsToEnd growing_const (confinedBy_const.mpr h) allowance

theorem confined_entriesToEnd {K V R : Type} {entry : Decoding (K × V)}
    (h : Stage.view.Confined defects entry) (add : R → K → V → R) {allowance : Option Nat}
    (hendless : allowance = none → defects .endless) (record : R) :
    Stage.view.Confined defects (entriesToEnd entry add allowance record) :=
  confinedBy_entriesToEnd growing_const (confinedBy_const.mpr h) add
    (fun hnone _ ↦ hendless hnone) record

end Decoding

open Decoding

/-! ### Codecs -/

/-- What is confined to no defect and does not succeed fails with an error. -/
theorem View.Confined.error_of_not_ok {α : Type} {action : Decoding α} {source : Stage Source}
    (h : Stage.view.Confined (fun _ ↦ False) action) (hword : source.stream.remaining ≤ maxWord)
    (hfails : ∀ value after, action source ≠ .ok value after) :
    ∃ e after, action source = .error (.error e) after := by
  have hends := h source ((Source.remaining_eq_length _).symm.trans_le hword)
  cases hrun : action source with
  | ok value after => exact absurd hrun (hfails value after)
  | error failure after =>
    rw [hrun] at hends
    cases failure with
    | error e => exact ⟨e, after, rfl⟩
    | _ => exact hends.2.elim

variable {S : Signature}

mutual

/-- The defects for which the codec may stop, apart from those of the names it refers to, are among
these: an item of a fixed list with a size out of range, and a tagged record without a bound. -/
def Codec.SoundFor (defects : Failure → Prop) (names : S.Name → Prop) :
    {α : Type} → Codec S α → Prop
  | _, .leaf _ => True
  | _, .tuple items => items.SoundFor defects names
  | _, .fixedList item _ =>
    (item.size = .overflow → defects .overflow) ∧ item.SoundFor defects names
  | _, .exhaustList item _ => item.SoundFor defects names
  | _, .map _ _ wire => wire.SoundFor defects names
  | _, .case _ _ payload => payload.SoundFor defects names
  | _, .byteCounted length _ payload =>
    length.SoundFor defects names ∧ payload.SoundFor defects names
  | _, .itemCounted length _ _ body =>
    length.SoundFor defects names ∧ ∀ n, (body n).SoundFor defects names
  | _, .record _ fields => fields.SoundFor defects names
  | _, .tagged (i := _) tag _ _ table fallback max _ =>
    (max = none → defects .endless) ∧ tag.SoundFor defects names ∧
      table.SoundFor defects names ∧ fallback.SoundFor defects names
  | _, .choice (i := _) (j := _) tag _ _ _ _ table =>
    tag.SoundFor defects names ∧ table.SoundFor defects names
  | _, .lazy _ name => names name

/-- So it is in every part of a tuple. -/
def Items.SoundFor (defects : Failure → Prop) (names : S.Name → Prop) :
    {α : Type} → Items S α → Prop
  | _, .nil => True
  | _, .cons item rest => item.SoundFor defects names ∧ rest.SoundFor defects names

/-- So it is in every field of a record. -/
def Fields.SoundFor (defects : Failure → Prop) (names : S.Name → Prop) :
    {R : Type} → Fields S R → Prop
  | _, .nil => True
  | _, .cons _ _ _ _ codec rest => codec.SoundFor defects names ∧ rest.SoundFor defects names

/-- So it is in every codec of a table. -/
def Table.SoundFor (defects : Failure → Prop) (names : S.Name → Prop) :
    {K V : Type} → Table S K V → Prop
  | _, _, .nil => True
  | _, _, .cons _ codec rest => codec.SoundFor defects names ∧ rest.SoundFor defects names

end

variable {names : S.Name → Prop} {references : (name : S.Name) → Decoding (S.Value name)}

/-! One level of references: if the decoders of the names are confined, then so is that of a codec,
of the parts of a tuple, of the fields of a record or of a table. -/

mutual

theorem Codec.confined_decodeWith
    (hreferences : ∀ name, names name → Stage.view.Confined defects (references name)) :
    {α : Type} → (codec : Codec S α) → codec.SoundFor defects names →
    Stage.view.Confined defects (codec.decodeWith references)
  | _, .leaf leaf, _ => Stage.confined_onStream leaf.confined_decode
  | _, .tuple items, h => items.confined_decodeWith hreferences h
  | _, .fixedList item count, h => by
    rw [Codec.decodeWith_fixedList]
    split
    · exact confined_throw (h.1 ‹_›)
    · exact confined_items (item.confined_decodeWith hreferences h.2) _ _ _
  | _, .exhaustList item max, h =>
    confined_itemsToEnd (item.confined_decodeWith hreferences h) max
  | _, .map _ fromWire wire, h =>
    confined_bind (wire.confined_decodeWith hreferences h) fun _ ↦ confined_ofExcept _
  | _, .case _ _ payload, h =>
    confined_bind (payload.confined_decodeWith hreferences h) fun _ ↦ confined_pure _
  | _, .byteCounted length range payload, h => by
    refine confined_bind (length.confined_decodeWith hreferences h.1) fun n ↦ ?_
    refine confined_bind (confined_ofExcept _) fun n ↦ ?_
    exact confined_frame n (payload.confined_decodeWith hreferences h.2)
  | _, .itemCounted length range _ body, h => by
    refine confined_bind (length.confined_decodeWith hreferences h.1) fun n ↦ ?_
    exact confined_bind (confined_ofExcept _) fun n ↦
      (body n).confined_decodeWith hreferences (h.2 n)
  | _, .record factory fields, h => by
    cases factory with
    | none => exact confined_fail _
    | some start => exact fields.confined_decodeWith hreferences h start
  | _, .tagged (i := _) tag display access table fallback max factory, h => by
    obtain ⟨hendless, htag, htable, hfallback⟩ := h
    cases factory with
    | none => exact confined_fail _
    | some start =>
      refine confined_entriesToEnd ?_ _ hendless _
      refine confined_bind (tag.confined_decodeWith hreferences htag) fun key ↦ ?_
      refine confined_bind (confined_inField ?_) fun value ↦ confined_pure _
      have hdecoders := table.confined_decodeAt hreferences htable key
      cases hdecode : table.decodeAt references key with
      | none => exact fallback.confined_decodeWith hreferences hfallback
      | some decode => exact hdecoders decode hdecode
  | _, .choice (i := _) (j := _) tag showTag showKind _ registry table, h => by
    refine confined_bind (tag.confined_decodeWith hreferences h.1) fun key ↦ ?_
    cases registry.kindOf? key with
    | none => exact confined_fail _
    | some kind =>
      have hdecoders := table.confined_decodeAt hreferences h.2 kind
      cases hdecode : table.decodeAt references kind with
      | none =>
        simp only [hdecode]
        exact confined_fail _
      | some decode =>
        simp only [hdecode]
        exact hdecoders decode hdecode
  | _, .lazy cell name, h => confined_bind (Stage.confined_use cell) fun _ ↦ hreferences name h

theorem Items.confined_decodeWith
    (hreferences : ∀ name, names name → Stage.view.Confined defects (references name)) :
    {α : Type} → (items : Items S α) → items.SoundFor defects names →
    Stage.view.Confined defects (items.decodeWith references)
  | _, .nil, _ => confined_pure ()
  | _, .cons item rest, h =>
    confined_bind (item.confined_decodeWith hreferences h.1) fun _ ↦
      confined_bind (rest.confined_decodeWith hreferences h.2) fun _ ↦ confined_pure _

theorem Fields.confined_decodeWith
    (hreferences : ∀ name, names name → Stage.view.Confined defects (references name)) :
    {R : Type} → (fields : Fields S R) → fields.SoundFor defects names → (record : R) →
    Stage.view.Confined defects (fields.decodeWith references record)
  | _, .nil, _, record => confined_pure record
  | _, .cons _ _ set _ codec rest, h, record =>
    confined_ite
      (confined_bind (confined_inField (codec.confined_decodeWith hreferences h.1)) fun value ↦
        rest.confined_decodeWith hreferences h.2 (set record value))
      (rest.confined_decodeWith hreferences h.2 record)

theorem Table.confined_decodeAt
    (hreferences : ∀ name, names name → Stage.view.Confined defects (references name)) :
    {K V : Type} → [DecidableEq K] → (table : Table S K V) → table.SoundFor defects names →
    (wanted : K) → ∀ decode, table.decodeAt references wanted = some decode →
    Stage.view.Confined defects decode
  | _, _, _, .nil, _, _, _, h => by cases h
  | _, _, _, .cons key codec rest, hsound, wanted, decode, h => by
    rw [Table.decodeAt] at h
    by_cases hkey : key = wanted
    · rw [if_pos hkey] at h
      cases h
      exact codec.confined_decodeWith hreferences hsound.1
    · rw [if_neg hkey] at h
      exact rest.confined_decodeAt hreferences hsound.2 wanted decode h

end

variable {definitions : Definitions S}

/-- By induction on the levels of references that are left: where there are none, a reference is
nested too deeply. -/
theorem Definitions.confined_decodeWithin (hdeep : defects .tooDeep)
    (hdefinitions : ∀ name, names name → (definitions name).SoundFor defects names) (depth : Nat)
    (name : S.Name) (hname : names name) :
    Stage.view.Confined defects (definitions.decodeWithin depth name) := by
  induction depth generalizing name with
  | zero => exact confined_throw hdeep
  | succ depth ih => exact (definitions name).confined_decodeWith ih (hdefinitions name hname)

/-- A codec that refers to nothing has no use for definitions. -/
theorem Codec.confined_decode_of_closed {α : Type} {codec : Codec S α}
    (h : codec.SoundFor defects fun _ ↦ False) (depth : Nat) :
    Stage.view.Confined defects (codec.decode definitions depth) :=
  codec.confined_decodeWith (fun _ ↦ False.elim) h

theorem Codec.confined_decode {α : Type} {codec : Codec S α} (hdeep : defects .tooDeep)
    (hdefinitions : ∀ name, names name → (definitions name).SoundFor defects names)
    (h : codec.SoundFor defects names) (depth : Nat) :
    Stage.view.Confined defects (codec.decode definitions depth) :=
  codec.confined_decodeWith (Definitions.confined_decodeWithin hdeep hdefinitions depth) h

/-! ### Whole messages -/

theorem Size.confined_expect {size : Size} (h : size = .overflow → defects .overflow) :
    Source.view.Confined defects size.expect := by
  intro source hword
  rw [expect, get_bind_apply]
  cases size with
  | fixed bytes =>
    exact confined_ite (confined_fail _) (confined_ite (confined_fail _) (confined_pure _)) source
      hword
  | varying => exact confined_pure _ source hword
  | overflow => exact confined_throw (h rfl) source hword

theorem Source.confined_expectEnd : Source.view.Confined defects Source.expectEnd := by
  intro source hword
  rw [expectEnd, get_bind_apply]
  exact confined_ite (confined_fail _) (confined_pure _) source hword

/-- Reading a whole message looks at the declared size as well. -/
theorem Codec.confined_decodeExact {α : Type} {codec : Codec S α} {depth : Nat}
    (hsize : codec.size = .overflow → defects .overflow)
    (h : Stage.view.Confined defects (codec.decode definitions depth)) :
    Stage.view.Confined defects (codec.decodeExact definitions depth) := by
  refine confined_bind (Stage.confined_onStream (Size.confined_expect hsize)) fun _ ↦ ?_
  refine confined_bind h fun value ↦ ?_
  exact confined_bind (Stage.confined_onStream Source.confined_expectEnd) fun _ ↦ confined_pure _

end WireFormat
