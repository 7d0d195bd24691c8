import WireFormat.Proofs.CutMessages
import WireFormat.Proofs.FixedSizes
import WireFormat.Proofs.LazyReferences
import WireFormat.Proofs.ListTurns

/-!
# Looks at declared sizes

Two decoders look at the size that a codec declares before they run it. A whole message is refused
unless it has that many bytes, and items that are sure to take a byte are not tried at the end of
the source. Neither look changes what is read: a whole message is what is read with nothing left
(`Codec.decodeExact_eq_ok_iff`), and a list of a known length is that many items one after another
(`Codec.decode_fixedList_eq_ok_iff`), also where items take no bytes and there are none. What
changes is the error of a list whose source ends too early: it is its own, and not that of the item
(`Codec.decode_fixedList_of_end`).

A reference declares no size, so that nothing is looked at. A codec behind a reference therefore
reads the same without the looks, and where the list of a sized item would fail at the end, that of
the reference fails as the item does. `Codec.looks_change_no_value` puts both together.
-/

set_option autoImplicit false
set_option relaxedAutoImplicit false

namespace WireFormat

variable {S : Signature} {α : Type} {definitions : Definitions S} {depth : Nat}

/-! ### Whole messages -/

/-- A size that is kept passes the look at it. -/
theorem Codec.expect_of_decode {codec : Codec S α} (hsize : codec.size ≠ .overflow)
    {source last : Stage Source} {value : α} (hword : source.stream.remaining ≤ maxWord)
    (h : codec.decode definitions depth source = .ok value last)
    (hend : last.stream.bytes = []) : codec.size.expect source.stream = .ok () source.stream := by
  rw [Size.expect, get_bind_apply]
  cases hdeclared : codec.size with
  | fixed bytes =>
    obtain ⟨front, hlength, hbytes⟩ := Codec.decode_takes_size hdeclared hword h
    have hremaining : source.stream.remaining = bytes := by
      rw [Source.remaining_eq_length, hbytes, hend, List.append_nil, hlength]
    simp [hremaining]
  | varying => rfl
  | overflow => exact absurd hdeclared hsize

/-- A whole message is what is read with nothing left. -/
theorem Codec.decodeExact_eq_ok_iff {codec : Codec S α} (hsize : codec.size ≠ .overflow)
    {source : Stage Source} (hword : source.stream.remaining ≤ maxWord) {value : α}
    {last : Stage Source} :
    codec.decodeExact definitions depth source = .ok value last ↔
      codec.decode definitions depth source = .ok value last ∧ last.stream.bytes = [] := by
  refine ⟨Codec.decode_of_decodeExact, fun ⟨hdecode, hend⟩ ↦ ?_⟩
  have hexpect := Codec.expect_of_decode hsize hword hdecode hend
  have hlast : Source.expectEnd last.stream = .ok () last.stream :=
    Source.expectEnd_eq_ok.mpr ⟨hend, rfl⟩
  rw [Codec.decodeExact, bind_of_ok (Stage.onStream_of_ok hexpect), bind_of_ok hdecode,
    bind_of_ok (Stage.onStream_of_ok hlast), pure_apply]

/-! ### Lists of a known length -/

namespace Decoding

variable {item other : Decoding α} {sized : Bool} {values : List α} {stage middle : Stage Source}

/-- Behind items that were taken the list goes on, provided that it looks only where each of them
finds a byte. -/
theorem items_of_taken (h : EntriesTaken item stage values middle)
    (hneeds : sized = true → ∀ stage value after, item stage = .ok value after →
      stage.stream.remaining ≠ 0) (requested left : Nat) :
    items item sized requested (values.length + left) stage =
      behind values (items item sized requested left middle) := by
  induction h with
  | nil stage =>
    rw [List.length_nil, Nat.zero_add]
    cases items item sized requested left stage <;> rfl
  | cons read others ih =>
    rename_i stage middle last value values
    have hmore : sized = true → stage.stream.remaining ≠ 0 :=
      fun hsized ↦ hneeds hsized _ _ _ read
    rw [List.length_cons, Nat.succ_add, items_succ hmore, bind_of_ok read]
    cases hrest : items item sized requested left last with
    | ok others after =>
      rw [hrest] at ih
      rw [bind_of_ok ih]
      rfl
    | error failure after =>
      rw [hrest] at ih
      rw [bind_of_error ih]
      rfl

/-- What a list yields was taken item by item. -/
theorem entriesTaken_of_items {requested left : Nat}
    (h : items item sized requested left stage = .ok values middle) :
    EntriesTaken item stage values middle ∧ values.length = left := by
  induction left generalizing stage values with
  | zero =>
    cases h
    exact ⟨.nil _, rfl⟩
  | succ left ih =>
    obtain ⟨value, after, others, hvalue, hothers, rfl⟩ := items_succ_eq_ok h
    obtain ⟨htaken, hlength⟩ := ih hothers
    exact ⟨.cons hvalue htaken, congrArg Nat.succ hlength⟩

theorem entriesTaken_cons_iff {value : α} {last : Stage Source} :
    EntriesTaken item stage (value :: values) last ↔
      ∃ middle, item stage = .ok value middle ∧ EntriesTaken item middle values last := by
  constructor
  · rintro (_ | ⟨read, others⟩)
    exact ⟨_, read, others⟩
  · rintro ⟨_, read, others⟩
    exact .cons read others

/-- What holds of a stage goes on to hold while items are taken, if no item ends it. -/
theorem EntriesTaken.keeps {holds : Stage Source → Prop}
    (h : EntriesTaken item stage values middle)
    (hkeeps : ∀ stage value after, holds stage → item stage = .ok value after → holds after)
    (hstage : holds stage) : holds middle := by
  induction h with
  | nil _ => exact hstage
  | cons read _ ih => exact ih (hkeeps _ _ _ hstage read)

/-- Decoders that agree where it holds take the same items. -/
theorem EntriesTaken.of_agree {holds : Stage Source → Prop}
    (h : EntriesTaken item stage values middle)
    (hagree : ∀ stage, holds stage → item stage = other stage)
    (hkeeps : ∀ stage value after, holds stage → item stage = .ok value after → holds after)
    (hstage : holds stage) : EntriesTaken other stage values middle := by
  induction h with
  | nil stage => exact .nil stage
  | cons read _ ih =>
    exact .cons (hagree _ hstage ▸ read) (ih (hkeeps _ _ _ hstage read))

end Decoding

open Decoding

section Lists

variable {codec : Codec S α} {source middle : Stage Source} {values : List α} {count : Nat}

theorem Codec.decode_fixedList (hsize : codec.size ≠ .overflow) (count : Nat) :
    (Codec.fixedList codec count).decode definitions depth =
      items (codec.decode definitions depth) codec.size.isPositive count count := by
  rw [Codec.decode, Codec.decodeWith_fixedList, if_neg hsize]
  rfl

/-- What is sure to take a byte is not read at the end of the source. -/
theorem Codec.remaining_ne_zero_of_decode (hsize : codec.size.isPositive = true) {value : α}
    (h : codec.decode definitions depth source = .ok value middle) :
    source.stream.remaining ≠ 0 := by
  intro hend
  have hless := codec.progress_of_isPositive hsize _ _ _ h (hend.trans_le (Nat.zero_le _))
  exact Nat.not_lt_zero _ (hend ▸ hless)

/-- Read there nevertheless, it fails. -/
theorem Codec.decode_of_end {bytes : Nat} (hsize : codec.size = .fixed bytes)
    (hpositive : 0 < bytes) (hend : middle.stream.bytes = []) :
    ∃ e after, codec.decode definitions depth middle = .error (.error e) after := by
  have hremaining : middle.stream.remaining = 0 := Source.remaining_eq_zero_iff.mpr hend
  exact Codec.decode_of_fewer hsize (hremaining.trans_le (Nat.zero_le _))
    (hremaining.trans_lt hpositive)

/-- A list goes on behind the items that were taken. -/
theorem Codec.decode_fixedList_of_taken (hsize : codec.size ≠ .overflow)
    (h : EntriesTaken (codec.decode definitions depth) source values middle) (left : Nat)
    (hcount : count = values.length + left) :
    (Codec.fixedList codec count).decode definitions depth source =
      behind values (items (codec.decode definitions depth) codec.size.isPositive count left
        middle) := by
  rw [Codec.decode_fixedList hsize, hcount]
  exact items_of_taken h (fun hpositive _ _ _ ↦ Codec.remaining_ne_zero_of_decode hpositive) _ left

/-- A list of a known length is that many items one after another. -/
theorem Codec.decode_fixedList_eq_ok_iff (hsize : codec.size ≠ .overflow) :
    (Codec.fixedList codec count).decode definitions depth source = .ok values middle ↔
      EntriesTaken (codec.decode definitions depth) source values middle ∧
        values.length = count := by
  constructor
  · intro h
    rw [Codec.decode_fixedList hsize] at h
    exact entriesTaken_of_items h
  · rintro ⟨htaken, rfl⟩
    rw [Codec.decode_fixedList_of_taken hsize htaken 0 (Nat.add_zero _).symm, items, pure_apply,
      behind, List.append_nil]

/-- Items that are sure to take a byte: where the source ends, so does the list. -/
theorem Codec.decode_fixedList_of_end {bytes : Nat} (hsize : codec.size = .fixed bytes)
    (hpositive : 0 < bytes)
    (h : EntriesTaken (codec.decode definitions depth) source values middle)
    (hend : middle.stream.bytes = []) (hless : values.length < count) :
    (Codec.fixedList codec count).decode definitions depth source =
      .error (.error { kind := .endOfStream "items" values.length count }) middle := by
  obtain ⟨left, rfl⟩ := Nat.exists_eq_add_of_lt hless
  have hlooks : codec.size.isPositive = true := by rw [hsize]; exact decide_eq_true hpositive
  rw [Codec.decode_fixedList_of_taken (by simp [hsize]) h (left + 1) (Nat.add_assoc _ _ _), hlooks,
    items_of_end (Source.remaining_eq_zero_iff.mpr hend), behind, Nat.add_assoc,
    Nat.add_sub_cancel_right]

/-- Other items are tried wherever the source is, and fail for the list. -/
theorem Codec.decode_fixedList_of_error (hsize : codec.size = .varying)
    (h : EntriesTaken (codec.decode definitions depth) source values middle)
    (hless : values.length < count) {failure : Failure} {after : Stage Source}
    (hfails : codec.decode definitions depth middle = .error failure after) :
    (Codec.fixedList codec count).decode definitions depth source = .error failure after := by
  obtain ⟨left, rfl⟩ := Nat.exists_eq_add_of_lt hless
  have hlooks : codec.size.isPositive = true → middle.stream.remaining ≠ 0 := by
    rw [hsize]
    exact nofun
  rw [Codec.decode_fixedList_of_taken (by simp [hsize]) h (left + 1) (Nat.add_assoc _ _ _),
    items_succ hlooks, bind_of_error hfails, behind]

end Lists

/-- What a codec reads of a source, though its size is looked at. -/
structure Codec.ReadsPlainly (codec : Codec S α) (definitions : Definitions S) (depth : Nat)
    (source : Stage Source) : Prop where
  /-- A whole message is what is read with nothing left. -/
  exact (value : α) (last : Stage Source) :
    codec.decodeExact definitions depth source = .ok value last ↔
      codec.decode definitions depth source = .ok value last ∧ last.stream.bytes = []
  /-- A list is its items one after another. -/
  list (count : Nat) (values : List α) (last : Stage Source) :
    (Codec.fixedList codec count).decode definitions depth source = .ok values last ↔
      EntriesTaken (codec.decode definitions depth) source values last ∧ values.length = count
  /-- Where items of a positive size are short, the error is that of the list, though the item
  would have one of its own. -/
  short {bytes count : Nat} {values : List α} {middle : Stage Source} :
    codec.size = .fixed bytes → 0 < bytes →
    EntriesTaken (codec.decode definitions depth) source values middle →
    middle.stream.bytes = [] → values.length < count →
    (Codec.fixedList codec count).decode definitions depth source =
        .error (.error { kind := .endOfStream "items" values.length count }) middle ∧
      ∃ e after, codec.decode definitions depth middle = .error (.error e) after

theorem Codec.readsPlainly {codec : Codec S α} (hsize : codec.size ≠ .overflow)
    {source : Stage Source} (hword : source.stream.remaining ≤ maxWord) :
    codec.ReadsPlainly definitions depth source where
  exact _ _ := Codec.decodeExact_eq_ok_iff hsize hword
  list _ _ _ := Codec.decode_fixedList_eq_ok_iff hsize
  short hfixed hpositive htaken hend hless :=
    ⟨Codec.decode_fixedList_of_end hfixed hpositive htaken hend hless,
      Codec.decode_of_end hfixed hpositive hend⟩

/-! ### References -/

/-- What is read of a source through a reference that is found or supplied, against what is read
with its definition, the reference being resolved then. Nothing is looked at behind a reference. -/
structure LazyCell.ReadsAlike (cell : LazyCell) (name : S.Name) (definitions : Definitions S)
    (depth : Nat) (stream : Source) (earlier resolved : Cells) : Prop where
  exact (value : S.Value name) (last : Stage Source) :
    (Codec.lazy cell name).decodeExact definitions (depth + 1) ⟨stream, earlier⟩ =
        .ok value last ↔
      (definitions name).decodeExact definitions depth ⟨stream, resolved⟩ = .ok value last
  list (count : Nat) (values : List (S.Value name)) (rest : Source) :
    (∃ last, (Codec.fixedList (.lazy cell name) count).decode definitions (depth + 1)
        ⟨stream, earlier⟩ = .ok values last ∧ last.stream = rest) ↔
      ∃ last, (Codec.fixedList (definitions name) count).decode definitions depth
        ⟨stream, resolved⟩ = .ok values last ∧ last.stream = rest
  /-- Where items of a positive size are short, the error is that of the item. -/
  short {bytes count : Nat} {values : List (S.Value name)} {middle : Stage Source} :
    (definitions name).size = .fixed bytes → 0 < bytes →
    EntriesTaken ((definitions name).decode definitions depth) ⟨stream, resolved⟩ values middle →
    middle.stream.bytes = [] → values.length < count →
    ∃ e after, (definitions name).decode definitions depth middle = .error (.error e) after ∧
      (Codec.fixedList (.lazy cell name) count).decode definitions (depth + 1)
        ⟨stream, earlier⟩ = .error (.error e) after

namespace LazyCell

variable {cell : LazyCell} {name : S.Name} {stream : Source} {earlier resolved : Cells}

/-- Behind its use, a reference reads as its definition. -/
theorem decode_lazy_of_use (huse : Cells.use cell earlier = .ok () resolved) :
    (Codec.lazy cell name).decode definitions (depth + 1) ⟨stream, earlier⟩ =
      (definitions name).decode definitions depth ⟨stream, resolved⟩ := by
  have hcells : (Stage.onCells (Cells.use cell) : Decoding Unit) ⟨stream, earlier⟩ =
      .ok () ⟨stream, resolved⟩ :=
    Stage.onCells_eq_ok.mpr ⟨huse, rfl⟩
  exact bind_of_ok hcells _

/-- The definition leaves the reference resolved. -/
theorem resolved_of_decode {stage after : Stage Source} {value : S.Value name}
    (hresolved : (stage.cells cell.id).resolved = true)
    (h : (definitions name).decode definitions depth stage = .ok value after) :
    (after.cells cell.id).resolved = true := by
  have hsame := (definitions name).keeps_decode definitions depth cell.id stage hresolved
  rw [h] at hsame
  exact (congrArg CellState.resolved hsame).trans hresolved

/-- Items are taken through a resolved reference as with its definition. -/
theorem entriesTaken_lazy_iff {stage last : Stage Source} {values : List (S.Value name)}
    (hresolved : (stage.cells cell.id).resolved = true) :
    EntriesTaken ((Codec.lazy cell name).decode definitions (depth + 1)) stage values last ↔
      EntriesTaken ((definitions name).decode definitions depth) stage values last := by
  have hagree (stage : Stage Source) (h : (stage.cells cell.id).resolved = true) :
      (Codec.lazy cell name).decode definitions (depth + 1) stage =
        (definitions name).decode definitions depth stage :=
    decode_lazy_of_use (Cells.use_of_resolved h)
  constructor
  · intro h
    exact h.of_agree hagree (fun stage _ _ hstage hrun ↦
      resolved_of_decode hstage (hagree stage hstage ▸ hrun)) hresolved
  · intro h
    exact h.of_agree (fun stage hstage ↦ (hagree stage hstage).symm)
      (fun _ _ _ ↦ resolved_of_decode) hresolved

/-- So they are from before its use, if there are any. -/
theorem entriesTaken_lazy_of_use (huse : Cells.use cell earlier = .ok () resolved)
    {value : S.Value name} {values : List (S.Value name)} {last : Stage Source} :
    EntriesTaken ((Codec.lazy cell name).decode definitions (depth + 1)) ⟨stream, earlier⟩
        (value :: values) last ↔
      EntriesTaken ((definitions name).decode definitions depth) ⟨stream, resolved⟩
        (value :: values) last := by
  let later : Stage Source := ⟨stream, resolved⟩
  have hresolved : (later.cells cell.id).resolved = true := (Cells.use_eq_ok huse).1
  have hsame : (Codec.lazy cell name).decode definitions (depth + 1) ⟨stream, earlier⟩ =
      (Codec.lazy cell name).decode definitions (depth + 1) later :=
    (decode_lazy_of_use huse).trans (decode_lazy_of_use (Cells.use_of_resolved hresolved)).symm
  rw [← entriesTaken_lazy_iff hresolved, entriesTaken_cons_iff, entriesTaken_cons_iff, hsame]

theorem size_lazy_ne_overflow : (Codec.lazy (S := S) cell name).size ≠ .overflow := by
  intro hsize
  cases hsize

/-- A list of references yields what that of the definition does. -/
theorem decode_fixedList_lazy_of_use (hsize : (definitions name).size ≠ .overflow)
    (huse : Cells.use cell earlier = .ok () resolved) (count : Nat)
    (values : List (S.Value name)) (rest : Source) :
    (∃ last, (Codec.fixedList (.lazy cell name) count).decode definitions (depth + 1)
        ⟨stream, earlier⟩ = .ok values last ∧ last.stream = rest) ↔
      ∃ last, (Codec.fixedList (definitions name) count).decode definitions depth
        ⟨stream, resolved⟩ = .ok values last ∧ last.stream = rest := by
  simp only [Codec.decode_fixedList_eq_ok_iff hsize,
    Codec.decode_fixedList_eq_ok_iff size_lazy_ne_overflow]
  cases values with
  | nil =>
    -- An empty list does not use the reference, so that only the streams are the same.
    constructor
    · rintro ⟨_, ⟨⟨⟩, hcount⟩, rfl⟩
      exact ⟨_, ⟨.nil _, hcount⟩, rfl⟩
    · rintro ⟨_, ⟨⟨⟩, hcount⟩, rfl⟩
      exact ⟨_, ⟨.nil _, hcount⟩, rfl⟩
  | cons value values => simp only [entriesTaken_lazy_of_use huse]

/-- Behind some items it fails as the definition does. -/
theorem decode_fixedList_lazy_of_error (huse : Cells.use cell earlier = .ok () resolved)
    {values : List (S.Value name)} {middle : Stage Source}
    (h : EntriesTaken ((definitions name).decode definitions depth) ⟨stream, resolved⟩ values
      middle) {count : Nat} (hless : values.length < count) {failure : Failure}
    {after : Stage Source}
    (hfails : (definitions name).decode definitions depth middle = .error failure after) :
    (Codec.fixedList (.lazy cell name) count).decode definitions (depth + 1) ⟨stream, earlier⟩ =
      .error failure after := by
  cases values with
  | nil =>
    cases h
    exact Codec.decode_fixedList_of_error rfl (.nil _) hless
      ((decode_lazy_of_use huse).trans hfails)
  | cons value values =>
    have hresolved : (middle.cells cell.id).resolved = true :=
      h.keeps (fun _ _ _ ↦ resolved_of_decode) (Cells.use_eq_ok huse).1
    exact Codec.decode_fixedList_of_error rfl ((entriesTaken_lazy_of_use huse).mpr h) hless
      ((decode_lazy_of_use (Cells.use_of_resolved hresolved)).trans hfails)

theorem readsAlike (hsize : (definitions name).size ≠ .overflow)
    (hword : stream.remaining ≤ maxWord) (huse : Cells.use cell earlier = .ok () resolved) :
    cell.ReadsAlike name definitions depth stream earlier resolved where
  exact value last := by
    rw [Codec.decodeExact_eq_ok_iff size_lazy_ne_overflow hword, decode_lazy_of_use huse,
      Codec.decodeExact_eq_ok_iff hsize hword]
  list := decode_fixedList_lazy_of_use hsize huse
  short hfixed hpositive htaken hend hless := by
    obtain ⟨e, after, hfails⟩ := Codec.decode_of_end hfixed hpositive hend
    exact ⟨e, after, hfails, decode_fixedList_lazy_of_error huse htaken hless hfails⟩

end LazyCell

/-! ### Main statement -/

/-- The declared size of a codec, which is looked at before a whole message and the items of a list
are read, changes no value. With the size and without it, a whole message is what is read with
nothing left, and a list is that many items one after another; behind a reference, which declares no
size, the same is read. Only where items that are sure to take a byte are short does the list fail
with an error of its own instead of the item's. -/
theorem Codec.looks_change_no_value (definitions : Definitions S) (depth : Nat) :
    (∀ {α : Type} (codec : Codec S α) (source : Stage Source), codec.size ≠ .overflow →
      source.stream.remaining ≤ maxWord → codec.ReadsPlainly definitions depth source) ∧
    ∀ (cell : LazyCell) (name : S.Name) (stream : Source) (earlier resolved : Cells),
      (definitions name).size ≠ .overflow → stream.remaining ≤ maxWord →
      Cells.use cell earlier = .ok () resolved →
      cell.ReadsAlike name definitions depth stream earlier resolved :=
  ⟨fun _ _ hsize hword ↦ Codec.readsPlainly hsize hword,
    fun _ _ _ _ _ hsize hword huse ↦ LazyCell.readsAlike hsize hword huse⟩

/-- Two numbers of two bytes, of which three are wanted: the list ends after two, and behind a
reference that is supplied at the second call it fails as the number does. Empty tuples are read
where nothing is left. -/
theorem Codec.looks_change_no_value_of_two :
    let number : Codec ⟨Unit, fun _ ↦ Nat⟩ Nat := .leaf (.length .u16)
    let empty : Codec ⟨Unit, fun _ ↦ Nat⟩ Unit := .tuple .nil
    let definitions : Definitions ⟨Unit, fun _ ↦ Nat⟩ := fun _ ↦ number
    let cell : LazyCell := ⟨0, fun call ↦ decide (1 ≤ call)⟩
    let earlier : Cells := Cells.fresh.set 0 ⟨1, false⟩
    let resolved : Cells := earlier.set 0 ⟨2, true⟩
    let stream : Source := ⟨[[0, 1, 0], [2]]⟩
    let last : Stage Source := ⟨⟨[[]]⟩, resolved⟩
    number.size ≠ .overflow ∧ empty.size ≠ .overflow ∧ stream.remaining ≤ maxWord ∧
      last.stream.remaining ≤ maxWord ∧ Cells.use cell earlier = .ok () resolved ∧
      (Codec.fixedList number 3).decode definitions 0 ⟨stream, resolved⟩ =
        .error (.error { kind := .endOfStream "items" 2 3 }) last ∧
      (∃ e after, number.decode definitions 0 last = .error (.error e) after ∧
        (Codec.fixedList (.lazy cell ()) 3).decode definitions 1 ⟨stream, earlier⟩ =
          .error (.error e) after) ∧
      (∃ last, (Codec.fixedList (.lazy cell ()) 2).decode definitions 1 ⟨stream, earlier⟩ =
        .ok [1, 2] last ∧ last.stream = ⟨[[]]⟩) ∧
      (Codec.fixedList empty 2).decode definitions 0 last = .ok [(), ()] last ∧
      ¬ ∃ value after, number.decodeExact definitions 0 ⟨stream, resolved⟩ = .ok value after := by
  intro number empty definitions cell earlier resolved stream last
  have hword : stream.remaining ≤ maxWord := by decide
  have huse : Cells.use cell earlier = .ok () resolved := rfl
  have hnumber : number.decode definitions 0 ⟨stream, resolved⟩ =
      .ok 1 ⟨⟨[[0], [2]]⟩, resolved⟩ := by
    with_unfolding_all rfl
  have htaken : EntriesTaken (number.decode definitions 0) ⟨stream, resolved⟩ [1, 2] last :=
    .cons hnumber (.cons (by with_unfolding_all rfl) (.nil last))
  obtain ⟨hplain, halike⟩ := Codec.looks_change_no_value definitions 0
  have hlist := hplain number ⟨stream, resolved⟩ nofun hword
  have hlazy := halike cell () stream earlier resolved nofun hword huse
  refine ⟨nofun, nofun, hword, by decide, huse,
    (hlist.short rfl Nat.two_pos htaken rfl (by decide)).1,
    hlazy.short rfl Nat.two_pos htaken rfl (by decide),
    (hlazy.list 2 [1, 2] ⟨[[]]⟩).mpr ⟨last, (hlist.list _ _ _).mpr ⟨htaken, rfl⟩, rfl⟩,
    ((hplain empty last nofun (by decide)).list 2 _ _).mpr
      ⟨.cons rfl (.cons rfl (.nil last)), rfl⟩, ?_⟩
  rintro ⟨value, after, hrun⟩
  obtain ⟨hdecode, hend⟩ := (hlist.exact value after).mp hrun
  rw [hnumber] at hdecode
  cases hdecode
  cases hend

end WireFormat
