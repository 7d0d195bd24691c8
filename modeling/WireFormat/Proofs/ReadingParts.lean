import WireFormat.Proofs.BareErrors
import WireFormat.Proofs.NestedRuns

/-!
# The parts that a decoder runs

`Codec.Reads` says which codecs a decoder runs as its parts, from which stages: what is read before
them was read successfully, the loops have made some turns, the tag was that of the part. Two kinds
of part are fields, those of a record and the values of tagged entries; the tag itself is none. A
part that fails fails the whole (`Codec.fails_of_reads`), and where none fails, an error of the
whole has crossed no field (`Codec.path_of_decode`). So readings are nested runs (`Reading.nested`).
-/

set_option autoImplicit false
set_option relaxedAutoImplicit false

namespace WireFormat

variable {S : Signature}

/-- A codec about to read, the levels of references that are left and the stage it reads from. -/
structure Reading (S : Signature) : Type 1 where
  {α : Type}
  codec : Codec S α
  depth : Nat
  stage : Stage Source

/-- The reading fails so. -/
def Reading.Fails (definitions : Definitions S) (reading : Reading S) (failure : Failure) : Prop :=
  ∃ after, reading.codec.decode definitions reading.depth reading.stage = .error failure after

/-! ### Frames and loops -/

namespace Decoding

/-- A frame fails as what is inside does, or has bytes left. -/
theorem inner_of_inFrame_error {α : Type} {frame : List UInt8} {inner : Decoding α}
    {stage after : Stage Source} {failure : Failure}
    (h : inFrame frame inner stage = .error failure after) :
    (∃ last, inner ⟨Source.ofBytes frame, stage.cells⟩ = .error failure last) ∨
      ∃ kind, failure = .error { kind } := by
  cases hrun : inner ⟨Source.ofBytes frame, stage.cells⟩ with
  | error cause last =>
    rw [inFrame_of_error hrun] at h
    cases h
    exact Or.inl ⟨last, rfl⟩
  | ok value last =>
    rcases Nat.eq_zero_or_pos last.stream.remaining with hzero | hrest
    · rw [inFrame_of_ok hrun (Source.remaining_eq_zero_iff.mp hzero)] at h
      cases h
    · rw [inFrame_of_extra hrun hrest] at h
      cases h
      exact Or.inr ⟨_, rfl⟩

/-- A loop makes a turn at the stage `last`. All turns before it have succeeded, and have taken a
byte where the loop asks them to pay. A loop that looks makes no turn at the end of the source. -/
inductive TurnAt {β : Type} (turn : Decoding β) (looks : Prop) (pays : Option Nat → Prop) :
    (allowance : Option Nat) → (first last : Stage Source) → Prop
  | here {allowance : Option Nat} {stage : Stage Source} (allowed : allowance ≠ some 0)
      (more : looks → stage.stream.remaining ≠ 0) :
      TurnAt turn looks pays allowance stage stage
  | later {allowance : Option Nat} {stage middle last : Stage Source} {b : β}
      (allowed : allowance ≠ some 0) (more : looks → stage.stream.remaining ≠ 0)
      (made : turn stage = .ok b middle)
      (paid : pays allowance → middle.stream.remaining < stage.stream.remaining)
      (others : TurnAt turn looks pays (allowance.map (· - 1)) middle last) :
      TurnAt turn looks pays allowance stage last

section Lists

variable {α : Type} {item : Decoding α} {stage last after : Stage Source} {failure : Failure}

theorem items_of_turn {sized : Bool} {requested left : Nat}
    (hturn : TurnAt item (sized = true) (fun _ ↦ False) (some left) stage last)
    (hfails : item last = .error failure after) :
    items item sized requested left stage = .error failure after := by
  generalize hallowance : some left = allowance at hturn
  induction hturn generalizing left with
  | here hallowed hmore =>
    cases left with
    | zero => exact absurd hallowance.symm hallowed
    | succ left => exact (items_succ hmore).trans (bind_of_error hfails _)
  | @later _ _ middle _ _ hallowed hmore hmade _ _ ih =>
    cases left with
    | zero => exact absurd hallowance.symm hallowed
    | succ left =>
      have hothers : items item sized requested left middle = .error failure after :=
        ih hfails (by rw [← hallowance]; rfl)
      rw [items_succ hmore, bind_of_ok hmade, bind_of_error hothers]

/-- Unless an item fails, the list is short of items. -/
theorem turn_of_items_error {sized : Bool} {requested left : Nat}
    (h : items item sized requested left stage = .error failure after) :
    (∃ last, TurnAt item (sized = true) (fun _ ↦ False) (some left) stage last ∧
      item last = .error failure after) ∨ ∃ kind, failure = .error { kind } := by
  induction left generalizing stage with
  | zero => cases h
  | succ left ih =>
    by_cases hmore : sized = true → stage.stream.remaining ≠ 0
    · rw [items_succ hmore] at h
      have hallowed : some (left + 1) ≠ some 0 := by simp
      rcases bind_eq_error.mp h with hitem | ⟨value, middle, hitem, h⟩
      · exact Or.inl ⟨stage, .here hallowed hmore, hitem⟩
      · rcases bind_eq_error.mp h with hothers | ⟨values, last, -, h⟩
        · rcases ih hothers with ⟨last, hturn, hfails⟩ | hown
          · exact Or.inl ⟨last, .later hallowed hmore hitem False.elim hturn, hfails⟩
          · exact Or.inr hown
        · cases h
    · obtain ⟨rfl, hend⟩ := Classical.not_imp.mp hmore
      rw [items_of_end (Classical.not_not.mp hend)] at h
      cases h
      exact Or.inr ⟨_, rfl⟩

theorem itemsToEnd_of_turn {allowance : Option Nat}
    (hturn : TurnAt item True (fun _ ↦ True) allowance stage last)
    (hfails : item last = .error failure after) :
    itemsToEnd item allowance stage = .error failure after := by
  induction hturn with
  | here hallowed hmore =>
    rw [itemsToEnd, if_neg (not_or.mpr ⟨hmore trivial, hallowed⟩)]
    simp only [hfails]
  | later hallowed hmore hmade hpaid _ ih =>
    rw [itemsToEnd, if_neg (not_or.mpr ⟨hmore trivial, hallowed⟩)]
    simp only [hmade, if_pos (hpaid trivial), ih hfails]

/-- Unless an item fails, it has taken no byte. -/
theorem turn_of_itemsToEnd_error {allowance : Option Nat}
    (h : itemsToEnd item allowance stage = .error failure after) :
    (∃ last, TurnAt item True (fun _ ↦ True) allowance stage last ∧
      item last = .error failure after) ∨ ∃ kind, failure = .error { kind } := by
  induction hleft : stage.stream.remaining using Nat.strongRecOn generalizing stage allowance with
  | ind left ih =>
    rw [itemsToEnd] at h
    by_cases hstop : stage.stream.remaining = 0 ∨ allowance = some 0
    · rw [if_pos hstop] at h
      cases h
    · rw [if_neg hstop] at h
      obtain ⟨hmore, hallowed⟩ := not_or.mp hstop
      cases hitem : item stage with
      | error cause middle =>
        simp only [hitem] at h
        cases h
        exact Or.inl ⟨stage, .here hallowed fun _ ↦ hmore, hitem⟩
      | ok value middle =>
        simp only [hitem] at h
        by_cases hless : middle.stream.remaining < stage.stream.remaining
        · rw [if_pos hless] at h
          cases hothers : itemsToEnd item (allowance.map (· - 1)) middle with
          | ok values last => simp [hothers] at h
          | error cause last =>
            simp only [hothers] at h
            cases h
            rcases ih _ (hleft ▸ hless) hothers rfl with ⟨last, hturn, hfails⟩ | hown
            · exact Or.inl ⟨last, .later hallowed (fun _ ↦ hmore) hitem (fun _ ↦ hless) hturn,
                hfails⟩
            · exact Or.inr hown
        · rw [if_neg hless] at h
          cases h
          exact Or.inr ⟨_, rfl⟩

end Lists

section Entries

variable {K V R : Type} {entry : Decoding (K × V)} {add : R → K → V → R}
  {allowance : Option Nat} {stage last after : Stage Source} {failure : Failure}

theorem entriesToEnd_of_turn (hturn : TurnAt entry True (· = none) allowance stage last)
    (hfails : entry last = .error failure after) (record : R) :
    entriesToEnd entry add allowance record stage = .error failure after := by
  induction hturn generalizing record with
  | here hallowed hmore =>
    exact entriesToEnd_of_error (not_or.mpr ⟨hmore trivial, hallowed⟩) hfails
  | later hallowed hmore hmade hpaid _ ih =>
    rw [entriesToEnd_of_entry (not_or.mpr ⟨hmore trivial, hallowed⟩) hmade hpaid]
    exact ih hfails _

/-- Unless an entry fails, one without a byte is read for ever. -/
theorem turn_of_entriesToEnd_error {record : R}
    (h : entriesToEnd entry add allowance record stage = .error failure after) :
    (∃ last, TurnAt entry True (· = none) allowance stage last ∧
      entry last = .error failure after) ∨ failure = .endless := by
  induction hleft : allowance.getD stage.stream.remaining using Nat.strongRecOn
    generalizing stage allowance record with
  | ind left ih =>
    by_cases hstop : stage.stream.remaining = 0 ∨ allowance = some 0
    · rw [entriesToEnd_of_end hstop] at h
      cases h
    · obtain ⟨hmore, hallowed⟩ := not_or.mp hstop
      cases hentry : entry stage with
      | error cause middle =>
        rw [entriesToEnd_of_error hstop hentry] at h
        cases h
        exact Or.inl ⟨stage, .here hallowed fun _ ↦ hmore, hentry⟩
      | ok e middle =>
        by_cases hgoes : allowance = none → middle.stream.remaining < stage.stream.remaining
        · rw [entriesToEnd_of_entry hstop hentry hgoes] at h
          have hmeasure : (allowance.map (· - 1)).getD middle.stream.remaining < left := by
            rw [← hleft]
            cases allowance with
            | none => exact hgoes rfl
            | some bound =>
              have hpositive : bound ≠ 0 := fun hzero ↦ hallowed (congrArg some hzero)
              exact Nat.sub_one_lt hpositive
          rcases ih _ hmeasure h rfl with ⟨last, hturn, hfails⟩ | hown
          · exact Or.inl ⟨last, .later hallowed (fun _ ↦ hmore) hentry hgoes hturn, hfails⟩
          · exact Or.inr hown
        · obtain ⟨rfl, hfree⟩ := Classical.not_imp.mp hgoes
          rw [entriesToEnd_of_free hmore hentry hfree] at h
          cases h
          exact Or.inr rfl

end Entries

end Decoding

open Decoding

/-! ### What a decoder runs -/

section Reads

variable (definitions : Definitions S) (depth : Nat)

/-- The parts of a tuple, each behind those before it. -/
def Items.Reads : {α : Type} → Items S α → Stage Source → Reading S → Prop
  | _, .nil, _, _ => False
  | _, .cons item rest, stage, part =>
    part = ⟨item, depth, stage⟩ ∨
      ∃ value middle, item.decode definitions depth stage = .ok value middle ∧
        rest.Reads middle part

/-- The fields that are present in the record, as far as it is known, each under its name. -/
def Fields.Reads : {R : Type} → Fields S R → R → Stage Source → Option String → Reading S → Prop
  | _, .nil, _, _, _, _ => False
  | _, .cons name _ set present codec rest, record, stage, label, part =>
    if present record then
      label = some name ∧ part = ⟨codec, depth, stage⟩ ∨
        ∃ value middle, codec.decode definitions depth stage = .ok value middle ∧
          rest.Reads (set record value) middle label part
    else rest.Reads record stage label part

/-- The parts that a codec runs when it reads. Only fields of records and values of tagged entries
have a label. -/
def Codec.Reads : {α : Type} → Codec S α → Stage Source → Option String → Reading S → Prop
  | _, .leaf _, _, _, _ => False
  | _, .tuple items, stage, label, part => label = none ∧ items.Reads definitions depth stage part
  | _, .fixedList item count, stage, label, part =>
    label = none ∧ item.size ≠ .overflow ∧ ∃ last,
      TurnAt (item.decode definitions depth) (item.size.isPositive = true) (fun _ ↦ False)
        (some count) stage last ∧ part = ⟨item, depth, last⟩
  | _, .exhaustList item max, stage, label, part =>
    label = none ∧ ∃ last,
      TurnAt (item.decode definitions depth) True (fun _ ↦ True) max stage last ∧
        part = ⟨item, depth, last⟩
  | _, .map _ _ wire, stage, label, part => label = none ∧ part = ⟨wire, depth, stage⟩
  | _, .case _ _ payload, stage, label, part => label = none ∧ part = ⟨payload, depth, stage⟩
  | _, .byteCounted length range payload, stage, label, part =>
    label = none ∧
      (part = ⟨length, depth, stage⟩ ∨
        ∃ n middle frame behind, length.decode definitions depth stage = .ok n middle ∧
          range.contains n = true ∧ Stage.onStream (Source.take n) middle = .ok frame behind ∧
          part = ⟨payload, depth, ⟨Source.ofBytes frame, behind.cells⟩⟩)
  | _, .itemCounted length range _ body, stage, label, part =>
    label = none ∧
      (part = ⟨length, depth, stage⟩ ∨
        ∃ n middle, length.decode definitions depth stage = .ok n middle ∧
          range.contains n = true ∧ part = ⟨body n, depth, middle⟩)
  | _, .record factory fields, stage, label, part =>
    ∃ start, factory = some start ∧ fields.Reads definitions depth start stage label part
  | _, .tagged (i := _) tag display _ table fallback max factory, stage, label, part =>
    factory.isSome = true ∧ ∃ last,
      TurnAt (Codec.decodeEntry definitions depth tag display table fallback) True (· = none) max
        stage last ∧
      (label = none ∧ part = ⟨tag, depth, last⟩ ∨
        ∃ key behind, tag.decode definitions depth last = .ok key behind ∧
          label = some (display key) ∧ part = ⟨table.codecOf fallback key, depth, behind⟩)
  | _, .choice (i := _) (j := _) tag _ _ _ registry table, stage, label, part =>
    label = none ∧
      (part = ⟨tag, depth, stage⟩ ∨
        ∃ key middle kind codec, tag.decode definitions depth stage = .ok key middle ∧
          registry.kindOf? key = some kind ∧ table.find? kind = some codec ∧
          part = ⟨codec, depth, middle⟩)
  | _, .lazy cell name, stage, label, part =>
    label = none ∧ ∃ left cells, depth = left + 1 ∧
      Cells.use cell stage.cells = .ok () cells ∧
      part = ⟨definitions name, left, ⟨stage.stream, cells⟩⟩

end Reads

variable {definitions : Definitions S} {depth : Nat}

/-! ### The failure of a part comes out -/

theorem Items.fails_of_reads : {α : Type} → {items : Items S α} → {stage : Stage Source} →
    {part : Reading S} → {failure : Failure} → items.Reads definitions depth stage part →
    part.Fails definitions failure →
    ∃ after, items.decodeWith (definitions.decodeWithin depth) stage = .error failure after
  | _, .nil, _, _, _, h, _ => h.elim
  | _, .cons item rest, stage, part, failure, h, hfails => by
    rcases h with rfl | ⟨value, middle, hitem, hrest⟩
    · obtain ⟨after, hrun⟩ := hfails
      exact ⟨after, bind_of_error hrun _⟩
    · obtain ⟨after, hrun⟩ := fails_of_reads hrest hfails
      exact ⟨after, (bind_of_ok hitem _).trans (bind_of_error hrun _)⟩

theorem Fields.fails_of_reads : {R : Type} → {fields : Fields S R} → {record : R} →
    {stage : Stage Source} → {label : Option String} → {part : Reading S} → {failure : Failure} →
    fields.Reads definitions depth record stage label part → part.Fails definitions failure →
    ∃ after, fields.decodeWith (definitions.decodeWithin depth) record stage =
      .error (failure.outside label) after
  | _, .nil, _, _, _, _, _, h, _ => h.elim
  | _, .cons name get set present codec rest, record, stage, label, part, failure, h, hfails => by
    rw [Reads] at h
    rw [Fields.decodeWith]
    by_cases hpresent : present record = true
    · rw [if_pos hpresent] at h ⊢
      rcases h with ⟨rfl, rfl⟩ | ⟨value, middle, hfield, hrest⟩
      · obtain ⟨after, hrun⟩ := hfails
        exact ⟨after, bind_of_error (inField_of_error hrun) _⟩
      · obtain ⟨after, hrun⟩ := fails_of_reads hrest hfails
        exact ⟨after, (bind_of_ok (inField_eq_ok.mpr hfield) _).trans hrun⟩
    · rw [if_neg hpresent] at h ⊢
      exact fails_of_reads h hfails

/-- The failure of a part is that of the whole, behind the name of the part if it is a field. -/
theorem Codec.fails_of_reads {α : Type} {codec : Codec S α} {stage : Stage Source}
    {label : Option String} {part : Reading S} {failure : Failure}
    (h : codec.Reads definitions depth stage label part) (hfails : part.Fails definitions failure) :
    Reading.Fails definitions ⟨codec, depth, stage⟩ (failure.outside label) := by
  show ∃ after, codec.decode definitions depth stage = .error (failure.outside label) after
  cases codec with
  | leaf leaf => exact h.elim
  | tuple items =>
    obtain ⟨rfl, h⟩ := h
    exact Items.fails_of_reads h hfails
  | fixedList item count =>
    obtain ⟨rfl, hsize, last, hturn, rfl⟩ := h
    obtain ⟨after, hrun⟩ := hfails
    refine ⟨after, ?_⟩
    rw [Codec.decode, Codec.decodeWith_fixedList, if_neg hsize]
    exact Decoding.items_of_turn hturn hrun
  | exhaustList item max =>
    obtain ⟨rfl, last, hturn, rfl⟩ := h
    obtain ⟨after, hrun⟩ := hfails
    exact ⟨after, Decoding.itemsToEnd_of_turn hturn hrun⟩
  | map toWire fromWire wire =>
    obtain ⟨rfl, rfl⟩ := h
    obtain ⟨after, hrun⟩ := hfails
    exact ⟨after, bind_of_error hrun _⟩
  | case wrap unwrap payload =>
    obtain ⟨rfl, rfl⟩ := h
    obtain ⟨after, hrun⟩ := hfails
    exact ⟨after, bind_of_error hrun _⟩
  | byteCounted length range payload =>
    obtain ⟨rfl, rfl | ⟨n, middle, frame, behind, hlength, hrange, htake, rfl⟩⟩ := h
    · obtain ⟨after, hrun⟩ := hfails
      exact ⟨after, bind_of_error hrun _⟩
    · obtain ⟨after, hrun⟩ := hfails
      have hcheck : range.check n = .ok n := LengthRange.check_eq_ok.mpr ⟨hrange, rfl⟩
      refine ⟨{ behind with cells := after.cells }, (bind_of_ok hlength _).trans ?_⟩
      rw [hcheck, bind_of_ok (ofExcept_ok n middle), bind_of_ok htake]
      exact inFrame_of_error hrun
  | itemCounted length range count body =>
    obtain ⟨rfl, rfl | ⟨n, middle, hlength, hrange, rfl⟩⟩ := h
    · obtain ⟨after, hrun⟩ := hfails
      exact ⟨after, bind_of_error hrun _⟩
    · obtain ⟨after, hrun⟩ := hfails
      have hcheck : range.check n = .ok n := LengthRange.check_eq_ok.mpr ⟨hrange, rfl⟩
      refine ⟨after, (bind_of_ok hlength _).trans ?_⟩
      rw [hcheck, bind_of_ok (ofExcept_ok n middle)]
      exact hrun
  | record factory fields =>
    obtain ⟨start, rfl, h⟩ := h
    exact Fields.fails_of_reads h hfails
  | tagged tag display access table fallback max factory =>
    obtain ⟨hfactory, last, hturn, hpart⟩ := h
    obtain ⟨start, rfl⟩ := Option.isSome_iff_exists.mp hfactory
    rw [Codec.decode_tagged]
    obtain ⟨after, hrun⟩ := hfails
    rcases hpart with ⟨rfl, rfl⟩ | ⟨key, behind, htag, rfl, rfl⟩
    · exact ⟨after, Decoding.entriesToEnd_of_turn hturn (bind_of_error hrun _) start⟩
    · refine ⟨after, Decoding.entriesToEnd_of_turn hturn ?_ start⟩
      exact (bind_of_ok htag _).trans (bind_of_error (inField_of_error hrun) _)
  | choice tag showTag showKind kind registry table =>
    obtain ⟨rfl, rfl | ⟨key, middle, kind, codec, htag, hkind, hfind, rfl⟩⟩ := h
    · obtain ⟨after, hrun⟩ := hfails
      exact ⟨after, bind_of_error hrun _⟩
    · obtain ⟨after, hrun⟩ := hfails
      refine ⟨after, (bind_of_ok htag _).trans ?_⟩
      rw [hkind]
      simp only [Table.decodeAt_eq, hfind, Option.map_some]
      exact hrun
  | «lazy» cell name =>
    obtain ⟨rfl, left, cells, rfl, huse, rfl⟩ := h
    obtain ⟨after, hrun⟩ := hfails
    refine ⟨after, (bind_of_ok (a := ()) ?_ _).trans hrun⟩
    simp only [Stage.onCells, huse]

/-! ### Errors of the whole -/

theorem Items.exists_reads_of_error : {α : Type} → {items : Items S α} →
    {stage after : Stage Source} → {failure : Failure} →
    items.decodeWith (definitions.decodeWithin depth) stage = .error failure after →
    ∃ part, items.Reads definitions depth stage part ∧ part.Fails definitions failure
  | _, .nil, _, _, _, h => by cases h
  | _, .cons item rest, stage, after, failure, h => by
    rcases bind_eq_error.mp h with hitem | ⟨value, middle, hitem, h⟩
    · exact ⟨⟨item, depth, stage⟩, Or.inl rfl, after, hitem⟩
    · rcases bind_eq_error.mp h with hrest | ⟨values, last, -, h⟩
      · obtain ⟨part, hreads, hfails⟩ := exists_reads_of_error hrest
        exact ⟨part, Or.inr ⟨value, middle, hitem, hreads⟩, hfails⟩
      · cases h

theorem Fields.exists_reads_of_error : {R : Type} → {fields : Fields S R} → {record : R} →
    {stage after : Stage Source} → {failure : Failure} →
    fields.decodeWith (definitions.decodeWithin depth) record stage = .error failure after →
    ∃ label part cause, fields.Reads definitions depth record stage label part ∧
      part.Fails definitions cause
  | _, .nil, _, _, _, _, h => by cases h
  | _, .cons name get set present codec rest, record, stage, after, failure, h => by
    rw [Fields.decodeWith] at h
    by_cases hpresent : present record = true
    · rw [if_pos hpresent] at h
      rcases bind_eq_error.mp h with hfield | ⟨value, middle, hfield, hrest⟩
      · obtain ⟨cause, hfield, -⟩ := inField_eq_error.mp hfield
        refine ⟨some name, ⟨codec, depth, stage⟩, cause, ?_, after, hfield⟩
        rw [Reads, if_pos hpresent]
        exact Or.inl ⟨rfl, rfl⟩
      · obtain ⟨label, part, cause, hreads, hfails⟩ := exists_reads_of_error hrest
        refine ⟨label, part, cause, ?_, hfails⟩
        rw [Reads, if_pos hpresent]
        exact Or.inr ⟨value, middle, inField_eq_ok.mp hfield, hreads⟩
    · rw [if_neg hpresent] at h
      obtain ⟨label, part, cause, hreads, hfails⟩ := exists_reads_of_error h
      refine ⟨label, part, cause, ?_, hfails⟩
      rwa [Reads, if_neg hpresent]

/-- The error is that of a conversion that refuses what was read. -/
def Codec.Refuses : {α : Type} → Codec S α → Error → Prop
  | _, .map _ fromWire _, e => ∃ wire, fromWire wire = .error e
  | _, _, _ => False

/-- An error of the whole when no part fails. Only a conversion may have named anything in it. -/
theorem Codec.path_of_decode {α : Type} {codec : Codec S α} {stage after : Stage Source}
    {e : Error} (h : codec.decode definitions depth stage = .error (.error e) after)
    (hparts : ∀ label part, codec.Reads definitions depth stage label part →
      ∀ failure, ¬ part.Fails definitions failure) :
    e.path = [] ∨ codec.Refuses e := by
  cases codec with
  | leaf leaf =>
    exact Or.inl (Stage.bare_onStream leaf.bare_decode _ _ _ h)
  | tuple items =>
    obtain ⟨part, hreads, hfails⟩ := Items.exists_reads_of_error h
    exact (hparts none part ⟨rfl, hreads⟩ _ hfails).elim
  | fixedList item count =>
    rw [Codec.decode, Codec.decodeWith_fixedList] at h
    split at h
    · cases h
    · rename_i hsize
      rcases Decoding.turn_of_items_error h with ⟨last, hturn, hfails⟩ | ⟨kind, hown⟩
      · exact (hparts none _ ⟨rfl, hsize, last, hturn, rfl⟩ _ ⟨after, hfails⟩).elim
      · cases hown
        exact Or.inl rfl
  | exhaustList item max =>
    rcases Decoding.turn_of_itemsToEnd_error h with ⟨last, hturn, hfails⟩ | ⟨kind, hown⟩
    · exact (hparts none _ ⟨rfl, last, hturn, rfl⟩ _ ⟨after, hfails⟩).elim
    · cases hown
      exact Or.inl rfl
  | map toWire fromWire wire =>
    rcases bind_eq_error.mp h with hwire | ⟨b, middle, -, h⟩
    · exact (hparts none _ ⟨rfl, rfl⟩ _ ⟨after, hwire⟩).elim
    · right
      cases hfrom : fromWire b with
      | ok a => simp [hfrom] at h
      | error cause =>
        simp only [hfrom, ofExcept_error, EStateM.Result.error.injEq, Failure.error.injEq] at h
        exact ⟨b, by rw [hfrom, h.1]⟩
  | case wrap unwrap payload =>
    rcases bind_eq_error.mp h with hpayload | ⟨b, middle, -, h⟩
    · exact (hparts none _ ⟨rfl, rfl⟩ _ ⟨after, hpayload⟩).elim
    · cases h
  | byteCounted length range payload =>
    left
    rcases bind_eq_error.mp h with hlength | ⟨n, middle, hlength, h⟩
    · exact (hparts none _ ⟨rfl, Or.inl rfl⟩ _ ⟨after, hlength⟩).elim
    rcases LengthRange.path_or_next h with hpath | ⟨hrange, h⟩
    · exact hpath
    rcases bind_eq_error.mp h with htake | ⟨frame, behind, htake, h⟩
    · exact Stage.bare_onStream (Source.bare_take n) _ _ _ htake
    rcases Decoding.inner_of_inFrame_error h with ⟨last, hpayload⟩ | ⟨kind, hown⟩
    · exact (hparts none _
        ⟨rfl, Or.inr ⟨n, middle, frame, behind, hlength, hrange, htake, rfl⟩⟩ _
        ⟨last, hpayload⟩).elim
    · cases hown
      rfl
  | itemCounted length range count body =>
    left
    rcases bind_eq_error.mp h with hlength | ⟨n, middle, hlength, h⟩
    · exact (hparts none _ ⟨rfl, Or.inl rfl⟩ _ ⟨after, hlength⟩).elim
    rcases LengthRange.path_or_next h with hpath | ⟨hrange, h⟩
    · exact hpath
    · exact (hparts none _ ⟨rfl, Or.inr ⟨n, middle, hlength, hrange, rfl⟩⟩ _ ⟨after, h⟩).elim
  | record factory fields =>
    left
    cases factory with
    | none =>
      cases h
      rfl
    | some start =>
      obtain ⟨label, part, cause, hreads, hfails⟩ := Fields.exists_reads_of_error h
      exact (hparts label part ⟨start, rfl, hreads⟩ cause hfails).elim
  | tagged tag display access table fallback max factory =>
    left
    cases factory with
    | none =>
      cases h
      rfl
    | some start =>
      rw [Codec.decode_tagged] at h
      rcases Decoding.turn_of_entriesToEnd_error h with ⟨last, hturn, hfails⟩ | hown
      · rcases bind_eq_error.mp hfails with htag | ⟨key, behind, htag, hfails⟩
        · exact (hparts none _ ⟨rfl, last, hturn, Or.inl ⟨rfl, rfl⟩⟩ _ ⟨after, htag⟩).elim
        rcases bind_eq_error.mp hfails with hvalue | ⟨value, final, -, hfails⟩
        · obtain ⟨cause, hvalue, -⟩ := inField_eq_error.mp hvalue
          exact (hparts (some (display key)) _
            ⟨rfl, last, hturn, Or.inr ⟨key, behind, htag, rfl, rfl⟩⟩ cause ⟨after, hvalue⟩).elim
        · cases hfails
      · cases hown
  | choice tag showTag showKind kind registry table =>
    left
    rcases bind_eq_error.mp h with htag | ⟨key, middle, htag, h⟩
    · exact (hparts none _ ⟨rfl, Or.inl rfl⟩ _ ⟨after, htag⟩).elim
    cases hkind : registry.kindOf? key with
    | none =>
      rw [hkind] at h
      cases h
      rfl
    | some kind =>
      rw [hkind] at h
      simp only [Table.decodeAt_eq] at h
      cases hfind : table.find? kind with
      | none =>
        rw [hfind] at h
        cases h
        rfl
      | some codec =>
        rw [hfind] at h
        exact (hparts none ⟨codec, depth, middle⟩
          ⟨rfl, Or.inr ⟨key, middle, kind, codec, htag, hkind, hfind, rfl⟩⟩ _ ⟨after, h⟩).elim
  | «lazy» cell name =>
    left
    rcases bind_eq_error.mp h with huse | ⟨u, ⟨stream, cells⟩, huse, h⟩
    · exact Stage.bare_use cell _ _ _ huse
    · obtain ⟨huse, rfl⟩ := Stage.onCells_eq_ok.mp huse
      cases depth with
      | zero => cases h
      | succ left => exact (hparts none _ ⟨rfl, left, cells, rfl, huse, rfl⟩ _ ⟨after, h⟩).elim

/-! ### Readings inside readings -/

theorem Items.hasPart_of_reads : {α : Type} → {items : Items S α} → {stage : Stage Source} →
    {part : Reading S} → items.Reads definitions depth stage part →
    part.depth = depth ∧ items.HasPart ⟨_, part.codec⟩
  | _, .nil, _, _, h => h.elim
  | _, .cons _ _, _, _, h => by
    rcases h with rfl | ⟨_, _, -, hrest⟩
    · exact ⟨rfl, Or.inl rfl⟩
    · exact (hasPart_of_reads hrest).imp_right Or.inr

theorem Fields.hasPart_of_reads : {R : Type} → {fields : Fields S R} → {record : R} →
    {stage : Stage Source} → {label : Option String} → {part : Reading S} →
    fields.Reads definitions depth record stage label part →
    part.depth = depth ∧ fields.HasPart ⟨_, part.codec⟩
  | _, .nil, _, _, _, _, h => h.elim
  | _, .cons name get set present codec rest, record, stage, label, part, h => by
    rw [Reads] at h
    split at h
    · rcases h with ⟨-, rfl⟩ | ⟨_, _, -, hrest⟩
      · exact ⟨rfl, Or.inl rfl⟩
      · exact (hasPart_of_reads hrest).imp_right Or.inr
    · exact (hasPart_of_reads h).imp_right Or.inr

/-- A codec runs its own parts, and a reference what has one level of references less. -/
theorem Codec.hasPart_of_reads {α : Type} {codec : Codec S α} {stage : Stage Source}
    {label : Option String} {part : Reading S}
    (h : codec.Reads definitions depth stage label part) :
    part.depth = depth ∧ codec.HasPart ⟨_, part.codec⟩ ∨ part.depth < depth := by
  cases codec with
  | leaf leaf => exact h.elim
  | tuple items => exact Or.inl (Items.hasPart_of_reads h.2)
  | fixedList item count =>
    obtain ⟨-, -, last, -, rfl⟩ := h
    exact Or.inl ⟨rfl, rfl⟩
  | exhaustList item max =>
    obtain ⟨-, last, -, rfl⟩ := h
    exact Or.inl ⟨rfl, rfl⟩
  | map toWire fromWire wire =>
    obtain ⟨-, rfl⟩ := h
    exact Or.inl ⟨rfl, rfl⟩
  | case wrap unwrap payload =>
    obtain ⟨-, rfl⟩ := h
    exact Or.inl ⟨rfl, rfl⟩
  | byteCounted length range payload =>
    obtain ⟨-, rfl | ⟨_, _, _, _, -, -, -, rfl⟩⟩ := h
    · exact Or.inl ⟨rfl, Or.inl rfl⟩
    · exact Or.inl ⟨rfl, Or.inr rfl⟩
  | itemCounted length range count body =>
    obtain ⟨-, rfl | ⟨n, _, -, -, rfl⟩⟩ := h
    · exact Or.inl ⟨rfl, Or.inl rfl⟩
    · exact Or.inl ⟨rfl, Or.inr ⟨n, rfl⟩⟩
  | record factory fields =>
    obtain ⟨start, -, h⟩ := h
    exact Or.inl (Fields.hasPart_of_reads h)
  | tagged tag display access table fallback max factory =>
    obtain ⟨-, last, -, ⟨-, rfl⟩ | ⟨key, _, -, -, rfl⟩⟩ := h
    · exact Or.inl ⟨rfl, Or.inl rfl⟩
    · exact Or.inl ⟨rfl, Or.inr (Table.hasPart_codecOf table fallback key)⟩
  | choice tag showTag showKind kind registry table =>
    obtain ⟨-, rfl | ⟨_, _, _, _, -, -, hfind, rfl⟩⟩ := h
    · exact Or.inl ⟨rfl, Or.inl rfl⟩
    · exact Or.inl ⟨rfl, Or.inr (Table.hasPart_of_find? hfind)⟩
  | «lazy» cell name =>
    obtain ⟨-, left, _, rfl, -, rfl⟩ := h
    exact Or.inr left.lt_succ_self

/-- One reading is a part of another. -/
def Reading.Contains (definitions : Definitions S) (reading : Reading S) (label : Option String)
    (part : Reading S) : Prop :=
  reading.codec.Reads definitions reading.depth reading.stage label part

/-- By induction on the levels of references, and for each level on the parts of the codec. -/
theorem Reading.wellFounded_contains (definitions : Definitions S) :
    WellFounded fun part reading : Reading S ↦
      ∃ label, reading.Contains definitions label part := by
  have hacc (depth : Nat) {α : Type} (codec : Codec S α) : ∀ stage : Stage Source,
      Acc (fun part reading : Reading S ↦ ∃ label, reading.Contains definitions label part)
        ⟨codec, depth, stage⟩ := by
    induction depth using Nat.strongRecOn generalizing α with
    | ind depth ih =>
      refine Codec.part_induction (motive := fun codec ↦ ∀ stage : Stage Source, Acc _
        (⟨codec.2, depth, stage⟩ : Reading S)) (fun codec hparts stage ↦ ?_) codec
      refine Acc.intro _ fun ⟨part, left, middle⟩ ⟨label, h⟩ ↦ ?_
      rcases Codec.hasPart_of_reads h with ⟨rfl, hpart⟩ | hless
      · exact hparts _ hpart middle
      · exact ih left hless part middle
  exact ⟨fun ⟨codec, depth, stage⟩ ↦ hacc depth codec stage⟩

/-- The readings of a format. -/
def Reading.nested (definitions : Definitions S) : NestedRuns (Reading S) where
  fails := Reading.Fails definitions
  contains := Reading.Contains definitions
  unique := by
    rintro reading failure other ⟨after, h⟩ ⟨after', h'⟩
    rw [h] at h'
    cases h'
    rfl
  outside := Codec.fails_of_reads
  wellFounded := Reading.wellFounded_contains definitions

end WireFormat
