import WireFormat.Codec.Decode
import WireFormat.Proofs.Leaves

/-!
# Reading back

A decoder reads the bytes of a value back if it yields the value and leaves what stands behind them,
whatever that is. `Decoding.ReadsBack` says so of one decoder, and with it when the decoder stops
for a size out of range instead. Every way of putting decoders together has a rule here: sequences
(`readsBack_bind`), frames (`readsBack_frame`), counted lists (`readsBack_items`) and lists that run
to the end (`readsBack_itemsToEnd`).
-/

set_option autoImplicit false
set_option relaxedAutoImplicit false

namespace WireFormat

/-- In front of any bytes, or of none inside a frame, `code` is read as `value` where `fits` holds;
elsewhere the decoder stops for a size out of range. -/
def Decoding.ReadsBack {α : Type} (decoder : Decoding α) (framed : Bool) (code : List UInt8)
    (value : α) (fits : Prop) : Prop :=
  ∀ stage behind, stage.stream.bytes = code ++ behind → (framed = true → behind = []) →
    (code ++ behind).length ≤ maxWord →
    (fits ∧ ∃ last, decoder stage = .ok value last ∧ last.stream.bytes = behind) ∨
      (¬ fits ∧ ∃ last, decoder stage = .error .overflow last)

namespace Decoding

variable {α β : Type} {framed : Bool} {code more : List UInt8} {fits fitsNext : Prop}

/-! ### Steps -/

theorem readsBack_congr {decoder : Decoding α} {value : α}
    (h : decoder.ReadsBack framed code value fits) (hfits : fits ↔ fitsNext) :
    decoder.ReadsBack framed code value fitsNext := by
  rwa [← propext hfits]

theorem readsBack_pure (value : α) : ReadsBack (pure value) framed [] value True := by
  intro stage behind hbytes hframed hword
  exact Or.inl ⟨trivial, stage, rfl, hbytes⟩

theorem readsBack_ofExcept {result : Except Error α} {value : α} (h : result = .ok value) :
    ReadsBack (ofExcept result) framed [] value True := by
  subst h
  exact readsBack_pure value

/-- A decoder that stops for a size reads nothing back. -/
theorem readsBack_overflow {value : α} (h : ¬ fits) :
    ReadsBack (throw .overflow) framed code value fits := by
  intro stage behind hbytes hframed hword
  exact Or.inr ⟨h, stage, rfl⟩

/-- What reads its bytes on every source does so on the stream of a stage. -/
theorem readsBack_onStream {action : Action Source α} {value : α}
    (h : ∀ (source : Source) (behind : List UInt8), source.bytes = code ++ behind →
      (framed = true → behind = []) → source.remaining ≤ maxWord →
      ∃ last, action source = .ok value last ∧ last.bytes = behind) :
    ReadsBack (Stage.onStream action) framed code value True := by
  intro stage behind hbytes hframed hword
  have hremaining : stage.stream.remaining ≤ maxWord := by
    rwa [Source.remaining_eq_length, hbytes]
  obtain ⟨last, hrun, hlast⟩ := h stage.stream behind hbytes hframed hremaining
  exact Or.inl ⟨trivial, _, Stage.onStream_of_ok hrun, hlast⟩

/-- One decoder after another reads what they read, the second behind the first. -/
theorem readsBack_bind {first : Decoding α} {next : α → Decoding β} {a : α} {b : β}
    (hfirst : first.ReadsBack false code a fits)
    (hnext : (next a).ReadsBack framed more b fitsNext) :
    ReadsBack (first >>= next) framed (code ++ more) b (fits ∧ fitsNext) := by
  intro stage behind hbytes hframed hword
  rw [List.append_assoc] at hbytes hword
  have hmore : (more ++ behind).length ≤ maxWord := by
    rw [List.length_append] at hword
    omega
  rcases hfirst stage (more ++ behind) hbytes (by simp) hword with
      ⟨hfits, middle, hrun, hmiddle⟩ | ⟨hfits, middle, hrun⟩
  · rw [bind_of_ok hrun]
    rcases hnext middle behind hmiddle hframed hmore with ⟨hfitsNext, hlast⟩ | ⟨hfitsNext, hlast⟩
    · exact Or.inl ⟨⟨hfits, hfitsNext⟩, hlast⟩
    · exact Or.inr ⟨fun hboth ↦ hfitsNext hboth.2, hlast⟩
  · exact Or.inr ⟨fun hboth ↦ hfits hboth.1, middle, bind_of_error hrun next⟩

/-- What is made of the value afterwards takes no bytes. -/
theorem readsBack_convert {decoder : Decoding α} {next : α → Decoding β} {a : α} {b : β}
    (h : decoder.ReadsBack framed code a fits) (hnext : ∀ stage, next a stage = .ok b stage) :
    ReadsBack (decoder >>= next) framed code b fits := by
  intro stage behind hbytes hframed hword
  rcases h stage behind hbytes hframed hword with ⟨hfits, last, hrun, hlast⟩ | ⟨hfits, last, hrun⟩
  · exact Or.inl ⟨hfits, last, (bind_of_ok hrun next).trans (hnext last), hlast⟩
  · exact Or.inr ⟨hfits, last, bind_of_error hrun next⟩

theorem readsBack_inField {name : String} {decoder : Decoding α} {value : α}
    (h : decoder.ReadsBack framed code value fits) :
    ReadsBack (inField name decoder) framed code value fits := by
  intro stage behind hbytes hframed hword
  rcases h stage behind hbytes hframed hword with ⟨hfits, last, hrun, hlast⟩ | ⟨hfits, last, hrun⟩
  · exact Or.inl ⟨hfits, last, inField_eq_ok.mpr hrun, hlast⟩
  · refine Or.inr ⟨hfits, last, ?_⟩
    simp only [inField, hrun, Failure.inField]

/-- What stands behind a length in the range is read once the length is. -/
theorem readsBack_counted {length : Decoding Nat} {range : LengthRange} {next : Nat → Decoding β}
    {n : Nat} {b : β} (hlength : length.ReadsBack false code n fits)
    (hrange : range.contains n = true) (hnext : (next n).ReadsBack framed more b fitsNext) :
    ReadsBack (do let n ← ofExcept (range.check (← length)); next n) framed (code ++ more) b
      (fits ∧ fitsNext) := by
  have hcheck : range.check n = .ok n := LengthRange.check_eq_ok.mpr ⟨hrange, rfl⟩
  have hchecked : ReadsBack (ofExcept (range.check n) >>= next) framed more b (True ∧ fitsNext) :=
    readsBack_bind (readsBack_ofExcept hcheck) hnext
  exact readsBack_bind hlength (readsBack_congr hchecked (and_iff_right trivial))

/-- Read backwards: the length was read, it is in the range, and the rest was read after it. -/
theorem counted_eq_ok {length : Decoding Nat} {range : LengthRange} {next : Nat → Decoding β}
    {stage after : Stage Source} {b : β}
    (h : (do let n ← ofExcept (range.check (← length)); next n) stage = .ok b after) :
    ∃ n middle, length stage = .ok n middle ∧ range.contains n = true ∧
      next n middle = .ok b after := by
  obtain ⟨n, middle, hn, hrun⟩ := bind_eq_ok.mp h
  obtain ⟨checked, last, hcheck, hnext⟩ := bind_eq_ok.mp hrun
  obtain ⟨hchecked, rfl⟩ := ofExcept_eq_ok.mp hcheck
  obtain ⟨hcontains, rfl⟩ := LengthRange.check_eq_ok.mp hchecked
  exact ⟨checked, middle, hn, hcontains, hnext⟩

/-! ### Frames -/

/-- What uses up a frame gives its value; the stream behind the frame is left alone. -/
theorem inFrame_of_ok {frame : List UInt8} {inner : Decoding α} {stage last : Stage Source}
    {value : α} (h : inner ⟨Source.ofBytes frame, stage.cells⟩ = .ok value last)
    (hlast : last.stream.bytes = []) :
    inFrame frame inner stage = .ok value { stage with cells := last.cells } := by
  have hother : Stage.onOther (Source.ofBytes frame) inner stage =
      .ok (value, last.stream) { stage with cells := last.cells } := Stage.onOther_of_ok h
  have hempty : ¬ 0 < last.stream.remaining :=
    Nat.not_lt.mpr (Source.remaining_eq_zero_iff.mpr hlast).le
  rw [inFrame, bind_of_ok hother]
  simp only [if_neg hempty, pure_apply]

/-- What leaves some bytes of a frame unused fails, and drops its value. -/
theorem inFrame_of_extra {frame : List UInt8} {inner : Decoding α} {stage last : Stage Source}
    {value : α} (h : inner ⟨Source.ofBytes frame, stage.cells⟩ = .ok value last)
    (hlast : 0 < last.stream.remaining) :
    inFrame frame inner stage =
      .error (.error { kind := .extraData last.stream.remaining })
        { stage with cells := last.cells } := by
  have hother : Stage.onOther (Source.ofBytes frame) inner stage =
      .ok (value, last.stream) { stage with cells := last.cells } := Stage.onOther_of_ok h
  rw [inFrame, bind_of_ok hother]
  simp only [if_pos hlast, fail_bind_apply]

theorem inFrame_of_error {frame : List UInt8} {inner : Decoding α} {stage last : Stage Source}
    {failure : Failure}
    (h : inner ⟨Source.ofBytes frame, stage.cells⟩ = .error failure last) :
    inFrame frame inner stage = .error failure { stage with cells := last.cells } := by
  have hother : Stage.onOther (Source.ofBytes frame) inner stage =
      .error failure { stage with cells := last.cells } := Stage.onOther_of_error h
  rw [inFrame, bind_of_error hother]

/-- What succeeds on a frame has used it up. -/
theorem inFrame_eq_ok {frame : List UInt8} {inner : Decoding α} {stage after : Stage Source}
    {value : α} (h : inFrame frame inner stage = .ok value after) :
    ∃ last, inner ⟨Source.ofBytes frame, stage.cells⟩ = .ok value last ∧
      last.stream.bytes = [] ∧ after = { stage with cells := last.cells } := by
  obtain ⟨⟨found, rest⟩, middle, hother, hcheck⟩ := bind_eq_ok.mp h
  obtain ⟨hinner, hstream⟩ := Stage.onOther_eq_ok.mp hother
  obtain ⟨hempty, hreturn⟩ := guard_eq_ok.mp hcheck
  obtain ⟨rfl, rfl⟩ := pure_eq_ok.mp hreturn
  refine ⟨⟨rest, middle.cells⟩, hinner, ?_, ?_⟩
  · exact Source.remaining_eq_zero_iff.mp (Nat.eq_zero_of_not_pos hempty)
  · rw [← hstream]

/-- A frame is no longer than what it is cut out of. -/
theorem length_le_of_take {n : Nat} {stage after : Stage Source} {frame : List UInt8}
    (h : Stage.onStream (Source.take n) stage = .ok frame after) :
    frame.length ≤ stage.stream.bytes.length := by
  rw [(Source.take_eq_ok (Stage.onStream_eq_ok.mp h).1).2, List.length_append]
  exact Nat.le_add_right _ _

/-- A frame of its own length is read by what reads its bytes to the end. -/
theorem readsBack_frame {inner : Decoding α} {value : α}
    (h : inner.ReadsBack true code value fits) :
    ReadsBack (Stage.onStream (Source.take code.length) >>= fun frame ↦ inFrame frame inner)
      framed code value fits := by
  intro stage behind hbytes hframed hword
  obtain ⟨source, htake, hsource⟩ := Source.take_of_append hbytes rfl
  rw [bind_of_ok (Stage.onStream_of_ok htake)]
  have hframe : (Source.ofBytes code).bytes = code ++ [] := by
    rw [Source.bytes_ofBytes, List.append_nil]
  have hlength : (code ++ []).length ≤ maxWord := by
    rw [List.append_nil]
    rw [List.length_append] at hword
    omega
  rcases h ⟨Source.ofBytes code, stage.cells⟩ [] hframe (fun _ ↦ rfl) hlength with
      ⟨hfits, last, hrun, hlast⟩ | ⟨hfits, last, hrun⟩
  · exact Or.inl ⟨hfits, ⟨source, last.cells⟩, inFrame_of_ok hrun hlast, hsource⟩
  · exact Or.inr ⟨hfits, ⟨source, last.cells⟩, inFrame_of_error hrun⟩

/-! ### Lists -/

theorem expectItem_of_ne_nil {read requested : Nat} {stage : Stage Source}
    (h : stage.stream.bytes ≠ []) : expectItem read requested stage = .ok () stage := by
  have hremaining : stage.stream.remaining ≠ 0 := mt Source.remaining_eq_zero_iff.mp h
  rw [expectItem, get_bind_apply, if_neg hremaining, pure_apply]

theorem expectItem_of_end {read requested : Nat} {stage : Stage Source}
    (h : stage.stream.remaining = 0) : expectItem read requested stage =
      .error (.error { kind := .endOfStream "items" read requested }) stage := by
  rw [expectItem, get_bind_apply, if_pos h, fail_apply]

theorem expectItem_eq_ok {read requested : Nat} {stage after : Stage Source} {u : Unit}
    (h : expectItem read requested stage = .ok u after) :
    stage.stream.remaining ≠ 0 ∧ after = stage := by
  rw [expectItem, get_bind_apply] at h
  by_cases hend : stage.stream.remaining = 0
  · rw [if_pos hend] at h
    cases h
  · rw [if_neg hend] at h
    cases h
    exact ⟨hend, rfl⟩

variable {item : Decoding α} {wire : α → Option (List UInt8)} {fitsItem : α → Prop}

/-- A list of a known length has another item where it does not look or sees a byte. -/
theorem items_succ {sized : Bool} {requested left : Nat} {stage : Stage Source}
    (h : sized = true → stage.stream.remaining ≠ 0) :
    items item sized requested (left + 1) stage = (do
      let value ← item
      let values ← items item sized requested left
      return value :: values : Decoding (List α)) stage := by
  rw [items]
  cases sized with
  | false => rfl
  | true =>
    have hbytes : stage.stream.bytes ≠ [] := mt Source.remaining_eq_zero_iff.mpr (h rfl)
    exact bind_of_ok (a := ()) (expectItem_of_ne_nil hbytes) _

/-- Where it looks, the end of the source is its end. -/
theorem items_of_end {requested left : Nat} {stage : Stage Source}
    (h : stage.stream.remaining = 0) : items item true requested (left + 1) stage =
      .error (.error { kind := .endOfStream "items" (requested - (left + 1)) requested }) stage :=
  bind_of_error (expectItem_of_end h) _

/-- Behind the look at the end of the source the items come one after another. -/
theorem items_succ_eq_ok {sized : Bool} {requested left : Nat} {stage after : Stage Source}
    {values : List α} (h : items item sized requested (left + 1) stage = .ok values after) :
    ∃ value middle others, item stage = .ok value middle ∧
      items item sized requested left middle = .ok others after ∧ values = value :: others := by
  have hboth {stage : Stage Source} (h : (do
      let value ← item
      let values ← items item sized requested left
      return value :: values : Decoding (List α)) stage = .ok values after) :
      ∃ value middle others, item stage = .ok value middle ∧
        items item sized requested left middle = .ok others after ∧ values = value :: others := by
    obtain ⟨value, middle, hvalue, hrun⟩ := bind_eq_ok.mp h
    obtain ⟨others, last, hothers, hreturn⟩ := bind_eq_ok.mp hrun
    cases hreturn
    exact ⟨value, middle, others, hvalue, hothers, rfl⟩
  rw [items] at h
  cases sized with
  | false => exact hboth h
  | true =>
    obtain ⟨_, middle, hlook, hrun⟩ := bind_eq_ok.mp h
    obtain ⟨-, rfl⟩ := expectItem_eq_ok hlook
    exact hboth hrun

/-- Counted items are read back one after another. The look at the end of the source does no harm
where every item takes a byte. -/
theorem readsBack_items {sized : Bool} {values : List α}
    (hitem : ∀ value ∈ values, ∀ code, wire value = some code →
      item.ReadsBack false code value (fitsItem value))
    (hsized : sized = true → ∀ value ∈ values, ∀ code, wire value = some code → code ≠ [])
    (hcode : wireAll wire values = some code) (requested : Nat) :
    ReadsBack (items item sized requested values.length) framed code values
      (∀ value ∈ values, fitsItem value) := by
  induction values generalizing code with
  | nil =>
    cases hcode
    exact readsBack_congr (readsBack_pure []) (by simp)
  | cons value values ih =>
    obtain ⟨first, others, hfirst, hothers, rfl⟩ := wireAll_cons_eq_some.mp hcode
    obtain ⟨hvalue, hbehind⟩ := List.forall_mem_cons.mp hitem
    have hvalues := ih hbehind (fun htrue ↦ (List.forall_mem_cons.mp (hsized htrue)).2) hothers
    have hlist : ReadsBack (do return value :: (← items item sized requested values.length))
        framed others (value :: values) (∀ value ∈ values, fitsItem value) :=
      readsBack_convert hvalues fun _ ↦ rfl
    intro stage behind hbytes hframed hword
    have hmore : sized = true → stage.stream.remaining ≠ 0 := by
      intro hsized'
      refine mt Source.remaining_eq_zero_iff.mp ?_
      rw [hbytes]
      simp [hsized hsized' value List.mem_cons_self first hfirst]
    have hboth : ReadsBack
        (do return (← item) :: (← items item sized requested values.length)) framed
        (first ++ others) (value :: values)
        (fitsItem value ∧ ∀ value ∈ values, fitsItem value) :=
      readsBack_bind (hvalue first hfirst) hlist
    have hrun := readsBack_congr hboth List.forall_mem_cons.symm stage behind hbytes hframed hword
    rw [List.length_cons, items_succ hmore]
    exact hrun

/-- After one item, one less is allowed. -/
theorem le_of_allowance {allowance : Option Nat} {n : Nat}
    (h : ∀ max, allowance = some max → n + 1 ≤ max) :
    ∀ max, allowance.map (· - 1) = some max → n ≤ max := by
  intro max hallowance
  obtain ⟨bound, hbound, rfl⟩ := Option.map_eq_some_iff.mp hallowance
  exact Nat.le_sub_of_add_le (h bound hbound)

/-- A list that runs to the end either stops or has another item, which takes bytes. -/
theorem itemsToEnd_eq_ok {allowance : Option Nat} {stage after : Stage Source} {values : List α}
    (h : itemsToEnd item allowance stage = .ok values after) :
    (values = [] ∧ after = stage ∧ (stage.stream.remaining = 0 ∨ allowance = some 0)) ∨
      ∃ value middle others, allowance ≠ some 0 ∧ item stage = .ok value middle ∧
        middle.stream.remaining < stage.stream.remaining ∧
        itemsToEnd item (allowance.map (· - 1)) middle = .ok others after ∧
        values = value :: others := by
  rw [itemsToEnd] at h
  by_cases hstop : stage.stream.remaining = 0 ∨ allowance = some 0
  · rw [if_pos hstop] at h
    cases h
    exact Or.inl ⟨rfl, rfl, hstop⟩
  · rw [if_neg hstop] at h
    cases hitem : item stage with
    | error failure middle => simp [hitem] at h
    | ok value middle =>
      by_cases hprogress : middle.stream.remaining < stage.stream.remaining
      · simp only [hitem, if_pos hprogress] at h
        cases hothers : itemsToEnd item (allowance.map (· - 1)) middle with
        | error failure last => simp [hothers] at h
        | ok others last =>
          simp only [hothers, EStateM.Result.ok.injEq] at h
          obtain ⟨rfl, rfl⟩ := h
          exact Or.inr ⟨value, middle, others, fun hnone ↦ hstop (Or.inr hnone), rfl, hprogress,
            hothers, rfl⟩
      · simp [hitem, if_neg hprogress] at h

/-- A list that runs to the end of its frame is read back where every item takes a byte. -/
theorem readsBack_itemsToEnd {allowance : Option Nat} {values : List α}
    (hitem : ∀ value ∈ values, ∀ code, wire value = some code →
      item.ReadsBack false code value (fitsItem value))
    (hnonempty : ∀ value ∈ values, ∀ code, wire value = some code → code ≠ [])
    (hmax : ∀ max, allowance = some max → values.length ≤ max)
    (hcode : wireAll wire values = some code) :
    ReadsBack (itemsToEnd item allowance) true code values
      (∀ value ∈ values, fitsItem value) := by
  induction values generalizing code allowance with
  | nil =>
    cases hcode
    intro stage behind hbytes hframed hword
    have hempty : stage.stream.remaining = 0 := by
      rw [Source.remaining_eq_zero_iff, hbytes, hframed rfl, List.append_nil]
    refine Or.inl ⟨by simp, stage, ?_, hbytes⟩
    rw [itemsToEnd, if_pos (Or.inl hempty)]
  | cons value values ih =>
    obtain ⟨first, others, hfirst, hothers, rfl⟩ := wireAll_cons_eq_some.mp hcode
    obtain ⟨hvalue, hitems⟩ := List.forall_mem_cons.mp hitem
    obtain ⟨hfirstNonempty, hnonempties⟩ := List.forall_mem_cons.mp hnonempty
    intro stage behind hbytes hframed hword
    rw [List.append_assoc] at hbytes hword
    have hpositive : 0 < first.length := List.length_pos_iff.mpr (hfirstNonempty first hfirst)
    have hgoes : ¬ (stage.stream.remaining = 0 ∨ allowance = some 0) := by
      rintro (hempty | hnone)
      · rw [Source.remaining_eq_length, hbytes, List.length_append] at hempty
        omega
      · exact Nat.not_succ_le_zero _ (hmax 0 hnone)
    rw [itemsToEnd, if_neg hgoes]
    rcases hvalue first hfirst stage (others ++ behind) hbytes (by simp) hword with
        ⟨hfits, middle, hrun, hmiddle⟩ | ⟨hfits, middle, hrun⟩
    · have hprogress : middle.stream.remaining < stage.stream.remaining := by
        rw [Source.remaining_eq_length, Source.remaining_eq_length, hmiddle, hbytes]
        simp only [List.length_append]
        omega
      have hword' : (others ++ behind).length ≤ maxWord := by
        rw [List.length_append] at hword
        omega
      simp only [hrun, if_pos hprogress]
      have hreads := ih hitems hnonempties (le_of_allowance hmax) hothers middle behind hmiddle
        hframed hword'
      rcases hreads with ⟨hfitsRest, last, hrest, hlast⟩ | ⟨hfitsRest, last, hrest⟩
      · refine Or.inl ⟨List.forall_mem_cons.mpr ⟨hfits, hfitsRest⟩, last, ?_, hlast⟩
        simp only [hrest]
      · refine Or.inr ⟨fun hall ↦ hfitsRest (List.forall_mem_cons.mp hall).2, last, ?_⟩
        simp only [hrest]
    · refine Or.inr ⟨fun hall ↦ hfits (List.forall_mem_cons.mp hall).1, middle, ?_⟩
      simp only [hrun]

/-! ### Entries -/

section Entries

variable {K V R : Type} {entry : Decoding (K × V)} {add : R → K → V → R} {record result : R}
  {allowance : Option Nat} {stage after : Stage Source} {tag : K} {value : V}

/-- Reading entries stops at the end of the source and where there are enough of them. -/
theorem entriesToEnd_of_end (h : stage.stream.remaining = 0 ∨ allowance = some 0) :
    entriesToEnd entry add allowance record stage = .ok record stage := by
  rw [entriesToEnd.eq_def]
  by_cases hend : stage.stream.remaining = 0
  · rw [if_pos hend]
  · obtain rfl := h.resolve_left hend
    rw [if_neg hend]

theorem entriesToEnd_of_error (hgoes : ¬ (stage.stream.remaining = 0 ∨ allowance = some 0))
    {failure : Failure} (hentry : entry stage = .error failure after) :
    entriesToEnd entry add allowance record stage = .error failure after := by
  obtain ⟨hend, hallowed⟩ := not_or.mp hgoes
  rw [entriesToEnd.eq_def, if_neg hend]
  match allowance, hallowed with
  | none, _ => simp only [hentry]
  | some (left + 1), _ => simp only [hentry]
  | some 0, hallowed => exact absurd rfl hallowed

/-- An entry is added, and the others are read. Only without a bound does it matter whether the
entry took a byte. -/
theorem entriesToEnd_of_entry (hgoes : ¬ (stage.stream.remaining = 0 ∨ allowance = some 0))
    (hentry : entry stage = .ok (tag, value) after)
    (hprogress : allowance = none → after.stream.remaining < stage.stream.remaining) :
    entriesToEnd entry add allowance record stage =
      entriesToEnd entry add (allowance.map (· - 1)) (add record tag value) after := by
  obtain ⟨hend, hallowed⟩ := not_or.mp hgoes
  rw [entriesToEnd.eq_def, if_neg hend]
  match allowance, hallowed, hprogress with
  | none, _, hprogress => simp only [hentry, if_pos (hprogress rfl), Option.map_none]
  | some (left + 1), _, _ =>
    simp only [hentry, Option.map_some, Nat.add_sub_cancel]
  | some 0, hallowed, _ => exact absurd rfl hallowed

theorem entriesToEnd_of_free (hend : stage.stream.remaining ≠ 0)
    (hentry : entry stage = .ok (tag, value) after)
    (hfree : ¬ after.stream.remaining < stage.stream.remaining) :
    entriesToEnd entry add none record stage = .error .endless after := by
  rw [entriesToEnd.eq_def, if_neg hend]
  simp only [hentry, if_neg hfree]

/-- Read backwards: either there was no entry to read, or one was added and the others read. -/
theorem entriesToEnd_eq_ok
    (h : entriesToEnd entry add allowance record stage = .ok result after) :
    (record = result ∧ stage = after ∧ (stage.stream.remaining = 0 ∨ allowance = some 0)) ∨
      ∃ tag value middle, ¬ (stage.stream.remaining = 0 ∨ allowance = some 0) ∧
        entry stage = .ok (tag, value) middle ∧
        (allowance = none → middle.stream.remaining < stage.stream.remaining) ∧
        entriesToEnd entry add (allowance.map (· - 1)) (add record tag value) middle =
          .ok result after := by
  by_cases hstop : stage.stream.remaining = 0 ∨ allowance = some 0
  · rw [entriesToEnd_of_end hstop] at h
    obtain ⟨rfl, rfl⟩ : record = result ∧ stage = after := by simpa using h
    exact Or.inl ⟨rfl, rfl, hstop⟩
  · cases hentry : entry stage with
    | error failure middle =>
      rw [entriesToEnd_of_error hstop hentry] at h
      cases h
    | ok e middle =>
      obtain ⟨tag, value⟩ := e
      by_cases hprogress : allowance = none → middle.stream.remaining < stage.stream.remaining
      · rw [entriesToEnd_of_entry hstop hentry hprogress] at h
        exact Or.inr ⟨tag, value, middle, hstop, rfl, hprogress, h⟩
      · obtain ⟨rfl, hfree⟩ := Classical.not_imp.mp hprogress
        rw [entriesToEnd_of_free (not_or.mp hstop).1 hentry hfree] at h
        cases h

end Entries

end Decoding

/-! ### Lists of a known length -/

section FixedLists

variable {S : Signature} {references : (name : S.Name) → Decoding (S.Value name)} {α : Type}
  {item : Codec S α} {count : Nat}

/-- Such a list asks for the size of its items before it reads them. -/
theorem Codec.decodeWith_fixedList :
    (Codec.fixedList item count).decodeWith references =
      if item.size = .overflow then throw .overflow
      else Decoding.items (item.decodeWith references) item.size.isPositive count count := by
  rw [Codec.decodeWith]
  cases item.size <;> rfl

/-- What it yields are its items. -/
theorem Codec.items_of_fixedList {stage after : Stage Source} {values : List α}
    (h : (Codec.fixedList item count).decodeWith references stage = .ok values after) :
    Decoding.items (item.decodeWith references) item.size.isPositive count count stage =
      .ok values after := by
  rw [Codec.decodeWith_fixedList] at h
  split at h
  · cases h
  · exact h

end FixedLists

end WireFormat
