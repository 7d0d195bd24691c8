import WireFormat.Proofs.TaggedProgress

/-!
# The turns of a list that runs to the end

The loop of such a list looks at its bound, then at the end of the source, and then reads an item,
which it refuses if as many bytes are left as before. `Decoding.itemsInTurns` is the loop turn by
turn, with the items it has read so far. All it needs of the item is that no bytes come back
(`Decoding.GivesNothingBack`), as it is with every codec. Then each turn but the last takes a byte,
so that there is one turn more than there are bytes at most, and the loop ends where it must:
at the end of the source or at its bound with the items it has read, elsewhere because the next item
fails or takes nothing (`Decoding.ItemsEnd`). `Codec.exhaustList_progresses` puts this together.
-/

set_option autoImplicit false
set_option relaxedAutoImplicit false

namespace WireFormat

namespace Decoding

variable {α : Type}

/-- Whatever is yielded, no more bytes are left than there were. -/
def GivesNothingBack (decoder : Decoding α) : Prop :=
  ∀ stage value after, decoder stage = .ok value after → stage.stream.remaining ≤ maxWord →
    after.stream.remaining ≤ stage.stream.remaining

/-- The loop with a number of turns left and some items read. Without a turn it has not ended. -/
def itemsInTurns (item : Decoding α) (max : Option Nat) :
    (turns : Nat) → (values : List α) → Stage Source →
    Option (EStateM.Result Failure (Stage Source) (List α))
  | 0, _, _ => none
  | turns + 1, values, stage =>
    if max.any (· ≤ values.length) then some (.ok values stage)
    else if stage.stream.remaining = 0 then some (.ok values stage)
    else
      match item stage with
      | .error failure after => some (.error failure after)
      | .ok value after =>
        if after.stream.remaining = stage.stream.remaining then
          some (.error (.error { kind := .invalid "list" "item consumed no bytes" }) after)
        else itemsInTurns item max turns (values ++ [value]) after

/-- How the loop ends that has read `values` and has come to `middle`: with which result. -/
inductive ItemsEnd (item : Decoding α) (max : Option Nat) (values : List α)
    (middle : Stage Source) : EStateM.Result Failure (Stage Source) (List α) → Prop
  /-- There are no more bytes, or as many items as the bound allows. -/
  | stopped (stop : middle.stream.remaining = 0 ∨ max = some values.length) :
      ItemsEnd item max values middle (.ok values middle)
  /-- The next item fails. -/
  | failed {failure : Failure} {after : Stage Source}
      (goes : ¬ (middle.stream.remaining = 0 ∨ max = some values.length))
      (read : item middle = .error failure after) :
      ItemsEnd item max values middle (.error failure after)
  /-- The next item takes no byte. -/
  | free {value : α} {after : Stage Source}
      (goes : ¬ (middle.stream.remaining = 0 ∨ max = some values.length))
      (read : item middle = .ok value after)
      (idle : after.stream.remaining = middle.stream.remaining) :
      ItemsEnd item max values middle
        (.error (.error { kind := .invalid "list" "item consumed no bytes" }) after)

variable {item : Decoding α} {max : Option Nat} {values front : List α}
  {stage middle : Stage Source} {result : EStateM.Result Failure (Stage Source) (List α)}

/-! ### A run behind some items -/

/-- The result of a run behind some items. -/
def behind (front : List α) :
    EStateM.Result Failure (Stage Source) (List α) → EStateM.Result Failure (Stage Source) (List α)
  | .ok values stage => .ok (front ++ values) stage
  | .error failure stage => .error failure stage

/-- Behind items that were read the list goes on, and so many fewer are allowed. -/
theorem itemsToEnd_of_read (h : EntriesRead item stage values middle)
    (hmax : ∀ bound, max = some bound → values.length ≤ bound) :
    itemsToEnd item max stage =
      behind values (itemsToEnd item (max.map (· - values.length)) middle) := by
  induction h generalizing max with
  | nil stage =>
    have hall : max.map (· - ([] : List α).length) = max := by cases max <;> rfl
    rw [hall]
    cases itemsToEnd item max stage <;> rfl
  | cons hread hprogress hothers ih =>
    rename_i stage middle last value values
    have hgoes : ¬ (stage.stream.remaining = 0 ∨ max = some 0) := by
      rintro (hend | hnone)
      · omega
      · exact Nat.not_succ_le_zero _ (hmax 0 hnone)
    have hless : (max.map (· - 1)).map (· - values.length) =
        max.map (· - (value :: values).length) := by
      rw [Option.map_map]
      refine Option.map_congr fun bound _ ↦ ?_
      rw [Function.comp_apply, List.length_cons]
      omega
    rw [itemsToEnd, if_neg hgoes]
    simp only [hread, if_pos hprogress, ih (le_of_allowance hmax), hless]
    cases itemsToEnd item (max.map (· - (value :: values).length)) last <;> rfl

/-- In the loop, so many turns are gone. -/
theorem itemsInTurns_of_read (h : EntriesRead item stage values middle)
    (hmax : ∀ bound, max = some bound → front.length + values.length ≤ bound) (turns : Nat) :
    itemsInTurns item max (values.length + turns) front stage =
      itemsInTurns item max turns (front ++ values) middle := by
  induction h generalizing front with
  | nil stage => rw [List.length_nil, Nat.zero_add, List.append_nil]
  | cons hread hprogress hothers ih =>
    rename_i stage middle last value values
    have hallowed : max.any (· ≤ front.length) = false := by
      cases max with
      | none => rfl
      | some bound =>
        have hbound := hmax bound rfl
        rw [List.length_cons] at hbound
        simpa using by omega
    have hgoes : stage.stream.remaining ≠ 0 := by omega
    have hrest : ∀ bound, max = some bound →
        (front ++ [value]).length + values.length ≤ bound := by
      intro bound hbound
      have hle := hmax bound hbound
      rw [List.length_cons] at hle
      rw [List.length_append, List.length_singleton]
      omega
    rw [List.length_cons, Nat.succ_add, itemsInTurns, hallowed, if_neg Bool.false_ne_true,
      if_neg hgoes]
    simp only [hread, if_neg hprogress.ne]
    rw [ih hrest, List.append_assoc, List.singleton_append]

/-! ### How the loop ends -/

/-- Some items are read, each of which takes a byte, and then the loop ends. By induction on the
bytes that are left. -/
theorem exists_itemsEnd (hitem : GivesNothingBack item) (max : Option Nat) (front : List α)
    (hfront : ∀ bound, max = some bound → front.length ≤ bound) (stage : Stage Source)
    (hword : stage.stream.remaining ≤ maxWord) :
    ∃ values middle result, EntriesRead item stage values middle ∧
      (∀ bound, max = some bound → (front ++ values).length ≤ bound) ∧
      ItemsEnd item max (front ++ values) middle result := by
  induction hleft : stage.stream.remaining using Nat.strongRecOn generalizing stage front with
  | ind left ih =>
    have hhere {result} (hends : ItemsEnd item max front stage result) :
        ∃ values middle result, EntriesRead item stage values middle ∧
          (∀ bound, max = some bound → (front ++ values).length ≤ bound) ∧
          ItemsEnd item max (front ++ values) middle result := by
      rw [← List.append_nil front] at hfront hends
      exact ⟨[], stage, result, .nil stage, hfront, hends⟩
    by_cases hstop : stage.stream.remaining = 0 ∨ max = some front.length
    · exact hhere (.stopped hstop)
    · cases hread : item stage with
      | error failure after => exact hhere (.failed hstop hread)
      | ok value after =>
        have hle := hitem stage value after hread hword
        rcases hle.lt_or_eq with hless | hidle
        · have hmore : ∀ bound, max = some bound → (front ++ [value]).length ≤ bound := by
            intro bound hbound
            have hlength := hfront bound hbound
            have hne : bound ≠ front.length := fun heq ↦ hstop (Or.inr (heq ▸ hbound))
            rw [List.length_append, List.length_singleton]
            omega
          obtain ⟨values, middle, result, hvalues, hbound, hends⟩ :=
            ih _ (hleft ▸ hless) (front ++ [value]) hmore after (hle.trans hword) rfl
          rw [List.append_assoc, List.singleton_append] at hbound hends
          exact ⟨value :: values, middle, result, .cons hread hless hvalues, hbound, hends⟩
        · exact hhere (.free hstop hread hidle)

/-- What is left of the bound after all items it allows. -/
theorem allowance_eq_zero_iff (hmax : ∀ bound, max = some bound → values.length ≤ bound) :
    max.map (· - values.length) = some 0 ↔ max = some values.length := by
  cases max with
  | none => simp
  | some bound =>
    have hle := hmax bound rfl
    simp only [Option.map_some, Option.some.injEq]
    omega

/-- The list ends as its last turn does. -/
theorem itemsToEnd_of_itemsEnd (h : EntriesRead item stage values middle)
    (hmax : ∀ bound, max = some bound → values.length ≤ bound)
    (hends : ItemsEnd item max values middle result) : itemsToEnd item max stage = result := by
  have hlast := allowance_eq_zero_iff hmax
  rw [itemsToEnd_of_read h hmax, itemsToEnd]
  cases hends with
  | stopped stop =>
    rw [← hlast] at stop
    rw [if_pos stop, behind, List.append_nil]
  | failed goes read =>
    rw [← hlast] at goes
    rw [if_neg goes]
    simp only [read, behind]
  | free goes read idle =>
    rw [← hlast] at goes
    rw [if_neg goes]
    simp only [read, if_neg idle.not_lt, behind]

/-- So does the loop, which has made a turn for every item and one more. -/
theorem itemsInTurns_of_itemsEnd (h : EntriesRead item stage values middle)
    (hmax : ∀ bound, max = some bound → values.length ≤ bound)
    (hends : ItemsEnd item max values middle result) {turns : Nat}
    (hturns : values.length < turns) : itemsInTurns item max turns [] stage = some result := by
  obtain ⟨more, rfl⟩ : ∃ more, turns = values.length + (more + 1) :=
    ⟨turns - values.length - 1, by omega⟩
  have hbound : max.any (· ≤ values.length) = true ↔ max = some values.length := by
    cases max with
    | none => simp
    | some bound =>
      have hle := hmax bound rfl
      simp only [Option.any_some, decide_eq_true_eq, Option.some.injEq]
      omega
  rw [itemsInTurns_of_read h (by simpa using hmax), List.nil_append, itemsInTurns]
  cases hends with
  | stopped stop =>
    by_cases hfull : max = some values.length
    · rw [if_pos (hbound.mpr hfull)]
    · rw [if_neg (mt hbound.mp hfull), if_pos (stop.resolve_right hfull)]
  | failed goes read =>
    obtain ⟨hmore, hallowed⟩ := not_or.mp goes
    rw [if_neg (mt hbound.mp hallowed), if_neg hmore]
    simp only [read]
  | free goes read idle =>
    obtain ⟨hmore, hallowed⟩ := not_or.mp goes
    rw [if_neg (mt hbound.mp hallowed), if_neg hmore]
    simp only [read, if_pos idle]

/-! ### Main statement -/

/-- What the loop of a list does on a source where it ends with `result`. -/
structure RunsToEnd (item : Decoding α) (max : Option Nat) (source : Stage Source)
    (result : EStateM.Result Failure (Stage Source) (List α)) : Prop where
  /-- It has ended after one turn more than there are bytes, at the latest. -/
  turns : ∀ turns, source.stream.remaining < turns →
    itemsInTurns item max turns [] source = some result
  /-- The items it yields were read one after another, and each of them took a byte. -/
  paid : ∀ values last, result = .ok values last → EntriesRead item source values last ∧
    values.length + last.stream.remaining ≤ source.stream.remaining
  /-- It yields items at the end of the source, or as many as the bound allows. -/
  stops : ∀ values last, result = .ok values last →
    (last.stream.remaining = 0 ∨ max = some values.length) ∧
      ∀ bound, max = some bound → values.length ≤ bound
  /-- It fails exactly where there are bytes, fewer items than the bound allows, and a next item
  that fails or takes nothing. -/
  fails : ∀ failure after, result = .error failure after ↔
    ∃ values middle, EntriesRead item source values middle ∧ middle.stream.remaining ≠ 0 ∧
      (∀ bound, max = some bound → values.length < bound) ∧
      (item middle = .error failure after ∨
        failure = .error { kind := .invalid "list" "item consumed no bytes" } ∧
          ∃ value, item middle = .ok value after ∧
            after.stream.remaining = middle.stream.remaining)

/-- There is another turn exactly where there are bytes and fewer items than the bound allows. -/
theorem goes_iff (hmax : ∀ bound, max = some bound → values.length ≤ bound) :
    ¬ (middle.stream.remaining = 0 ∨ max = some values.length) ↔
      middle.stream.remaining ≠ 0 ∧ ∀ bound, max = some bound → values.length < bound := by
  rw [not_or]
  refine and_congr_right fun _ ↦ ⟨fun hne bound hbound ↦ ?_, fun hless hfull ↦ ?_⟩
  · exact (hmax bound hbound).lt_of_ne fun heq ↦ hne (heq ▸ hbound)
  · exact Nat.lt_irrefl _ (hless _ hfull)

theorem runsToEnd_itemsToEnd (hitem : GivesNothingBack item) (max : Option Nat)
    {source : Stage Source} (hword : source.stream.remaining ≤ maxWord) :
    RunsToEnd item max source (itemsToEnd item max source) := by
  obtain ⟨values, middle, result, hread, hmax, hends⟩ :=
    exists_itemsEnd hitem max [] (fun _ _ ↦ Nat.zero_le _) source hword
  rw [List.nil_append] at hmax hends
  have hpaid := length_add_remaining_le hread
  rw [itemsToEnd_of_itemsEnd hread hmax hends]
  refine ⟨fun turns hturns ↦ itemsInTurns_of_itemsEnd hread hmax hends (by omega), ?_, ?_, ?_⟩
  · rintro values last rfl
    cases hends
    exact ⟨hread, hpaid⟩
  · rintro values last rfl
    cases hends with
    | stopped stop => exact ⟨stop, hmax⟩
  · intro failure after
    constructor
    · rintro rfl
      cases hends with
      | failed goes read =>
        obtain ⟨hmore, hallowed⟩ := (goes_iff hmax).mp goes
        exact ⟨values, middle, hread, hmore, hallowed, Or.inl read⟩
      | free goes read idle =>
        obtain ⟨hmore, hallowed⟩ := (goes_iff hmax).mp goes
        exact ⟨values, middle, hread, hmore, hallowed, Or.inr ⟨rfl, _, read, idle⟩⟩
    · rintro ⟨others, stop, hothers, hmore, hallowed, hlast⟩
      have hmax' : ∀ bound, max = some bound → others.length ≤ bound :=
        fun bound hbound ↦ (hallowed bound hbound).le
      have goes := (goes_iff hmax').mpr ⟨hmore, hallowed⟩
      rw [← itemsToEnd_of_itemsEnd hread hmax hends]
      rcases hlast with hfails | ⟨rfl, value, hfree, hidle⟩
      · exact itemsToEnd_of_itemsEnd hothers hmax' (.failed goes hfails)
      · exact itemsToEnd_of_itemsEnd hothers hmax' (.free goes hfree hidle)

end Decoding

open Decoding

variable {S : Signature} {α : Type}

theorem Codec.givesNothingBack_decode (codec : Codec S α) (definitions : Definitions S)
    (depth : Nat) : GivesNothingBack (codec.decode definitions depth) := by
  intro stage value after hrun hword
  rw [Source.remaining_eq_length, Source.remaining_eq_length]
  exact (codec.repeats_decode definitions depth stage value after hrun hword).suffix.length_le

/-- Whatever reads the items, if only no bytes come back: the loop of a list that runs to the end
makes one turn more than there are bytes at most, yields items each of which took a byte, and
stops or fails where it may and nowhere else. Every codec is an item of this kind, so that it holds
of every such list. -/
theorem Codec.exhaustList_progresses {source : Stage Source}
    (hword : source.stream.remaining ≤ maxWord) (max : Option Nat) :
    (∀ item : Decoding α, GivesNothingBack item →
      RunsToEnd item max source (itemsToEnd item max source)) ∧
    ∀ (item : Codec S α) (definitions : Definitions S) (depth : Nat),
      RunsToEnd (item.decode definitions depth) max source
        ((Codec.exhaustList item max).decode definitions depth source) :=
  ⟨fun _ hitem ↦ runsToEnd_itemsToEnd hitem max hword, fun item definitions depth ↦
    runsToEnd_itemsToEnd (item.givesNothingBack_decode definitions depth) max hword⟩

/-- An item of two bytes that yields nothing in front of a zero: the list has one item when it comes
to the zero, where it fails after two turns of five. Of three frames, the second of which is empty,
a list of two leaves the third. -/
theorem Codec.exhaustList_progresses_to_zero :
    let item : Decoding (List UInt8) := fun stage ↦
      if stage.stream.next?.map Prod.fst = some 0 then .ok [] stage
      else Stage.onStream (Source.take 2) stage
    let source : Stage Source := ⟨⟨[[1], [2, 0, 3]]⟩, Cells.fresh⟩
    let after : Stage Source := ⟨⟨[[0, 3]]⟩, Cells.fresh⟩
    let failure : Failure := .error { kind := .invalid "list" "item consumed no bytes" }
    let frame : Codec Signature.empty (List UInt8) :=
      .byteCounted (.leaf (.length .u8)) .unbounded (.leaf .remainingBytes)
    let definitions : Definitions Signature.empty := nofun
    let frames : Stage Source := ⟨⟨[[1, 7], [0, 1, 8]]⟩, Cells.fresh⟩
    let last : Stage Source := ⟨⟨[[1, 8]]⟩, Cells.fresh⟩
    GivesNothingBack item ∧ source.stream.remaining ≤ maxWord ∧
      itemsToEnd item (some 3) source = .error failure after ∧
      itemsInTurns item (some 3) 5 [] source = some (.error failure after) ∧
      (∃ values middle, EntriesRead item source values middle ∧ middle.stream.remaining ≠ 0 ∧
        values.length < 3) ∧
      frames.stream.remaining ≤ maxWord ∧
      (Codec.exhaustList frame (some 2)).decode definitions 0 frames = .ok [[7], []] last ∧
      [[7], []].length + last.stream.remaining ≤ frames.stream.remaining := by
  intro item source after failure frame definitions frames last
  have hitem : GivesNothingBack item := by
    intro stage value rest hrun _
    by_cases hzero : stage.stream.next?.map Prod.fst = some 0
    · simp only [item, if_pos hzero, EStateM.Result.ok.injEq] at hrun
      rw [hrun.2]
    · simp only [item, if_neg hzero] at hrun
      have htake := Source.take_eq_ok (Stage.onStream_eq_ok.mp hrun).1
      rw [Source.remaining_eq_length, Source.remaining_eq_length, htake.2, List.length_append]
      exact Nat.le_add_left _ _
  have hword : source.stream.remaining ≤ maxWord := by decide
  have hword' : frames.stream.remaining ≤ maxWord := by decide
  have hrun : itemsToEnd item (some 3) source = .error failure after := by
    with_unfolding_all rfl
  have hframes : (Codec.exhaustList frame (some 2)).decode definitions 0 frames =
      .ok [[7], []] last := by
    with_unfolding_all rfl
  have hlist := (Codec.exhaustList_progresses (S := Signature.empty) hword (some 3)).1 item hitem
  have hcodec := (Codec.exhaustList_progresses hword' (some 2)).2 frame definitions 0
  obtain ⟨values, middle, hread, hmore, hallowed, -⟩ := (hlist.fails failure after).mp hrun
  refine ⟨hitem, hword, hrun, ?_, ⟨values, middle, hread, hmore, hallowed 3 rfl⟩, hword', hframes,
    (hcodec.paid _ _ hframes).2⟩
  rw [← hrun]
  exact hlist.turns 5 (by decide)

end WireFormat
