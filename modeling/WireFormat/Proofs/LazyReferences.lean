import WireFormat.Codec.Whole
import WireFormat.Proofs.Hereditary
import WireFormat.Proofs.ReadBack

/-!
# References are resolved once

A reference is used when it is written, read or resolved. A use calls the supplier until a call has
yielded the definition; from then on the reference stays as it is, whatever runs, so that uses of
the same reference inside its own definition change nothing (`Stage.Keeps`,
`Codec.keeps_encode`, `Codec.keeps_decode`). The state of a reference therefore follows from the
number of its uses alone (`LazyCell.stateAfter`, `LazyCell.perform_state`), and so does what the
next use does: it is refused without a look at the stream, or it is what the definition itself would
do. `LazyCell.resolves_once` puts both together.
-/

set_option autoImplicit false
set_option relaxedAutoImplicit false

namespace WireFormat

/-! ### What is resolved stays as it is -/

namespace Stage

variable {σ τ α β : Type} {id : Nat}

/-- The references as a run leaves them. -/
def cellsLeft : EStateM.Result Failure (Stage σ) α → Cells
  | .ok _ stage => stage.cells
  | .error _ stage => stage.cells

/-- However it ends, the action leaves the reference as it is if the reference is resolved. -/
def Keeps (id : Nat) (action : Action (Stage σ) α) : Prop :=
  ∀ stage : Stage σ, (stage.cells id).resolved = true →
    cellsLeft (action stage) id = stage.cells id

theorem keeps_ofExcept (result : Except Error α) :
    Keeps id (ofExcept result : Action (Stage σ) α) := by
  intro stage _
  cases result <;> rfl

theorem keeps_throw (failure : Failure) : Keeps id (throw failure : Action (Stage σ) α) :=
  fun _ _ ↦ rfl

/-- What works on the stream alone leaves all references as they are. -/
theorem keeps_onStream (action : Action σ α) : Keeps id (onStream action) := by
  intro stage _
  unfold onStream
  cases action stage.stream <;> rfl

/-- The second action finds the reference as resolved as the first did. -/
theorem keeps_bind {action : Action (Stage σ) α} {f : α → Action (Stage σ) β}
    (haction : Keeps id action) (hf : ∀ a, Keeps id (f a)) : Keeps id (action >>= f) := by
  intro stage hresolved
  have hfirst := haction stage hresolved
  cases hrun : action stage with
  | error failure middle =>
    rw [hrun] at hfirst
    rw [bind_of_error hrun]
    exact hfirst
  | ok a middle =>
    rw [hrun] at hfirst
    have hmiddle : middle.cells id = stage.cells id := hfirst
    rw [bind_of_ok hrun]
    exact (hf a middle (by rwa [hmiddle])).trans hmiddle

theorem keeps_inField (name : String) {action : Action (Stage σ) α} (h : Keeps id action) :
    Keeps id (inField name action) := by
  intro stage hresolved
  have hrun := h stage hresolved
  unfold inField
  cases haction : action stage with
  | ok a after =>
    rw [haction] at hrun
    exact hrun
  | error failure after =>
    rw [haction] at hrun
    exact hrun

/-- References are shared with what runs on another stream. -/
theorem keeps_onOther (other : τ) {action : Action (Stage τ) α} (h : Keeps id action) :
    Keeps id (onOther other action : Action (Stage σ) (α × τ)) := by
  intro stage hresolved
  have hrun := h ⟨other, stage.cells⟩ hresolved
  unfold onOther
  cases haction : action ⟨other, stage.cells⟩ with
  | ok a after =>
    rw [haction] at hrun
    exact hrun
  | error failure after =>
    rw [haction] at hrun
    exact hrun

/-- A use changes its own reference at most, and only one that is not resolved. -/
theorem keeps_use (cell : LazyCell) :
    Keeps id (onCells (Cells.use cell) : Action (Stage σ) Unit) := by
  intro stage hresolved
  by_cases hsame : cell.id = id
  · rw [← hsame] at hresolved ⊢
    simp only [onCells, Cells.use, hresolved, if_true, cellsLeft]
  · have hother (state : CellState) : stage.cells.set cell.id state id = stage.cells id :=
      if_neg (Ne.symm hsame)
    simp only [onCells, Cells.use]
    split_ifs
    · rfl
    · exact hother _
    · exact hother _

end Stage

open Stage

namespace Decoding

variable {α : Type} {id : Nat}

theorem keeps_inFrame (frame : List UInt8) {inner : Decoding α} (h : Keeps id inner) :
    Keeps id (inFrame frame inner) := by
  refine keeps_bind (keeps_onOther _ h) fun (value, rest) stage _ ↦ ?_
  dsimp only
  split <;> rfl

theorem keeps_expectItem (read requested : Nat) : Keeps id (expectItem read requested) := by
  intro stage _
  rw [expectItem, get_bind_apply]
  split <;> rfl

/-- By induction on the bytes that are left. -/
theorem keeps_itemsToEnd {item : Decoding α} (allowance : Option Nat) (h : Keeps id item) :
    Keeps id (itemsToEnd item allowance) := by
  intro stage hresolved
  induction hleft : stage.stream.remaining using Nat.strongRecOn generalizing stage allowance with
  | ind left ih =>
    have hitem := h stage hresolved
    rw [itemsToEnd]
    by_cases hstop : stage.stream.remaining = 0 ∨ allowance = some 0
    · rw [if_pos hstop]
      rfl
    · rw [if_neg hstop]
      cases hrun : item stage with
      | error failure after =>
        rw [hrun] at hitem
        exact hitem
      | ok value after =>
        rw [hrun] at hitem
        have hafter : after.cells id = stage.cells id := hitem
        dsimp only
        by_cases hless : after.stream.remaining < stage.stream.remaining
        · have hothers := ih _ (hleft ▸ hless) (allowance.map (· - 1)) after (by rwa [hafter]) rfl
          rw [if_pos hless]
          cases hrest : itemsToEnd item (allowance.map (· - 1)) after with
          | error failure last =>
            rw [hrest] at hothers
            exact hothers.trans hafter
          | ok values last =>
            rw [hrest] at hothers
            exact hothers.trans hafter
        · rw [if_neg hless]
          exact hafter

/-- By induction on the entries that are allowed or, without a bound, on the bytes. -/
theorem keeps_entriesToEnd {K V R : Type} {entry : Decoding (K × V)} (add : R → K → V → R)
    (allowance : Option Nat) (record : R) (h : Keeps id entry) :
    Keeps id (entriesToEnd entry add allowance record) := by
  intro stage hresolved
  induction hleft : allowance.getD stage.stream.remaining using Nat.strongRecOn
    generalizing stage allowance record with
  | ind left ih =>
    have hentry := h stage hresolved
    by_cases hstop : stage.stream.remaining = 0 ∨ allowance = some 0
    · rw [entriesToEnd_of_end hstop]
      rfl
    · cases hrun : entry stage with
      | error failure after =>
        rw [hrun] at hentry
        rw [entriesToEnd_of_error hstop hrun]
        exact hentry
      | ok e after =>
        rw [hrun] at hentry
        have hafter : after.cells id = stage.cells id := hentry
        by_cases hgoes : allowance = none → after.stream.remaining < stage.stream.remaining
        · rw [entriesToEnd_of_entry hstop hrun hgoes]
          refine (ih _ ?_ _ _ after (by rwa [hafter]) rfl).trans hafter
          rw [← hleft]
          cases allowance with
          | none => exact hgoes rfl
          | some bound =>
            have hpositive : bound ≠ 0 := fun hzero ↦ hstop (Or.inr (congrArg some hzero))
            exact Nat.sub_one_lt hpositive
        · obtain ⟨rfl, hfree⟩ := Classical.not_imp.mp hgoes
          rw [entriesToEnd_of_free (not_or.mp hstop).1 hrun hfree]
          exact hafter

theorem hereditary_keeps (id : Nat) : Decoding.Hereditary (Keeps id) where
  ofExcept := keeps_ofExcept
  overflow := keeps_throw _
  tooDeep := keeps_throw _
  bind := keeps_bind
  inField := keeps_inField
  leaf _ := keeps_onStream _
  frame _ _ h := keeps_bind (keeps_onStream _) fun frame ↦ keeps_inFrame frame h
  expectItem := keeps_expectItem
  itemsToEnd := keeps_itemsToEnd
  entriesToEnd := keeps_entriesToEnd
  use := keeps_use

end Decoding

theorem Encoding.hereditary_keeps (id : Nat) : Encoding.Hereditary (Keeps id) where
  ofExcept := keeps_ofExcept
  tooDeep := keeps_throw _
  bind := keeps_bind
  inField := keeps_inField
  leaf _ _ := keeps_onStream _
  put _ := keeps_onStream _
  scratch := keeps_onOther _
  use := keeps_use

variable {S : Signature}

/-- No encoder moves a reference that is resolved, also not one that the codec refers to. -/
theorem Codec.keeps_encode {α : Type} (codec : Codec S α) (definitions : Definitions S)
    (depth : Nat) (value : α) (id : Nat) : Keeps id (codec.encode definitions depth value) :=
  codec.hereditary_encode (Encoding.hereditary_keeps id) definitions depth value

theorem Codec.keeps_decode {α : Type} (codec : Codec S α) (definitions : Definitions S)
    (depth : Nat) (id : Nat) : Keeps id (codec.decode definitions depth) :=
  codec.hereditary_decode (Decoding.hereditary_keeps id) definitions depth

/-! ### The state after some uses -/

/-- The state of a reference after one more use. -/
def CellState.use (supply : Nat → Bool) (state : CellState) : CellState :=
  if state.resolved then state else ⟨state.calls + 1, supply state.calls⟩

namespace LazyCell

variable {cell : LazyCell}

/-- The state after some uses of a reference that was not used before. -/
def stateAfter (cell : LazyCell) : Nat → CellState
  | 0 => {}
  | uses + 1 => (cell.stateAfter uses).use cell.supply

/-- While no call has yielded the definition, every use is a call. -/
theorem stateAfter_of_le {uses : Nat} (h : ∀ call < uses, cell.supply call = false) :
    cell.stateAfter uses = ⟨uses, false⟩ := by
  induction uses with
  | zero => rfl
  | succ uses ih =>
    have hlast : cell.supply uses = false := h uses uses.lt_succ_self
    rw [stateAfter, ih fun call hcall ↦ h call (Nat.lt_succ_of_lt hcall)]
    simp [CellState.use, hlast]

/-- The call that yields the definition is the last one. -/
theorem stateAfter_of_lt {k uses : Nat} (hfails : ∀ call < k, cell.supply call = false)
    (hyields : cell.supply k = true) (h : k < uses) : cell.stateAfter uses = ⟨k + 1, true⟩ := by
  induction uses, h using Nat.le_induction with
  | base => simp [stateAfter, stateAfter_of_le hfails, CellState.use, hyields]
  | succ uses _ ih => simp [stateAfter, ih, CellState.use]

end LazyCell

/-! ### Operations -/

namespace LazyCell

/-- What needs the definition that a reference stands for. Where the definition runs, there are
`depth` levels of references behind it. -/
inductive Use (α : Type) where
  | encode (value : α) (sink : Sink) (depth : Nat)
  | decode (source : Source) (depth : Nat)
  | resolve

/-- What may be done with a reference to a definition for values of a type. -/
inductive Operation (α : Type) where
  | use (use : Use α)
  | isResolved
  | fixedSize

/-- What an operation yields, and what it leaves. -/
inductive Outcome (S : Signature) (α : Type) where
  | encoded (result : EStateM.Result Failure (Stage Sink) Written)
  | decoded (result : EStateM.Result Failure (Stage Source) α)
  | supplied (result : Except Failure (Codec S α)) (cells : Cells)
  | answered (yes : Bool) (cells : Cells)
  | measured (size : Size) (cells : Cells)

/-- The references that an operation leaves. -/
def Outcome.cells {α : Type} : Outcome S α → Cells
  | .encoded result => cellsLeft result
  | .decoded result => cellsLeft result
  | .supplied _ cells => cells
  | .answered _ cells => cells
  | .measured _ cells => cells

namespace Use

variable {name : S.Name}

/-- What the use does. -/
def run (definitions : Definitions S) (cell : LazyCell) (name : S.Name) :
    Use (S.Value name) → Cells → Outcome S (S.Value name)
  | .encode value sink depth, cells =>
    .encoded ((Codec.lazy cell name).encode definitions (depth + 1) value ⟨sink, cells⟩)
  | .decode source depth, cells =>
    .decoded ((Codec.lazy cell name).decode definitions (depth + 1) ⟨source, cells⟩)
  | .resolve, cells =>
    let (result, after) := cell.resolve (definitions name) cells
    .supplied result after

/-- What the use would do with the definition itself in place of the reference. -/
def direct (definitions : Definitions S) (name : S.Name) :
    Use (S.Value name) → Cells → Outcome S (S.Value name)
  | .encode value sink depth, cells =>
    .encoded ((definitions name).encode definitions depth value ⟨sink, cells⟩)
  | .decode source depth, cells =>
    .decoded ((definitions name).decode definitions depth ⟨source, cells⟩)
  | .resolve, cells => .supplied (.ok (definitions name)) cells

/-- The use fails for want of the definition, with its stream untouched. -/
def refused {α : Type} : Use α → Cells → Outcome S α
  | .encode _ sink _, cells =>
    .encoded (.error (.error { kind := .missing "lazy codec supplier" }) ⟨sink, cells⟩)
  | .decode source _, cells =>
    .decoded (.error (.error { kind := .missing "lazy codec supplier" }) ⟨source, cells⟩)
  | .resolve, cells =>
    .supplied (.error (.error { kind := .missing "lazy codec supplier" })) cells

end Use

namespace Operation

/-- The operation needs the definition. -/
def isUse {α : Type} : Operation α → Bool
  | .use _ => true
  | .isResolved | .fixedSize => false

/-- What the operation does. -/
def run (definitions : Definitions S) (cell : LazyCell) (name : S.Name) :
    Operation (S.Value name) → Cells → Outcome S (S.Value name)
  | .use once, cells => once.run definitions cell name cells
  | .isResolved, cells => .answered (cell.isResolved cells) cells
  | .fixedSize, cells => .measured (Codec.lazy (S := S) cell name).size cells

end Operation

end LazyCell

namespace Cells

theorem set_same (cells : Cells) (id : Nat) : cells.set id (cells id) = cells := by
  funext other
  by_cases h : other = id
  · simp [set, h]
  · simp [set, h]

@[simp] theorem set_apply (cells : Cells) (id : Nat) (state : CellState) :
    cells.set id state id = state := if_pos rfl

/-- A use sets the state of its reference, and fails unless the reference is resolved then. -/
theorem use_apply (cell : LazyCell) (cells : Cells) :
    use cell cells =
      if ((cells cell.id).use cell.supply).resolved then
        .ok () (cells.set cell.id ((cells cell.id).use cell.supply))
      else
        .error (.error { kind := .missing "lazy codec supplier" })
          (cells.set cell.id ((cells cell.id).use cell.supply)) := by
  unfold use CellState.use
  by_cases hresolved : (cells cell.id).resolved = true
  · simp [hresolved, set_same]
  · by_cases hsupply : cell.supply (cells cell.id).calls = true <;> simp [hresolved, hsupply]

end Cells

namespace LazyCell

variable {cell : LazyCell} {name : S.Name} {definitions : Definitions S}

/-- What stands behind a use runs once the reference is resolved. -/
theorem onCells_use_bind {σ α : Type} (action : Action (Stage σ) α) (stream : σ) (cells : Cells) :
    (onCells (Cells.use cell) >>= fun _ ↦ action) ⟨stream, cells⟩ =
      if ((cells cell.id).use cell.supply).resolved then
        action ⟨stream, cells.set cell.id ((cells cell.id).use cell.supply)⟩
      else
        .error (.error { kind := .missing "lazy codec supplier" })
          ⟨stream, cells.set cell.id ((cells cell.id).use cell.supply)⟩ := by
  have huse := Cells.use_apply cell cells
  split_ifs at huse ⊢ with hresolved
  · exact bind_of_ok (a := ()) (by simp only [onCells, huse]) _
  · exact bind_of_error (by simp only [onCells, huse]) _

namespace Use

/-- A use goes by the state of its reference after it. -/
theorem run_eq (use : Use (S.Value name)) (cells : Cells) :
    use.run definitions cell name cells =
      if ((cells cell.id).use cell.supply).resolved then
        use.direct definitions name (cells.set cell.id ((cells cell.id).use cell.supply))
      else use.refused (cells.set cell.id ((cells cell.id).use cell.supply)) := by
  cases use with
  | encode value sink depth =>
    rw [run, Codec.encode, Codec.encodeWith, onCells_use_bind]
    split_ifs <;> rfl
  | decode source depth =>
    rw [run, Codec.decode, Codec.decodeWith, onCells_use_bind]
    split_ifs <;> rfl
  | resolve =>
    rw [run, LazyCell.resolve, Cells.use_apply]
    split_ifs <;> rfl

/-- The definition leaves the reference as it is, though it may use it. -/
theorem cells_direct {use : Use (S.Value name)} {cells : Cells}
    (hresolved : (cells cell.id).resolved = true) :
    (use.direct definitions name cells).cells cell.id = cells cell.id := by
  cases use with
  | encode value sink depth =>
    exact (definitions name).keeps_encode definitions depth value cell.id ⟨sink, cells⟩ hresolved
  | decode source depth =>
    exact (definitions name).keeps_decode definitions depth cell.id ⟨source, cells⟩ hresolved
  | resolve => rfl

theorem cells_refused (use : Use (S.Value name)) (cells : Cells) :
    (use.refused cells : Outcome S _).cells = cells := by
  cases use <;> rfl

/-- However much runs inside it, a use moves the reference by one use. -/
theorem cells_run (use : Use (S.Value name)) (cells : Cells) :
    (use.run definitions cell name cells).cells cell.id =
      (cells cell.id).use cell.supply := by
  rw [run_eq]
  split_ifs with hresolved
  · rw [cells_direct (by rwa [Cells.set_apply]), Cells.set_apply]
  · rw [cells_refused, Cells.set_apply]

/-- A use of a reference whose next call of the supplier yields nothing. -/
theorem run_of_refused {use : Use (S.Value name)} {cells : Cells} {uses : Nat}
    (hcell : cells cell.id = cell.stateAfter uses)
    (hfails : ∀ call < uses + 1, cell.supply call = false) :
    use.run definitions cell name cells = use.refused (cells.set cell.id ⟨uses + 1, false⟩) := by
  have hnext : (cells cell.id).use cell.supply = ⟨uses + 1, false⟩ := by
    rw [hcell]
    exact stateAfter_of_le hfails
  rw [run_eq, hnext]
  exact if_neg Bool.false_ne_true

/-- A use behind the call that yields the definition, or that makes this call. -/
theorem run_of_supplied {use : Use (S.Value name)} {cells : Cells} {k uses : Nat}
    (hcell : cells cell.id = cell.stateAfter uses)
    (hfails : ∀ call < k, cell.supply call = false) (hyields : cell.supply k = true)
    (hlate : k ≤ uses) :
    use.run definitions cell name cells =
      use.direct definitions name (cells.set cell.id ⟨k + 1, true⟩) := by
  have hnext : (cells cell.id).use cell.supply = ⟨k + 1, true⟩ := by
    rw [hcell]
    exact stateAfter_of_lt hfails hyields (Nat.lt_succ_of_le hlate)
  rw [run_eq, hnext]
  exact if_pos rfl

end Use

/-- Asking changes nothing. -/
theorem Operation.cells_run_of_not_isUse {operation : Operation (S.Value name)}
    (h : operation.isUse = false) (cells : Cells) :
    (operation.run definitions cell name cells).cells = cells := by
  cases operation with
  | use use => cases h
  | isResolved => rfl
  | fixedSize => rfl

/-- An operation moves the reference by one use if it is one. -/
theorem Operation.cells_run (operation : Operation (S.Value name)) (cells : Cells) :
    (operation.run definitions cell name cells).cells cell.id =
      if operation.isUse then (cells cell.id).use cell.supply else cells cell.id := by
  cases operation with
  | use use => exact use.cells_run cells
  | isResolved => rfl
  | fixedSize => rfl

/-- The references after some operations, one after another. -/
def perform (definitions : Definitions S) (cell : LazyCell) (name : S.Name)
    (operations : List (Operation (S.Value name))) (start : Cells) : Cells :=
  operations.foldl (fun cells operation ↦ (operation.run definitions cell name cells).cells) start

/-- After any operations the state of the reference is that after their uses. -/
theorem perform_state (operations : List (Operation (S.Value name))) {start : Cells} {uses : Nat}
    (hstart : start cell.id = cell.stateAfter uses) :
    perform definitions cell name operations start cell.id =
      cell.stateAfter (uses + operations.countP Operation.isUse) := by
  induction operations generalizing start uses with
  | nil => exact hstart
  | cons operation operations ih =>
    have hstep : (operation.run definitions cell name start).cells cell.id =
        if operation.isUse then (start cell.id).use cell.supply else start cell.id :=
      operation.cells_run start
    rw [perform, List.foldl_cons]
    cases huse : operation.isUse with
    | false =>
      rw [huse, if_neg Bool.false_ne_true] at hstep
      rw [List.countP_cons_of_neg (by simp [huse])]
      exact ih (hstep.trans hstart)
    | true =>
      rw [huse, if_pos rfl, hstart] at hstep
      rw [List.countP_cons_of_pos huse, Nat.add_comm _ 1, ← Nat.add_assoc]
      exact ih hstep

/-- The state of a reference whose first `k` calls yield nothing and whose next one does. -/
theorem stateAfter_eq {k : Nat} (hfails : ∀ call < k, cell.supply call = false)
    (hyields : cell.supply k = true) (uses : Nat) :
    cell.stateAfter uses = ⟨min uses (k + 1), decide (k < uses)⟩ := by
  rcases Nat.lt_or_ge k uses with hlate | hearly
  · rw [stateAfter_of_lt hfails hyields hlate, Nat.min_eq_right hlate, decide_eq_true hlate]
  · rw [stateAfter_of_le fun call hcall ↦ hfails call (hcall.trans_le hearly),
      Nat.min_eq_left (Nat.le_succ_of_le hearly), decide_eq_false (Nat.not_lt.mpr hearly)]

/-- A reference that was not used before is used some number of times by some operations. The first
`k` calls of its supplier yield nothing, and the next one yields the definition. Then a use is a
call up to that one, which is the last, and whoever asks is told that the reference is resolved from
then on and not before. The uses before it are refused with their streams untouched, and from then
on a use does what the definition itself does. This goes by the state of the reference alone,
whatever `others` are like, so that it holds of what the definition does on its way, too. If no call
yields the definition, every use is a call and is refused, and the answer is always no. A size is
never declared. Whoever asks for either calls nothing. -/
theorem resolves_once (cell : LazyCell) (name : S.Name) (definitions : Definitions S)
    {start : Cells} (hstart : start cell.id = {}) (operations : List (Operation (S.Value name))) :
    let uses := operations.countP Operation.isUse
    let cells := perform definitions cell name operations start
    (∀ k, (∀ call < k, cell.supply call = false) → cell.supply k = true →
      (cells cell.id).calls = min uses (k + 1) ∧
      ∀ others : Cells, others cell.id = cells cell.id →
        Operation.isResolved.run definitions cell name others =
          .answered (decide (k < uses)) others ∧
        ∀ next : Use (S.Value name),
          (uses < k → next.run definitions cell name others =
            next.refused (others.set cell.id ⟨uses + 1, false⟩)) ∧
          (k ≤ uses → next.run definitions cell name others =
            next.direct definitions name (others.set cell.id ⟨k + 1, true⟩))) ∧
    ((∀ call, cell.supply call = false) →
      (cells cell.id).calls = uses ∧
      ∀ others : Cells, others cell.id = cells cell.id →
        Operation.isResolved.run definitions cell name others = .answered false others ∧
        ∀ next : Use (S.Value name), next.run definitions cell name others =
          next.refused (others.set cell.id ⟨uses + 1, false⟩)) ∧
    ∀ others : Cells,
      Operation.fixedSize.run definitions cell name others = .measured .varying others ∧
      ∀ next : Operation (S.Value name), next.isUse = false →
        (next.run definitions cell name others).cells = others := by
  intro uses cells
  have hcell : cells cell.id = cell.stateAfter uses := by
    have hstate : cells cell.id = cell.stateAfter (0 + uses) := perform_state operations hstart
    rwa [Nat.zero_add] at hstate
  refine ⟨fun k hfails hyields ↦ ?_, fun hnever ↦ ?_, fun others ↦
    ⟨rfl, fun next hask ↦ Operation.cells_run_of_not_isUse hask others⟩⟩
  · have hstate := stateAfter_eq hfails hyields uses
    refine ⟨by rw [hcell, hstate], fun others hothers ↦ ⟨?_, fun next ↦ ⟨?_, ?_⟩⟩⟩
    · rw [Operation.run, isResolved, hothers, hcell, hstate]
    · intro hearly
      exact Use.run_of_refused (hothers.trans hcell) fun call hcall ↦
        hfails call (Nat.lt_of_lt_of_le hcall hearly)
    · exact Use.run_of_supplied (hothers.trans hcell) hfails hyields
  · have hstate : cell.stateAfter uses = ⟨uses, false⟩ :=
      stateAfter_of_le fun call _ ↦ hnever call
    refine ⟨by rw [hcell, hstate], fun others hothers ↦ ⟨?_, fun next ↦ ?_⟩⟩
    · rw [Operation.run, isResolved, hothers, hcell, hstate]
    · exact Use.run_of_refused (hothers.trans hcell) fun call _ ↦ hnever call

/-- Numbers as frames inside each other, with a reference to themselves that is supplied at the
third call. The third use writes a number, for which the reference is used twice more. Before it the
reference is not resolved, and behind it, it is. -/
theorem resolves_once_nested :
    let cell : LazyCell := ⟨0, fun call ↦ decide (2 ≤ call)⟩
    let definitions : Definitions ⟨Unit, fun _ ↦ Nat⟩ := fun _ ↦
      .map (fun n ↦ if n = 0 then [] else [n - 1]) (fun list ↦ .ok (list.map (· + 1)).sum)
        (.byteCounted (.leaf (.length .u8)) .unbounded (.exhaustList (.lazy cell ()) (some 1)))
    let before : List (Operation Nat) :=
      [.isResolved, .use (.decode (Source.ofBytes [0]) 4), .use .resolve]
    let operations := before ++ [.fixedSize, .use (.encode 2 (.slice 3) 4)]
    let cells := perform definitions cell () operations Cells.fresh
    let others : Cells := Cells.fresh.set 0 ⟨3, true⟩
    let next : Use Nat := .decode (Source.ofBytes [2, 1, 0]) 4
    Cells.fresh cell.id = {} ∧ operations.countP Operation.isUse = 3 ∧
      (∀ call < 2, cell.supply call = false) ∧ cell.supply 2 = true ∧
      (let earlier := perform definitions cell () before Cells.fresh
       Operation.isResolved.run definitions cell () earlier = .answered false earlier) ∧
      (cells cell.id).calls = 3 ∧
      Operation.isResolved.run definitions cell () cells = .answered true cells ∧
      others cell.id = cells cell.id ∧
      next.run definitions cell () others =
        next.direct definitions () (others.set cell.id ⟨3, true⟩) ∧
      next.run definitions cell () others = .decoded (.ok 2 ⟨⟨[[]]⟩, others⟩) := by
  intro cell definitions before operations cells others next
  have hfails : ∀ call < 2, cell.supply call = false := by decide
  have hfresh : Cells.fresh cell.id = {} := rfl
  obtain ⟨-, hearly⟩ := (resolves_once cell () definitions hfresh before).1 2 hfails rfl
  obtain ⟨hcalls, hlate⟩ := (resolves_once cell () definitions hfresh operations).1 2 hfails rfl
  have hothers : others cell.id = cells cell.id := by
    with_unfolding_all rfl
  refine ⟨hfresh, rfl, hfails, rfl, (hearly _ rfl).1, hcalls, (hlate _ rfl).1, hothers,
    ((hlate others hothers).2 next).2 (by decide), ?_⟩
  with_unfolding_all rfl

end LazyCell

end WireFormat
