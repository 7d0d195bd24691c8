import WireFormat.LazyCell
import WireFormat.LengthRange

/-!
# How actions run

An action is a function of its stream, so running a sequence is running its first part and going on
from the stream that part leaves. `bind_of_ok` and `bind_of_error` say so forwards, `bind_eq_ok` and
`bind_eq_error` backwards: a sequence succeeds exactly when both parts do. Checks that stand in
front of an action pass, or nothing is done (`Refuses`). The lemmas below them say the same of the
ways in which an action is moved to another stream (`Stage.onStream`, `Stage.onCells`,
`Stage.onOther`).
-/

set_option autoImplicit false
set_option relaxedAutoImplicit false

namespace WireFormat

section Action

variable {σ α β : Type}

@[simp] theorem pure_apply (a : α) (s : σ) : (pure a : Action σ α) s = .ok a s := rfl

@[simp] theorem get_apply (s : σ) : (get : Action σ σ) s = .ok s s := rfl

@[simp] theorem throw_apply (failure : Failure) (s : σ) :
    (throw failure : Action σ α) s = .error failure s := rfl

@[simp] theorem fail_apply (kind : ErrorKind) (s : σ) :
    (fail kind : Action σ α) s = .error (.error { kind }) s := rfl

@[simp] theorem ofExcept_ok (a : α) (s : σ) : (ofExcept (.ok a) : Action σ α) s = .ok a s := rfl

@[simp] theorem ofExcept_error (e : Error) (s : σ) :
    (ofExcept (.error e) : Action σ α) s = .error (.error e) s := rfl

@[simp] theorem get_bind_apply (f : σ → Action σ α) (s : σ) :
    ((get : Action σ σ) >>= f) s = f s s := rfl

@[simp] theorem pure_bind_apply (a : α) (f : α → Action σ β) (s : σ) :
    ((pure a : Action σ α) >>= f) s = f a s := rfl

@[simp] theorem fail_bind_apply (kind : ErrorKind) (f : α → Action σ β) (s : σ) :
    ((fail kind : Action σ α) >>= f) s = .error (.error { kind }) s := rfl

/-- A sequence goes on from where its first part stopped successfully. -/
theorem bind_of_ok {action : Action σ α} {s s' : σ} {a : α} (h : action s = .ok a s')
    (f : α → Action σ β) : (action >>= f) s = f a s' := by
  show EStateM.bind action f s = f a s'
  simp only [EStateM.bind, h]

/-- A sequence fails as its first part does. -/
theorem bind_of_error {action : Action σ α} {s s' : σ} {failure : Failure}
    (h : action s = .error failure s') (f : α → Action σ β) :
    (action >>= f) s = .error failure s' := by
  show EStateM.bind action f s = .error failure s'
  simp only [EStateM.bind, h]

theorem map_of_ok {action : Action σ α} {s s' : σ} {a : α} (h : action s = .ok a s') (f : α → β) :
    (f <$> action) s = .ok (f a) s' :=
  bind_of_ok h _

theorem map_of_error {action : Action σ α} {s s' : σ} {failure : Failure}
    (h : action s = .error failure s') (f : α → β) : (f <$> action) s = .error failure s' :=
  bind_of_error h _

/-- A sequence succeeds exactly when both parts do. -/
theorem bind_eq_ok {action : Action σ α} {f : α → Action σ β} {s s' : σ} {b : β} :
    (action >>= f) s = .ok b s' ↔ ∃ a middle, action s = .ok a middle ∧ f a middle = .ok b s' := by
  cases h : action s with
  | error failure middle => simp [bind_of_error h]
  | ok a middle =>
    rw [bind_of_ok h]
    constructor
    · intro hf
      exact ⟨a, middle, rfl, hf⟩
    · rintro ⟨_, _, ⟨⟩, hf⟩
      exact hf

/-- A sequence fails exactly when its first part does, or its second part behind the first. -/
theorem bind_eq_error {action : Action σ α} {f : α → Action σ β} {s s' : σ} {failure : Failure} :
    (action >>= f) s = .error failure s' ↔
      action s = .error failure s' ∨
        ∃ a middle, action s = .ok a middle ∧ f a middle = .error failure s' := by
  cases h : action s with
  | error cause middle => simp [bind_of_error h]
  | ok a middle =>
    rw [bind_of_ok h]
    constructor
    · intro hf
      exact Or.inr ⟨a, middle, rfl, hf⟩
    · rintro (hfirst | ⟨b, last, hfirst, hf⟩)
      · cases hfirst
      · cases hfirst
        exact hf

/-- A length that passes the check is the length itself. -/
theorem LengthRange.check_eq_ok {range : LengthRange} {length n : Nat} :
    range.check length = .ok n ↔ range.contains length = true ∧ n = length := by
  unfold check
  by_cases h : range.contains length = true <;> simp [h, eq_comm]

theorem pure_eq_ok {a b : α} {s s' : σ} :
    (pure a : Action σ α) s = .ok b s' ↔ a = b ∧ s = s' := by
  simp

theorem ofExcept_eq_ok {result : Except Error α} {a : α} {s s' : σ} :
    (ofExcept result : Action σ α) s = .ok a s' ↔ result = .ok a ∧ s = s' := by
  cases result <;> simp

/-- An action behind a guard succeeds exactly when the guard passes and the action does. -/
theorem guard_eq_ok {condition : Prop} [Decidable condition] {kind : ErrorKind}
    {action : Action σ α} {a : α} {s s' : σ} :
    (if condition then fail kind >>= fun _ : PUnit ↦ action else action) s = .ok a s' ↔
      ¬ condition ∧ action s = .ok a s' := by
  by_cases h : condition <;> simp [h]

theorem inField_eq_ok {name : String} {action : Action σ α} {a : α} {s s' : σ} :
    inField name action s = .ok a s' ↔ action s = .ok a s' := by
  unfold inField
  cases action s <;> simp

theorem inField_of_error {name : String} {action : Action σ α} {s s' : σ} {failure : Failure}
    (h : action s = .error failure s') :
    inField name action s = .error (failure.inField name) s' := by
  simp only [inField, h]

theorem inField_eq_error {name : String} {action : Action σ α} {s s' : σ} {failure : Failure} :
    inField name action s = .error failure s' ↔
      ∃ cause, action s = .error cause s' ∧ failure = cause.inField name := by
  unfold inField
  cases action s with
  | ok a s'' => simp
  | error cause s'' =>
    simp only [EStateM.Result.error.injEq]
    constructor
    · rintro ⟨rfl, rfl⟩
      exact ⟨cause, ⟨rfl, rfl⟩, rfl⟩
    · rintro ⟨_, ⟨rfl, rfl⟩, rfl⟩
      exact ⟨rfl, rfl⟩

/-- The action does nothing but fail, whatever the stream. -/
def Refuses (action : Action σ α) : Prop :=
  ∃ failure, action = throw failure

theorem refuses_or_guard {condition : Prop} [Decidable condition] {failure : Failure}
    {action : Action σ α} {alternative : Prop}
    (h : ¬ condition → Refuses action ∨ alternative) :
    Refuses (if condition then throw failure >>= fun _ : PUnit ↦ action else action) ∨
      alternative := by
  by_cases hcondition : condition
  · rw [if_pos hcondition]
    exact Or.inl ⟨failure, rfl⟩
  · rw [if_neg hcondition]
    exact h hcondition

theorem refuses_or_ofExcept {result : Except Error β} {next : β → Action σ α}
    {alternative : Prop} (h : ∀ b, result = .ok b → Refuses (next b) ∨ alternative) :
    Refuses (ofExcept result >>= next) ∨ alternative := by
  cases result with
  | error e => exact Or.inl ⟨.error e, rfl⟩
  | ok b => exact h b rfl

end Action

namespace Stage

variable {σ τ α : Type}

theorem onStream_of_ok {action : Action σ α} {stage : Stage σ} {a : α} {stream : σ}
    (h : action stage.stream = .ok a stream) :
    onStream action stage = .ok a { stage with stream } := by
  simp only [onStream, h]

theorem onStream_of_error {action : Action σ α} {stage : Stage σ} {failure : Failure}
    {stream : σ} (h : action stage.stream = .error failure stream) :
    onStream action stage = .error failure { stage with stream } := by
  simp only [onStream, h]

theorem onStream_eq_ok {action : Action σ α} {stage after : Stage σ} {a : α} :
    onStream action stage = .ok a after ↔
      action stage.stream = .ok a after.stream ∧ after.cells = stage.cells := by
  obtain ⟨stream, cells⟩ := after
  unfold onStream
  cases action stage.stream <;> simp [eq_comm, and_assoc]

/-- What leaves the stream as it is leaves the stage as it is. -/
theorem eq_of_onStream_eq_ok {action : Action σ α}
    (hsame : ∀ {stream rest : σ} {a : α}, action stream = .ok a rest → rest = stream)
    {stage after : Stage σ} {a : α} (h : onStream action stage = .ok a after) : after = stage := by
  obtain ⟨hstream, hcells⟩ := onStream_eq_ok.mp h
  obtain ⟨stream, cells⟩ := after
  obtain rfl : cells = stage.cells := hcells
  rw [show stream = stage.stream from hsame hstream]

/-- A sequence on the stream alone is a sequence of such actions. -/
theorem onStream_bind {β : Type} (action : Action σ α) (f : α → Action σ β) :
    onStream (action >>= f) = onStream action >>= fun a ↦ onStream (f a) := by
  funext stage
  cases h : action stage.stream with
  | ok a stream =>
    rw [bind_of_ok (onStream_of_ok h)]
    simp only [onStream, bind_of_ok h]
  | error failure stream =>
    rw [bind_of_error (onStream_of_error h)]
    exact onStream_of_error (bind_of_error h f)

theorem onCells_eq_ok {action : Action Cells α} {stage after : Stage σ} {a : α} :
    onCells action stage = .ok a after ↔
      action stage.cells = .ok a after.cells ∧ after.stream = stage.stream := by
  obtain ⟨stream, cells⟩ := after
  unfold onCells
  cases action stage.cells with
  | error failure last => simp
  | ok b last =>
    simp only [EStateM.Result.ok.injEq, Stage.mk.injEq]
    constructor
    · rintro ⟨rfl, rfl, rfl⟩
      exact ⟨⟨rfl, rfl⟩, rfl⟩
    · rintro ⟨⟨rfl, rfl⟩, rfl⟩
      exact ⟨rfl, rfl, rfl⟩

theorem stream_of_onCells {action : Action Cells α} {stage after : Stage σ} {a : α}
    (h : onCells action stage = .ok a after) : after.stream = stage.stream :=
  (onCells_eq_ok.mp h).2

theorem onOther_of_ok {other : τ} {action : Action (Stage τ) α} {stage : Stage σ} {a : α}
    {after : Stage τ} (h : action ⟨other, stage.cells⟩ = .ok a after) :
    onOther other action stage = .ok (a, after.stream) { stage with cells := after.cells } := by
  simp only [onOther, h]

theorem onOther_of_error {other : τ} {action : Action (Stage τ) α} {stage : Stage σ}
    {failure : Failure} {after : Stage τ}
    (h : action ⟨other, stage.cells⟩ = .error failure after) :
    onOther other action stage = .error failure { stage with cells := after.cells } := by
  simp only [onOther, h]

/-- What an action did on another stream left the stream of the stage alone. -/
theorem onOther_eq_ok {other : τ} {action : Action (Stage τ) α} {stage after : Stage σ}
    {a : α} {stream : τ} :
    onOther other action stage = .ok (a, stream) after ↔
      action ⟨other, stage.cells⟩ = .ok a ⟨stream, after.cells⟩ ∧
        after.stream = stage.stream := by
  obtain ⟨last, cells⟩ := after
  unfold onOther
  cases h : action ⟨other, stage.cells⟩ with
  | error failure final => simp
  | ok b final =>
    obtain ⟨finalStream, finalCells⟩ := final
    simp only [EStateM.Result.ok.injEq, Prod.mk.injEq, Stage.mk.injEq]
    constructor
    · rintro ⟨⟨rfl, rfl⟩, rfl, rfl⟩
      exact ⟨⟨rfl, rfl, rfl⟩, rfl⟩
    · rintro ⟨⟨rfl, rfl, rfl⟩, rfl⟩
      exact ⟨⟨rfl, rfl⟩, rfl, rfl⟩

end Stage

end WireFormat
