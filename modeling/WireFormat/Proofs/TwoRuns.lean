import WireFormat.Proofs.Action

/-!
# Two runs of an action

Two runs of one action from related streams are compared by `TwoRuns.Alike`: both succeed with the
same value and related streams, or both fail in the same way. An action all of whose pairs of runs
from related streams are alike respects the relation (`TwoRuns.Respects`); whatever is put together
from actions that do so does so as well, one rule for each way of putting actions together.
-/

set_option autoImplicit false
set_option relaxedAutoImplicit false

namespace WireFormat

/-- Which streams count as the same before a run and after a successful one, and which ones after a
failure. -/
structure TwoRuns (σ : Type) where
  same : σ → σ → Prop
  left : σ → σ → Prop
  left_of_same : ∀ {s t : σ}, same s t → left s t

namespace TwoRuns

variable {σ α β : Type} {runs : TwoRuns σ}

/-- Two results are alike: both have the same value, or both the same failure, and their streams
are related. -/
def Alike (runs : TwoRuns σ) (first second : EStateM.Result Failure σ α) : Prop :=
  (∃ a s t, runs.same s t ∧ first = .ok a s ∧ second = .ok a t) ∨
    ∃ failure s t, runs.left s t ∧ first = .error failure s ∧ second = .error failure t

theorem alike_ok (a : α) {s t : σ} (h : runs.same s t) : runs.Alike (.ok a s) (.ok a t) :=
  Or.inl ⟨a, s, t, h, rfl, rfl⟩

theorem alike_error (failure : Failure) {s t : σ} (h : runs.left s t) :
    runs.Alike (.error failure s : EStateM.Result Failure σ α) (.error failure t) :=
  Or.inr ⟨failure, s, t, h, rfl, rfl⟩

/-- Runs from streams that are the same are alike. -/
def Respects (runs : TwoRuns σ) (action : Action σ α) : Prop :=
  ∀ s t, runs.same s t → runs.Alike (action s) (action t)

theorem respects_pure (a : α) : runs.Respects (pure a) :=
  fun _ _ h ↦ alike_ok a h

theorem respects_throw (failure : Failure) : runs.Respects (throw failure : Action σ α) :=
  fun _ _ h ↦ alike_error failure (runs.left_of_same h)

theorem respects_fail (kind : ErrorKind) : runs.Respects (fail kind : Action σ α) :=
  respects_throw _

theorem respects_ofExcept (result : Except Error α) :
    runs.Respects (ofExcept result : Action σ α) := by
  cases result with
  | error e => exact respects_throw _
  | ok a => exact respects_pure a

theorem respects_bind {action : Action σ α} {f : α → Action σ β} (haction : runs.Respects action)
    (hf : ∀ a, runs.Respects (f a)) : runs.Respects (action >>= f) := by
  intro s t h
  rcases haction s t h with ⟨a, s', t', hsame, hs, ht⟩ | ⟨failure, s', t', hleft, hs, ht⟩
  · rw [bind_of_ok hs, bind_of_ok ht]
    exact hf a s' t' hsame
  · rw [bind_of_error hs, bind_of_error ht]
    exact alike_error failure hleft

/-- What is read off the stream may be used if streams that are the same agree on it. -/
theorem respects_get_bind {f : σ → Action σ α} (hsame : ∀ s t, runs.same s t → f s = f t)
    (hf : ∀ s, runs.Respects (f s)) : runs.Respects (get >>= f) := by
  intro s t h
  rw [get_bind_apply, get_bind_apply, hsame s t h]
  exact hf t s t h

theorem respects_ite {condition : Prop} [Decidable condition] {first second : Action σ α}
    (hfirst : runs.Respects first) (hsecond : runs.Respects second) :
    runs.Respects (if condition then first else second) := by
  by_cases h : condition
  · rwa [if_pos h]
  · rwa [if_neg h]

theorem respects_inField {name : String} {action : Action σ α} (h : runs.Respects action) :
    runs.Respects (inField name action) := by
  intro s t hsame
  rcases h s t hsame with ⟨a, s', t', hafter, hs, ht⟩ | ⟨failure, s', t', hafter, hs, ht⟩
  · simp only [inField, hs, ht]
    exact alike_ok a hafter
  · simp only [inField, hs, ht]
    exact alike_error _ hafter

end TwoRuns

end WireFormat
