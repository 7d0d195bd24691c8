import WireFormat.Proofs.ReadBack
import WireFormat.Proofs.Wire

/-!
# Levels of references

Runs follow references to a given depth. A run that is not stopped there does the same at every
greater depth (`Codec.decode_of_le`, `Codec.encode_of_le`), so that it is the run without a limit:
`Deepens` compares two actions in this way, has a rule for each way of putting actions together,
and passes from the decoders and encoders of the names to those of a codec.
-/

set_option autoImplicit false
set_option relaxedAutoImplicit false

namespace WireFormat

/-- The second action does what the first one does, except where the first one stops because
references are nested too deeply. -/
def Deepens {σ α : Type} (shallow deep : Action σ α) : Prop :=
  ∀ s, (∃ s', shallow s = .error .tooDeep s') ∨ deep s = shallow s

/-! ### Ways of putting actions together -/

section Actions

variable {σ τ α β : Type} {shallow deep : Action σ α}

theorem deepens_refl (action : Action σ α) : Deepens action action :=
  fun _ ↦ Or.inr rfl

theorem deepens_trans {deeper : Action σ α} (hfirst : Deepens shallow deep)
    (hsecond : Deepens deep deeper) : Deepens shallow deeper := by
  intro s
  obtain hdeep | heq := hfirst s
  · exact Or.inl hdeep
  · rw [← heq]
    exact hsecond s

/-- What is nested too deeply from the start may do anything instead. -/
theorem deepens_tooDeep (deep : Action σ α) : Deepens (throw .tooDeep) deep :=
  fun s ↦ Or.inl ⟨s, rfl⟩

theorem deepens_bind {f g : α → Action σ β} (haction : Deepens shallow deep)
    (hf : ∀ a, Deepens (f a) (g a)) : Deepens (shallow >>= f) (deep >>= g) := by
  intro s
  obtain ⟨s', hdeep⟩ | heq := haction s
  · exact Or.inl ⟨s', bind_of_error hdeep f⟩
  · cases hrun : shallow s with
    | error failure s' =>
      rw [bind_of_error hrun, bind_of_error (heq.trans hrun)]
      exact Or.inr rfl
    | ok a s' =>
      rw [bind_of_ok hrun, bind_of_ok (heq.trans hrun)]
      exact hf a s'

theorem deepens_ite {condition : Prop} [Decidable condition] {first second : Action σ α}
    (hshallow : Deepens shallow deep) (hfirst : Deepens first second) :
    Deepens (if condition then shallow else first) (if condition then deep else second) := by
  by_cases h : condition
  · rwa [if_pos h, if_pos h]
  · rwa [if_neg h, if_neg h]

theorem deepens_inField {name : String} (h : Deepens shallow deep) :
    Deepens (inField name shallow) (inField name deep) := by
  intro s
  unfold inField
  obtain ⟨s', hdeep⟩ | heq := h s
  · rw [hdeep]
    exact Or.inl ⟨s', rfl⟩
  · rw [heq]
    exact Or.inr rfl

theorem deepens_onOther {other : τ} {shallow deep : Action (Stage τ) α} (h : Deepens shallow deep) :
    Deepens (Stage.onOther other shallow : Action (Stage σ) (α × τ))
      (Stage.onOther other deep) := by
  intro stage
  unfold Stage.onOther
  obtain ⟨last, hdeep⟩ | heq := h ⟨other, stage.cells⟩
  · rw [hdeep]
    exact Or.inl ⟨_, rfl⟩
  · rw [heq]
    exact Or.inr rfl

end Actions

namespace Encoding

theorem deepens_items {α : Type} {shallow deep : α → Encoding}
    (hitem : ∀ value, Deepens (shallow value) (deep value)) (values : List α) :
    Deepens (items shallow values) (items deep values) := by
  induction values with
  | nil => exact deepens_refl _
  | cons value values ih =>
    exact deepens_bind (hitem value) fun _ ↦ deepens_bind ih fun _ ↦ deepens_refl _

theorem deepens_entries {E : Type} {shallow deep : E → Encoding}
    (hentry : ∀ e, Deepens (shallow e) (deep e)) (list : List E) :
    Deepens (entries shallow list) (entries deep list) := by
  induction list with
  | nil => exact deepens_refl _
  | cons e list ih =>
    exact deepens_bind (hentry e) fun _ ↦ deepens_bind ih fun _ ↦ deepens_refl _

end Encoding

namespace Decoding

variable {α : Type} {shallow deep : Decoding α}

theorem deepens_items (h : Deepens shallow deep) (sized : Bool) (requested left : Nat) :
    Deepens (items shallow sized requested left) (items deep sized requested left) := by
  induction left with
  | zero => exact deepens_refl _
  | succ left ih =>
    have hvalues := deepens_bind h fun value ↦
      deepens_bind ih fun values ↦ deepens_refl (pure (value :: values))
    exact deepens_ite (deepens_bind (deepens_refl _) fun _ ↦ hvalues) hvalues

theorem deepens_inFrame (frame : List UInt8) (h : Deepens shallow deep) :
    Deepens (inFrame frame shallow) (inFrame frame deep) :=
  deepens_bind (deepens_onOther h) fun _ ↦ deepens_refl _

/-- By induction on what is left of the source, as the list goes on only where an item took a
byte. -/
theorem deepens_itemsToEnd (h : Deepens shallow deep) (allowance : Option Nat) :
    Deepens (itemsToEnd shallow allowance) (itemsToEnd deep allowance) := by
  intro s
  induction hleft : s.stream.remaining using Nat.strongRecOn generalizing s allowance with
  | ind left ih =>
    rw [itemsToEnd, itemsToEnd]
    by_cases hstop : s.stream.remaining = 0 ∨ allowance = some 0
    · rw [if_pos hstop, if_pos hstop]
      exact Or.inr rfl
    · rw [if_neg hstop, if_neg hstop]
      obtain ⟨after, hdeep⟩ | heq := h s
      · rw [hdeep]
        exact Or.inl ⟨after, rfl⟩
      · rw [heq]
        cases hrun : shallow s with
        | error failure after => exact Or.inr rfl
        | ok value after =>
          dsimp only
          by_cases hless : after.stream.remaining < s.stream.remaining
          · rw [if_pos hless, if_pos hless]
            obtain ⟨last, hdeep⟩ | heq :=
              ih _ (hleft ▸ hless) (allowance.map (· - 1)) after rfl
            · rw [hdeep]
              exact Or.inl ⟨last, rfl⟩
            · rw [heq]
              exact Or.inr rfl
          · rw [if_neg hless, if_neg hless]
            exact Or.inr rfl

/-- By induction on the entries that are allowed or, without a bound, on what is left of the
source. -/
theorem deepens_entriesToEnd {K V R : Type} {shallow deep : Decoding (K × V)}
    (h : Deepens shallow deep) (add : R → K → V → R) (allowance : Option Nat) (record : R) :
    Deepens (entriesToEnd shallow add allowance record)
      (entriesToEnd deep add allowance record) := by
  intro s
  induction hleft : allowance.getD s.stream.remaining using Nat.strongRecOn
    generalizing s allowance record with
  | ind left ih =>
    by_cases hstop : s.stream.remaining = 0 ∨ allowance = some 0
    · rw [entriesToEnd_of_end hstop, entriesToEnd_of_end hstop]
      exact Or.inr rfl
    · obtain ⟨after, hdeep⟩ | heq := h s
      · exact Or.inl ⟨after, entriesToEnd_of_error hstop hdeep⟩
      · cases hrun : shallow s with
        | error failure after =>
          rw [entriesToEnd_of_error hstop hrun, entriesToEnd_of_error hstop (heq.trans hrun)]
          exact Or.inr rfl
        | ok e after =>
          by_cases hgoes : allowance = none → after.stream.remaining < s.stream.remaining
          · rw [entriesToEnd_of_entry hstop hrun hgoes,
              entriesToEnd_of_entry hstop (heq.trans hrun) hgoes]
            refine ih _ ?_ _ _ after rfl
            rw [← hleft]
            cases allowance with
            | none => exact hgoes rfl
            | some bound =>
              have hpositive : bound ≠ 0 := fun hzero ↦ hstop (Or.inr (congrArg some hzero))
              exact Nat.sub_one_lt hpositive
          · obtain ⟨rfl, hfree⟩ := Classical.not_imp.mp hgoes
            have hend := (not_or.mp hstop).1
            rw [entriesToEnd_of_free hend hrun hfree,
              entriesToEnd_of_free hend (heq.trans hrun) hfree]
            exact Or.inr rfl

end Decoding

variable {S : Signature}

/-! ### Encoding

One level of references: if the encoders of the names do the same at a greater depth, then so does
that of a codec, of the parts of a tuple, of the fields of a record or of a table. -/

section Encode

open Encoding

variable {shallow deep : (name : S.Name) → S.Value name → Encoding}

mutual

theorem Codec.deepens_encodeWith
    (hreferences : ∀ name value, Deepens (shallow name value) (deep name value)) :
    {α : Type} → (codec : Codec S α) → (value : α) →
    Deepens (codec.encodeWith shallow value) (codec.encodeWith deep value)
  | _, .leaf _, _ => deepens_refl _
  | _, .tuple items, value => items.deepens_encodeWith hreferences value
  | _, .fixedList item count, values => by
    have hitems := deepens_items (item.deepens_encodeWith hreferences) values
    exact deepens_ite (deepens_refl _) (deepens_bind hitems fun _ ↦ deepens_refl _)
  | _, .exhaustList item max, values => by
    have hitems := deepens_items (item.deepens_encodeWith hreferences) values
    exact deepens_ite (deepens_refl _) (deepens_bind hitems fun _ ↦ deepens_refl _)
  | _, .map toWire _ wire, value => wire.deepens_encodeWith hreferences (toWire value)
  | _, .case _ unwrap payload, value => by
    rw [Codec.encodeWith, Codec.encodeWith]
    cases unwrap value with
    | some inner => exact payload.deepens_encodeWith hreferences inner
    | none => exact deepens_refl _
  | _, .byteCounted length range payload, value => by
    have hpayload := payload.deepens_encodeWith hreferences value
    refine deepens_bind (deepens_onOther hpayload) fun (inner, scratch) ↦ ?_
    refine deepens_bind (deepens_refl _) fun n ↦ ?_
    exact deepens_bind (length.deepens_encodeWith hreferences n) fun _ ↦ deepens_refl _
  | _, .itemCounted length range count body, value => by
    refine deepens_bind (deepens_refl _) fun n ↦ ?_
    refine deepens_bind (length.deepens_encodeWith hreferences n) fun _ ↦ ?_
    exact deepens_bind ((body n).deepens_encodeWith hreferences value) fun _ ↦ deepens_refl _
  | _, .record _ fields, value => fields.deepens_encodeWith hreferences value
  | _, .tagged (i := _) tag display access table fallback max _, value => by
    refine deepens_ite (deepens_refl _) (deepens_entries (fun (key, item) ↦ ?_) _)
    refine deepens_inField (deepens_bind (tag.deepens_encodeWith hreferences key) fun lead ↦ ?_)
    rcases table.deepens_encodeAt hreferences key with
        ⟨hshallow, hdeep⟩ | ⟨encode, encode', hshallow, hdeep, hvalue⟩
    · simp only [hshallow, hdeep]
      have hvalue := fallback.deepens_encodeWith hreferences item
      exact deepens_bind hvalue fun _ ↦ deepens_refl _
    · simp only [hshallow, hdeep]
      exact deepens_bind (hvalue item) fun _ ↦ deepens_refl _
  | _, .choice (i := _) (j := _) tag _ showKind kind registry table, value => by
    rw [Codec.encodeWith, Codec.encodeWith]
    cases registry.tagOf? (kind value) with
    | none => exact deepens_refl _
    | some key =>
      rcases table.deepens_encodeAt hreferences (kind value) with
          ⟨hshallow, hdeep⟩ | ⟨encode, encode', hshallow, hdeep, hvalue⟩
      · simp only [hshallow, hdeep]
        exact deepens_refl _
      · simp only [hshallow, hdeep]
        refine deepens_bind (tag.deepens_encodeWith hreferences key) fun _ ↦ ?_
        exact deepens_bind (hvalue value) fun _ ↦ deepens_refl _
  | _, .lazy cell name, value =>
    deepens_bind (deepens_refl _) fun _ ↦ hreferences name value

theorem Items.deepens_encodeWith
    (hreferences : ∀ name value, Deepens (shallow name value) (deep name value)) :
    {α : Type} → (items : Items S α) → (value : α) →
    Deepens (items.encodeWith shallow value) (items.encodeWith deep value)
  | _, .nil, _ => deepens_refl _
  | _, .cons item rest, (value, values) =>
    deepens_bind (item.deepens_encodeWith hreferences value) fun _ ↦
      deepens_bind (rest.deepens_encodeWith hreferences values) fun _ ↦ deepens_refl _

theorem Fields.deepens_encodeWith
    (hreferences : ∀ name value, Deepens (shallow name value) (deep name value)) :
    {R : Type} → (fields : Fields S R) → (value : R) →
    Deepens (fields.encodeWith shallow value) (fields.encodeWith deep value)
  | _, .nil, _ => deepens_refl _
  | _, .cons name get _ present codec rest, value => by
    have hrest := rest.deepens_encodeWith hreferences value
    refine deepens_ite (deepens_bind (deepens_inField ?_) fun _ ↦ ?_) hrest
    · cases get value with
      | some inner => exact codec.deepens_encodeWith hreferences inner
      | none => exact deepens_refl _
    · exact deepens_bind hrest fun _ ↦ deepens_refl _

theorem Table.deepens_encodeAt
    (hreferences : ∀ name value, Deepens (shallow name value) (deep name value)) :
    {K V : Type} → [DecidableEq K] → (table : Table S K V) → (wanted : K) →
    (table.encodeAt shallow wanted = none ∧ table.encodeAt deep wanted = none) ∨
    ∃ encode encode', table.encodeAt shallow wanted = some encode ∧
      table.encodeAt deep wanted = some encode' ∧
      ∀ value, Deepens (encode value) (encode' value)
  | _, _, _, .nil, _ => Or.inl ⟨rfl, rfl⟩
  | _, _, _, .cons key codec rest, wanted => by
    rw [Table.encodeAt, Table.encodeAt]
    by_cases hkey : key = wanted
    · rw [if_pos hkey, if_pos hkey]
      exact Or.inr ⟨_, _, rfl, rfl, codec.deepens_encodeWith hreferences⟩
    · rw [if_neg hkey, if_neg hkey]
      exact rest.deepens_encodeAt hreferences wanted

end

/-- By induction on the levels of references that are left. -/
theorem Definitions.deepens_encodeWithin (definitions : Definitions S) (depth : Nat)
    (name : S.Name) (value : S.Value name) :
    Deepens (definitions.encodeWithin depth name value)
      (definitions.encodeWithin (depth + 1) name value) := by
  induction depth generalizing name with
  | zero => exact deepens_tooDeep _
  | succ depth ih => exact (definitions name).deepens_encodeWith ih value

end Encode

/-! ### Decoding -/

section Decode

open Decoding

variable {shallow deep : (name : S.Name) → Decoding (S.Value name)}

mutual

theorem Codec.deepens_decodeWith
    (hreferences : ∀ name, Deepens (shallow name) (deep name)) :
    {α : Type} → (codec : Codec S α) → Deepens (codec.decodeWith shallow) (codec.decodeWith deep)
  | _, .leaf _ => deepens_refl _
  | _, .tuple items => items.deepens_decodeWith hreferences
  | _, .fixedList item count => by
    rw [Codec.decodeWith_fixedList, Codec.decodeWith_fixedList]
    split
    · exact deepens_refl _
    · exact deepens_items (item.deepens_decodeWith hreferences) _ _ _
  | _, .exhaustList item max => deepens_itemsToEnd (item.deepens_decodeWith hreferences) max
  | _, .map _ fromWire wire =>
    deepens_bind (wire.deepens_decodeWith hreferences) fun _ ↦ deepens_refl _
  | _, .case _ _ payload =>
    deepens_bind (payload.deepens_decodeWith hreferences) fun _ ↦ deepens_refl _
  | _, .byteCounted length range payload => by
    refine deepens_bind (length.deepens_decodeWith hreferences) fun n ↦ ?_
    refine deepens_bind (deepens_refl _) fun n ↦ ?_
    refine deepens_bind (deepens_refl _) fun frame ↦ ?_
    exact deepens_inFrame frame (payload.deepens_decodeWith hreferences)
  | _, .itemCounted length range _ body => by
    refine deepens_bind (length.deepens_decodeWith hreferences) fun n ↦ ?_
    exact deepens_bind (deepens_refl _) fun n ↦ (body n).deepens_decodeWith hreferences
  | _, .record factory fields => by
    cases factory with
    | none => exact deepens_refl _
    | some start => exact fields.deepens_decodeWith hreferences start
  | _, .tagged (i := _) tag display access table fallback max factory => by
    cases factory with
    | none => exact deepens_refl _
    | some start =>
      refine deepens_entriesToEnd ?_ _ _ _
      refine deepens_bind (tag.deepens_decodeWith hreferences) fun key ↦ ?_
      refine deepens_bind (deepens_inField ?_) fun _ ↦ deepens_refl _
      rcases table.deepens_decodeAt hreferences key with
          ⟨hshallow, hdeep⟩ | ⟨decode, decode', hshallow, hdeep, hvalue⟩
      · simp only [hshallow, hdeep]
        exact fallback.deepens_decodeWith hreferences
      · simp only [hshallow, hdeep]
        exact hvalue
  | _, .choice (i := _) (j := _) tag showTag showKind _ registry table => by
    refine deepens_bind (tag.deepens_decodeWith hreferences) fun key ↦ ?_
    cases registry.kindOf? key with
    | none => exact deepens_refl _
    | some kind =>
      rcases table.deepens_decodeAt hreferences kind with
          ⟨hshallow, hdeep⟩ | ⟨decode, decode', hshallow, hdeep, hvalue⟩
      · simp only [hshallow, hdeep]
        exact deepens_refl _
      · simp only [hshallow, hdeep]
        exact hvalue
  | _, .lazy cell name => deepens_bind (deepens_refl _) fun _ ↦ hreferences name

theorem Items.deepens_decodeWith
    (hreferences : ∀ name, Deepens (shallow name) (deep name)) :
    {α : Type} → (items : Items S α) → Deepens (items.decodeWith shallow) (items.decodeWith deep)
  | _, .nil => deepens_refl _
  | _, .cons item rest =>
    deepens_bind (item.deepens_decodeWith hreferences) fun _ ↦
      deepens_bind (rest.deepens_decodeWith hreferences) fun _ ↦ deepens_refl _

theorem Fields.deepens_decodeWith
    (hreferences : ∀ name, Deepens (shallow name) (deep name)) :
    {R : Type} → (fields : Fields S R) → (record : R) →
    Deepens (fields.decodeWith shallow record) (fields.decodeWith deep record)
  | _, .nil, _ => deepens_refl _
  | _, .cons _ _ set _ codec rest, record =>
    deepens_ite
      (deepens_bind (deepens_inField (codec.deepens_decodeWith hreferences)) fun value ↦
        rest.deepens_decodeWith hreferences (set record value))
      (rest.deepens_decodeWith hreferences record)

theorem Table.deepens_decodeAt
    (hreferences : ∀ name, Deepens (shallow name) (deep name)) :
    {K V : Type} → [DecidableEq K] → (table : Table S K V) → (wanted : K) →
    (table.decodeAt shallow wanted = none ∧ table.decodeAt deep wanted = none) ∨
    ∃ decode decode', table.decodeAt shallow wanted = some decode ∧
      table.decodeAt deep wanted = some decode' ∧ Deepens decode decode'
  | _, _, _, .nil, _ => Or.inl ⟨rfl, rfl⟩
  | _, _, _, .cons key codec rest, wanted => by
    rw [Table.decodeAt, Table.decodeAt]
    by_cases hkey : key = wanted
    · rw [if_pos hkey, if_pos hkey]
      exact Or.inr ⟨_, _, rfl, rfl, codec.deepens_decodeWith hreferences⟩
    · rw [if_neg hkey, if_neg hkey]
      exact rest.deepens_decodeAt hreferences wanted

end

theorem Definitions.deepens_decodeWithin (definitions : Definitions S) (depth : Nat)
    (name : S.Name) :
    Deepens (definitions.decodeWithin depth name) (definitions.decodeWithin (depth + 1) name) := by
  induction depth generalizing name with
  | zero => exact deepens_tooDeep _
  | succ depth ih => exact (definitions name).deepens_decodeWith ih

end Decode

/-! ### Bytes

The bytes of a value may be missing for want of levels; where they are not, more levels leave them
as they are. -/

section Wire

variable {shallow deep : (name : S.Name) → S.Value name → Option (List UInt8)}

theorem wireAll_mono {α : Type} {item more : α → Option (List UInt8)}
    (hitem : ∀ value code, item value = some code → more value = some code) {values : List α}
    {code : List UInt8} (h : wireAll item values = some code) :
    wireAll more values = some code := by
  induction values generalizing code with
  | nil => exact h
  | cons value values ih =>
    obtain ⟨first, others, hfirst, hothers, rfl⟩ := wireAll_cons_eq_some.mp h
    exact wireAll_cons_eq_some.mpr ⟨first, others, hitem value first hfirst, ih hothers, rfl⟩

mutual

theorem Codec.wire?_mono
    (hreferences : ∀ name value code, shallow name value = some code →
      deep name value = some code) :
    {α : Type} → (codec : Codec S α) → (value : α) → (code : List UInt8) →
    codec.wire? shallow value = some code → codec.wire? deep value = some code
  | _, .leaf _, _, _, h => h
  | _, .tuple items, value, code, h => items.wire?_mono hreferences value code h
  | _, .fixedList item count, values, code, h => by
    obtain ⟨hcount, hcode⟩ := Option.ite_none_right_eq_some.mp h
    exact Option.ite_none_right_eq_some.mpr
      ⟨hcount, wireAll_mono (item.wire?_mono hreferences) hcode⟩
  | _, .exhaustList item max, values, code, h => by
    obtain ⟨hmax, hcode⟩ := Option.ite_none_left_eq_some.mp h
    exact Option.ite_none_left_eq_some.mpr
      ⟨hmax, wireAll_mono (item.wire?_mono hreferences) hcode⟩
  | _, .map toWire _ wire, value, code, h => wire.wire?_mono hreferences (toWire value) code h
  | _, .case _ _ payload, value, code, h => by
    obtain ⟨inner, hinner, hcode⟩ := Codec.wire?_case_eq_some.mp h
    exact Codec.wire?_case_eq_some.mpr
      ⟨inner, hinner, payload.wire?_mono hreferences inner code hcode⟩
  | _, .byteCounted length range payload, value, code, h => by
    obtain ⟨inner, lead, hinner, hrange, hlead, rfl⟩ := Codec.wire?_byteCounted_eq_some.mp h
    exact Codec.wire?_byteCounted_eq_some.mpr
      ⟨inner, lead, payload.wire?_mono hreferences value inner hinner, hrange,
        length.wire?_mono hreferences _ lead hlead, rfl⟩
  | _, .itemCounted length range count body, value, code, h => by
    obtain ⟨lead, inner, hrange, hlead, hinner, rfl⟩ := Codec.wire?_itemCounted_eq_some.mp h
    exact Codec.wire?_itemCounted_eq_some.mpr
      ⟨lead, inner, hrange, length.wire?_mono hreferences _ lead hlead,
        (body _).wire?_mono hreferences value inner hinner, rfl⟩
  | _, .record _ fields, value, code, h => fields.wire?_mono hreferences value code h
  | _, .tagged (i := _) tag _ access table fallback max _, value, code, h => by
    obtain ⟨hmax, hcode⟩ := Option.ite_none_left_eq_some.mp h
    refine Option.ite_none_left_eq_some.mpr ⟨hmax, wireAll_mono (fun (key, item) entry ↦ ?_) hcode⟩
    intro hentry
    obtain ⟨lead, hlead, hentry⟩ := Option.bind_eq_some_iff.mp hentry
    refine Option.bind_eq_some_iff.mpr ⟨lead, tag.wire?_mono hreferences key lead hlead, ?_⟩
    rcases table.wireAt_mono hreferences key with
        ⟨hshallow, hdeep⟩ | ⟨wire, wire', hshallow, hdeep, hwire⟩
    · simp only [hshallow] at hentry
      simp only [hdeep]
      obtain ⟨inner, hinner, hentry⟩ := Option.bind_eq_some_iff.mp hentry
      exact Option.bind_eq_some_iff.mpr
        ⟨inner, fallback.wire?_mono hreferences item inner hinner, hentry⟩
    · simp only [hshallow] at hentry
      simp only [hdeep]
      obtain ⟨inner, hinner, hentry⟩ := Option.bind_eq_some_iff.mp hentry
      exact Option.bind_eq_some_iff.mpr ⟨inner, hwire item inner hinner, hentry⟩
  | _, .choice (i := _) (j := _) tag _ _ kind registry table, value, code, h => by
    obtain ⟨key, wire, lead, inner, hkey, htable, hlead, hinner, rfl⟩ :=
      Codec.wire?_choice_eq_some.mp h
    rcases table.wireAt_mono hreferences (kind value) with
        ⟨hshallow, -⟩ | ⟨found, wire', hshallow, hdeep, hwire⟩
    · rw [hshallow] at htable
      cases htable
    · obtain rfl : found = wire := Option.some.inj (hshallow.symm.trans htable)
      exact Codec.wire?_choice_eq_some.mpr
        ⟨key, wire', lead, inner, hkey, hdeep, tag.wire?_mono hreferences key lead hlead,
          hwire value inner hinner, rfl⟩
  | _, .lazy _ name, value, code, h => hreferences name value code h

theorem Items.wire?_mono
    (hreferences : ∀ name value code, shallow name value = some code →
      deep name value = some code) :
    {α : Type} → (items : Items S α) → (value : α) → (code : List UInt8) →
    items.wire? shallow value = some code → items.wire? deep value = some code
  | _, .nil, _, _, h => h
  | _, .cons item rest, (value, values), _, h => by
    obtain ⟨first, others, hfirst, hothers, rfl⟩ := Items.wire?_cons_eq_some.mp h
    exact Items.wire?_cons_eq_some.mpr
      ⟨first, others, item.wire?_mono hreferences value first hfirst,
        rest.wire?_mono hreferences values others hothers, rfl⟩

theorem Fields.wire?_mono
    (hreferences : ∀ name value code, shallow name value = some code →
      deep name value = some code) :
    {R : Type} → (fields : Fields S R) → (value : R) → (code : List UInt8) →
    fields.wire? shallow value = some code → fields.wire? deep value = some code
  | _, .nil, _, _, h => h
  | _, .cons _ get _ present codec rest, value, code, h => by
    rw [Fields.wire?] at h ⊢
    by_cases hpresent : present value = true
    · rw [if_pos hpresent] at h ⊢
      cases hget : get value with
      | none => simp [hget] at h
      | some inner =>
        simp only [hget] at h ⊢
        obtain ⟨first, hfirst, h⟩ := Option.bind_eq_some_iff.mp h
        obtain ⟨others, hothers, h⟩ := Option.bind_eq_some_iff.mp h
        have hfirst' := codec.wire?_mono hreferences inner first hfirst
        have hothers' := rest.wire?_mono hreferences value others hothers
        exact Option.bind_eq_some_iff.mpr
          ⟨first, hfirst', Option.bind_eq_some_iff.mpr ⟨others, hothers', h⟩⟩
    · rw [if_neg hpresent] at h ⊢
      exact rest.wire?_mono hreferences value code h

theorem Table.wireAt_mono
    (hreferences : ∀ name value code, shallow name value = some code →
      deep name value = some code) :
    {K V : Type} → [DecidableEq K] → (table : Table S K V) → (wanted : K) →
    (table.wireAt shallow wanted = none ∧ table.wireAt deep wanted = none) ∨
    ∃ wire wire', table.wireAt shallow wanted = some wire ∧
      table.wireAt deep wanted = some wire' ∧
      ∀ value code, wire value = some code → wire' value = some code
  | _, _, _, .nil, _ => Or.inl ⟨rfl, rfl⟩
  | _, _, _, .cons key codec rest, wanted => by
    rw [Table.wireAt, Table.wireAt]
    by_cases hkey : key = wanted
    · rw [if_pos hkey, if_pos hkey]
      exact Or.inr ⟨_, _, rfl, rfl, codec.wire?_mono hreferences⟩
    · rw [if_neg hkey, if_neg hkey]
      exact rest.wireAt_mono hreferences wanted

end

theorem Definitions.wireWithin_succ (definitions : Definitions S) (depth : Nat) (name : S.Name)
    (value : S.Value name) (code : List UInt8)
    (h : definitions.wireWithin depth name value = some code) :
    definitions.wireWithin (depth + 1) name value = some code := by
  induction depth generalizing name code with
  | zero => cases h
  | succ depth ih => exact (definitions name).wire?_mono ih value code h

end Wire

/-! ### Greater depths -/

variable {α : Type} {codec : Codec S α} {definitions : Definitions S} {depth more : Nat}

/-- A decoder that is not stopped by the depth does the same at every greater depth. -/
theorem Codec.decode_of_le (hle : depth ≤ more) {source : Stage Source}
    (hends : ∀ after, codec.decode definitions depth source ≠ .error .tooDeep after) :
    codec.decode definitions more source = codec.decode definitions depth source := by
  have hdeepens : Deepens (codec.decode definitions depth) (codec.decode definitions more) := by
    induction more, hle using Nat.le_induction with
    | base => exact deepens_refl _
    | succ more _ ih =>
      exact deepens_trans ih (codec.deepens_decodeWith (definitions.deepens_decodeWithin more))
  obtain ⟨after, hdeep⟩ | heq := hdeepens source
  · exact absurd hdeep (hends after)
  · exact heq

/-- A value that has bytes at some depth has the same ones at every greater depth. -/
theorem Codec.wire_of_le (hle : depth ≤ more) {value : α} {code : List UInt8}
    (h : codec.wire definitions depth value = some code) :
    codec.wire definitions more value = some code := by
  induction more, hle using Nat.le_induction with
  | base => exact h
  | succ more _ ih => exact codec.wire?_mono (definitions.wireWithin_succ more) value code ih

/-- At all depths at which a value has bytes they are the same. -/
theorem Codec.wire_unique {other : Nat} {value : α} {code code' : List UInt8}
    (h : codec.wire definitions depth value = some code)
    (hother : codec.wire definitions other value = some code') : code = code' := by
  have hdeep := Codec.wire_of_le (Nat.le_max_left depth other) h
  have hdeep' := Codec.wire_of_le (Nat.le_max_right depth other) hother
  exact Option.some.inj (hdeep.symm.trans hdeep')

/-- An encoder that is not stopped by the depth does the same at every greater depth. -/
theorem Codec.encode_of_le (hle : depth ≤ more) {value : α} {stage : Stage Sink}
    (hends : ∀ after, codec.encode definitions depth value stage ≠ .error .tooDeep after) :
    codec.encode definitions more value stage = codec.encode definitions depth value stage := by
  have hdeepens :
      Deepens (codec.encode definitions depth value) (codec.encode definitions more value) := by
    induction more, hle using Nat.le_induction with
    | base => exact deepens_refl _
    | succ more _ ih =>
      have hnext := codec.deepens_encodeWith (definitions.deepens_encodeWithin more) value
      exact deepens_trans ih hnext
  obtain ⟨after, hdeep⟩ | heq := hdeepens stage
  · exact absurd hdeep (hends after)
  · exact heq

end WireFormat
