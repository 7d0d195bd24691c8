import WireFormat.Proofs.TaggedRecords

/-!
# Runs inside runs

A codec runs its parts, each of which runs its own, and a failure comes out through all the runs
around it. `NestedRuns` says what this takes: a failing part fails the whole with the same failure,
which names the field if the part is one, and no run contains itself. Then every error has an
origin, a run that fails though none of its parts does, and the error is that of the origin with the
names of the fields that lead there (`NestedRuns.exists_origin`).

That no run contains itself comes from the codecs, whose parts are smaller, and from the levels of
references (`Codec.part_induction`).
-/

set_option autoImplicit false
set_option relaxedAutoImplicit false

namespace WireFormat

/-! ### Failures that come out -/

/-- The failure as seen from outside a part, which may be a field. -/
def Failure.outside : Option String → Failure → Failure
  | none, failure => failure
  | some name, failure => failure.inField name

namespace Error

/-- The error as seen from outside some fields, the outermost of which comes first. -/
def inFields (names : List String) (e : Error) : Error :=
  { e with path := e.path ++ names.reverse }

theorem inFields_nil (e : Error) : e.inFields [] = e := by
  simp [inFields]

end Error

/-- The error of a part comes out as the error that has crossed the field, if the part is one. -/
theorem Failure.outside_error (label : Option String) (names : List String) (e : Error) :
    Failure.outside label (.error (e.inFields names)) =
      .error (e.inFields (label.toList ++ names)) := by
  cases label with
  | none => rfl
  | some name => simp [outside, inField, Error.inField, Error.inFields]

/-- What comes out as an error was one. -/
theorem Failure.exists_of_outside {label : Option String} {failure : Failure} {e : Error}
    (h : failure.outside label = .error e) : ∃ cause, failure = .error cause := by
  cases label with
  | none => exact ⟨e, h⟩
  | some name =>
    cases failure with
    | error cause => exact ⟨cause, rfl⟩
    | _ => cases h

/-! ### Origins of errors -/

universe u

/-- Runs that contain other runs as their parts. -/
structure NestedRuns (Run : Type u) where
  /-- The run fails so. -/
  fails : Run → Failure → Prop
  /-- The run contains another one, which is that of a field if there is a label. -/
  contains : Run → Option String → Run → Prop
  /-- A run ends in one way. -/
  unique : ∀ {run failure other}, fails run failure → fails run other → failure = other
  /-- The failure of a part comes out. -/
  outside : ∀ {run label part failure}, contains run label part → fails part failure →
    fails run (failure.outside label)
  /-- No run contains itself. -/
  wellFounded : WellFounded fun part run ↦ ∃ label, contains run label part

namespace NestedRuns

variable {Run : Type u} {runs : NestedRuns Run} {run part origin : Run}

/-- A run contains another one at some depth, behind the fields of these names, the outermost of
which comes first. -/
inductive Reaches (runs : NestedRuns Run) : Run → List String → Run → Prop
  | here (run : Run) : Reaches runs run [] run
  | inside {run part origin : Run} {label : Option String} {names : List String}
      (contained : runs.contains run label part) (reached : Reaches runs part names origin) :
      Reaches runs run (label.toList ++ names) origin

/-- The run fails with an error of its own: none of its parts fails. -/
def FailsItself (runs : NestedRuns Run) (run : Run) (cause : Error) : Prop :=
  runs.fails run (.error cause) ∧
    ∀ label part, runs.contains run label part → ∀ failure, ¬ runs.fails part failure

/-- An error comes out through all runs around it, and the fields on its way add their names. -/
theorem fails_of_reaches {names : List String} (h : runs.Reaches run names origin) {cause : Error}
    (hcause : runs.fails origin (.error cause)) :
    runs.fails run (.error (cause.inFields names)) := by
  induction h with
  | here run => rwa [Error.inFields_nil]
  | inside contained _ ih =>
    rw [← Failure.outside_error]
    exact runs.outside contained (ih hcause)

/-- Every error has an origin. By induction on the runs inside: if a part fails, its failure is the
one that has come out. -/
theorem exists_origin {e : Error} (h : runs.fails run (.error e)) :
    ∃ names origin cause, runs.Reaches run names origin ∧ runs.FailsItself origin cause ∧
      e = cause.inFields names := by
  induction run using runs.wellFounded.induction generalizing e with
  | _ run ih =>
    by_cases hpart : ∃ label part failure, runs.contains run label part ∧ runs.fails part failure
    · obtain ⟨label, part, failure, hcontains, hfails⟩ := hpart
      have hsame : failure.outside label = .error e :=
        runs.unique (runs.outside hcontains hfails) h
      obtain ⟨inner, rfl⟩ := Failure.exists_of_outside hsame
      obtain ⟨names, origin, cause, hreaches, horigin, rfl⟩ := ih part ⟨label, hcontains⟩ hfails
      rw [Failure.outside_error] at hsame
      cases hsame
      exact ⟨_, origin, cause, .inside hcontains hreaches, horigin, rfl⟩
    · refine ⟨[], run, e, .here run, ⟨h, ?_⟩, e.inFields_nil.symm⟩
      exact fun label part hcontains failure hfails ↦
        hpart ⟨label, part, failure, hcontains, hfails⟩

end NestedRuns

/-! ### Parts of codecs -/

variable {S : Signature}

/-- The codec is one of the parts of a tuple. -/
def Items.HasPart (part : (β : Type) × Codec S β) : {α : Type} → Items S α → Prop
  | _, .nil => False
  | _, .cons item rest => part = ⟨_, item⟩ ∨ rest.HasPart part

/-- The codec is that of a field. -/
def Fields.HasPart (part : (β : Type) × Codec S β) : {R : Type} → Fields S R → Prop
  | _, .nil => False
  | _, .cons _ _ _ _ codec rest => part = ⟨_, codec⟩ ∨ rest.HasPart part

/-- The codec is that of a key. -/
def Table.HasPart (part : (β : Type) × Codec S β) : {K V : Type} → Table S K V → Prop
  | _, _, .nil => False
  | _, _, .cons _ codec rest => part = ⟨_, codec⟩ ∨ rest.HasPart part

/-- One codec is a part of another. A reference has no parts. -/
def Codec.HasPart (part : (β : Type) × Codec S β) : {α : Type} → Codec S α → Prop
  | _, .leaf _ => False
  | _, .tuple items => items.HasPart part
  | _, .fixedList item _ => part = ⟨_, item⟩
  | _, .exhaustList item _ => part = ⟨_, item⟩
  | _, .map _ _ wire => part = ⟨_, wire⟩
  | _, .case _ _ payload => part = ⟨_, payload⟩
  | _, .byteCounted length _ payload => part = ⟨_, length⟩ ∨ part = ⟨_, payload⟩
  | _, .itemCounted length _ _ body => part = ⟨_, length⟩ ∨ ∃ n, part = ⟨_, body n⟩
  | _, .record _ fields => fields.HasPart part
  | _, .tagged (i := _) tag _ _ table fallback _ _ =>
    part = ⟨_, tag⟩ ∨ table.HasPart part ∨ part = ⟨_, fallback⟩
  | _, .choice (i := _) (j := _) tag _ _ _ _ table => part = ⟨_, tag⟩ ∨ table.HasPart part
  | _, .lazy _ _ => False

theorem Table.hasPart_of_find? : {K V : Type} → [DecidableEq K] → {table : Table S K V} →
    {wanted : K} → {codec : Codec S V} → table.find? wanted = some codec →
    table.HasPart ⟨_, codec⟩
  | _, _, _, .nil, _, _, h => by cases h
  | _, _, _, .cons key first rest, wanted, codec, h => by
    rw [Table.find?] at h
    by_cases hkey : key = wanted
    · rw [if_pos hkey] at h
      cases h
      exact Or.inl rfl
    · rw [if_neg hkey] at h
      exact Or.inr (hasPart_of_find? h)

/-- The codec that the values of a key go through is in the table or the one for other keys. -/
theorem Table.hasPart_codecOf {K V : Type} [DecidableEq K] (table : Table S K V)
    (fallback : Codec S V) (key : K) :
    table.HasPart ⟨_, table.codecOf fallback key⟩ ∨
      (⟨_, table.codecOf fallback key⟩ : (β : Type) × Codec S β) = ⟨_, fallback⟩ := by
  rw [Table.codecOf]
  cases hfind : table.find? key with
  | none => exact Or.inr rfl
  | some codec => exact Or.inl (Table.hasPart_of_find? hfind)

/-! What holds of a codec whenever it holds of its parts holds of all codecs. -/

section Induction

variable {motive : (β : Type) × Codec S β → Prop}

mutual

theorem Codec.part_induction
    (h : ∀ {β : Type} (codec : Codec S β), (∀ part, codec.HasPart part → motive part) →
      motive ⟨β, codec⟩) :
    {α : Type} → (codec : Codec S α) → motive ⟨α, codec⟩
  | _, .leaf _ => h _ nofun
  | _, .tuple items => h _ (items.part_induction h)
  | _, .fixedList item _ => h _ (by rintro _ rfl; exact item.part_induction h)
  | _, .exhaustList item _ => h _ (by rintro _ rfl; exact item.part_induction h)
  | _, .map _ _ wire => h _ (by rintro _ rfl; exact wire.part_induction h)
  | _, .case _ _ payload => h _ (by rintro _ rfl; exact payload.part_induction h)
  | _, .byteCounted length _ payload => h _ (by
    rintro _ (rfl | rfl)
    · exact length.part_induction h
    · exact payload.part_induction h)
  | _, .itemCounted length _ _ body => h _ (by
    rintro _ (rfl | ⟨n, rfl⟩)
    · exact length.part_induction h
    · exact (body n).part_induction h)
  | _, .record _ fields => h _ (fields.part_induction h)
  | _, .tagged (i := _) tag _ _ table fallback _ _ => h _ (by
    rintro _ (rfl | htable | rfl)
    · exact tag.part_induction h
    · exact table.part_induction h _ htable
    · exact fallback.part_induction h)
  | _, .choice (i := _) (j := _) tag _ _ _ _ table => h _ (by
    rintro _ (rfl | htable)
    · exact tag.part_induction h
    · exact table.part_induction h _ htable)
  | _, .lazy _ _ => h _ nofun

theorem Items.part_induction
    (h : ∀ {β : Type} (codec : Codec S β), (∀ part, codec.HasPart part → motive part) →
      motive ⟨β, codec⟩) :
    {α : Type} → (items : Items S α) → ∀ part, items.HasPart part → motive part
  | _, .nil, _, hpart => hpart.elim
  | _, .cons item rest, part, hpart => by
    rcases hpart with rfl | hrest
    · exact item.part_induction h
    · exact rest.part_induction h part hrest

theorem Fields.part_induction
    (h : ∀ {β : Type} (codec : Codec S β), (∀ part, codec.HasPart part → motive part) →
      motive ⟨β, codec⟩) :
    {R : Type} → (fields : Fields S R) → ∀ part, fields.HasPart part → motive part
  | _, .nil, _, hpart => hpart.elim
  | _, .cons _ _ _ _ codec rest, part, hpart => by
    rcases hpart with rfl | hrest
    · exact codec.part_induction h
    · exact rest.part_induction h part hrest

theorem Table.part_induction
    (h : ∀ {β : Type} (codec : Codec S β), (∀ part, codec.HasPart part → motive part) →
      motive ⟨β, codec⟩) :
    {K V : Type} → (table : Table S K V) → ∀ part, table.HasPart part → motive part
  | _, _, .nil, _, hpart => hpart.elim
  | _, _, .cons _ codec rest, part, hpart => by
    rcases hpart with rfl | hrest
    · exact codec.part_induction h
    · exact rest.part_induction h part hrest

end

end Induction

end WireFormat
