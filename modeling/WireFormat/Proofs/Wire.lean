import WireFormat.Codec.Encode
import WireFormat.Proofs.LeafBytes

/-!
# The bytes of a value

What a codec writes is a function of the value: `Codec.wire?` gives the bytes, or nothing where the
format has none for the value, without a sink, its capacity or the state of references. An encoder
that succeeds has added exactly these bytes to its sink and reports their number
(`Codec.writes_encodeWith`, `Codec.writes_encode`).
-/

set_option autoImplicit false
set_option relaxedAutoImplicit false

namespace WireFormat

/-! ### Codecs -/

/-- The bytes of several values, one after another. -/
def wireAll {α : Type} (item : α → Option (List UInt8)) : List α → Option (List UInt8)
  | [] => some []
  | value :: values => do
    let first ← item value
    let others ← wireAll item values
    return first ++ others

theorem wireAll_cons_eq_some {α : Type} {item : α → Option (List UInt8)} {value : α}
    {values : List α} {code : List UInt8} :
    wireAll item (value :: values) = some code ↔
      ∃ first others, item value = some first ∧ wireAll item values = some others ∧
        code = first ++ others := by
  cases hfirst : item value with
  | none => simp [wireAll, hfirst]
  | some first =>
    cases hothers : wireAll item values with
    | none => simp [wireAll, hfirst, hothers]
    | some others => simp [wireAll, hfirst, hothers, eq_comm]

variable {S : Signature}

mutual

/-- The bytes of a value; `references` gives those of the values of the names referred to. -/
def Codec.wire? (references : (name : S.Name) → S.Value name → Option (List UInt8)) :
    {α : Type} → Codec S α → α → Option (List UInt8)
  | _, .leaf leaf, value => leaf.wire? value
  | _, .tuple items, value => items.wire? references value
  | _, .fixedList item count, values =>
    if values.length = count then wireAll (item.wire? references) values else none
  | _, .exhaustList item max, values =>
    if max.any (· < values.length) then none else wireAll (item.wire? references) values
  | _, .map toWire _ wire, value => wire.wire? references (toWire value)
  | _, .case _ unwrap payload, value =>
    match unwrap value with
    | some inner => payload.wire? references inner
    | none => none
  | _, .byteCounted length range payload, value => do
    let inner ← payload.wire? references value
    if range.contains inner.length then
      let lead ← length.wire? references inner.length
      return lead ++ inner
    else none
  | _, .itemCounted length range count body, value =>
    if range.contains (count value) then do
      let lead ← length.wire? references (count value)
      let inner ← (body (count value)).wire? references value
      return lead ++ inner
    else none
  | _, .record _ fields, value => fields.wire? references value
  | _, .tagged (i := _) tag _ access table fallback max _, value =>
    if max.any (· < (access.entries value).length) then none
    else
      wireAll
        (fun (key, item) ↦ do
          let lead ← tag.wire? references key
          let inner ← match table.wireAt references key with
            | some wire => wire item
            | none => fallback.wire? references item
          return lead ++ inner)
        (access.entries value)
  | _, .choice (i := _) (j := _) tag _ _ kind registry table, value =>
    match registry.tagOf? (kind value), table.wireAt references (kind value) with
    | some key, some wire => do
      let lead ← tag.wire? references key
      let inner ← wire value
      return lead ++ inner
    | _, _ => none
  | _, .lazy _ name, value => references name value

/-- The bytes of the parts of a tuple. -/
def Items.wire? (references : (name : S.Name) → S.Value name → Option (List UInt8)) :
    {α : Type} → Items S α → α → Option (List UInt8)
  | _, .nil, _ => some []
  | _, .cons item rest, (value, values) => do
    let first ← item.wire? references value
    let others ← rest.wire? references values
    return first ++ others

/-- The bytes of the fields of a record that are present in it. -/
def Fields.wire? (references : (name : S.Name) → S.Value name → Option (List UInt8)) :
    {R : Type} → Fields S R → R → Option (List UInt8)
  | _, .nil, _ => some []
  | _, .cons _ get _ present codec rest, value =>
    if present value then
      match get value with
      | some inner => do
        let first ← codec.wire? references inner
        let others ← rest.wire? references value
        return first ++ others
      | none => none
    else rest.wire? references value

/-- The bytes of a value by the codec of a key. -/
def Table.wireAt (references : (name : S.Name) → S.Value name → Option (List UInt8)) :
    {K V : Type} → [DecidableEq K] → Table S K V → K → Option (V → Option (List UInt8))
  | _, _, _, .nil, _ => none
  | _, _, _, .cons key codec rest, wanted =>
    if key = wanted then some (codec.wire? references) else rest.wireAt references wanted

end

theorem Items.wire?_cons_eq_some {references : (name : S.Name) → S.Value name →
    Option (List UInt8)} {α β : Type} {item : Codec S α} {rest : Items S β} {value : α}
    {values : β} {code : List UInt8} :
    (Items.cons item rest).wire? references (value, values) = some code ↔
      ∃ first others, item.wire? references value = some first ∧
        rest.wire? references values = some others ∧ code = first ++ others := by
  rw [Items.wire?]
  cases hfirst : item.wire? references value with
  | none => simp
  | some first => cases hothers : rest.wire? references values <;> simp [eq_comm]

theorem Codec.wire?_case_eq_some {references : (name : S.Name) → S.Value name →
    Option (List UInt8)} {α β : Type} {wrap : β → α} {unwrap : α → Option β}
    {payload : Codec S β} {value : α} {code : List UInt8} :
    (Codec.case wrap unwrap payload).wire? references value = some code ↔
      ∃ inner, unwrap value = some inner ∧ payload.wire? references inner = some code := by
  rw [Codec.wire?]
  cases unwrap value <;> simp

theorem Codec.wire?_byteCounted_eq_some {references : (name : S.Name) → S.Value name →
    Option (List UInt8)} {α : Type} {length : Codec S Nat} {range : LengthRange}
    {payload : Codec S α} {value : α} {code : List UInt8} :
    (Codec.byteCounted length range payload).wire? references value = some code ↔
      ∃ inner lead, payload.wire? references value = some inner ∧
        range.contains inner.length = true ∧ length.wire? references inner.length = some lead ∧
          code = lead ++ inner := by
  rw [Codec.wire?]
  cases hinner : payload.wire? references value with
  | none => simp
  | some inner =>
    by_cases hrange : range.contains inner.length = true
    · cases hlead : length.wire? references inner.length <;> simp [hrange, hlead, @eq_comm _ code]
    · simp [hrange]

theorem Codec.wire?_itemCounted_eq_some {references : (name : S.Name) → S.Value name →
    Option (List UInt8)} {α : Type} {length : Codec S Nat} {range : LengthRange}
    {count : α → Nat} {body : Nat → Codec S α} {value : α} {code : List UInt8} :
    (Codec.itemCounted length range count body).wire? references value = some code ↔
      ∃ lead inner, range.contains (count value) = true ∧
        length.wire? references (count value) = some lead ∧
          (body (count value)).wire? references value = some inner ∧ code = lead ++ inner := by
  rw [Codec.wire?]
  by_cases hrange : range.contains (count value) = true
  · cases hlead : length.wire? references (count value) with
    | none => simp [hrange]
    | some lead =>
      cases hinner : (body (count value)).wire? references value <;> simp [hrange, eq_comm]
  · simp [hrange]

theorem Codec.wire?_choice_eq_some {references : (name : S.Name) → S.Value name →
    Option (List UInt8)} {T K V : Type} [DecidableEq T] [DecidableEq K] {tag : Codec S T}
    {showTag : T → String} {showKind : K → String} {kind : V → K} {registry : Registry T K}
    {table : Table S K V} {value : V} {code : List UInt8} :
    (Codec.choice tag showTag showKind kind registry table).wire? references value =
        some code ↔
      ∃ key wire lead inner, registry.tagOf? (kind value) = some key ∧
        table.wireAt references (kind value) = some wire ∧
          tag.wire? references key = some lead ∧ wire value = some inner ∧
            code = lead ++ inner := by
  rw [Codec.wire?]
  cases hkey : registry.tagOf? (kind value) with
  | none => simp
  | some key =>
    cases hwire : table.wireAt references (kind value) with
    | none => simp
    | some wire =>
      cases hlead : tag.wire? references key with
      | none => simp [hlead]
      | some lead => cases hinner : wire value <;> simp [hlead, hinner, eq_comm]

/-- The bytes of a value of a name; there are `depth` levels of references left. -/
def Definitions.wireWithin (definitions : Definitions S) :
    Nat → (name : S.Name) → S.Value name → Option (List UInt8)
  | 0, _, _ => none
  | depth + 1, name, value => (definitions name).wire? (definitions.wireWithin depth) value

/-- The bytes of a value, following references to the given depth. -/
def Codec.wire {α : Type} (codec : Codec S α) (definitions : Definitions S) (depth : Nat)
    (value : α) : Option (List UInt8) :=
  codec.wire? (definitions.wireWithin depth) value

/-! ### Encoders of codecs write these bytes -/

/-- Where an encoder succeeds, it adds these bytes to its sink and reports their number. -/
def Encoding.Writes (encoder : Encoding) (code? : Option (List UInt8)) : Prop :=
  ∀ stage written after, encoder stage = .ok written after →
    ∃ code, code? = some code ∧ after.stream = stage.stream.extend code ∧
      written.bytes = code.length

namespace Encoding

variable {α : Type}

theorem writes_fail (kind : ErrorKind) (code? : Option (List UInt8)) :
    Writes (fail kind) code? := by
  intro stage written after h
  cases h

theorem writes_inField {name : String} {encoder : Encoding} {code? : Option (List UInt8)}
    (h : encoder.Writes code?) : Writes (inField name encoder) code? :=
  fun stage written after hrun ↦ h stage written after (inField_eq_ok.mp hrun)

/-- Two encoders one after the other, whose reports are put together. -/
theorem writes_both {first second : Encoding} {firstCode? secondCode? : Option (List UInt8)}
    (hfirst : first.Writes firstCode?) (hsecond : second.Writes secondCode?)
    {report : Written → Written → Written}
    (hreport : ∀ w w', (report w w').bytes = w.bytes + w'.bytes) :
    Writes (do
        let w ← first
        let w' ← second
        return report w w')
      (do
        let front ← firstCode?
        let back ← secondCode?
        return front ++ back) := by
  intro stage written after h
  obtain ⟨w, middle, hrun, h⟩ := bind_eq_ok.mp h
  obtain ⟨w', last, hrun', h⟩ := bind_eq_ok.mp h
  obtain ⟨rfl, rfl⟩ := pure_eq_ok.mp h
  obtain ⟨front, rfl, hmiddle, hfront⟩ := hfirst stage w middle hrun
  obtain ⟨back, rfl, hlast, hback⟩ := hsecond middle w' last hrun'
  refine ⟨front ++ back, rfl, ?_, ?_⟩
  · rw [hlast, hmiddle, Sink.extend_extend]
  · rw [hreport, hfront, hback, List.length_append]

theorem writes_items {item : α → Encoding} {code? : α → Option (List UInt8)}
    (hitem : ∀ value, (item value).Writes (code? value)) (count : Nat) (values : List α) :
    Writes (do return ⟨count, ← items item values⟩) (wireAll code? values) := by
  have hitems (stage : Stage Sink) (n : Nat) (after : Stage Sink)
      (h : items item values stage = .ok n after) : ∃ code, wireAll code? values = some code ∧
        after.stream = stage.stream.extend code ∧ n = code.length := by
    induction values generalizing stage n with
    | nil =>
      obtain ⟨rfl, rfl⟩ := pure_eq_ok.mp h
      exact ⟨[], rfl, (Sink.extend_nil _).symm, rfl⟩
    | cons value values ih =>
      obtain ⟨w, middle, hrun, h⟩ := bind_eq_ok.mp h
      obtain ⟨m, last, hrun', h⟩ := bind_eq_ok.mp h
      obtain ⟨rfl, rfl⟩ := pure_eq_ok.mp h
      obtain ⟨front, hfront, hmiddle, hbytes⟩ := hitem value stage w middle hrun
      obtain ⟨back, hback, hlast, rfl⟩ := ih middle m hrun'
      refine ⟨front ++ back, ?_, ?_, ?_⟩
      · simp only [wireAll, hfront, hback]
        rfl
      · rw [hlast, hmiddle, Sink.extend_extend]
      · rw [hbytes, List.length_append]
  intro stage written after h
  obtain ⟨n, last, hrun, h⟩ := bind_eq_ok.mp h
  obtain ⟨rfl, rfl⟩ := pure_eq_ok.mp h
  exact hitems stage n last hrun

theorem writes_entries {E : Type} {entry : E → Encoding} {code? : E → Option (List UInt8)}
    (hentry : ∀ e, (entry e).Writes (code? e)) (list : List E) :
    Writes (entries entry list) (wireAll code? list) := by
  induction list with
  | nil =>
    intro stage written after h
    obtain ⟨rfl, rfl⟩ := pure_eq_ok.mp h
    exact ⟨[], rfl, (Sink.extend_nil _).symm, rfl⟩
  | cons e list ih => exact writes_both (hentry e) ih fun _ _ ↦ rfl

end Encoding

open Encoding

mutual

theorem Codec.writes_encodeWith
    {references : (name : S.Name) → S.Value name → Encoding}
    {codes : (name : S.Name) → S.Value name → Option (List UInt8)}
    (hreferences : ∀ name value, (references name value).Writes (codes name value)) :
    {α : Type} → (codec : Codec S α) → (value : α) →
    (codec.encodeWith references value).Writes (codec.wire? codes value)
  | _, .leaf leaf, value => by
    intro stage written after h
    obtain ⟨h, -⟩ := Stage.onStream_eq_ok.mp h
    exact Leaf.encode_eq_ok h
  | _, .tuple items, value => items.writes_encodeWith hreferences value
  | _, .fixedList item count, values => by
    intro stage written after h
    obtain ⟨hcount, h⟩ := guard_eq_ok.mp h
    rw [Codec.wire?, if_pos (Decidable.not_not.mp hcount)]
    exact writes_items (item.writes_encodeWith hreferences) count values stage written after h
  | _, .exhaustList item max, values => by
    intro stage written after h
    obtain ⟨hmax, h⟩ := guard_eq_ok.mp h
    rw [Codec.wire?, if_neg hmax]
    exact writes_items (item.writes_encodeWith hreferences) _ values stage written after h
  | _, .map toWire _ wire, value => wire.writes_encodeWith hreferences (toWire value)
  | _, .case _ unwrap payload, value => by
    rw [Codec.encodeWith, Codec.wire?]
    cases unwrap value with
    | some inner => exact payload.writes_encodeWith hreferences inner
    | none => exact writes_fail _ _
  | _, .byteCounted length range payload, value => by
    intro stage written after h
    obtain ⟨⟨inner, scratch⟩, s1, hrun, h⟩ := bind_eq_ok.mp h
    obtain ⟨hpayload, hs1⟩ := Stage.onOther_eq_ok.mp hrun
    obtain ⟨code, hcode, hscratch, hbytes⟩ :=
      payload.writes_encodeWith hreferences value _ _ _ hpayload
    obtain ⟨n, s2, hrun, h⟩ := bind_eq_ok.mp h
    obtain ⟨hcheck, rfl⟩ := ofExcept_eq_ok.mp hrun
    obtain ⟨hcontains, rfl⟩ := LengthRange.check_eq_ok.mp hcheck
    obtain ⟨lead, s3, hlead, h⟩ := bind_eq_ok.mp h
    obtain ⟨front, hfront, hs3, hleadBytes⟩ :=
      length.writes_encodeWith hreferences _ _ _ _ hlead
    obtain ⟨m, s4, hrun, h⟩ := bind_eq_ok.mp h
    obtain ⟨hput, -⟩ := Stage.onStream_eq_ok.mp hrun
    obtain ⟨-, -, hs4⟩ := Sink.put_eq_ok.mp hput
    obtain ⟨rfl, rfl⟩ := pure_eq_ok.mp h
    have hwritten : scratch.written = code := by
      rw [show scratch = Sink.growable.extend code from hscratch]
      rfl
    rw [hwritten] at hcontains hfront hs4
    refine ⟨front ++ code, ?_, ?_, ?_⟩
    · simp only [Codec.wire?, hcode, Option.bind_eq_bind, Option.bind_some, hcontains, if_true,
        hfront]
      rfl
    · rw [hs4, hs3, hs1, Sink.extend_extend]
    · rw [List.length_append, ← hleadBytes, ← hbytes]
  | _, .itemCounted length range count body, value => by
    intro stage written after h
    obtain ⟨n, s1, hrun, h⟩ := bind_eq_ok.mp h
    obtain ⟨hcheck, rfl⟩ := ofExcept_eq_ok.mp hrun
    obtain ⟨hcontains, rfl⟩ := LengthRange.check_eq_ok.mp hcheck
    rw [Codec.wire?, if_pos hcontains]
    exact writes_both (length.writes_encodeWith hreferences _)
      ((body _).writes_encodeWith hreferences value) (fun _ _ ↦ rfl) stage written after h
  | _, .record _ fields, value => fields.writes_encodeWith hreferences value
  | _, .tagged (i := _) tag display access table fallback max _, value => by
    intro stage written after h
    obtain ⟨hmax, h⟩ := guard_eq_ok.mp h
    rw [Codec.wire?, if_neg hmax]
    refine writes_entries (fun (key, item) ↦ writes_inField ?_) _ stage written after h
    rcases table.writes_encodeAt hreferences key with
        ⟨encode, wire, hencode, hwire, hvalue⟩ | ⟨hencode, hwire⟩
    · simp only [hencode, hwire]
      exact writes_both (tag.writes_encodeWith hreferences key) (hvalue item) fun _ _ ↦ rfl
    · simp only [hencode, hwire]
      exact writes_both (tag.writes_encodeWith hreferences key)
        (fallback.writes_encodeWith hreferences item) fun _ _ ↦ rfl
  | _, .choice (i := _) (j := _) tag _ showKind kind registry table, value => by
    rw [Codec.encodeWith, Codec.wire?]
    cases registry.tagOf? (kind value) with
    | none => exact writes_fail _ _
    | some key =>
      rcases table.writes_encodeAt hreferences (kind value) with
          ⟨encode, wire, hencode, hwire, hvalue⟩ | ⟨hencode, hwire⟩
      · simp only [hencode, hwire]
        exact writes_both (tag.writes_encodeWith hreferences key) (hvalue value) fun _ _ ↦ rfl
      · simp only [hencode, hwire]
        exact writes_fail _ _
  | _, .lazy cell name, value => by
    intro stage written after h
    obtain ⟨_, middle, hcell, h⟩ := bind_eq_ok.mp h
    have hmiddle := Stage.stream_of_onCells hcell
    rw [← hmiddle]
    exact hreferences name value middle written after h

theorem Items.writes_encodeWith
    {references : (name : S.Name) → S.Value name → Encoding}
    {codes : (name : S.Name) → S.Value name → Option (List UInt8)}
    (hreferences : ∀ name value, (references name value).Writes (codes name value)) :
    {α : Type} → (items : Items S α) → (value : α) →
    (items.encodeWith references value).Writes (items.wire? codes value)
  | _, .nil, _ => by
    intro stage written after h
    obtain ⟨rfl, rfl⟩ := pure_eq_ok.mp h
    exact ⟨[], rfl, (Sink.extend_nil _).symm, rfl⟩
  | _, .cons item rest, (value, values) =>
    writes_both (item.writes_encodeWith hreferences value)
      (rest.writes_encodeWith hreferences values) fun _ _ ↦ rfl

theorem Fields.writes_encodeWith
    {references : (name : S.Name) → S.Value name → Encoding}
    {codes : (name : S.Name) → S.Value name → Option (List UInt8)}
    (hreferences : ∀ name value, (references name value).Writes (codes name value)) :
    {R : Type} → (fields : Fields S R) → (value : R) →
    (fields.encodeWith references value).Writes (fields.wire? codes value)
  | _, .nil, _ => by
    intro stage written after h
    obtain ⟨rfl, rfl⟩ := pure_eq_ok.mp h
    exact ⟨[], rfl, (Sink.extend_nil _).symm, rfl⟩
  | _, .cons name get _ present codec rest, value => by
    rw [Fields.encodeWith, Fields.wire?]
    by_cases hpresent : present value = true
    · rw [if_pos hpresent, if_pos hpresent]
      cases get value with
      | some inner =>
        exact writes_both (writes_inField (codec.writes_encodeWith hreferences inner))
          (rest.writes_encodeWith hreferences value) fun _ _ ↦ rfl
      | none =>
        intro stage written after h
        obtain ⟨w, middle, hrun, -⟩ := bind_eq_ok.mp h
        cases hrun
    · rw [if_neg hpresent, if_neg hpresent]
      exact rest.writes_encodeWith hreferences value

theorem Table.writes_encodeAt
    {references : (name : S.Name) → S.Value name → Encoding}
    {codes : (name : S.Name) → S.Value name → Option (List UInt8)}
    (hreferences : ∀ name value, (references name value).Writes (codes name value)) :
    {K V : Type} → [DecidableEq K] → (table : Table S K V) → (wanted : K) →
    (∃ encode wire, table.encodeAt references wanted = some encode ∧
      table.wireAt codes wanted = some wire ∧ ∀ value, (encode value).Writes (wire value)) ∨
    table.encodeAt references wanted = none ∧ table.wireAt codes wanted = none
  | _, _, _, .nil, _ => Or.inr ⟨rfl, rfl⟩
  | _, _, _, .cons key codec rest, wanted => by
    rw [Table.encodeAt, Table.wireAt]
    by_cases hkey : key = wanted
    · rw [if_pos hkey, if_pos hkey]
      exact Or.inl ⟨_, _, rfl, rfl, codec.writes_encodeWith hreferences⟩
    · rw [if_neg hkey, if_neg hkey]
      exact rest.writes_encodeAt hreferences wanted

end

/-- By induction on the levels of references that are left. -/
theorem Definitions.writes_encodeWithin (definitions : Definitions S) (depth : Nat)
    (name : S.Name) (value : S.Value name) :
    Writes (definitions.encodeWithin depth name value)
      (definitions.wireWithin depth name value) := by
  induction depth generalizing name with
  | zero =>
    intro stage written after h
    cases h
  | succ depth ih => exact (definitions name).writes_encodeWith ih value

/-- An encoder that succeeds has added the bytes of the value to its sink, and reports their
number. -/
theorem Codec.writes_encode {α : Type} (codec : Codec S α) (definitions : Definitions S)
    (depth : Nat) (value : α) :
    Writes (codec.encode definitions depth value) (codec.wire definitions depth value) :=
  codec.writes_encodeWith (definitions.writes_encodeWithin depth) value

end WireFormat
