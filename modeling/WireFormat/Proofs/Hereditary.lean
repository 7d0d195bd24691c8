import WireFormat.Codec.Decode
import WireFormat.Codec.Encode
import WireFormat.Proofs.Numbers

/-!
# Properties that pass from the parts of a codec to the whole

Much of what is shown of codecs is a property of actions: it holds of raw reads and writes, and
every way in which actions are put together keeps it. Such a property is hereditary
(`Decoding.Hereditary`, `Encoding.Hereditary`). It holds of every codec, by one induction over
codecs for each direction (`Codec.hereditary_decodeWith`, `Codec.hereditary_encodeWith`), and
whatever is referred to, by an induction over the levels of references. What leaves write is put
together from few things, too (`Sink.Hereditary`, `Leaf.hereditary_encode`).
-/

set_option autoImplicit false
set_option relaxedAutoImplicit false

namespace WireFormat

variable {S : Signature}

/-! ### Decoders -/

/-- The property holds of what decoders are made of, and every way of putting decoders together
keeps it. -/
structure Decoding.Hereditary (P : ∀ {α : Type}, Decoding α → Prop) : Prop where
  ofExcept : ∀ {α : Type} (result : Except Error α), P (ofExcept result)
  overflow : ∀ {α : Type}, P (throw .overflow : Decoding α)
  tooDeep : ∀ {α : Type}, P (throw .tooDeep : Decoding α)
  bind : ∀ {α β : Type} {action : Decoding α} {f : α → Decoding β},
    P action → (∀ a, P (f a)) → P (action >>= f)
  inField : ∀ {α : Type} (name : String) {action : Decoding α},
    P action → P (inField name action)
  leaf : ∀ {α : Type} (leaf : Leaf α), P (Stage.onStream leaf.decode)
  frame : ∀ {α : Type} (n : Nat) {inner : Decoding α}, P inner →
    P (Stage.onStream (Source.take n) >>= fun frame ↦ Decoding.inFrame frame inner)
  expectItem : ∀ read requested : Nat, P (Decoding.expectItem read requested)
  itemsToEnd : ∀ {α : Type} {item : Decoding α} (allowance : Option Nat),
    P item → P (Decoding.itemsToEnd item allowance)
  entriesToEnd : ∀ {K V R : Type} {entry : Decoding (K × V)} (add : R → K → V → R)
    (allowance : Option Nat) (record : R),
    P entry → P (Decoding.entriesToEnd entry add allowance record)
  use : ∀ cell : LazyCell, P (Stage.onCells (Cells.use cell))

namespace Decoding.Hereditary

variable {P : ∀ {α : Type}, Decoding α → Prop} (h : Decoding.Hereditary P)

include h

theorem pure {α : Type} (a : α) : P (pure a : Decoding α) :=
  h.ofExcept (.ok a)

theorem fail {α : Type} (kind : ErrorKind) : P (fail kind : Decoding α) :=
  h.ofExcept (.error { kind })

/-- A list of a known length. -/
theorem items {α : Type} {item : Decoding α} (hitem : P item) (sized : Bool)
    (requested left : Nat) : P (Decoding.items item sized requested left) := by
  induction left with
  | zero => exact h.pure []
  | succ left ih =>
    have hvalues : P (do
        let value ← item
        let values ← Decoding.items item sized requested left
        return value :: values) :=
      h.bind hitem fun value ↦ h.bind ih fun values ↦ h.pure _
    cases sized with
    | false => exact hvalues
    | true => exact h.bind (h.expectItem _ _) fun _ ↦ hvalues

end Decoding.Hereditary

section Decode

variable {P : ∀ {α : Type}, Decoding α → Prop}
  {references : (name : S.Name) → Decoding (S.Value name)}

/-! One level of references: if the decoders of the names have the property, then so does that of a
codec, of the parts of a tuple, of the fields of a record or of a table. -/

mutual

theorem Codec.hereditary_decodeWith (h : Decoding.Hereditary P)
    (hreferences : ∀ name, P (references name)) :
    {α : Type} → (codec : Codec S α) → P (codec.decodeWith references)
  | _, .leaf leaf => h.leaf leaf
  | _, .tuple items => items.hereditary_decodeWith h hreferences
  | _, .fixedList item count => by
    rw [Codec.decodeWith]
    cases item.size with
    | overflow => exact h.overflow
    | _ => exact h.items (item.hereditary_decodeWith h hreferences) _ _ _
  | _, .exhaustList item max => h.itemsToEnd max (item.hereditary_decodeWith h hreferences)
  | _, .map _ fromWire wire =>
    h.bind (wire.hereditary_decodeWith h hreferences) fun _ ↦ h.ofExcept _
  | _, .case _ _ payload =>
    h.bind (payload.hereditary_decodeWith h hreferences) fun _ ↦ h.pure _
  | _, .byteCounted length range payload => by
    refine h.bind (length.hereditary_decodeWith h hreferences) fun n ↦ ?_
    refine h.bind (h.ofExcept _) fun n ↦ ?_
    exact h.frame n (payload.hereditary_decodeWith h hreferences)
  | _, .itemCounted length range _ body => by
    refine h.bind (length.hereditary_decodeWith h hreferences) fun n ↦ ?_
    exact h.bind (h.ofExcept _) fun n ↦ (body n).hereditary_decodeWith h hreferences
  | _, .record factory fields => by
    cases factory with
    | none => exact h.fail _
    | some start => exact fields.hereditary_decodeWith h hreferences start
  | _, .tagged (i := _) tag display access table fallback max factory => by
    cases factory with
    | none => exact h.fail _
    | some start =>
      refine h.entriesToEnd _ _ _ ?_
      refine h.bind (tag.hereditary_decodeWith h hreferences) fun key ↦ ?_
      refine h.bind (h.inField _ ?_) fun value ↦ h.pure _
      have htable := table.hereditary_decodeAt h hreferences key
      cases hdecode : table.decodeAt references key with
      | none => exact fallback.hereditary_decodeWith h hreferences
      | some decode => exact htable decode hdecode
  | _, .choice (i := _) (j := _) tag showTag showKind _ registry table => by
    refine h.bind (tag.hereditary_decodeWith h hreferences) fun key ↦ ?_
    cases registry.kindOf? key with
    | none => exact h.fail _
    | some kind =>
      have htable := table.hereditary_decodeAt h hreferences kind
      cases hdecode : table.decodeAt references kind with
      | none =>
        simp only [hdecode]
        exact h.fail _
      | some decode =>
        simp only [hdecode]
        exact htable decode hdecode
  | _, .lazy cell name => h.bind (h.use cell) fun _ ↦ hreferences name

theorem Items.hereditary_decodeWith (h : Decoding.Hereditary P)
    (hreferences : ∀ name, P (references name)) :
    {α : Type} → (items : Items S α) → P (items.decodeWith references)
  | _, .nil => h.pure ()
  | _, .cons item rest =>
    h.bind (item.hereditary_decodeWith h hreferences) fun _ ↦
      h.bind (rest.hereditary_decodeWith h hreferences) fun _ ↦ h.pure _

theorem Fields.hereditary_decodeWith (h : Decoding.Hereditary P)
    (hreferences : ∀ name, P (references name)) :
    {R : Type} → (fields : Fields S R) → (record : R) → P (fields.decodeWith references record)
  | _, .nil, record => h.pure record
  | _, .cons name _ set present codec rest, record => by
    rw [Fields.decodeWith]
    by_cases hpresent : present record = true
    · rw [if_pos hpresent]
      exact h.bind (h.inField name (codec.hereditary_decodeWith h hreferences)) fun value ↦
        rest.hereditary_decodeWith h hreferences (set record value)
    · rw [if_neg hpresent]
      exact rest.hereditary_decodeWith h hreferences record

theorem Table.hereditary_decodeAt (h : Decoding.Hereditary P)
    (hreferences : ∀ name, P (references name)) :
    {K V : Type} → [DecidableEq K] → (table : Table S K V) → (wanted : K) →
    ∀ decode, table.decodeAt references wanted = some decode → P decode
  | _, _, _, .nil, _, _, hdecode => by cases hdecode
  | _, _, _, .cons key codec rest, wanted, decode, hdecode => by
    rw [Table.decodeAt] at hdecode
    by_cases hkey : key = wanted
    · rw [if_pos hkey] at hdecode
      cases hdecode
      exact codec.hereditary_decodeWith h hreferences
    · rw [if_neg hkey] at hdecode
      exact rest.hereditary_decodeAt h hreferences wanted decode hdecode

end

/-- By induction on the levels of references that are left. -/
theorem Definitions.hereditary_decodeWithin (h : Decoding.Hereditary P)
    (definitions : Definitions S) (depth : Nat) (name : S.Name) :
    P (definitions.decodeWithin depth name) := by
  induction depth generalizing name with
  | zero => exact h.tooDeep
  | succ depth ih => exact (definitions name).hereditary_decodeWith h ih

theorem Codec.hereditary_decode (h : Decoding.Hereditary P) {α : Type} (codec : Codec S α)
    (definitions : Definitions S) (depth : Nat) : P (codec.decode definitions depth) :=
  codec.hereditary_decodeWith h (definitions.hereditary_decodeWithin h depth)

end Decode

/-! ### Encoders of leaves -/

/-- The property holds of what encoders of leaves are made of, and every sequence keeps it. -/
structure Sink.Hereditary (P : ∀ {α : Type}, Action Sink α → Prop) : Prop where
  pure : ∀ {α : Type} (a : α), P (pure a : Action Sink α)
  fail : ∀ {α : Type} (kind : ErrorKind), P (fail kind : Action Sink α)
  overflow : ∀ {α : Type}, P (throw .overflow : Action Sink α)
  bind : ∀ {α β : Type} {action : Action Sink α} {f : α → Action Sink β},
    P action → (∀ a, P (f a)) → P (action >>= f)
  text : ∀ (charset : Charset) (text : String), P (ofExcept (charset.encode text))
  digits : ∀ (format : PackedDigits) (chars : List Char), P (ofExcept (format.values chars))
  put : ∀ bytes : List UInt8, P (Sink.put bytes)

section Leaves

variable {P : ∀ {α : Type}, Action Sink α → Prop} (h : Sink.Hereditary P)

include h

omit h in
theorem Sink.Hereditary.ite {α : Type} {condition : Prop} [Decidable condition]
    {first second : Action Sink α} (hfirst : P first) (hsecond : P second) :
    P (if condition then first else second) := by
  by_cases hcondition : condition
  · rwa [if_pos hcondition]
  · rwa [if_neg hcondition]

/-- A test in front of an action. -/
theorem Sink.Hereditary.guard {α : Type} {condition : Prop} [Decidable condition]
    {kind : ErrorKind} {action : Action Sink α} (haction : P action) :
    P (if condition then WireFormat.fail kind >>= fun _ : PUnit ↦ action else action) :=
  ite (h.bind (h.fail kind) fun _ ↦ haction) haction

/-- Bytes that are put and reported. -/
theorem Sink.Hereditary.report {α : Type} (bytes : List UInt8) (report : Nat → α) :
    P (do return report (← Sink.put bytes)) :=
  h.bind (h.put bytes) fun _ ↦ h.pure _

theorem LengthWidth.hereditary_encode (width : LengthWidth) (length : Nat) :
    P (width.encode length) := by
  refine h.guard ?_
  cases width.byteCount? with
  | some n => exact h.report _ _
  | none =>
    rw [Varint.write_eq_put]
    exact h.report _ _

theorem PaddedText.hereditary_encode (format : PaddedText) (text : String) :
    P (format.encode text) := by
  have hput (front back : List UInt8) : P (do
      let written ← Sink.put front
      let writtenBehind ← Sink.put back
      return (⟨text.toList.length, written + writtenBehind⟩ : Written)) :=
    h.bind (h.put front) fun _ ↦ h.bind (h.put back) fun _ ↦ h.pure _
  refine h.bind (h.text _ _) fun bytes ↦ h.guard ?_
  refine h.bind (h.text _ _) fun fill ↦ h.guard ?_
  -- The guard against fillings that cannot be allocated throws, so that it is not one of the above.
  refine Sink.Hereditary.ite (h.bind h.overflow fun _ ↦ ?_) ?_ <;>
  · cases format.alignment <;> exact hput _ _

theorem PackedDigits.hereditary_encode (format : PackedDigits) (text : String) :
    P (format.encode text) :=
  h.guard (h.bind (h.digits _ _) fun _ ↦ h.report _ _)

theorem Leaf.hereditary_encode {α : Type} (leaf : Leaf α) (value : α) : P (leaf.encode value) := by
  cases leaf with
  | word n => exact h.report _ _
  | bool => exact h.report _ _
  | length width => exact width.hereditary_encode h value
  | varint width =>
    rw [Leaf.encode, Varint.write_eq_put]
    exact h.report _ _
  | signedVarint width =>
    rw [Leaf.encode, Varint.write_eq_put]
    exact h.report _ _
  | bytes count => exact h.guard (h.report _ _)
  | remainingBytes => exact h.report _ _
  | fail => exact h.fail _
  | text charset count => exact h.guard (h.bind (h.text _ _) fun bytes ↦ h.report bytes _)
  | remainingText charset => exact h.bind (h.text _ _) fun bytes ↦ h.report bytes _
  | padded format => exact format.hereditary_encode h value
  | digits format => exact format.hereditary_encode h value

end Leaves

/-! ### Encoders -/

/-- The property holds of what encoders are made of, and every way of putting encoders together
keeps it. -/
structure Encoding.Hereditary (P : ∀ {α : Type}, Action (Stage Sink) α → Prop) : Prop where
  ofExcept : ∀ {α : Type} (result : Except Error α), P (ofExcept result)
  tooDeep : ∀ {α : Type}, P (throw .tooDeep : Action (Stage Sink) α)
  bind : ∀ {α β : Type} {action : Action (Stage Sink) α} {f : α → Action (Stage Sink) β},
    P action → (∀ a, P (f a)) → P (action >>= f)
  inField : ∀ {α : Type} (name : String) {action : Action (Stage Sink) α},
    P action → P (inField name action)
  leaf : ∀ {α : Type} (leaf : Leaf α) (value : α), P (Stage.onStream (leaf.encode value))
  put : ∀ bytes : List UInt8, P (Stage.onStream (Sink.put bytes))
  scratch : ∀ {α : Type} {action : Action (Stage Sink) α},
    P action → P (Stage.onOther Sink.growable action : Action (Stage Sink) (α × Sink))
  use : ∀ cell : LazyCell, P (Stage.onCells (Cells.use cell))

namespace Encoding.Hereditary

variable {P : ∀ {α : Type}, Action (Stage Sink) α → Prop} (h : Encoding.Hereditary P)

include h

theorem pure {α : Type} (a : α) : P (pure a : Action (Stage Sink) α) :=
  h.ofExcept (.ok a)

theorem fail {α : Type} (kind : ErrorKind) : P (fail kind : Action (Stage Sink) α) :=
  h.ofExcept (.error { kind })

/-- A test in front of an action. -/
theorem guard {α : Type} {condition : Prop} [Decidable condition] {kind : ErrorKind}
    {action : Action (Stage Sink) α} (haction : P action) :
    P (if condition then WireFormat.fail kind >>= fun _ : PUnit ↦ action else action) := by
  by_cases hcondition : condition
  · rw [if_pos hcondition]
    exact h.bind (h.fail kind) fun _ ↦ haction
  · rwa [if_neg hcondition]

theorem items {α : Type} {item : α → Encoding} (hitem : ∀ value, P (item value))
    (values : List α) : P (Encoding.items item values) := by
  induction values with
  | nil => exact h.pure 0
  | cons value values ih =>
    exact h.bind (hitem value) fun _ ↦ h.bind ih fun _ ↦ h.pure _

theorem entries {E : Type} {entry : E → Encoding} (hentry : ∀ e, P (entry e)) (list : List E) :
    P (Encoding.entries entry list) := by
  induction list with
  | nil => exact h.pure Written.none
  | cons e list ih => exact h.bind (hentry e) fun _ ↦ h.bind ih fun _ ↦ h.pure _

end Encoding.Hereditary

section Encode

variable {P : ∀ {α : Type}, Action (Stage Sink) α → Prop}
  {references : (name : S.Name) → S.Value name → Encoding}

/-! One level of references, for encoders. -/

mutual

theorem Codec.hereditary_encodeWith (h : Encoding.Hereditary P)
    (hreferences : ∀ name value, P (references name value)) :
    {α : Type} → (codec : Codec S α) → (value : α) → P (codec.encodeWith references value)
  | _, .leaf leaf, value => h.leaf leaf value
  | _, .tuple items, value => items.hereditary_encodeWith h hreferences value
  | _, .fixedList item count, values => by
    have hitems := h.items (item.hereditary_encodeWith h hreferences) values
    exact h.guard (h.bind hitems fun _ ↦ h.pure _)
  | _, .exhaustList item max, values => by
    have hitems := h.items (item.hereditary_encodeWith h hreferences) values
    exact h.guard (h.bind hitems fun _ ↦ h.pure _)
  | _, .map toWire _ wire, value => wire.hereditary_encodeWith h hreferences (toWire value)
  | _, .case _ unwrap payload, value => by
    rw [Codec.encodeWith]
    cases unwrap value with
    | some inner => exact payload.hereditary_encodeWith h hreferences inner
    | none => exact h.fail _
  | _, .byteCounted length range payload, value => by
    have hpayload := payload.hereditary_encodeWith h hreferences value
    refine h.bind (h.scratch hpayload) fun (inner, scratch) ↦ ?_
    refine h.bind (h.ofExcept _) fun n ↦ ?_
    refine h.bind (length.hereditary_encodeWith h hreferences n) fun lead ↦ ?_
    exact h.bind (h.put _) fun _ ↦ h.pure _
  | _, .itemCounted length range count body, value => by
    refine h.bind (h.ofExcept _) fun n ↦ ?_
    refine h.bind (length.hereditary_encodeWith h hreferences n) fun lead ↦ ?_
    exact h.bind ((body n).hereditary_encodeWith h hreferences value) fun _ ↦ h.pure _
  | _, .record _ fields, value => fields.hereditary_encodeWith h hreferences value
  | _, .tagged (i := _) tag display access table fallback max _, value => by
    refine h.guard (h.entries (fun (key, item) ↦ h.inField _ ?_) _)
    refine h.bind (tag.hereditary_encodeWith h hreferences key) fun lead ↦ ?_
    cases hencode : table.encodeAt references key with
    | some encode =>
      have hvalue := table.hereditary_encodeAt h hreferences key encode hencode item
      exact h.bind hvalue fun _ ↦ h.pure _
    | none =>
      exact h.bind (fallback.hereditary_encodeWith h hreferences item) fun _ ↦ h.pure _
  | _, .choice (i := _) (j := _) tag _ showKind kind registry table, value => by
    rw [Codec.encodeWith]
    cases registry.tagOf? (kind value) with
    | none => exact h.fail _
    | some key =>
      cases hencode : table.encodeAt references (kind value) with
      | none => exact h.fail _
      | some encode =>
        have hvalue := table.hereditary_encodeAt h hreferences (kind value) encode hencode value
        refine h.bind (tag.hereditary_encodeWith h hreferences key) fun lead ↦ ?_
        exact h.bind hvalue fun _ ↦ h.pure _
  | _, .lazy cell name, value => h.bind (h.use cell) fun _ ↦ hreferences name value

theorem Items.hereditary_encodeWith (h : Encoding.Hereditary P)
    (hreferences : ∀ name value, P (references name value)) :
    {α : Type} → (items : Items S α) → (value : α) → P (items.encodeWith references value)
  | _, .nil, _ => h.pure _
  | _, .cons item rest, (value, values) =>
    h.bind (item.hereditary_encodeWith h hreferences value) fun _ ↦
      h.bind (rest.hereditary_encodeWith h hreferences values) fun _ ↦ h.pure _

theorem Fields.hereditary_encodeWith (h : Encoding.Hereditary P)
    (hreferences : ∀ name value, P (references name value)) :
    {R : Type} → (fields : Fields S R) → (value : R) → P (fields.encodeWith references value)
  | _, .nil, _ => h.pure _
  | _, .cons name get _ present codec rest, value => by
    have hrest := rest.hereditary_encodeWith h hreferences value
    rw [Fields.encodeWith]
    by_cases hpresent : present value = true
    · rw [if_pos hpresent]
      refine h.bind (h.inField name ?_) fun written ↦ h.bind hrest fun _ ↦ h.pure _
      cases get value with
      | some inner => exact codec.hereditary_encodeWith h hreferences inner
      | none => exact h.fail _
    · rwa [if_neg hpresent]

theorem Table.hereditary_encodeAt (h : Encoding.Hereditary P)
    (hreferences : ∀ name value, P (references name value)) :
    {K V : Type} → [DecidableEq K] → (table : Table S K V) → (wanted : K) →
    ∀ encode, table.encodeAt references wanted = some encode → ∀ value, P (encode value)
  | _, _, _, .nil, _, _, hencode, _ => by cases hencode
  | _, _, _, .cons key codec rest, wanted, encode, hencode, value => by
    rw [Table.encodeAt] at hencode
    by_cases hkey : key = wanted
    · rw [if_pos hkey] at hencode
      cases hencode
      exact codec.hereditary_encodeWith h hreferences value
    · rw [if_neg hkey] at hencode
      exact rest.hereditary_encodeAt h hreferences wanted encode hencode value

end

theorem Definitions.hereditary_encodeWithin (h : Encoding.Hereditary P)
    (definitions : Definitions S) (depth : Nat) (name : S.Name) (value : S.Value name) :
    P (definitions.encodeWithin depth name value) := by
  induction depth generalizing name with
  | zero => exact h.tooDeep
  | succ depth ih => exact (definitions name).hereditary_encodeWith h ih value

theorem Codec.hereditary_encode (h : Encoding.Hereditary P) {α : Type} (codec : Codec S α)
    (definitions : Definitions S) (depth : Nat) (value : α) :
    P (codec.encode definitions depth value) :=
  codec.hereditary_encodeWith h (definitions.hereditary_encodeWithin h depth) value

end Encode

end WireFormat
