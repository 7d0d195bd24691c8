import WireFormat.Codec.Basic

/-!
# Encoding

A codec writes a value to a sink and reports what it measured and how many bytes it wrote. What is
written before a failure stays written, except inside a frame whose length must be known first: its
payload is collected apart.

Reports are added up plainly, where `Written.add` would stop for a sum that is no machine word. The
bytes of all that is written stand in the sink, so that their number is a word, and items, fields
and entries are as many as a value in memory can have. Only the counts that a tag and its value
report may add up to more; their sum is asked for by nobody, and adding it in words could only make
fewer values encodable.

References are followed at most to a given depth; `Codec.encodeWith` is one level of that.
-/

set_option autoImplicit false
set_option relaxedAutoImplicit false

namespace WireFormat

/-- Writes to the sink of a stage. -/
abbrev Encoding : Type := Action (Stage Sink) Written

namespace Encoding

/-- Writes the items of a list and returns the number of bytes. -/
def items {α : Type} (item : α → Encoding) : List α → Action (Stage Sink) Nat
  | [] => pure 0
  | value :: values => do
    let written ← item value
    let rest ← items item values
    return written.bytes + rest

/-- The reports of two encoders that ran one after the other, the first of which wrote one field
or entry. -/
def oneMore (written rest : Written) : Written :=
  ⟨1 + rest.count, written.bytes + rest.bytes⟩

/-- Writes entries one after another and counts them. -/
def entries {E : Type} (entry : E → Encoding) : List E → Encoding
  | [] => pure Written.none
  | e :: es => do
    let written ← entry e
    let rest ← entries entry es
    return oneMore written rest

end Encoding

variable {S : Signature}

mutual

/-- Writes a value; `references` writes the values of the names that the codec refers to. -/
def Codec.encodeWith (references : (name : S.Name) → S.Value name → Encoding) :
    {α : Type} → Codec S α → α → Encoding
  | _, .leaf leaf, value => Stage.onStream (leaf.encode value)
  | _, .tuple items, value => items.encodeWith references value
  | _, .fixedList item count, values => do
    if values.length ≠ count then fail (.invalidLength values.length count)
    return ⟨count, ← Encoding.items (item.encodeWith references) values⟩
  | _, .exhaustList item max, values => do
    if max.any (· < values.length) then fail (.lengthOutOfRange values.length)
    return ⟨values.length, ← Encoding.items (item.encodeWith references) values⟩
  | _, .map toWire _ wire, value => wire.encodeWith references (toWire value)
  | _, .case _ unwrap payload, value =>
    match unwrap value with
    | some inner => payload.encodeWith references inner
    | none => fail (.invalid "variant" "value is another variant")
  | _, .byteCounted length range payload, value => do
    let (inner, scratch) ← Stage.onOther Sink.growable (payload.encodeWith references value)
    let n ← ofExcept (range.check scratch.written.length)
    let lead ← length.encodeWith references n
    let _ ← Stage.onStream (Sink.put scratch.written)
    return ⟨inner.count, lead.bytes + inner.bytes⟩
  | _, .itemCounted length range count body, value => do
    let n ← ofExcept (range.check (count value))
    let lead ← length.encodeWith references n
    let inner ← (body n).encodeWith references value
    return ⟨n, lead.bytes + inner.bytes⟩
  | _, .record _ fields, value => fields.encodeWith references value
  | _, .tagged (i := _) tag display access table fallback max _, value => do
    let entries := access.entries value
    if max.any (· < entries.length) then fail (.lengthOutOfRange entries.length)
    Encoding.entries
      (fun (key, item) ↦ inField (display key) do
        let lead ← tag.encodeWith references key
        let inner ← match table.encodeAt references key with
          | some encode => encode item
          | none => fallback.encodeWith references item
        return ⟨lead.count + inner.count, lead.bytes + inner.bytes⟩)
      entries
  | _, .choice (i := _) (j := _) tag _ showKind kind registry table, value =>
    match registry.tagOf? (kind value), table.encodeAt references (kind value) with
    | some key, some encode => do
      let lead ← tag.encodeWith references key
      let inner ← encode value
      return ⟨inner.count, lead.bytes + inner.bytes⟩
    | _, _ => fail (.unregistered (showKind (kind value)))
  | _, .lazy cell name, value => do
    Stage.onCells (Cells.use cell)
    references name value

/-- Writes the parts of a tuple. -/
def Items.encodeWith (references : (name : S.Name) → S.Value name → Encoding) :
    {α : Type} → Items S α → α → Encoding
  | _, .nil, _ => pure Written.none
  | _, .cons item rest, (value, values) => do
    let written ← item.encodeWith references value
    let others ← rest.encodeWith references values
    return Encoding.oneMore written others

/-- Writes the fields of a record that are present in it. -/
def Fields.encodeWith (references : (name : S.Name) → S.Value name → Encoding) :
    {R : Type} → Fields S R → R → Encoding
  | _, .nil, _ => pure Written.none
  | _, .cons name get _ present codec rest, value =>
    if present value then do
      let written ← inField name <|
        match get value with
        | some inner => codec.encodeWith references inner
        | none => fail (.missing "field accessor")
      let others ← rest.encodeWith references value
      return Encoding.oneMore written others
    else rest.encodeWith references value

/-- How a value is written by the codec of a key. -/
def Table.encodeAt (references : (name : S.Name) → S.Value name → Encoding) :
    {K V : Type} → [DecidableEq K] → Table S K V → K → Option (V → Encoding)
  | _, _, _, .nil, _ => none
  | _, _, _, .cons key codec rest, wanted =>
    if key = wanted then some (codec.encodeWith references) else rest.encodeAt references wanted

end

/-- Writes a value of a name; there are `depth` levels of references left. -/
def Definitions.encodeWithin (definitions : Definitions S) :
    Nat → (name : S.Name) → S.Value name → Encoding
  | 0, _, _ => throw .tooDeep
  | depth + 1, name, value =>
    (definitions name).encodeWith (definitions.encodeWithin depth) value

/-- Writes a value, following references to the given depth. -/
def Codec.encode {α : Type} (codec : Codec S α) (definitions : Definitions S) (depth : Nat)
    (value : α) : Encoding :=
  codec.encodeWith (definitions.encodeWithin depth) value

end WireFormat
