import WireFormat.Codec.Size

/-!
# Decoding

A codec reads one value from the front of a source and leaves what follows it. What is taken before
a failure stays taken.

Two repetitions have no count. A list that runs to the end refuses an item that takes no byte. The
entries of a tagged record have no such check; without a bound on their number, an entry that takes
no byte would be read again and again, which is a failure of its own kind here.

References are followed at most to a given depth; `Codec.decodeWith` is one level of that.
-/

set_option autoImplicit false
set_option relaxedAutoImplicit false

namespace WireFormat

/-- Reads a value from the source of a stage. -/
abbrev Decoding (α : Type) : Type := Action (Stage Source) α

namespace Decoding

variable {α : Type}

/-- Fails at the end of the source, `read` of `requested` items having been read. -/
def expectItem (read requested : Nat) : Decoding Unit := do
  if (← get).stream.remaining = 0 then fail (.endOfStream "items" read requested)

/-- Reads the last `left` of `requested` items. Items that are sure to take a byte are not tried at
the end of the source. Room for the list may be asked for beforehand, for no more items than there
are bytes left; that it is given is taken for granted, as the size of an item in memory is not known
here. -/
def items (item : Decoding α) (sized : Bool) (requested : Nat) : Nat → Decoding (List α)
  | 0 => pure []
  | left + 1 => do
    if sized then expectItem (requested - (left + 1)) requested
    let value ← item
    let values ← items item sized requested left
    return value :: values

/-- Reads items until the source ends or there are `allowance` of them. -/
def itemsToEnd (item : Decoding α) (allowance : Option Nat) : Decoding (List α) := fun stage ↦
  if stage.stream.remaining = 0 ∨ allowance = some 0 then .ok [] stage
  else
    match item stage with
    | .error failure after => .error failure after
    | .ok value after =>
      if after.stream.remaining < stage.stream.remaining then
        match itemsToEnd item (allowance.map (· - 1)) after with
        | .error failure last => .error failure last
        | .ok values last => .ok (value :: values) last
      else .error (.error { kind := .invalid "list" "item consumed no bytes" }) after
termination_by stage => stage.stream.remaining

/-- Reads entries and adds them to a record, until the source ends or there are `allowance` of
them. -/
def entriesToEnd {K V R : Type} (entry : Decoding (K × V)) (add : R → K → V → R)
    (allowance : Option Nat) (record : R) : Decoding R := fun stage ↦
  if stage.stream.remaining = 0 then .ok record stage
  else
    match allowance with
    | some 0 => .ok record stage
    | some (left + 1) =>
      match entry stage with
      | .error failure after => .error failure after
      | .ok (tag, value) after => entriesToEnd entry add (some left) (add record tag value) after
    | none =>
      match entry stage with
      | .error failure after => .error failure after
      | .ok (tag, value) after =>
        if after.stream.remaining < stage.stream.remaining then
          entriesToEnd entry add none (add record tag value) after
        else .error .endless after
termination_by stage => allowance.getD stage.stream.remaining

/-- Runs a decoder on a frame of its own, all of which it must use. -/
def inFrame (frame : List UInt8) (inner : Decoding α) : Decoding α := do
  let (value, rest) ← Stage.onOther (Source.ofBytes frame) inner
  if 0 < rest.remaining then fail (.extraData rest.remaining)
  return value

end Decoding

variable {S : Signature}

mutual

/-- Reads a value; `references` reads the values of the names that the codec refers to. -/
def Codec.decodeWith (references : (name : S.Name) → Decoding (S.Value name)) :
    {α : Type} → Codec S α → Decoding α
  | _, .leaf leaf => Stage.onStream leaf.decode
  | _, .tuple items => items.decodeWith references
  | _, .fixedList item count =>
    match item.size with
    | .overflow => throw .overflow
    | size => Decoding.items (item.decodeWith references) size.isPositive count count
  | _, .exhaustList item max => Decoding.itemsToEnd (item.decodeWith references) max
  | _, .map _ fromWire wire => do
    ofExcept (fromWire (← wire.decodeWith references))
  | _, .case wrap _ payload => do
    return wrap (← payload.decodeWith references)
  | _, .byteCounted length range payload => do
    let n ← ofExcept (range.check (← length.decodeWith references))
    let frame ← Stage.onStream (Source.take n)
    Decoding.inFrame frame (payload.decodeWith references)
  | _, .itemCounted length range _ body => do
    let n ← ofExcept (range.check (← length.decodeWith references))
    (body n).decodeWith references
  | _, .record factory fields =>
    match factory with
    | some start => fields.decodeWith references start
    | none => fail (.missing "record factory")
  | _, .tagged (i := _) tag display access table fallback max factory =>
    match factory with
    | some start =>
      Decoding.entriesToEnd
        (do
          let key ← tag.decodeWith references
          let value ← inField (display key) <|
            match table.decodeAt references key with
            | some decode => decode
            | none => fallback.decodeWith references
          return (key, value))
        access.add max start
    | none => fail (.missing "tagged record factory")
  | _, .choice (i := _) (j := _) tag showTag showKind _ registry table => do
    let key ← tag.decodeWith references
    match registry.kindOf? key with
    | none => fail (.unregistered s!"tag {showTag key}")
    | some kind =>
      match table.decodeAt references kind with
      | some decode => decode
      | none => fail (.unregistered (showKind kind))
  | _, .lazy cell name => do
    Stage.onCells (Cells.use cell)
    references name

/-- Reads the parts of a tuple. -/
def Items.decodeWith (references : (name : S.Name) → Decoding (S.Value name)) :
    {α : Type} → Items S α → Decoding α
  | _, .nil => pure ()
  | _, .cons item rest => do
    let value ← item.decodeWith references
    let values ← rest.decodeWith references
    return (value, values)

/-- Reads the fields that are present in the record, as far as it is known, and sets them. -/
def Fields.decodeWith (references : (name : S.Name) → Decoding (S.Value name)) :
    {R : Type} → Fields S R → R → Decoding R
  | _, .nil, record => pure record
  | _, .cons name _ set present codec rest, record =>
    if present record then do
      let value ← inField name (codec.decodeWith references)
      rest.decodeWith references (set record value)
    else rest.decodeWith references record

/-- How a value is read by the codec of a key. -/
def Table.decodeAt (references : (name : S.Name) → Decoding (S.Value name)) :
    {K V : Type} → [DecidableEq K] → Table S K V → K → Option (Decoding V)
  | _, _, _, .nil, _ => none
  | _, _, _, .cons key codec rest, wanted =>
    if key = wanted then some (codec.decodeWith references) else rest.decodeAt references wanted

end

/-- Reads a value of a name; there are `depth` levels of references left. -/
def Definitions.decodeWithin (definitions : Definitions S) :
    Nat → (name : S.Name) → Decoding (S.Value name)
  | 0, _ => throw .tooDeep
  | depth + 1, name => (definitions name).decodeWith (definitions.decodeWithin depth)

/-- Reads a value, following references to the given depth. -/
def Codec.decode {α : Type} (codec : Codec S α) (definitions : Definitions S) (depth : Nat) :
    Decoding α :=
  codec.decodeWith (definitions.decodeWithin depth)

end WireFormat
