import WireFormat.LazyCell
import WireFormat.Leaf
import WireFormat.LengthRange
import WireFormat.Registry
import WireFormat.TaggedRecord

/-!
# Codecs

A codec for values of a type is a description put together from leaves: tuples, lists, frames,
records, tagged records, unions, conversions and references to definitions. Encoding, decoding and
declared sizes are functions on descriptions, in the modules beside this one.

The parts of a tuple, the fields of a record and the codecs of a tagged record or a union have
values of different types or are found by key, so they form families of their own, which are
defined together with the codecs.
-/

set_option autoImplicit false
set_option relaxedAutoImplicit false

namespace WireFormat

/-- The names that codecs may refer to, and the types of the values they stand for. -/
structure Signature : Type 1 where
  Name : Type
  Value : Name → Type

mutual

/-- A description of how values of a type are written. -/
inductive Codec (S : Signature) : Type → Type 1 where
  /-- A codec without parts. -/
  | leaf {α : Type} (leaf : Leaf α) : Codec S α
  /-- Several values, one after another. -/
  | tuple {α : Type} (items : Items S α) : Codec S α
  /-- Exactly `count` items. -/
  | fixedList {α : Type} (item : Codec S α) (count : Nat) : Codec S (List α)
  /-- Items until the source ends or there are `max` of them. -/
  | exhaustList {α : Type} (item : Codec S α) (max : Option Nat) : Codec S (List α)
  /-- Values that are converted before they are written and after they are read. -/
  | map {α β : Type} (toWire : α → β) (fromWire : β → Except Error α) (wire : Codec S β) :
    Codec S α
  /-- The values of a union that are of one variant, by their payload. -/
  | case {α β : Type} (wrap : β → α) (unwrap : α → Option β) (payload : Codec S β) : Codec S α
  /-- A value behind the number of its bytes, which `length` writes. -/
  | byteCounted {α : Type} (length : Codec S Nat) (range : LengthRange) (payload : Codec S α) :
    Codec S α
  /-- A value behind its count, which `length` writes; `body` is the codec for values of a
  count. -/
  | itemCounted {α : Type} (length : Codec S Nat) (range : LengthRange) (count : α → Nat)
    (body : Nat → Codec S α) : Codec S α
  /-- Named fields. Decoding starts from `factory`. -/
  | record {R : Type} (factory : Option R) (fields : Fields S R) : Codec S R
  /-- Entries of a tag and a value, the codec of the value being found by the tag. Decoding starts
  from `factory` and reads entries until the source ends or there are `max` of them. -/
  | tagged {K V R : Type} [i : DecidableEq K] (tag : Codec S K) (display : K → String)
    (access : TaggedRecord K V R) (table : Table S K V) (fallback : Codec S V)
    (max : Option Nat) (factory : Option R) : Codec S R
  /-- A union: the tag of the kind of the value, then the value by the codec of its kind. -/
  | choice {T K V : Type} [i : DecidableEq T] [j : DecidableEq K] (tag : Codec S T)
    (showTag : T → String) (showKind : K → String) (kind : V → K) (registry : Registry T K)
    (table : Table S K V) : Codec S V
  /-- Whatever the definition of a name says, once it is supplied. -/
  | lazy (cell : LazyCell) (name : S.Name) : Codec S (S.Value name)

/-- The parts of a tuple, in order. -/
inductive Items (S : Signature) : Type → Type 1 where
  | nil : Items S Unit
  | cons {α β : Type} (item : Codec S α) (rest : Items S β) : Items S (α × β)

/-- The fields of a record, in order. A field is written and read only where `present` holds of the
record, as far as it is known. -/
inductive Fields (S : Signature) : Type → Type 1 where
  | nil {R : Type} : Fields S R
  | cons {R F : Type} (name : String) (get : R → Option F) (set : R → F → R)
    (present : R → Bool) (codec : Codec S F) (rest : Fields S R) : Fields S R

/-- Codecs by key; of several with one key the first is meant. -/
inductive Table (S : Signature) : Type → Type → Type 1 where
  | nil {K V : Type} : Table S K V
  | cons {K V : Type} (key : K) (codec : Codec S V) (rest : Table S K V) : Table S K V

end

/-- What every name stands for. -/
abbrev Definitions (S : Signature) : Type 1 := (name : S.Name) → Codec S (S.Value name)

/-- The definition that a reference stands for, supplied as a use of the reference would supply
it. -/
def LazyCell.resolve {S : Signature} {α : Type} (cell : LazyCell) (definition : Codec S α)
    (cells : Cells) : Except Failure (Codec S α) × Cells :=
  match Cells.use cell cells with
  | .ok _ after => (.ok definition, after)
  | .error failure after => (.error failure, after)

/-- The names of the fields, in order. -/
def Fields.names {S : Signature} {R : Type} : Fields S R → List String
  | .nil => []
  | .cons name _ _ _ _ rest => name :: rest.names

/-- The keys of a table, in order. -/
def Table.keys {S : Signature} {K V : Type} : Table S K V → List K
  | .nil => []
  | .cons key _ rest => key :: rest.keys

end WireFormat
