import WireFormat.Codec.Basic
import WireFormat.TagMap

/-!
# Putting codecs together

Records, tagged records and unions are put together from parts that must not clash: fields need
different names, codecs of a tagged record different tags, and the variants of a union different
kinds and different tags. The first part that clashes with an earlier one is named in the error.
-/

set_option autoImplicit false
set_option relaxedAutoImplicit false

namespace WireFormat

variable {S : Signature}

/-- The first element that stands in the list a second time, or is among those `seen` before. -/
def firstRepeated? {α : Type} [DecidableEq α] (seen : List α) : List α → Option α
  | [] => none
  | a :: as => if a ∈ seen then some a else firstRepeated? (a :: seen) as

/-- A record of some fields. Decoding starts from `factory`, which may yield nothing. -/
def Codec.ofFields {R : Type} (factory : Option R) (fields : Fields S R) :
    Except Error (Codec S R) :=
  match firstRepeated? [] fields.names with
  | some name => .error { kind := .config s!"duplicate field name {Text.quote name}" }
  | none => .ok (.record factory fields)

/-- A tagged record. The values of tags outside the table go through `fallback`. -/
def Codec.ofTable {K V R : Type} [DecidableEq K] (tag : Codec S K) (display : K → String)
    (access : TaggedRecord K V R) (factory : Option R) (table : Table S K V)
    (fallback : Codec S V := .leaf .fail) (max : Option Nat := none) :
    Except Error (Codec S R) :=
  match firstRepeated? [] table.keys with
  | some key => .error { kind := .config s!"duplicate codec for tag {display key}" }
  | none => .ok (.tagged tag display access table fallback max factory)

/-- A tagged record that is kept in a `TagMap`. Decoding starts from an empty one. -/
def Codec.mapOfTable {K V : Type} [DecidableEq K] (tag : Codec S K) (display : K → String)
    (table : Table S K V) (fallback : Codec S V := .leaf .fail) (max : Option Nat := none) :
    Except Error (Codec S (TagMap K V)) :=
  Codec.ofTable tag display TagMap.access (some TagMap.empty) table fallback max

/-- One variant of a union: its tag, its kind and a codec for the values of that kind. -/
structure Variant (S : Signature) (T K V : Type) : Type 1 where
  tag : T
  kind : K
  codec : Codec S V

/-- A variant given by a codec of its payload. -/
def Variant.ofPayload {T K V F : Type} (tag : T) (kind : K) (codec : Codec S F) (wrap : F → V)
    (unwrap : V → Option F) : Variant S T K V :=
  ⟨tag, kind, .case wrap unwrap codec⟩

/-- The variants of a union that fit together: who has which tag, and the codecs by kind. -/
structure Variants (S : Signature) (T K V : Type) : Type 1 where
  registry : Registry T K
  table : Table S K V

namespace Variants

variable {T K V : Type}

/-- No variant. -/
def empty : Variants S T K V := ⟨Registry.empty, .nil⟩

/-- One more codec, behind the others. -/
def append (key : K) (codec : Codec S V) : Table S K V → Table S K V
  | .nil => .cons key codec .nil
  | .cons first codecOfFirst rest => .cons first codecOfFirst (append key codec rest)

/-- One more variant, unless its kind or its tag is taken. -/
def insert [DecidableEq T] [DecidableEq K] (variants : Variants S T K V)
    (variant : Variant S T K V) : Except (Registry.Clash T K) (Variants S T K V) :=
  match variants.registry.insert variant.tag variant.kind with
  | .error clash => .error clash
  | .ok registry => .ok ⟨registry, append variant.kind variant.codec variants.table⟩

/-- Adds variants in order, up to the first that does not fit. -/
def insertAll [DecidableEq T] [DecidableEq K] (variants : Variants S T K V) :
    List (Variant S T K V) → Except (Registry.Clash T K) (Variants S T K V)
  | [] => .ok variants
  | variant :: rest =>
    match variants.insert variant with
    | .error clash => .error clash
    | .ok variants => variants.insertAll rest

/-- The variants of a union, of which there must be one. -/
def ofList [DecidableEq T] [DecidableEq K] (showTag : T → String) (showKind : K → String)
    (list : List (Variant S T K V)) : Except Error (Variants S T K V) :=
  match list with
  | [] => .error { kind := .config "choice without variants" }
  | list =>
    match (empty (S := S)).insertAll list with
    | .ok variants => .ok variants
    | .error (.kind kind) => .error { kind := .config s!"duplicate codec for {showKind kind}" }
    | .error (.tag tag) => .error { kind := .config s!"duplicate tag {showTag tag}" }

/-- The union of the variants. -/
def codec [DecidableEq T] [DecidableEq K] (variants : Variants S T K V) (tag : Codec S T)
    (showTag : T → String) (showKind : K → String) (kind : V → K) : Codec S V :=
  .choice tag showTag showKind kind variants.registry variants.table

end Variants

end WireFormat
