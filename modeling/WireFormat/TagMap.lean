import WireFormat.TaggedRecord

/-!
# Maps from tags to several values

A `TagMap` keeps every value added under a tag, in the order in which they were added, and the tags
in the order of their first value. Its entries are therefore the added ones, grouped by tag. The
type holds that tags are distinct and that every tag has a value.
-/

set_option autoImplicit false
set_option relaxedAutoImplicit false

namespace WireFormat

/-- Values grouped by tag. -/
structure TagMap (K V : Type) where
  groups : List (K × List V)
  distinct : (groups.map Prod.fst).Nodup
  inhabited : ∀ group ∈ groups, group.2 ≠ []

namespace TagMap

variable {K V : Type}

/-- Nothing added. -/
def empty : TagMap K V := ⟨[], List.nodup_nil, by simp⟩

instance : Inhabited (TagMap K V) where
  default := empty

/-- The tags, in the order of their first value. -/
def tags (m : TagMap K V) : List K := m.groups.map Prod.fst

/-- The entries: by tag, in the order of `tags`, and within a tag in the order of addition. -/
def toList (m : TagMap K V) : List (K × V) :=
  m.groups.flatMap fun (tag, values) ↦ values.map fun value ↦ (tag, value)

/-- The number of entries. -/
def size (m : TagMap K V) : Nat := m.groups.foldr (fun group n ↦ group.2.length + n) 0

/-- Nothing was added. -/
def isEmpty (m : TagMap K V) : Bool := m.groups.isEmpty

variable [DecidableEq K]

/-- The values of a tag among groups. -/
def lookup (tag : K) : List (K × List V) → Option (List V)
  | [] => none
  | (key, values) :: groups => if key = tag then some values else lookup tag groups

/-- The values of a tag. -/
def getAll (m : TagMap K V) (tag : K) : List V := (lookup tag m.groups).getD []

/-- The first value of a tag. -/
def get? (m : TagMap K V) (tag : K) : Option V := (m.getAll tag).head?

/-- Groups with one more value, behind the others of its tag. -/
def addTo (tag : K) (value : V) : List (K × List V) → List (K × List V)
  | [] => [(tag, [value])]
  | (key, values) :: groups =>
    if key = tag then (key, values ++ [value]) :: groups
    else (key, values) :: addTo tag value groups

theorem map_fst_addTo (tag : K) (value : V) (groups : List (K × List V)) :
    (addTo tag value groups).map Prod.fst =
      if tag ∈ groups.map Prod.fst then groups.map Prod.fst
      else groups.map Prod.fst ++ [tag] := by
  induction groups with
  | nil => simp [addTo]
  | cons group groups ih =>
    obtain ⟨key, values⟩ := group
    by_cases hkey : key = tag
    · simp [addTo, hkey]
    · by_cases hmem : tag ∈ groups.map Prod.fst <;> simp_all [addTo, eq_comm]

theorem nodup_map_fst_addTo {tag : K} {value : V} {groups : List (K × List V)}
    (h : (groups.map Prod.fst).Nodup) : ((addTo tag value groups).map Prod.fst).Nodup := by
  rw [map_fst_addTo]
  split
  · exact h
  · rename_i hmem
    simp only [List.nodup_append, h, List.nodup_cons, List.not_mem_nil, not_false_eq_true,
      List.nodup_nil, and_self, List.mem_singleton, true_and]
    rintro key hkey _ rfl rfl
    exact hmem hkey

theorem values_ne_nil_addTo {tag : K} {value : V} {groups : List (K × List V)}
    (h : ∀ group ∈ groups, group.2 ≠ []) : ∀ group ∈ addTo tag value groups, group.2 ≠ [] := by
  induction groups with
  | nil => simp [addTo]
  | cons group groups ih =>
    obtain ⟨key, values⟩ := group
    have hgroups := ih fun group hgroup ↦ h group (List.mem_cons_of_mem _ hgroup)
    have hvalues : values ≠ [] := h (key, values) List.mem_cons_self
    intro group hgroup
    unfold addTo at hgroup
    split at hgroup
    · rcases List.mem_cons.1 hgroup with rfl | hgroup
      · simp
      · exact h group (List.mem_cons_of_mem _ hgroup)
    · rcases List.mem_cons.1 hgroup with rfl | hgroup
      · exact hvalues
      · exact hgroups group hgroup

/-- One more entry. -/
def add (m : TagMap K V) (tag : K) (value : V) : TagMap K V where
  groups := addTo tag value m.groups
  distinct := nodup_map_fst_addTo m.distinct
  inhabited := values_ne_nil_addTo m.inhabited

/-- A map as a tagged record. -/
def access : TaggedRecord K V (TagMap K V) := ⟨tags, getAll, add⟩

/-- The map of some entries, added in order. -/
def ofList (entries : List (K × V)) : TagMap K V :=
  entries.foldl (fun m (tag, value) ↦ m.add tag value) empty

/-- Two maps agree when they have the same values, in the same order, under the same tags; the
order of the tags is not compared. -/
def agrees [BEq V] (a b : TagMap K V) : Bool :=
  a.groups.length == b.groups.length &&
    a.groups.all fun (tag, values) ↦ lookup tag b.groups == some values

end TagMap

end WireFormat
