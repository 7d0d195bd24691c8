/-!
# Tagged records

A tagged record is a value made of entries, each a tag and a value. What a format needs to know of
a type of such records is how to list the tags, how to get the values of a tag and how to add an
entry.
-/

set_option autoImplicit false
set_option relaxedAutoImplicit false

namespace WireFormat

/-- How the entries of a record are reached. -/
structure TaggedRecord (K V R : Type) where
  /-- The tags that have a value. -/
  tags : R → List K
  /-- The values of a tag, in order. -/
  getAll : R → K → List V
  /-- The record with one more entry. -/
  add : R → K → V → R

/-- The entries in the order in which they are written: tag by tag. -/
def TaggedRecord.entries {K V R : Type} (access : TaggedRecord K V R) (record : R) :
    List (K × V) :=
  (access.tags record).flatMap fun tag ↦ (access.getAll record tag).map fun value ↦ (tag, value)

end WireFormat
