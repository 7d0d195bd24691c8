/-!
# Registries of tags and kinds

A registry pairs each kind of a union with its tag. No tag and no kind stands in two pairs, so that
going from kinds to tags and back is the identity both ways.
-/

set_option autoImplicit false
set_option relaxedAutoImplicit false

namespace WireFormat

/-- Pairs of a tag and a kind, one to one. -/
structure Registry (T K : Type) where
  pairs : List (T × K)
  tags_nodup : (pairs.map Prod.fst).Nodup
  kinds_nodup : (pairs.map Prod.snd).Nodup

/-- What keeps a pair out of a registry. -/
inductive Registry.Clash (T K : Type) where
  /-- The kind has a tag already. -/
  | kind (kind : K)
  /-- The tag is in use. -/
  | tag (tag : T)

namespace Registry

variable {T K : Type}

/-- No pair. -/
def empty : Registry T K := ⟨[], List.nodup_nil, List.nodup_nil⟩

/-- The tag of a kind. -/
def tagOf? [DecidableEq K] (registry : Registry T K) (kind : K) : Option T :=
  (registry.pairs.find? fun pair ↦ pair.2 = kind).map Prod.fst

/-- The kind of a tag. -/
def kindOf? [DecidableEq T] (registry : Registry T K) (tag : T) : Option K :=
  (registry.pairs.find? fun pair ↦ pair.1 = tag).map Prod.snd

theorem nodup_concat {α : Type} {xs : List α} {x : α} (h : xs.Nodup) (hx : x ∉ xs) :
    (xs ++ [x]).Nodup := by
  simp only [List.nodup_append, h, List.nodup_cons, List.not_mem_nil, not_false_eq_true,
    List.nodup_nil, and_self, List.mem_singleton, true_and]
  rintro y hy _ rfl rfl
  exact hx hy

/-- One more pair, unless its kind or its tag is taken. The kind is looked at first. -/
def insert [DecidableEq T] [DecidableEq K] (registry : Registry T K) (tag : T) (kind : K) :
    Except (Clash T K) (Registry T K) :=
  if hkind : kind ∈ registry.pairs.map Prod.snd then .error (.kind kind)
  else if htag : tag ∈ registry.pairs.map Prod.fst then .error (.tag tag)
  else .ok
    { pairs := registry.pairs ++ [(tag, kind)]
      tags_nodup := by
        rw [List.map_append]
        exact nodup_concat registry.tags_nodup htag
      kinds_nodup := by
        rw [List.map_append]
        exact nodup_concat registry.kinds_nodup hkind }

/-! ### From kinds to tags and back -/

/-- Among elements with different keys, the first with the key of an element is that element. -/
theorem find?_of_mem {α β : Type} [DecidableEq β] {key : α → β} {xs : List α} {x : α}
    (hnodup : (xs.map key).Nodup) (hmem : x ∈ xs) :
    xs.find? (fun y ↦ key y = key x) = some x := by
  induction xs with
  | nil => cases hmem
  | cons y xs ih =>
    obtain ⟨hnot, hothers⟩ := List.nodup_cons.mp hnodup
    rcases List.mem_cons.mp hmem with rfl | hmem
    · exact List.find?_cons_of_pos (by simp)
    · have hne : key y ≠ key x := fun hsame ↦ hnot (hsame ▸ List.mem_map_of_mem hmem)
      rw [List.find?_cons_of_neg (by simpa using hne)]
      exact ih hothers hmem

theorem mem_pairs_of_tagOf? [DecidableEq K] {registry : Registry T K} {kind : K} {tag : T}
    (h : registry.tagOf? kind = some tag) : (tag, kind) ∈ registry.pairs := by
  obtain ⟨⟨first, second⟩, hfind, rfl⟩ := Option.map_eq_some_iff.mp h
  have hkind : second = kind := by simpa using List.find?_some hfind
  rw [← hkind]
  exact List.mem_of_find?_eq_some hfind

theorem mem_pairs_of_kindOf? [DecidableEq T] {registry : Registry T K} {kind : K} {tag : T}
    (h : registry.kindOf? tag = some kind) : (tag, kind) ∈ registry.pairs := by
  obtain ⟨⟨first, second⟩, hfind, rfl⟩ := Option.map_eq_some_iff.mp h
  have htag : first = tag := by simpa using List.find?_some hfind
  rw [← htag]
  exact List.mem_of_find?_eq_some hfind

/-- The kind of the tag of a kind is that kind. -/
theorem kindOf?_of_tagOf? [DecidableEq T] [DecidableEq K] {registry : Registry T K} {kind : K}
    {tag : T} (h : registry.tagOf? kind = some tag) : registry.kindOf? tag = some kind := by
  rw [kindOf?, find?_of_mem registry.tags_nodup (mem_pairs_of_tagOf? h)]
  rfl

/-- The tag of the kind of a tag is that tag. -/
theorem tagOf?_of_kindOf? [DecidableEq T] [DecidableEq K] {registry : Registry T K} {kind : K}
    {tag : T} (h : registry.kindOf? tag = some kind) : registry.tagOf? kind = some tag := by
  rw [tagOf?, find?_of_mem registry.kinds_nodup (mem_pairs_of_kindOf? h)]
  rfl

end Registry

end WireFormat
