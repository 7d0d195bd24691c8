import WireFormat.Proofs.TaggedRecords

/-!
# Unions

A union is put together from its variants one by one, and a variant is refused when its kind or its
tag is taken. Whatever was accepted before stays in place (`Variants.Holds`): one step is
`Variants.insert_cases`, all steps are `Variants.insertAll_cases`. A union that was built therefore
has one tag and one codec for each of its kinds, and its two tables, of tags and of codecs, speak of
the same kinds. What the encoder finds by way of kind and tag is what the decoder finds by way of
tag and kind (`Variants.ofList_dispatches`).
-/

set_option autoImplicit false
set_option relaxedAutoImplicit false

namespace WireFormat

variable {S : Signature} {T K V : Type}

/-! ### Tags and kinds -/

namespace Registry

variable {registry : Registry T K} {tag : T} {kind : K}

theorem kindOf?_eq_some [DecidableEq T] :
    registry.kindOf? tag = some kind ↔ (tag, kind) ∈ registry.pairs := by
  refine ⟨mem_pairs_of_kindOf?, fun h ↦ ?_⟩
  rw [kindOf?, find?_of_mem registry.tags_nodup h]
  rfl

theorem tagOf?_eq_some [DecidableEq K] :
    registry.tagOf? kind = some tag ↔ (tag, kind) ∈ registry.pairs := by
  refine ⟨mem_pairs_of_tagOf?, fun h ↦ ?_⟩
  rw [tagOf?, find?_of_mem registry.kinds_nodup h]
  rfl

/-- A tag stands for one kind. -/
theorem tagOf?_injective [DecidableEq T] [DecidableEq K] {other : K}
    (h : registry.tagOf? kind = some tag) (hother : registry.tagOf? other = some tag) :
    kind = other :=
  Option.some.inj ((kindOf?_of_tagOf? h).symm.trans (kindOf?_of_tagOf? hother))

end Registry

/-! ### Codecs by kind -/

/-- The codecs of variants by their kinds, in order. -/
def Table.ofVariants : List (Variant S T K V) → Table S K V
  | [] => .nil
  | variant :: rest => .cons variant.kind variant.codec (ofVariants rest)

theorem Table.keys_ofVariants (list : List (Variant S T K V)) :
    (Table.ofVariants list).keys = list.map Variant.kind := by
  induction list with
  | nil => rfl
  | cons variant rest ih => rw [ofVariants, keys, ih, List.map_cons]

theorem Table.find?_ofVariants [DecidableEq K] {list : List (Variant S T K V)}
    {variant : Variant S T K V} (hkinds : (list.map Variant.kind).Nodup) (h : variant ∈ list) :
    (Table.ofVariants list).find? variant.kind = some variant.codec := by
  induction list with
  | nil => cases h
  | cons first rest ih =>
    obtain ⟨hfresh, hrest⟩ := List.nodup_cons.mp hkinds
    rw [ofVariants, Table.find?]
    rcases List.mem_cons.mp h with rfl | h
    · exact if_pos rfl
    · have hother : first.kind ≠ variant.kind := fun hsame ↦
        hfresh (hsame ▸ List.mem_map_of_mem h)
      rw [if_neg hother]
      exact ih hrest h

namespace Variants

theorem append_ofVariants (variant : Variant S T K V) (list : List (Variant S T K V)) :
    append variant.kind variant.codec (Table.ofVariants list) =
      Table.ofVariants (list ++ [variant]) := by
  induction list with
  | nil => rfl
  | cons first rest ih => rw [Table.ofVariants, append, ih, List.cons_append, Table.ofVariants]

/-! ### One variant after another -/

/-- Registry and table are those of these variants, in this order. -/
structure Holds (variants : Variants S T K V) (list : List (Variant S T K V)) : Prop where
  pairs : variants.registry.pairs = list.map fun variant ↦ (variant.tag, variant.kind)
  table : variants.table = Table.ofVariants list

/-- No two variants have a kind or a tag in common. -/
structure Distinct (list : List (Variant S T K V)) : Prop where
  kinds : (list.map Variant.kind).Nodup
  tags : (list.map Variant.tag).Nodup

/-- What of a variant is found among those before it. The kind is looked for first. -/
def Repeats (before : List (Variant S T K V)) (variant : Variant S T K V) :
    Registry.Clash T K → Prop
  | .kind kind => kind = variant.kind ∧ variant.kind ∈ before.map Variant.kind
  | .tag tag => tag = variant.tag ∧ variant.kind ∉ before.map Variant.kind ∧
    variant.tag ∈ before.map Variant.tag

/-- The error about what a variant repeats. -/
def refusal (showTag : T → String) (showKind : K → String) : Registry.Clash T K → Error
  | .kind kind => { kind := .config s!"duplicate codec for {showKind kind}" }
  | .tag tag => { kind := .config s!"duplicate tag {showTag tag}" }

variable {variants : Variants S T K V} {before list : List (Variant S T K V)}
  {variant : Variant S T K V}

theorem holds_empty : (empty : Variants S T K V).Holds [] := ⟨rfl, rfl⟩

theorem distinct_nil : Distinct ([] : List (Variant S T K V)) := ⟨List.nodup_nil, List.nodup_nil⟩

theorem Distinct.concat (h : Distinct before) (hkind : variant.kind ∉ before.map Variant.kind)
    (htag : variant.tag ∉ before.map Variant.tag) : Distinct (before ++ [variant]) := by
  constructor
  · rw [List.map_append]
    exact Registry.nodup_concat h.kinds hkind
  · rw [List.map_append]
    exact Registry.nodup_concat h.tags htag

theorem Distinct.not_repeats {after : List (Variant S T K V)}
    (h : Distinct (before ++ variant :: after)) (clash : Registry.Clash T K) :
    ¬ Repeats before variant clash := by
  have hkinds := h.kinds
  have htags := h.tags
  rw [List.map_append, List.map_cons] at hkinds htags
  cases clash with
  | kind kind =>
    rintro ⟨-, hmem⟩
    exact (List.nodup_append.mp hkinds).2.2 _ hmem _ List.mem_cons_self rfl
  | tag tag =>
    rintro ⟨-, -, hmem⟩
    exact (List.nodup_append.mp htags).2.2 _ hmem _ List.mem_cons_self rfl

section

variable [DecidableEq T] [DecidableEq K]

/-- One step: the variant repeats something, or it joins the others. -/
theorem insert_cases (h : variants.Holds before) (variant : Variant S T K V) :
    (∃ clash, variants.insert variant = .error clash ∧ Repeats before variant clash) ∨
      variant.kind ∉ before.map Variant.kind ∧ variant.tag ∉ before.map Variant.tag ∧
        ∃ next, variants.insert variant = .ok next ∧ next.Holds (before ++ [variant]) := by
  have hkinds : variants.registry.pairs.map Prod.snd = before.map Variant.kind := by
    rw [h.pairs, List.map_map]
    rfl
  have htags : variants.registry.pairs.map Prod.fst = before.map Variant.tag := by
    rw [h.pairs, List.map_map]
    rfl
  simp only [insert, Registry.insert, hkinds, htags]
  by_cases hkind : variant.kind ∈ before.map Variant.kind
  · rw [dif_pos hkind]
    exact Or.inl ⟨_, rfl, rfl, hkind⟩
  · rw [dif_neg hkind]
    by_cases htag : variant.tag ∈ before.map Variant.tag
    · rw [dif_pos htag]
      exact Or.inl ⟨_, rfl, rfl, hkind, htag⟩
    · rw [dif_neg htag]
      refine Or.inr ⟨hkind, htag, _, rfl, ?_, ?_⟩
      · show variants.registry.pairs ++ [(variant.tag, variant.kind)] = _
        rw [h.pairs, List.map_append, List.map_singleton]
      · show append variant.kind variant.codec variants.table = _
        rw [h.table, append_ofVariants]

/-- All steps, by induction on the variants that are left: all of them join, or one of them is the
first to repeat something. -/
theorem insertAll_cases (h : variants.Holds before) (hdistinct : Distinct before)
    (list : List (Variant S T K V)) :
    (Distinct (before ++ list) ∧
      ∃ all, variants.insertAll list = .ok all ∧ all.Holds (before ++ list)) ∨
    ∃ front variant rest clash, list = front ++ variant :: rest ∧ Distinct (before ++ front) ∧
      Repeats (before ++ front) variant clash ∧ variants.insertAll list = .error clash := by
  induction list generalizing variants before with
  | nil =>
    rw [List.append_nil]
    exact Or.inl ⟨hdistinct, variants, rfl, h⟩
  | cons variant list ih =>
    rcases insert_cases h variant with
      ⟨clash, hrefused, hclash⟩ | ⟨hkind, htag, next, hjoined, hnext⟩
    · refine Or.inr ⟨[], variant, list, clash, rfl, ?_, ?_, ?_⟩
      · rwa [List.append_nil]
      · rwa [List.append_nil]
      · rw [insertAll, hrefused]
    · have hlist : before ++ variant :: list = before ++ [variant] ++ list := by simp
      rw [insertAll, hjoined, hlist]
      rcases ih hnext (hdistinct.concat hkind htag) with
        ⟨hall, all, hrun, hholds⟩ | ⟨front, last, rest, clash, rfl, hfront, hclash, hrun⟩
      · exact Or.inl ⟨hall, all, hrun, hholds⟩
      · have hcons : before ++ variant :: front = before ++ [variant] ++ front := by simp
        rw [← hcons] at hfront hclash
        exact Or.inr ⟨variant :: front, last, rest, clash, rfl, hfront, hclash, hrun⟩

/-! ### What a built union knows -/

/-- Tags and kinds lead to each other as they were registered, and every kind has the codec it was
registered with, and no other. -/
structure Knows (variants : Variants S T K V) (list : List (Variant S T K V)) : Prop where
  tagOf_injective : ∀ first second tag, variants.registry.tagOf? first = some tag →
    variants.registry.tagOf? second = some tag → first = second
  kindOf_iff : ∀ tag kind, variants.registry.kindOf? tag = some kind ↔
    ∃ variant ∈ list, variant.tag = tag ∧ variant.kind = kind
  tagOf_iff : ∀ kind tag, variants.registry.tagOf? kind = some tag ↔
    ∃ variant ∈ list, variant.tag = tag ∧ variant.kind = kind
  kinds_nodup : variants.table.keys.Nodup
  mem_kinds_iff : ∀ kind, kind ∈ variants.table.keys ↔
    ∃ tag, variants.registry.kindOf? tag = some kind
  encodeAt_kind : ∀ variant ∈ list, ∀ references,
    variants.table.encodeAt references variant.kind =
      some (variant.codec.encodeWith references)
  decodeAt_kind : ∀ variant ∈ list, ∀ references,
    variants.table.decodeAt references variant.kind =
      some (variant.codec.decodeWith references)

theorem Holds.knows (h : variants.Holds list) (hdistinct : Distinct list) :
    variants.Knows list := by
  have hpair (tag : T) (kind : K) : (tag, kind) ∈ variants.registry.pairs ↔
      ∃ variant ∈ list, variant.tag = tag ∧ variant.kind = kind := by
    rw [h.pairs, List.mem_map]
    simp only [Prod.mk.injEq]
  have hfind (variant : Variant S T K V) (hvariant : variant ∈ list) :
      variants.table.find? variant.kind = some variant.codec := by
    rw [h.table]
    exact Table.find?_ofVariants hdistinct.kinds hvariant
  have hkeys : variants.table.keys = list.map Variant.kind := by
    rw [h.table, Table.keys_ofVariants]
  refine ⟨fun _ _ _ ↦ Registry.tagOf?_injective, fun tag kind ↦ ?_, fun kind tag ↦ ?_, ?_,
    fun kind ↦ ?_, fun variant hvariant references ↦ ?_, fun variant hvariant references ↦ ?_⟩
  · rw [Registry.kindOf?_eq_some, hpair]
  · rw [Registry.tagOf?_eq_some, hpair]
  · rw [hkeys]
    exact hdistinct.kinds
  · simp only [hkeys, List.mem_map, Registry.kindOf?_eq_some, hpair]
    constructor
    · rintro ⟨variant, hvariant, hkind⟩
      exact ⟨variant.tag, variant, hvariant, rfl, hkind⟩
    · rintro ⟨-, variant, hvariant, -, hkind⟩
      exact ⟨variant, hvariant, hkind⟩
  · rw [Table.encodeAt_eq, hfind variant hvariant, Option.map_some]
  · rw [Table.decodeAt_eq, hfind variant hvariant, Option.map_some]

/-! ### How a union dispatches -/

variable (definitions : Definitions S) (depth : Nat) (tag : Codec S T) (showTag : T → String)
  (showKind : K → String) (kind : V → K)

/-- A value goes through the tag and the codec its kind was registered with, in both directions. A
kind without a tag and a tag without a kind are refused, the one before anything is written, the
other behind the tag. What a payload is wrapped to is of the kind of the tag, if the function that
wraps it says so. -/
structure Dispatches (list : List (Variant S T K V)) (union : Codec S V) : Prop where
  encode_unregistered : ∀ value stage, (∀ variant ∈ list, variant.kind ≠ kind value) →
    union.encode definitions depth value stage =
      .error (.error { kind := .unregistered (showKind (kind value)) }) stage
  encode_registered : ∀ variant ∈ list, ∀ value, kind value = variant.kind →
    union.encode definitions depth value = do
      let lead ← tag.encode definitions depth variant.tag
      let inner ← variant.codec.encode definitions depth value
      return ⟨inner.count, lead.bytes + inner.bytes⟩
  decode_unregistered : ∀ key stage behind, tag.decode definitions depth stage = .ok key behind →
    (∀ variant ∈ list, variant.tag ≠ key) →
    union.decode definitions depth stage =
      .error (.error { kind := .unregistered s!"tag {showTag key}" }) behind
  decode_registered : ∀ variant ∈ list, ∀ stage behind,
    tag.decode definitions depth stage = .ok variant.tag behind →
    union.decode definitions depth stage = variant.codec.decode definitions depth behind
  decode_wrapped : ∀ {F : Type} (key : T) (registered : K) (payload : Codec S F) (wrap : F → V)
    (unwrap : V → Option F), Variant.ofPayload key registered payload wrap unwrap ∈ list →
    (∀ inner, kind (wrap inner) = registered) →
    ∀ stage behind, tag.decode definitions depth stage = .ok key behind →
      (∀ inner after, payload.decode definitions depth behind = .ok inner after →
        union.decode definitions depth stage = .ok (wrap inner) after) ∧
      ∀ value after, union.decode definitions depth stage = .ok value after →
        kind value = registered

theorem Knows.dispatches (h : variants.Knows list) :
    Dispatches definitions depth tag showTag showKind kind list
      (variants.codec tag showTag showKind kind) := by
  have hdecode (variant : Variant S T K V) (hvariant : variant ∈ list) (stage behind : Stage Source)
      (htag : tag.decode definitions depth stage = .ok variant.tag behind) :
      (variants.codec tag showTag showKind kind).decode definitions depth stage =
        variant.codec.decode definitions depth behind := by
    have hkind := (h.kindOf_iff variant.tag variant.kind).mpr ⟨variant, hvariant, rfl, rfl⟩
    rw [codec, Codec.decode, Codec.decodeWith]
    refine (bind_of_ok htag _).trans ?_
    simp only [hkind, h.decodeAt_kind variant hvariant]
    rfl
  refine ⟨fun value stage hnone ↦ ?_, fun variant hvariant value hkind ↦ ?_,
    fun key stage behind hkey hnone ↦ ?_, hdecode, ?_⟩
  · have htag : variants.registry.tagOf? (kind value) = none := by
      rw [Option.eq_none_iff_forall_ne_some]
      intro found hfound
      obtain ⟨variant, hvariant, -, hkind⟩ := (h.tagOf_iff _ _).mp hfound
      exact hnone variant hvariant hkind
    rw [codec, Codec.encode, Codec.encodeWith]
    simp only [htag]
    rfl
  · have htag := (h.tagOf_iff variant.kind variant.tag).mpr ⟨variant, hvariant, rfl, rfl⟩
    rw [codec, Codec.encode, Codec.encodeWith]
    simp only [hkind, htag, h.encodeAt_kind variant hvariant]
    rfl
  · have hkind : variants.registry.kindOf? key = none := by
      rw [Option.eq_none_iff_forall_ne_some]
      intro found hfound
      obtain ⟨variant, hvariant, htag, -⟩ := (h.kindOf_iff _ _).mp hfound
      exact hnone variant hvariant htag
    rw [codec, Codec.decode, Codec.decodeWith]
    refine (bind_of_ok hkey _).trans ?_
    simp only [hkind]
    rfl
  · intro F key registered payload wrap unwrap hvariant hwrap stage behind hkey
    have hunion := hdecode _ hvariant stage behind hkey
    rw [hunion]
    refine ⟨fun inner after hpayload ↦ ?_, fun value after hvalue ↦ ?_⟩
    · exact bind_of_ok hpayload _
    · obtain ⟨inner, last, -, hlast⟩ := bind_eq_ok.mp hvalue
      obtain ⟨rfl, -⟩ := pure_eq_ok.mp hlast
      exact hwrap inner

/-! ### Main statement -/

/-- Variants make a union exactly when there is one and no two have a kind or a tag in common.
Otherwise the error is about the first that repeats a kind, or else a tag, of those before it. Tags
and kinds of a union are one to one, every kind has its codec, and values are dispatched by them. -/
theorem ofList_dispatches (list : List (Variant S T K V)) :
    ((∃ variants, ofList showTag showKind list = .ok variants) ↔ list ≠ [] ∧ Distinct list) ∧
    (∀ e, ofList showTag showKind list = .error e →
      list = [] ∧ e = { kind := .config "choice without variants" } ∨
      ∃ before variant after clash, list = before ++ variant :: after ∧ Distinct before ∧
        Repeats before variant clash ∧ e = refusal showTag showKind clash) ∧
    ∀ variants, ofList showTag showKind list = .ok variants → variants.Knows list ∧
      Dispatches definitions depth tag showTag showKind kind list
        (variants.codec tag showTag showKind kind) := by
  cases list with
  | nil => simp [ofList]
  | cons first rest =>
    rcases insertAll_cases (S := S) holds_empty distinct_nil (first :: rest) with
      ⟨hdistinct, all, hrun, hholds⟩ | ⟨before, variant, after, clash, hlist, hbefore, hclash, hrun⟩
    · rw [List.nil_append] at hdistinct hholds
      have hbuilt : ofList showTag showKind (first :: rest) = .ok all := by
        simp only [ofList, hrun]
      have hknows := hholds.knows hdistinct
      rw [hbuilt]
      refine ⟨⟨fun _ ↦ ⟨List.cons_ne_nil _ _, hdistinct⟩, fun _ ↦ ⟨all, rfl⟩⟩, nofun, ?_⟩
      rintro _ ⟨⟩
      exact ⟨hknows, hknows.dispatches definitions depth tag showTag showKind kind⟩
    · rw [List.nil_append] at hbefore hclash
      have hrefused : ofList showTag showKind (first :: rest) =
          .error (refusal showTag showKind clash) := by
        simp only [ofList, hrun]
        cases clash <;> rfl
      rw [hrefused]
      refine ⟨⟨nofun, ?_⟩, ?_, nofun⟩
      · rintro ⟨-, hdistinct⟩
        rw [hlist] at hdistinct
        exact absurd hclash (hdistinct.not_repeats clash)
      · rintro _ ⟨⟩
        exact Or.inr ⟨before, variant, after, clash, hlist, hbefore, hclash, rfl⟩

end

/-- A union of circles, given by a byte, and squares, given by two. Behind the tag of the squares a
square is read, whose two bytes stand in different chunks; behind a tag of neither, nothing. -/
theorem ofList_dispatches_shapes :
    let byte : Codec Signature.empty (BitVec (8 * 1)) := .leaf (.word 1)
    let circle : Variant Signature.empty (BitVec (8 * 1)) Bool (BitVec (8 * 1) ⊕ BitVec (8 * 2)) :=
      .ofPayload 1 true byte Sum.inl Sum.getLeft?
    let square : Variant Signature.empty (BitVec (8 * 1)) Bool (BitVec (8 * 1) ⊕ BitVec (8 * 2)) :=
      .ofPayload 2 false (.leaf (.word 2)) Sum.inr Sum.getRight?
    let definitions : Definitions Signature.empty := nofun
    let shown : BitVec (8 * 1) → String := fun tag ↦ toString tag.toNat
    ∃ variants, ofList shown toString [circle, square] = .ok variants ∧
      (variants.codec byte shown toString Sum.isLeft).decode definitions 0
        ⟨⟨[[2, 1], [2, 7]]⟩, Cells.fresh⟩ = .ok (.inr 258) ⟨⟨[[7]]⟩, Cells.fresh⟩ ∧
      (variants.codec byte shown toString Sum.isLeft).decode definitions 0
        ⟨⟨[[3, 1], [2, 7]]⟩, Cells.fresh⟩ =
          .error (.error { kind := .unregistered "tag 3" }) ⟨⟨[[1], [2, 7]]⟩, Cells.fresh⟩ := by
  intro byte circle square definitions shown
  obtain ⟨hbuilt, -, hdispatches⟩ := ofList_dispatches definitions 0 byte shown toString
    Sum.isLeft [circle, square]
  obtain ⟨variants, hvariants⟩ := hbuilt.mpr ⟨List.cons_ne_nil _ _, by decide, by decide⟩
  obtain ⟨-, hdispatches⟩ := hdispatches variants hvariants
  refine ⟨variants, hvariants, ?_, ?_⟩
  · have hsquare : square ∈ [circle, square] := List.mem_cons_of_mem _ List.mem_cons_self
    exact (hdispatches.decode_wrapped 2 false (.leaf (.word 2)) Sum.inr Sum.getRight? hsquare
      (fun _ ↦ rfl) ⟨⟨[[2, 1], [2, 7]]⟩, Cells.fresh⟩ _ rfl).1 258 _ rfl
  · refine hdispatches.decode_unregistered 3 ⟨⟨[[3, 1], [2, 7]]⟩, Cells.fresh⟩ _ rfl ?_
    intro variant hvariant
    rcases List.mem_pair.mp hvariant with rfl | rfl
    · decide
    · decide

end Variants

end WireFormat
