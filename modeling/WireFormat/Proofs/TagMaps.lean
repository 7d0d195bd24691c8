import Mathlib
import WireFormat.TagMap

/-!
# A map from tags groups its entries

Whatever the order in which entries are added, a map from tags lists them grouped by tag
(`TagMap.toList_ofList`): the tags in the order of their first entries, the entries of a tag in the
order in which they were added. No entry is lost or made up (`TagMap.toList_ofList_perm`). The list
of a map is in this order already, so that adding its entries one after another gives the map
(`TagMap.ofList_toList`).

What a map has to do with the entries added to it is an invariant of `TagMap.add`
(`TagMap.Groups.add`), and everything that can be asked of a map is answered by it
(`TagMap.groups_stably`).
-/

set_option autoImplicit false
set_option relaxedAutoImplicit false

namespace WireFormat.TagMap

variable {K V : Type} [DecidableEq K]

omit [DecidableEq K] in
theorem eq_of_groups {m n : TagMap K V} (h : m.groups = n.groups) : m = n := by
  cases m
  cases n
  cases h
  rfl

/-! ### One more entry -/

theorem ofList_concat (entries : List (K × V)) (tag : K) (value : V) :
    ofList (entries ++ [(tag, value)]) = (ofList entries).add tag value :=
  List.foldl_append

theorem tags_add (m : TagMap K V) (tag : K) (value : V) :
    (m.add tag value).tags = if tag ∈ m.tags then m.tags else m.tags ++ [tag] :=
  map_fst_addTo tag value m.groups

theorem lookup_addTo (tag key : K) (value : V) (groups : List (K × List V)) :
    (lookup key (addTo tag value groups)).getD [] =
      if tag = key then (lookup key groups).getD [] ++ [value]
      else (lookup key groups).getD [] := by
  induction groups with
  | nil => by_cases hkey : tag = key <;> simp [addTo, lookup, hkey]
  | cons group groups ih =>
    obtain ⟨first, values⟩ := group
    by_cases hfirst : first = tag
    · subst hfirst
      by_cases hkey : first = key <;> simp [addTo, lookup, hkey]
    · by_cases hkey : first = key
      · have htag : tag ≠ key := fun h ↦ hfirst (hkey.trans h.symm)
        simp only [addTo, if_neg hfirst, lookup, if_pos hkey, if_neg htag]
      · simp only [addTo, lookup, if_neg hfirst, if_neg hkey]
        exact ih

theorem getAll_add (m : TagMap K V) (tag key : K) (value : V) :
    (m.add tag value).getAll key =
      if tag = key then m.getAll key ++ [value] else m.getAll key :=
  lookup_addTo tag key value m.groups

/-- The entries of some groups, group by group. -/
theorem flatMap_addTo_perm (tag : K) (value : V) (groups : List (K × List V)) :
    ((addTo tag value groups).flatMap fun group ↦ group.2.map fun v ↦ (group.1, v)).Perm
      ((groups.flatMap fun group ↦ group.2.map fun v ↦ (group.1, v)) ++ [(tag, value)]) := by
  induction groups with
  | nil => simp [addTo]
  | cons group groups ih =>
    obtain ⟨first, values⟩ := group
    by_cases hfirst : first = tag
    · subst hfirst
      simp only [addTo, if_true, List.flatMap_cons, List.map_append, List.append_assoc,
        List.map_cons, List.map_nil]
      exact List.Perm.append_left _ List.perm_append_comm
    · simp only [addTo, if_neg hfirst, List.flatMap_cons, List.append_assoc]
      exact List.Perm.append_left _ ih

/-! ### Entries added in any order -/

/-- The tags stand in the order of their first entries. -/
theorem tags_ofList (entries : List (K × V)) :
    (ofList entries).tags = (entries.map Prod.fst).eraseDups := by
  induction entries using List.reverseRecOn with
  | nil => rfl
  | append_singleton entries entry ih =>
    obtain ⟨tag, value⟩ := entry
    rw [ofList_concat, tags_add, ih, List.map_append, List.eraseDups_append]
    by_cases hmem : tag ∈ entries.map Prod.fst
    · rw [if_pos (List.mem_eraseDups.mpr hmem)]
      simp [List.removeAll, hmem]
    · rw [if_neg (mt List.mem_eraseDups.mp hmem)]
      simp [List.removeAll, hmem, List.eraseDups_cons]

/-- A map groups some entries: it lists the tags of the entries once each, in the order of their
first entries, has the values of a tag in the order of the entries, and lists the entries
themselves, each as often as it was there. -/
structure Groups (m : TagMap K V) (entries : List (K × V)) : Prop where
  count_tags (tag : K) : m.tags.count tag = if tag ∈ entries.map Prod.fst then 1 else 0
  inOrder : m.tags.Pairwise fun first second ↦
    (entries.map Prod.fst).idxOf first < (entries.map Prod.fst).idxOf second
  getAll (tag : K) : m.getAll tag = (entries.filter fun entry ↦ entry.1 = tag).map Prod.snd
  perm : m.toList.Perm entries

theorem Groups.mem_tags {m : TagMap K V} {entries : List (K × V)} (h : m.Groups entries) {tag : K} :
    tag ∈ m.tags ↔ tag ∈ entries.map Prod.fst := by
  rw [← List.one_le_count_iff, h.count_tags]
  split <;> simp [*]

theorem groups_empty : (empty : TagMap K V).Groups [] where
  count_tags _ := rfl
  inOrder := List.Pairwise.nil
  getAll _ := rfl
  perm := List.Perm.refl _

section OneMore

variable {m : TagMap K V} {entries : List (K × V)} (h : m.Groups entries)

include h

theorem Groups.count_tags_add (tag key : K) (value : V) :
    (m.add tag value).tags.count key =
      if key ∈ (entries ++ [(tag, value)]).map Prod.fst then 1 else 0 := by
  rw [tags_add, List.map_append, List.map_singleton]
  by_cases hmem : tag ∈ m.tags
  · rw [if_pos hmem, h.count_tags]
    have hold : key = tag → key ∈ entries.map Prod.fst := fun hkey ↦ hkey ▸ h.mem_tags.mp hmem
    simp only [List.mem_append, List.mem_singleton, or_iff_left_of_imp hold]
  · rw [if_neg hmem, List.count_append, h.count_tags, List.count_singleton]
    have hnew : tag ∉ entries.map Prod.fst := mt h.mem_tags.mpr hmem
    by_cases hkey : tag = key
    · subst hkey
      simp [hnew]
    · simp only [List.mem_append, List.mem_singleton, Ne.symm hkey, or_false,
        beq_eq_false_iff_ne.mpr hkey, Bool.false_eq_true, if_false, Nat.add_zero]

/-- The tags that were there keep their positions, and a new one is behind all of them. -/
theorem Groups.inOrder_add (tag : K) (value : V) :
    (m.add tag value).tags.Pairwise fun first second ↦
      ((entries ++ [(tag, value)]).map Prod.fst).idxOf first <
        ((entries ++ [(tag, value)]).map Prod.fst).idxOf second := by
  have hold : m.tags.Pairwise fun first second ↦
      ((entries ++ [(tag, value)]).map Prod.fst).idxOf first <
        ((entries ++ [(tag, value)]).map Prod.fst).idxOf second := by
    refine h.inOrder.imp_of_mem fun hfirst hsecond hlt ↦ ?_
    rwa [List.map_append, List.idxOf_append_of_mem (h.mem_tags.mp hfirst),
      List.idxOf_append_of_mem (h.mem_tags.mp hsecond)]
  rw [tags_add]
  split
  · exact hold
  · rename_i hmem
    refine List.pairwise_append.mpr ⟨hold, List.pairwise_singleton _ _, ?_⟩
    intro first hfirst second hsecond
    have hfirst := h.mem_tags.mp hfirst
    rw [List.mem_singleton.mp hsecond, List.map_append, List.idxOf_append_of_mem hfirst,
      List.idxOf_append_of_notMem (mt h.mem_tags.mpr hmem)]
    exact Nat.lt_of_lt_of_le (List.idxOf_lt_length_of_mem hfirst) (Nat.le_add_right _ _)

/-- An entry stays behind those before it: its value comes last among those of its tag, and its
tag, unless it was there before, comes last among the tags. -/
theorem Groups.add (tag : K) (value : V) :
    (m.add tag value).Groups (entries ++ [(tag, value)]) where
  count_tags key := h.count_tags_add tag key value
  inOrder := h.inOrder_add tag value
  getAll key := by
    rw [getAll_add, h.getAll, List.filter_append, List.map_append]
    by_cases hkey : tag = key <;> simp [hkey]
  perm := (flatMap_addTo_perm tag value m.groups).trans (h.perm.append_right _)

end OneMore

theorem groups_ofList (entries : List (K × V)) : (ofList entries).Groups entries := by
  induction entries using List.reverseRecOn with
  | nil => exact groups_empty
  | append_singleton entries entry ih =>
    rw [ofList_concat]
    exact ih.add entry.1 entry.2

/-- The values of a tag stand in the order in which they were added. -/
theorem getAll_ofList (entries : List (K × V)) (tag : K) :
    (ofList entries).getAll tag =
      (entries.filter fun entry ↦ entry.1 = tag).map Prod.snd :=
  (groups_ofList entries).getAll tag

/-- No entry is lost, none is made up, and none is doubled. -/
theorem toList_ofList_perm (entries : List (K × V)) : (ofList entries).toList.Perm entries :=
  (groups_ofList entries).perm

/-- Entries grouped by tag: the tags in the order of their first entries, the entries of a tag in
the order they had. -/
def grouped (entries : List (K × V)) : List (K × V) :=
  (entries.map Prod.fst).eraseDups.flatMap fun tag ↦ entries.filter fun entry ↦ entry.1 = tag

/-! ### The entries of a map -/

theorem lookup_of_mem {groups : List (K × List V)} (hdistinct : (groups.map Prod.fst).Nodup)
    {group : K × List V} (hgroup : group ∈ groups) :
    lookup group.1 groups = some group.2 := by
  induction groups with
  | nil => cases hgroup
  | cons first groups ih =>
    obtain ⟨hnot, hdistinct⟩ := List.nodup_cons.mp hdistinct
    rcases List.mem_cons.mp hgroup with rfl | hgroup
    · simp [lookup]
    · have hne : first.1 ≠ group.1 := by
        intro heq
        exact hnot (heq ▸ List.mem_map_of_mem hgroup)
      rw [lookup, if_neg hne]
      exact ih hdistinct hgroup

/-- As a tagged record, a map has the entries of its list. -/
theorem entries_access (m : TagMap K V) : access.entries m = m.toList := by
  show (m.groups.map Prod.fst).flatMap _ = m.groups.flatMap _
  rw [List.flatMap_map]
  refine List.flatMap_congr fun group hgroup ↦ ?_
  show ((lookup group.1 m.groups).getD []).map _ = _
  rw [lookup_of_mem m.distinct hgroup]
  rfl

theorem toList_ofList (entries : List (K × V)) : (ofList entries).toList = grouped entries := by
  rw [← entries_access]
  show (ofList entries).tags.flatMap _ = _
  rw [tags_ofList]
  refine List.flatMap_congr fun tag _ ↦ ?_
  show ((ofList entries).getAll tag).map _ = _
  rw [getAll_ofList, List.map_map]
  -- Putting the tag back in front of the values gives the entries of the tag.
  have hback : ∀ entry ∈ entries.filter (fun entry ↦ entry.1 = tag),
      ((fun value ↦ (tag, value)) ∘ Prod.snd) entry = id entry := by
    intro entry hentry
    rw [← of_decide_eq_true (List.mem_filter.mp hentry).2]
    rfl
  rw [List.map_congr_left hback, List.map_id]

omit [DecidableEq K] in
theorem length_toList (m : TagMap K V) : m.toList.length = m.size := by
  unfold toList size
  induction m.groups with
  | nil => rfl
  | cons group groups ih => simp [ih]

/-! ### What a map answers -/

/-- The answers of a map that groups some entries. -/
structure Answers (m : TagMap K V) (entries : List (K × V)) : Prop extends m.Groups entries where
  /-- The first value of a tag is that of its first entry. -/
  get? (tag : K) : m.get? tag = (entries.find? fun entry ↦ entry.1 = tag).map Prod.snd
  /-- A tag without entries has no value. -/
  absent (tag : K) : tag ∉ entries.map Prod.fst → m.getAll tag = [] ∧ m.get? tag = none
  /-- No tag is listed without a value. -/
  present (tag : K) : tag ∈ m.tags → m.getAll tag ≠ []
  /-- The entries stand tag by tag, in the order of the tags. -/
  toList : m.toList = m.tags.flatMap fun tag ↦ (m.getAll tag).map fun value ↦ (tag, value)
  size : m.size = entries.length
  isEmpty : m.isEmpty = true ↔ entries = []

theorem Groups.getAll_eq_nil_iff {m : TagMap K V} {entries : List (K × V)} (h : m.Groups entries)
    {tag : K} : m.getAll tag = [] ↔ tag ∉ entries.map Prod.fst := by
  rw [h.getAll, List.map_eq_nil_iff, List.filter_eq_nil_iff]
  simp only [decide_eq_true_eq, List.mem_map, not_exists, not_and]

theorem Groups.answers {m : TagMap K V} {entries : List (K × V)} (h : m.Groups entries) :
    m.Answers entries where
  toGroups := h
  get? tag := by rw [TagMap.get?, h.getAll, List.head?_map, List.head?_filter]
  absent tag htag := by
    have hnone := h.getAll_eq_nil_iff.mpr htag
    exact ⟨hnone, by rw [TagMap.get?, hnone, List.head?_nil]⟩
  present tag htag hnone := h.getAll_eq_nil_iff.mp hnone (h.mem_tags.mp htag)
  toList := (entries_access m).symm
  size := by rw [← length_toList, h.perm.length_eq]
  isEmpty := by
    have htags : m.isEmpty = true ↔ m.tags = [] := by
      rw [TagMap.isEmpty, List.isEmpty_iff, tags, List.map_eq_nil_iff]
    rw [htags, List.eq_nil_iff_forall_not_mem, ← List.map_eq_nil_iff (f := Prod.fst),
      List.eq_nil_iff_forall_not_mem]
    exact forall_congr' fun tag ↦ not_congr h.mem_tags

/-- A map groups the entries that `ofList` adds to it one by one. -/
theorem groups_stably (entries : List (K × V)) : (ofList entries).Answers entries :=
  (groups_ofList entries).answers

/-- The second value of a tag moves in front of the entry that was added between. -/
example : (ofList [(2, 'a'), (1, 'b'), (2, 'c')]).toList = [(2, 'a'), (2, 'c'), (1, 'b')] := by
  decide

/-! ### A map from its list -/

/-- A value added under the tag of the last group stands at its end. -/
theorem addTo_last {groups : List (K × List V)} {tag : K}
    (hnew : tag ∉ groups.map Prod.fst) (front : List V) (value : V) :
    addTo tag value (groups ++ [(tag, front)]) = groups ++ [(tag, front ++ [value])] := by
  induction groups with
  | nil => simp [addTo]
  | cons group groups ih =>
    rw [List.map_cons, List.mem_cons, not_or] at hnew
    rw [List.cons_append, addTo, if_neg (Ne.symm hnew.1), ih hnew.2, List.cons_append]

/-- A value added under a new tag is a group of its own. -/
theorem addTo_new {groups : List (K × List V)} {tag : K}
    (hnew : tag ∉ groups.map Prod.fst) (value : V) :
    addTo tag value groups = groups ++ [(tag, [value])] := by
  induction groups with
  | nil => rfl
  | cons group groups ih =>
    rw [List.map_cons, List.mem_cons, not_or] at hnew
    rw [addTo, if_neg (Ne.symm hnew.1), ih hnew.2, List.cons_append]

/-- Values added under the tag of the last group extend it. -/
theorem foldl_addTo_last {groups : List (K × List V)} {tag : K}
    (hnew : tag ∉ groups.map Prod.fst) (front values : List V) :
    values.foldl (fun groups value ↦ addTo tag value groups) (groups ++ [(tag, front)]) =
      groups ++ [(tag, front ++ values)] := by
  induction values generalizing front with
  | nil => rw [List.foldl_nil, List.append_nil]
  | cons value values ih =>
    rw [List.foldl_cons, addTo_last hnew, ih, List.append_assoc, List.singleton_append]

/-- Groups behind others come about by adding their entries. -/
theorem foldl_addTo_groups {earlier later : List (K × List V)}
    (hdistinct : ((earlier ++ later).map Prod.fst).Nodup)
    (hinhabited : ∀ group ∈ later, group.2 ≠ []) :
    (later.flatMap fun group ↦ group.2.map fun value ↦ (group.1, value)).foldl
      (fun groups entry ↦ addTo entry.1 entry.2 groups) earlier = earlier ++ later := by
  induction later generalizing earlier with
  | nil => rw [List.flatMap_nil, List.foldl_nil, List.append_nil]
  | cons group later ih =>
    obtain ⟨tag, values⟩ := group
    have hnew : tag ∉ earlier.map Prod.fst := by
      rw [List.map_append, List.map_cons, List.nodup_middle] at hdistinct
      exact fun h ↦ (List.nodup_cons.mp hdistinct).1 (List.mem_append_left _ h)
    obtain ⟨value, values, rfl⟩ :=
      List.exists_cons_of_ne_nil (hinhabited _ List.mem_cons_self)
    rw [List.append_cons] at hdistinct ⊢
    rw [List.flatMap_cons, List.foldl_append, List.foldl_map, List.foldl_cons, addTo_new hnew,
      foldl_addTo_last hnew, List.singleton_append]
    exact ih hdistinct fun group hgroup ↦ hinhabited group (List.mem_cons_of_mem _ hgroup)

theorem groups_foldl_add (entries : List (K × V)) (m : TagMap K V) :
    (entries.foldl (fun m (tag, value) ↦ m.add tag value) m).groups =
      entries.foldl (fun groups entry ↦ addTo entry.1 entry.2 groups) m.groups := by
  induction entries generalizing m with
  | nil => rfl
  | cons entry entries ih => rw [List.foldl_cons, List.foldl_cons, ih]; rfl

/-- A map comes about by adding its entries in order. -/
theorem ofList_toList (m : TagMap K V) : ofList m.toList = m := by
  refine eq_of_groups ?_
  rw [ofList, groups_foldl_add]
  exact foldl_addTo_groups (by simpa [empty] using m.distinct) m.inhabited

end WireFormat.TagMap
