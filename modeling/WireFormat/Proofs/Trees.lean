import WireFormat.Codec.Counted
import WireFormat.Proofs.Delivery
import WireFormat.Proofs.Depth
import WireFormat.Proofs.ListsToEnd

/-!
# Trees

A tree is written by a definition that refers to itself: the label of a node, and behind a length
field the nodes of its children, one after another to the end of the frame. The frames are what
tells the children of one node from those of another, so that trees of any depth and branching come
back as they were written whenever the labels do (`Codec.treeNode_roundTrips`). Whether a tree is
written at all is decided node by node: its label must be, and the bytes of its children together
must be a length that the length field can hold (`Codec.everywhere_of_encodes`,
`Codec.exists_wire_of_everywhere`). Both are put together in `Codec.tree_round_trip`.

Trees of greater height need more levels of references. Bytes and runs do not depend on the depth
once it is enough, and the statements range over all depths.
-/

set_option autoImplicit false
set_option relaxedAutoImplicit false

namespace WireFormat

/-! ### Trees and their codec -/

/-- A label and the trees below it. -/
structure Tree (A : Type) where
  label : A
  children : List (Tree A)

namespace Tree

variable {A : Type}

/-- At every node of a tree, its label and its children satisfy `p`. -/
inductive Everywhere (p : A → List (Tree A) → Prop) : Tree A → Prop
  | node {label : A} {children : List (Tree A)} (here : p label children)
    (below : ∀ child ∈ children, Everywhere p child) : Everywhere p ⟨label, children⟩

/-- What holds of a tree when it holds of its children holds of all trees. -/
theorem induction {motive : Tree A → Prop}
    (node : ∀ label children, (∀ child ∈ children, motive child) → motive ⟨label, children⟩) :
    (tree : Tree A) → motive tree
  | ⟨label, children⟩ => node label children fun child _ ↦ induction node child

end Tree

/-- The names of a signature, and one more for trees. -/
abbrev Signature.withTrees (S : Signature) (A : Type) : Signature where
  Name := Option S.Name
  Value
    | none => Tree A
    | some name => S.Value name

/-- How a node is put together: as a tuple, or as a record of two fields, read from `start` on. -/
inductive NodeForm (A : Type) where
  | tuple
  | record (labelName childrenName : String) (start : Tree A)

/-- A codec of trees from one of labels and one of lists of children. -/
def NodeForm.codec {S : Signature} {A : Type} (label : Codec S A)
    (children : Codec S (List (Tree A))) : NodeForm A → Codec S (Tree A)
  | .tuple =>
    .map (fun tree ↦ (tree.label, tree.children, ()))
      (fun (label, children, _) ↦ .ok ⟨label, children⟩)
      (.tuple (.cons label (.cons children .nil)))
  | .record labelName childrenName start =>
    .record (some start)
      (.cons labelName (fun tree ↦ some tree.label) (fun tree label ↦ { tree with label })
        (fun _ ↦ true) label
        (.cons childrenName (fun tree ↦ some tree.children)
          (fun tree children ↦ { tree with children }) (fun _ ↦ true) children .nil))

/-- The definition of trees, by reference. -/
def Codec.treeReference (S : Signature) (A : Type) (cell : LazyCell) :
    Codec (S.withTrees A) (Tree A) :=
  @Codec.lazy (S.withTrees A) cell none

/-- The children of a node, in a frame behind a length field. -/
def Codec.treeChildren (S : Signature) (A : Type) (width : LengthWidth) (cell : LazyCell) :
    Codec (S.withTrees A) (List (Tree A)) :=
  .byteCounted (.leaf (.length width)) .unbounded
    (.exhaustList (.treeReference S A cell) none)

/-- A node: its label and its children. -/
def Codec.treeNode {S : Signature} {A : Type} (form : NodeForm A) (label : Codec (S.withTrees A) A)
    (width : LengthWidth) (cell : LazyCell) : Codec (S.withTrees A) (Tree A) :=
  form.codec label (.treeChildren S A width cell)

/-! ### Both forms of a node -/

namespace NodeForm

open Decoding

variable {S : Signature} {A : Type} (form : NodeForm A) {label : Codec S A}
  {children : Codec S (List (Tree A))} {definitions : Definitions S} {depth : Nat}

/-- The label comes first, and the children stand behind it. -/
theorem wire_codec_eq_some {tree : Tree A} {code : List UInt8} :
    (form.codec label children).wire definitions depth tree = some code ↔
      ∃ front back, label.wire definitions depth tree.label = some front ∧
        children.wire definitions depth tree.children = some back ∧ code = front ++ back := by
  unfold Codec.wire
  cases form with
  | tuple =>
    rw [codec, Codec.wire?, Codec.wire?]
    constructor
    · intro h
      obtain ⟨front, others, hfront, hothers, rfl⟩ := Items.wire?_cons_eq_some.mp h
      obtain ⟨back, nothing, hback, hnothing, rfl⟩ := Items.wire?_cons_eq_some.mp hothers
      cases hnothing
      exact ⟨front, back, hfront, hback, by rw [List.append_nil]⟩
    · rintro ⟨front, back, hfront, hback, rfl⟩
      exact Items.wire?_cons_eq_some.mpr ⟨front, back, hfront,
        Items.wire?_cons_eq_some.mpr ⟨back, [], hback, rfl, (List.append_nil back).symm⟩, rfl⟩
  | record labelName childrenName start =>
    simp only [codec, Codec.wire?, Fields.wire?, if_true, Option.bind_eq_bind,
      Option.bind_eq_some_iff]
    constructor
    · rintro ⟨front, hfront, others, ⟨back, hback, nothing, hnothing, hothers⟩, hcode⟩
      cases hnothing
      cases hothers
      cases hcode
      exact ⟨front, back, hfront, hback, by rw [List.append_nil]⟩
    · rintro ⟨front, back, hfront, hback, rfl⟩
      refine ⟨front, hfront, back, ⟨back, hback, [], rfl, ?_⟩, rfl⟩
      rw [List.append_nil]
      rfl

/-- A run on a node is a run on its label and then one on its children. -/
theorem encode_codec_eq_ok {tree : Tree A} {stage after : Stage Sink} {written : Written}
    (h : (form.codec label children).encode definitions depth tree stage = .ok written after) :
    ∃ first middle second, label.encode definitions depth tree.label stage = .ok first middle ∧
      children.encode definitions depth tree.children middle = .ok second after := by
  cases form with
  | tuple =>
    obtain ⟨first, middle, hfirst, h⟩ := bind_eq_ok.mp h
    obtain ⟨others, last, hothers, hreturn⟩ := bind_eq_ok.mp h
    obtain ⟨-, rfl⟩ := pure_eq_ok.mp hreturn
    obtain ⟨second, behind, hsecond, hnothing⟩ := bind_eq_ok.mp hothers
    cases hnothing
    exact ⟨first, middle, second, hfirst, hsecond⟩
  | record labelName childrenName start =>
    obtain ⟨first, middle, hfirst, h⟩ := bind_eq_ok.mp h
    obtain ⟨others, last, hothers, hreturn⟩ := bind_eq_ok.mp h
    obtain ⟨-, rfl⟩ := pure_eq_ok.mp hreturn
    obtain ⟨second, behind, hsecond, hnothing⟩ := bind_eq_ok.mp hothers
    cases hnothing
    exact ⟨first, middle, second, inField_eq_ok.mp hfirst, inField_eq_ok.mp hsecond⟩

theorem cellsIn_children {cells : LazyCell → Prop}
    (h : (form.codec label children).CellsIn cells) : children.CellsIn cells := by
  cases form with
  | tuple => exact h.2.1
  | record _ _ _ => exact h.2.1

/-- What reads labels and what reads children together read nodes. -/
theorem readsBack_codec {tree : Tree A} {front back : List UInt8}
    (hlabel : (label.decode definitions depth).ReadsBack false front tree.label True)
    (hchildren : (children.decode definitions depth).ReadsBack false back tree.children True) :
    ((form.codec label children).decode definitions depth).ReadsBack false (front ++ back) tree
      True := by
  obtain ⟨value, values⟩ := tree
  cases form with
  | tuple =>
    have hrest : ReadsBack
        ((Items.cons children .nil).decodeWith (definitions.decodeWithin depth)) false back
        (values, ()) True :=
      readsBack_convert hchildren fun _ ↦ rfl
    have hitems : ReadsBack
        ((Items.cons label (.cons children .nil)).decodeWith (definitions.decodeWithin depth)) false
        (front ++ back) (value, values, ()) (True ∧ True) :=
      readsBack_bind hlabel (readsBack_convert hrest fun _ ↦ rfl)
    exact readsBack_convert (readsBack_congr hitems and_self_iff) fun _ ↦ rfl
  | record labelName childrenName start =>
    have hrest : ReadsBack (do
          let found ← inField childrenName (children.decode definitions depth)
          return (⟨value, found⟩ : Tree A)) false back ⟨value, values⟩ True :=
      readsBack_convert (readsBack_inField hchildren) fun _ ↦ rfl
    exact readsBack_congr (readsBack_bind (readsBack_inField hlabel) hrest) and_self_iff

end NodeForm

open Decoding

variable {S : Signature} {A : Type} {form : NodeForm A} {label : Codec (S.withTrees A) A}
  {width : LengthWidth} {cell : LazyCell} {definitions : Definitions (S.withTrees A)}
  {depth : Nat}

/-! ### References to trees -/

section References

variable (hnode : definitions none = Codec.treeNode form label width cell)

include hnode

/-- Behind a reference there is one level less. -/
theorem Codec.wire_treeReference {tree : Tree A} {code : List UInt8} :
    (Codec.treeReference S A cell).wire definitions depth tree = some code ↔
      ∃ less, depth = less + 1 ∧
        (Codec.treeNode form label width cell).wire definitions less tree = some code := by
  cases depth with
  | zero => exact ⟨nofun, fun ⟨_, hless, _⟩ ↦ nomatch hless⟩
  | succ less =>
    rw [← hnode]
    exact ⟨fun h ↦ ⟨less, rfl, h⟩, fun ⟨_, hless, h⟩ ↦ Nat.succ.inj hless ▸ h⟩

/-- A reference is written as a node with one level less. -/
theorem Codec.encodes_treeReference {tree : Tree A} {code : List UInt8}
    (h : (Codec.treeReference S A cell).Encodes definitions depth tree code) :
    ∃ less, depth = less + 1 ∧
      (Codec.treeNode form label width cell).Encodes definitions less tree code := by
  obtain ⟨stage, written, after, hrun, hwritten⟩ := h
  obtain ⟨_, middle, huse, hrun⟩ := bind_eq_ok.mp hrun
  rw [← Stage.stream_of_onCells huse] at hwritten
  cases depth with
  | zero => cases hrun
  | succ less =>
    refine ⟨less, rfl, middle, written, after, ?_, hwritten⟩
    rw [← hnode]
    exact hrun

/-- A reference reads what a node reads with one level less. -/
theorem Codec.roundTrips_treeReference (hcell : cell.Supplied)
    (h : ∀ less, depth = less + 1 →
      (Codec.treeNode form label width cell).RoundTrips definitions less) :
    (Codec.treeReference S A cell).RoundTrips definitions depth := by
  intro tree code hcode source behind hbytes hword
  obtain ⟨less, rfl, hencodes⟩ := Codec.encodes_treeReference hnode hcode
  obtain ⟨cells, huse⟩ := Stage.use_of_supplied hcell source
  obtain ⟨last, hrun, hlast⟩ :=
    h less rfl tree code hencodes { source with cells } behind hbytes hword
  refine ⟨last, ?_, hlast⟩
  rw [← hnode] at hrun
  exact (bind_of_ok huse _).trans hrun

end References

/-! ### The bytes of a node -/

/-- The bytes of a node are those of its label, the length of those of its children, and these. -/
theorem Codec.wire_treeNode_eq_some {tree : Tree A} {code : List UInt8} :
    (Codec.treeNode form label width cell).wire definitions depth tree = some code ↔
      ∃ front lead codes, label.wire definitions depth tree.label = some front ∧
        List.Forall₂ (fun child code ↦
          (Codec.treeReference S A cell).wire definitions depth child = some code)
          tree.children codes ∧
        width.wire? codes.flatten.length = some lead ∧
        code = front ++ (lead ++ codes.flatten) := by
  rw [Codec.treeNode, NodeForm.wire_codec_eq_some]
  constructor
  · rintro ⟨front, back, hfront, hback, rfl⟩
    obtain ⟨inner, lead, hinner, -, hlead, rfl⟩ := Codec.wire?_byteCounted_eq_some.mp hback
    obtain ⟨codes, hcodes, rfl⟩ := forall₂_of_wireAll hinner
    exact ⟨front, lead, codes, hfront, hcodes, hlead, rfl⟩
  · rintro ⟨front, lead, codes, hfront, hcodes, hlead, rfl⟩
    exact ⟨front, lead ++ codes.flatten, hfront, Codec.wire?_byteCounted_eq_some.mpr
      ⟨codes.flatten, lead, wireAll_of_forall₂ hcodes, rfl, hlead, rfl⟩, rfl⟩

theorem Codec.ne_nil_of_wire_treeNode {tree : Tree A} {code : List UInt8}
    (h : (Codec.treeNode form label width cell).wire definitions depth tree = some code) :
    code ≠ [] := by
  obtain ⟨front, lead, codes, -, -, hlead, rfl⟩ := Codec.wire_treeNode_eq_some.mp h
  simp [LengthWidth.ne_nil_of_wire? hlead]

/-- What is written for a node was written for its label and its children. -/
theorem Codec.encodes_treeNode {tree : Tree A} {code : List UInt8}
    (h : (Codec.treeNode form label width cell).Encodes definitions depth tree code) :
    ∃ front lead codes, label.Encodes definitions depth tree.label front ∧
      List.Forall₂ ((Codec.treeReference S A cell).Encodes definitions depth) tree.children
        codes ∧
      width.wire? codes.flatten.length = some lead ∧ code = front ++ (lead ++ codes.flatten) := by
  have hwire := Codec.wire_of_encodes h
  obtain ⟨stage, written, after, hrun, -⟩ := h
  obtain ⟨first, middle, second, hlabel, hchildren⟩ := form.encode_codec_eq_ok hrun
  obtain ⟨front, hfront, -⟩ := Codec.encodes_of_ok hlabel
  obtain ⟨⟨inner, scratch⟩, last, hpayload, -⟩ := bind_eq_ok.mp hchildren
  obtain ⟨hitems, -⟩ := Stage.onOther_eq_ok.mp hpayload
  obtain ⟨-, codes, hcodes, -⟩ := Codec.items_of_encode_exhaustList hitems
  obtain ⟨front', lead, codes', hfront', hcodes', hlead, rfl⟩ :=
    Codec.wire_treeNode_eq_some.mp hwire
  obtain rfl : front = front' :=
    Option.some.inj ((Codec.wire_of_encodes hfront).symm.trans hfront')
  obtain rfl : codes = codes' :=
    List.right_unique_forall₂' (fun _ _ _ hleft hright ↦ Option.some.inj (hleft.symm.trans hright))
      (hcodes.imp fun _ _ ↦ Codec.wire_of_encodes) hcodes'
  exact ⟨front, lead, codes, hfront, hcodes, hlead, rfl⟩

/-! ### Round trips -/

/-- A frame of children gives them back when references read what they write. -/
theorem Codec.readsBack_treeChildren
    (hreference : (Codec.treeReference S A cell).RoundTrips definitions depth)
    {children : List (Tree A)} {codes : List (List UInt8)} {lead : List UInt8}
    (hcodes : List.Forall₂ ((Codec.treeReference S A cell).Encodes definitions depth) children
      codes) (hnonempty : ∀ code ∈ codes, code ≠ [])
    (hlead : width.wire? codes.flatten.length = some lead) :
    ((Codec.treeChildren S A width cell).decode definitions depth).ReadsBack false
      (lead ++ codes.flatten) children True := by
  have hlength : ReadsBack (Stage.onStream width.decode) false lead codes.flatten.length True :=
    readsBack_onStream fun source behind hbytes _ _ ↦ LengthWidth.decode_wire? hlead hbytes
  have hitems : ReadsBack
      ((Codec.exhaustList (Codec.treeReference S A cell) none).decode definitions depth) true
      codes.flatten children True := by
    intro stage behind hbytes hframed hword
    rw [hframed rfl, List.append_nil] at hbytes hword
    have hremaining : stage.stream.remaining ≤ maxWord := by
      rwa [Source.remaining_eq_length, hbytes]
    have hmax (bound : Nat) (h : none = some bound) : children.length ≤ bound := nomatch h
    obtain ⟨last, hrun, hlast⟩ :=
      Codec.decode_exhaustList_of_codes hreference hcodes hnonempty hmax hbytes hremaining
    exact Or.inl ⟨trivial, last, hrun, hlast.trans (hframed rfl).symm⟩
  exact readsBack_congr (readsBack_counted hlength rfl (readsBack_frame hitems)) and_self_iff

/-- One level of references: nodes are read back when labels and references are. -/
theorem Codec.roundTrips_treeNode_of_reference (hlabel : label.RoundTrips definitions depth)
    (hreference : (Codec.treeReference S A cell).RoundTrips definitions depth)
    (hnode : definitions none = Codec.treeNode form label width cell) :
    (Codec.treeNode form label width cell).RoundTrips definitions depth := by
  intro tree code hcode source behind hbytes hword
  obtain ⟨front, lead, codes, hfront, hcodes, hlead, rfl⟩ := Codec.encodes_treeNode hcode
  have hnonempty : ∀ code ∈ codes, code ≠ [] := by
    intro code hmem
    obtain ⟨child, -, hchild⟩ := exists_of_mem_right hcodes hmem
    obtain ⟨less, -, hwire⟩ := (Codec.wire_treeReference hnode).mp (Codec.wire_of_encodes hchild)
    exact Codec.ne_nil_of_wire_treeNode hwire
  have hreads := form.readsBack_codec (hlabel.readsBack hfront false)
    (Codec.readsBack_treeChildren hreference hcodes hnonempty hlead)
  rw [Source.remaining_eq_length, hbytes] at hword
  obtain ⟨-, hread⟩ | ⟨hnot, -⟩ := hreads source behind hbytes nofun hword
  · exact hread
  · exact absurd trivial hnot

/-- By induction on the levels of references that are left. -/
theorem Codec.treeNode_roundTrips (hlabel : ∀ depth, label.RoundTrips definitions depth)
    (hcell : cell.Supplied) (hnode : definitions none = Codec.treeNode form label width cell)
    (depth : Nat) : (Codec.treeNode form label width cell).RoundTrips definitions depth := by
  induction depth with
  | zero =>
    have hreference : (Codec.treeReference S A cell).RoundTrips definitions 0 :=
      Codec.roundTrips_treeReference hnode hcell nofun
    exact Codec.roundTrips_treeNode_of_reference (hlabel 0) hreference hnode
  | succ depth ih =>
    have hreference : (Codec.treeReference S A cell).RoundTrips definitions (depth + 1) :=
      Codec.roundTrips_treeReference hnode hcell fun _ h ↦ Nat.succ.inj h ▸ ih
    exact Codec.roundTrips_treeNode_of_reference (hlabel (depth + 1)) hreference hnode

/-! ### Which trees have bytes -/

/-- Finitely many values that have bytes have them at one depth. -/
theorem Codec.exists_wires {S : Signature} {α : Type} {codec : Codec S α}
    {definitions : Definitions S} {values : List α}
    (h : ∀ value ∈ values, ∃ depth code, codec.wire definitions depth value = some code) :
    ∃ depth codes, List.Forall₂ (fun value code ↦ codec.wire definitions depth value = some code)
      values codes := by
  induction values with
  | nil => exact ⟨0, [], .nil⟩
  | cons value values ih =>
    obtain ⟨⟨depth, first, hfirst⟩, hvalues⟩ := List.forall_mem_cons.mp h
    obtain ⟨other, codes, hcodes⟩ := ih hvalues
    refine ⟨max depth other, first :: codes, .cons ?_ (hcodes.imp fun _ _ hcode ↦ ?_)⟩
    · exact Codec.wire_of_le (Nat.le_max_left depth other) hfirst
    · exact Codec.wire_of_le (Nat.le_max_right depth other) hcode

/-- The label is written, and the bytes of the children together are a length of the width. -/
def Codec.NodeFits (node : Codec (S.withTrees A) (Tree A)) (label : Codec (S.withTrees A) A)
    (width : LengthWidth) (definitions : Definitions (S.withTrees A)) (value : A)
    (children : List (Tree A)) : Prop :=
  (∃ depth code, label.Encodes definitions depth value code) ∧
    ∀ depth codes, List.Forall₂ (fun child code ↦ node.wire definitions depth child = some code)
      children codes → codes.flatten.length < width.limit

section Fits

variable (hnode : definitions none = Codec.treeNode form label width cell)

include hnode

/-- Where a tree is written, every node of it fits. By induction on the tree: the children of a
node are written with one level less. -/
theorem Codec.everywhere_of_encodes (tree : Tree A) :
    ∀ depth code, (Codec.treeNode form label width cell).Encodes definitions depth tree code →
      tree.Everywhere
        ((Codec.treeNode form label width cell).NodeFits label width definitions) := by
  induction tree using Tree.induction with
  | node value children ih =>
    intro depth code h
    obtain ⟨front, lead, codes, hfront, hcodes, hlead, -⟩ := Codec.encodes_treeNode h
    refine .node ⟨⟨depth, front, hfront⟩, fun other codes' hcodes' ↦ ?_⟩ fun child hchild ↦ ?_
    · have hunique : Relator.RightUnique fun (child : Tree A) (code : List UInt8) ↦
          ∃ less, (Codec.treeNode form label width cell).wire definitions less child = some code :=
        fun _ _ _ ⟨_, hleft⟩ ⟨_, hright⟩ ↦ Codec.wire_unique hleft hright
      have hwires := hcodes.imp fun child code hcode ↦
        (Codec.wire_treeReference hnode).mp (Codec.wire_of_encodes hcode)
      obtain rfl : codes = codes' :=
        List.right_unique_forall₂' hunique (hwires.imp fun _ _ ⟨less, _, hless⟩ ↦ ⟨less, hless⟩)
          (hcodes'.imp fun _ _ hcode ↦ ⟨other, hcode⟩)
      exact LengthWidth.exists_wire?_iff.mp ⟨lead, hlead⟩
    · obtain ⟨code, -, hcode⟩ := exists_of_mem_left hcodes hchild
      obtain ⟨less, -, hless⟩ := Codec.encodes_treeReference hnode hcode
      exact ih child hchild less code hless

/-- Where every node fits, the tree has bytes. By induction on the tree: the labels and the children
of a node have theirs at several depths, and the greatest of these serves for all. -/
theorem Codec.exists_wire_of_everywhere {tree : Tree A}
    (h : tree.Everywhere
      ((Codec.treeNode form label width cell).NodeFits label width definitions)) :
    ∃ depth code, (Codec.treeNode form label width cell).wire definitions depth tree =
      some code := by
  induction h with
  | @node value children here _ ih =>
    obtain ⟨⟨depth, front, hfront⟩, hfits⟩ := here
    obtain ⟨other, codes, hcodes⟩ := Codec.exists_wires ih
    obtain ⟨lead, hlead⟩ := LengthWidth.exists_wire?_iff.mpr (hfits other codes hcodes)
    have hvalue := Codec.wire_of_le (Nat.le_max_left depth (other + 1))
      (Codec.wire_of_encodes hfront)
    have hchildren := hcodes.imp fun child code hchild ↦
      Codec.wire_of_le (Nat.le_max_right depth (other + 1))
        ((Codec.wire_treeReference hnode).mpr ⟨other, rfl, hchild⟩)
    exact ⟨_, _, Codec.wire_treeNode_eq_some.mpr
      ⟨front, lead, codes, hvalue, hchildren, hlead, rfl⟩⟩

end Fits

/-! ### Main statement -/

/-- Let a definition of nodes refer to itself for their children, in a frame behind a length field,
let all references be supplied and let labels be read back, whatever stands behind them. Where there
is room for the bytes of a tree, it is written if and only if every label of it is and at every node
the bytes of the children together are a length that the field can hold. What is written is the same
at all greater depths, and in front of any bytes it is read as the tree and leaves these. -/
theorem Codec.tree_round_trip (hnode : definitions none = Codec.treeNode form label width cell)
    (hsupplied : ∀ name, (definitions name).CellsIn LazyCell.Supplied)
    (hlabel : ∀ depth, label.RoundTrips definitions depth) (tree : Tree A) :
    let node := Codec.treeNode form label width cell
    (∀ stage : Stage Sink,
      (∀ depth code, node.wire definitions depth tree = some code →
        code.length ≤ stage.stream.room ∧ code.length ≤ maxAllocation) →
      ((∃ depth written after, node.encode definitions depth tree stage = .ok written after) ↔
        tree.Everywhere fun value children ↦
          (∃ depth code, label.Encodes definitions depth value code) ∧
          ∀ depth codes,
            List.Forall₂ (fun child code ↦ node.wire definitions depth child = some code)
              children codes → codes.flatten.length < width.limit)) ∧
    ∀ depth stage written after, node.encode definitions depth tree stage = .ok written after →
      ∃ code, after.stream = stage.stream.extend code ∧ ∀ more, depth ≤ more →
        node.encode definitions more tree stage = .ok written after ∧
        ∀ (source : Stage Source) (behind : List UInt8), source.stream.bytes = code ++ behind →
          source.stream.remaining ≤ maxWord →
          ∃ last, node.decode definitions more source = .ok tree last ∧
            last.stream.bytes = behind := by
  intro node
  have hcells : node.CellsIn LazyCell.Supplied := by
    have hnone := hsupplied none
    rwa [hnode] at hnone
  have hcell : cell.Supplied := (form.cellsIn_children hcells).2
  refine ⟨fun stage hroom ↦ ⟨?_, fun hfits ↦ ?_⟩, fun depth stage written after hrun ↦ ?_⟩
  · rintro ⟨depth, written, after, hrun⟩
    obtain ⟨code, hcode, -⟩ := Codec.encodes_of_ok hrun
    exact Codec.everywhere_of_encodes hnode tree depth code hcode
  · obtain ⟨depth, code, hcode⟩ := Codec.exists_wire_of_everywhere hnode hfits
    obtain ⟨hstage, hallocation⟩ := hroom depth code hcode
    obtain ⟨written, after, hrun, -⟩ :=
      Codec.delivers_encode hsupplied hcells depth tree code hcode stage trivial hstage hallocation
    exact ⟨depth, written, after, hrun⟩
  · obtain ⟨code, -, hstream, -⟩ := Codec.encodes_of_ok hrun
    refine ⟨code, hstream, fun more hle ↦ ?_⟩
    have hmore : node.encode definitions more tree stage = .ok written after := by
      have hends (last : Stage Sink) :
          node.encode definitions depth tree stage ≠ .error .tooDeep last := by
        rw [hrun]
        nofun
      rw [Codec.encode_of_le hle hends, hrun]
    refine ⟨hmore, ?_⟩
    have hencodes : node.Encodes definitions more tree code :=
      ⟨stage, written, after, hmore, by rw [hstream, Sink.written_extend]⟩
    exact Codec.treeNode_roundTrips hlabel hcell hnode more tree code hencodes

/-- A tree of four nodes in three rows, with text as labels. Two levels of references are enough for
it, the bytes of the children together are twelve at its root, and one byte behind it stays. -/
theorem Codec.tree_round_trip_four :
    let label : Codec (Signature.empty.withTrees String) String :=
      .countedText (.leaf (.length .u8)) .unbounded .utf8
    let cell : LazyCell := ⟨0, fun _ ↦ true⟩
    let node := Codec.treeNode (.record "label" "children" ⟨"", []⟩) label .u16 cell
    let definitions : Definitions (Signature.empty.withTrees String)
      | none => node
      | some name => nomatch name
    let tree : Tree String := ⟨"root", [⟨"a", []⟩, ⟨"b", [⟨"c", []⟩]⟩]⟩
    let code : List UInt8 :=
      [4, 114, 111, 111, 116, 0, 12, 1, 97, 0, 0, 1, 98, 0, 4, 1, 99, 0, 0]
    let start : Stage Sink := ⟨Sink.slice 19, Cells.fresh⟩
    let source : Stage Source := ⟨Source.ofBytes (code ++ [7]), Cells.fresh⟩
    (∀ depth, label.RoundTrips definitions depth) ∧
      (tree.Everywhere fun value children ↦
        (∃ depth code, label.Encodes definitions depth value code) ∧
        ∀ depth codes, List.Forall₂ (fun child code ↦
          node.wire definitions depth child = some code) children codes →
          codes.flatten.length < LengthWidth.u16.limit) ∧
      (∃ written after, node.encode definitions 2 tree start = .ok written after ∧
        after.stream = start.stream.extend code) ∧
      ∀ depth, 2 ≤ depth → ∃ last, node.decode definitions depth source = .ok tree last ∧
        last.stream.bytes = [7] := by
  intro label cell node definitions tree code start source
  have hlabel (depth : Nat) : label.RoundTrips definitions depth :=
    Codec.roundTrips_of_delimits ⟨trivial, fun _ ↦ trivial⟩ (fun _ ↦ ⟨trivial, trivial⟩)
      fun _ ↦ ⟨trivial, trivial⟩
  have hsupplied : ∀ name, (definitions name).CellsIn LazyCell.Supplied
    | none => ⟨⟨trivial, fun _ ↦ trivial⟩, ⟨trivial, fun _ ↦ rfl⟩, trivial⟩
    | some name => nomatch name
  have hnode : definitions none = node := rfl
  obtain ⟨hfits, hround⟩ := Codec.tree_round_trip hnode hsupplied hlabel tree
  have hwire : node.wire definitions 2 tree = some code := by decide +kernel
  have hroom (other : Nat) (bytes : List UInt8)
      (h : node.wire definitions other tree = some bytes) :
      bytes.length ≤ start.stream.room ∧ bytes.length ≤ maxAllocation := by
    obtain rfl := Codec.wire_unique h hwire
    decide
  obtain ⟨written, after, hencode, hstream, -⟩ := Codec.delivers_encode hsupplied
    (hsupplied none) 2 tree code hwire start trivial (by decide) (by decide)
  refine ⟨hlabel, (hfits start hroom).mp ⟨2, _, _, hencode⟩, ⟨written, after, hencode, hstream⟩,
    fun depth hdepth ↦ ?_⟩
  obtain ⟨bytes, hbytes, hmore⟩ := hround 2 start _ _ hencode
  obtain rfl : code = bytes := congrArg Sink.written (hstream.symm.trans hbytes)
  exact (hmore depth hdepth).2 source [7] rfl (by decide)

end WireFormat
