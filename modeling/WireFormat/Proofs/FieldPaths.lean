import WireFormat.Proofs.ReadingParts
import WireFormat.Proofs.Trees
import WireFormat.Proofs.WritingParts

/-!
# Errors name the fields they have crossed

An error of a codec is one that some part of it raises by itself, at any depth, with the names of
the fields around that part: those of records and the tags of entries, each once, the innermost
first in the path and last in the message (`Codec.error_path`). What counts as a field is the label
of the part in `Codec.Reads` and `Codec.Writes`.

The statement is an equivalence, so the part that fails and the names can be read off the error in
one direction, and the other says that a failure at any depth does come out in this form.
-/

set_option autoImplicit false
set_option relaxedAutoImplicit false

namespace WireFormat

namespace Error

/-- The error is reported as the cause behind fields of these names, the outermost of which comes
first. -/
structure IsBehind (e : Error) (names : List String) (cause : Error) : Prop where
  kind : e.kind = cause.kind
  path : e.path = cause.path ++ names.reverse
  message : e.message =
    if names ++ cause.path.reverse = [] then cause.kind.message
    else "field [" ++ ".".intercalate (names ++ cause.path.reverse) ++ "]: " ++ cause.kind.message

theorem message_eq (e : Error) :
    e.message = if e.path.reverse = [] then e.kind.message
      else "field [" ++ ".".intercalate e.path.reverse ++ "]: " ++ e.kind.message := by
  obtain ⟨kind, path⟩ := e
  cases path with
  | nil => rfl
  | cons name path =>
    rw [if_neg (by simp)]
    rfl

/-- An error is the cause behind the fields exactly if it is the cause as seen from outside them. -/
theorem isBehind_iff {e cause : Error} {names : List String} :
    e.IsBehind names cause ↔ e = cause.inFields names := by
  constructor
  · rintro ⟨hkind, hpath, -⟩
    obtain ⟨kind, path⟩ := e
    obtain rfl : kind = cause.kind := hkind
    obtain rfl : path = cause.path ++ names.reverse := hpath
    rfl
  · rintro rfl
    refine ⟨rfl, rfl, ?_⟩
    rw [message_eq]
    simp only [inFields, List.reverse_append, List.reverse_reverse]

end Error

variable {S : Signature}

/-- The errors of a run are those that some run inside raises by itself, behind the fields that lead
there. -/
theorem NestedRuns.fails_iff {Run : Type 1} (runs : NestedRuns Run) (run : Run) (e : Error) :
    runs.fails run (.error e) ↔ ∃ names origin cause, runs.Reaches run names origin ∧
      runs.FailsItself origin cause ∧ e.IsBehind names cause := by
  simp only [Error.isBehind_iff]
  refine ⟨exists_origin, ?_⟩
  rintro ⟨names, origin, cause, hreaches, horigin, rfl⟩
  exact fails_of_reaches hreaches horigin.1

/-- A codec fails to read with an error exactly if at some depth in it a part that is run raises
that error by itself, behind the names of the fields around the part: the kind is as raised, the
path has the names from the innermost outwards, and the message joins them from the outermost
inwards by dots. What is raised has a path of its own only if a conversion has put it there. A codec
fails to write in the same way, where conversions raise nothing. -/
theorem Codec.error_path {α : Type} (definitions : Definitions S) (depth : Nat) (codec : Codec S α)
    (e : Error) :
    (∀ stage,
      (∃ after, codec.decode definitions depth stage = .error (.error e) after) ↔
        ∃ names origin cause,
          (Reading.nested definitions).Reaches ⟨codec, depth, stage⟩ names origin ∧
          (Reading.nested definitions).FailsItself origin cause ∧
          (cause.path = [] ∨ origin.codec.Refuses cause) ∧ e.IsBehind names cause) ∧
      ∀ value stage,
        (∃ after, codec.encode definitions depth value stage = .error (.error e) after) ↔
          ∃ names origin cause,
            (Writing.nested definitions).Reaches (.ofCodec codec value depth stage) names origin ∧
            (Writing.nested definitions).FailsItself origin cause ∧
            cause.path = [] ∧ e.IsBehind names cause := by
  refine ⟨fun stage ↦ ?_, fun value stage ↦ ?_⟩
  · refine ((Reading.nested definitions).fails_iff ⟨codec, depth, stage⟩ e).trans ?_
    constructor
    · rintro ⟨names, origin, cause, hreaches, horigin, he⟩
      obtain ⟨⟨after, hrun⟩, hparts⟩ := id horigin
      exact ⟨names, origin, cause, hreaches, horigin, Codec.path_of_decode hrun hparts, he⟩
    · rintro ⟨names, origin, cause, hreaches, horigin, -, he⟩
      exact ⟨names, origin, cause, hreaches, horigin, he⟩
  · refine ((Writing.nested definitions).fails_iff (.ofCodec codec value depth stage) e).trans ?_
    constructor
    · rintro ⟨names, origin, cause, hreaches, horigin, he⟩
      exact ⟨names, origin, cause, hreaches, horigin, Writing.path_of_failsItself horigin, he⟩
    · rintro ⟨names, origin, cause, hreaches, horigin, -, he⟩
      exact ⟨names, origin, cause, hreaches, horigin, he⟩

/-- A tree whose grandchild has a label of five bytes in a frame that ends after the first. -/
example :
    let label : Codec (Signature.empty.withTrees String) String :=
      .countedText (.leaf (.length .u8)) .unbounded .utf8
    let node := Codec.treeNode (.record "label" "children" ⟨"", []⟩) label .u16
      ⟨0, fun _ ↦ true⟩
    let definitions : Definitions (Signature.empty.withTrees String)
      | none => node
      | some name => nomatch name
    let source := Source.ofBytes [1, 114, 0, 6, 1, 120, 0, 2, 5, 121]
    (match node.decode definitions 2 ⟨source, Cells.fresh⟩ with
      | .error (.error e) _ => some (e.kind, e.path)
      | _ => none) =
      some (.endOfStream "code points" 1 5, ["label", "children", "children"]) := by
  decide +kernel

end WireFormat
