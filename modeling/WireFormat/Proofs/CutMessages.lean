import WireFormat.Proofs.Cuts
import WireFormat.Proofs.ReadBack
import WireFormat.Proofs.SelfDelimiting

/-!
# Messages that are cut short

A codec whose leaves do not take whatever is left, outside of frames, finds the end of what it reads
by itself (`Codec.FindsEnd`, `Codec.findsEnd_decodeWith`), whatever the conversions, presence
predicates and references in it do. If it reads all bytes of a message then it does not read any
message that lacks bytes at the end: it fails, and the error says that bytes are missing
(`Codec.decode_of_cut`).

A list of items that are sure to take a byte looks at the end of the source first. That this look
sees nothing but the items themselves is where declared sizes enter: what declares a size takes as
many bytes (`Codec.takes_of_size`).
-/

set_option autoImplicit false
set_option relaxedAutoImplicit false

namespace WireFormat

open View

/-! ### Declared sizes -/

theorem Leaf.takes_of_size {α : Type} {leaf : Leaf α} {n : Nat} {source rest : Source} {value : α}
    (hsize : leaf.size = .fixed n) (h : leaf.decode source = .ok value rest)
    (hword : source.remaining ≤ maxWord) : source.bytes.length = n + rest.bytes.length := by
  have htake {m : Nat} {bytes : List UInt8} {rest : Source}
      (h : Source.take m source = .ok bytes rest) :
      source.bytes.length = m + rest.bytes.length := by
    obtain ⟨hlength, hbytes⟩ := Source.take_eq_ok h
    rw [hbytes, List.length_append, hlength]
  cases leaf with
  | word m =>
    cases hsize
    obtain ⟨bytes, middle, htaken, hreturn⟩ := bind_eq_ok.mp h
    cases hreturn
    exact htake htaken
  | bool =>
    cases hsize
    obtain ⟨_, middle, hguard, hrun⟩ := bind_eq_ok.mp h
    obtain ⟨-, rfl⟩ := Source.atLeast_eq_ok hguard
    obtain ⟨byte, last, hget, hreturn⟩ := bind_eq_ok.mp hrun
    have hlast : rest = last := by
      split_ifs at hreturn <;> cases hreturn <;> rfl
    rw [Source.getByte_eq_ok hget, List.length_cons, hlast, Nat.add_comm]
  | length width =>
    cases hcount : width.byteCount? with
    | none =>
      rw [size, hcount] at hsize
      cases hsize
    | some bytes =>
      rw [size, hcount] at hsize
      cases hsize
      simp only [decode, LengthWidth.decode, hcount] at h
      obtain ⟨bytes, middle, htaken, hreturn⟩ := bind_eq_ok.mp h
      cases hreturn
      exact htake htaken
  | bytes count =>
    cases hsize
    exact htake h
  | text charset count =>
    rw [size] at hsize
    by_cases hsingle : charset.isSingleByte = true
    · rw [if_pos hsingle] at hsize
      cases hsize
      obtain ⟨hcount, code, hcode, hbytes⟩ := CodePointReader.read_on_eq_ok hword h
      rw [hbytes, List.length_append, Charset.length_of_isSingleByte hsingle hcode, hcount]
    · rw [if_neg hsingle] at hsize
      cases hsize
  | padded format =>
    cases hsize
    obtain ⟨bytes, middle, htaken, hrun⟩ := bind_eq_ok.mp h
    obtain ⟨text, last, htext, hreturn⟩ := bind_eq_ok.mp hrun
    obtain ⟨-, rfl⟩ := ofExcept_eq_ok.mp htext
    cases hreturn
    exact htake htaken
  | digits format =>
    cases hsize
    obtain ⟨_, middle, hguard, hrun⟩ := bind_eq_ok.mp h
    obtain ⟨-, rfl⟩ := Source.atLeast_eq_ok hguard
    obtain ⟨chars, last, hread, hreturn⟩ := bind_eq_ok.mp hrun
    cases hreturn
    obtain ⟨front, hlength, hbytes, -⟩ := PackedDigits.readBytes_eq_ok hread
    rw [hbytes, List.length_append, hlength]
  | varint width => cases hsize
  | signedVarint width => cases hsize
  | remainingBytes => cases hsize
  | fail => cases hsize
  | remainingText charset => cases hsize

/-- Counted items of one size take as many times that size. -/
theorem Decoding.takes_items {α : Type} {item : Decoding α} {n : Nat}
    (hitem : ∀ stage value after, item stage = .ok value after → stage.stream.remaining ≤ maxWord →
      stage.stream.bytes.length = n + after.stream.bytes.length)
    {sized : Bool} {requested left : Nat} {stage after : Stage Source} {values : List α}
    (h : items item sized requested left stage = .ok values after)
    (hword : stage.stream.remaining ≤ maxWord) :
    stage.stream.bytes.length = n * left + after.stream.bytes.length := by
  induction left generalizing stage values with
  | zero =>
    cases h
    rw [Nat.mul_zero, Nat.zero_add]
  | succ left ih =>
    obtain ⟨value, middle, others, hvalue, hothers, rfl⟩ := items_succ_eq_ok h
    have hfirst := hitem _ _ _ hvalue hword
    have hword' : middle.stream.remaining ≤ maxWord := by
      rw [Source.remaining_eq_length] at hword ⊢
      omega
    rw [hfirst, ih hothers hword', Nat.mul_succ]
    omega

variable {S : Signature}

/-- The number of bytes, where one is declared. -/
def Size.known? : Size → Option Nat
  | .fixed bytes => some bytes
  | _ => none

mutual

/-- The bytes of all parts together, however many they are, where every part declares a size. -/
def Codec.span : {α : Type} → Codec S α → Option Nat
  | _, .leaf leaf => leaf.size.known?
  | _, .tuple items => items.span
  | _, .fixedList item count => item.span.map (· * count)
  | _, .map _ _ wire => wire.span
  | _, .case _ _ payload => payload.span
  | _, _ => none

/-- The bytes of the parts of a tuple together. -/
def Items.span : {α : Type} → Items S α → Option Nat
  | _, .nil => some 0
  | _, .cons item rest => item.span.bind fun bytes ↦ rest.span.map (bytes + ·)

end

theorem Items.span_cons_eq_some {α β : Type} {item : Codec S α} {rest : Items S β} {n : Nat} :
    (Items.cons item rest).span = some n ↔
      ∃ bytes others, item.span = some bytes ∧ rest.span = some others ∧ n = bytes + others := by
  rw [Items.span]
  cases item.span with
  | none => simp
  | some bytes => cases rest.span <;> simp [eq_comm]

mutual

/-- A declared size is that of all parts together. -/
theorem Codec.span_of_size : {α : Type} → (codec : Codec S α) → (n : Nat) →
    codec.size = .fixed n → codec.span = some n
  | _, .leaf leaf, n, hsize => by
    have hleaf : leaf.size = .fixed n := hsize
    rw [Codec.span, hleaf, Size.known?]
  | _, .tuple items, n, hsize => by
    obtain ⟨span, hspan, rfl⟩ := items.span_of_sizeAfter 0 n hsize
    rw [Codec.span, hspan, Nat.zero_add]
  | _, .fixedList item count, n, hsize => by
    obtain ⟨bytes, hitem, -, rfl⟩ := Size.times_eq_fixed.mp hsize
    rw [Codec.span, item.span_of_size bytes hitem, Option.map_some]
  | _, .map _ _ wire, n, hsize => wire.span_of_size n hsize
  | _, .case _ _ payload, n, hsize => payload.span_of_size n hsize

theorem Items.span_of_sizeAfter : {α : Type} → (items : Items S α) → (before n : Nat) →
    items.sizeAfter before = .fixed n → ∃ span, items.span = some span ∧ n = before + span
  | _, .nil, before, n, hsize => ⟨0, rfl, (Size.fixed.inj hsize).symm⟩
  | _, .cons item rest, before, n, hsize => by
    obtain ⟨bytes, hitem, -, hrest⟩ := Items.sizeAfter_cons_eq_fixed.mp hsize
    obtain ⟨span, hspan, rfl⟩ := rest.span_of_sizeAfter _ n hrest
    refine ⟨bytes + span, ?_, Nat.add_assoc _ _ _⟩
    exact Items.span_cons_eq_some.mpr ⟨bytes, span, item.span_of_size bytes hitem, hspan, rfl⟩

end

variable {references : (name : S.Name) → Decoding (S.Value name)}

mutual

/-- Where every part declares a size, their bytes are taken. -/
theorem Codec.takes_of_span : {α : Type} → (codec : Codec S α) → (n : Nat) →
    codec.span = some n → ∀ (stage : Stage Source) (value : α) (after : Stage Source),
    codec.decodeWith references stage = .ok value after → stage.stream.remaining ≤ maxWord →
    stage.stream.bytes.length = n + after.stream.bytes.length
  | _, .leaf leaf, n, hspan, stage, value, after, h, hword => by
    rw [Codec.span] at hspan
    cases hsize : leaf.size with
    | fixed bytes =>
      rw [hsize] at hspan
      cases hspan
      exact Leaf.takes_of_size hsize (Stage.onStream_eq_ok.mp h).1 hword
    | _ =>
      rw [hsize] at hspan
      cases hspan
  | _, .tuple items, n, hspan, stage, value, after, h, hword =>
    items.takes_of_span n hspan stage value after h hword
  | _, .fixedList item count, n, hspan, stage, values, after, h, hword => by
    obtain ⟨bytes, hitem, rfl⟩ := Option.map_eq_some_iff.mp hspan
    have htakes := item.takes_of_span bytes hitem
    exact Decoding.takes_items htakes (Codec.items_of_fixedList h) hword
  | _, .map _ fromWire wire, n, hspan, stage, value, after, h, hword => by
    obtain ⟨inner, middle, hinner, hrun⟩ := bind_eq_ok.mp h
    obtain ⟨-, rfl⟩ := ofExcept_eq_ok.mp hrun
    exact wire.takes_of_span n hspan stage inner _ hinner hword
  | _, .case _ _ payload, n, hspan, stage, value, after, h, hword => by
    obtain ⟨inner, middle, hinner, hreturn⟩ := bind_eq_ok.mp h
    cases hreturn
    exact payload.takes_of_span n hspan stage inner _ hinner hword

theorem Items.takes_of_span : {α : Type} → (items : Items S α) → (n : Nat) →
    items.span = some n → ∀ (stage : Stage Source) (value : α) (after : Stage Source),
    items.decodeWith references stage = .ok value after → stage.stream.remaining ≤ maxWord →
    stage.stream.bytes.length = n + after.stream.bytes.length
  | _, .nil, n, hspan, stage, _, after, h, _ => by
    cases hspan
    cases h
    exact (Nat.zero_add _).symm
  | _, .cons item rest, n, hspan, stage, value, after, h, hword => by
    obtain ⟨bytes, more, hitem, hrest, rfl⟩ := Items.span_cons_eq_some.mp hspan
    obtain ⟨first, middle, hfirst, hrun⟩ := bind_eq_ok.mp h
    obtain ⟨others, last, hothers, hreturn⟩ := bind_eq_ok.mp hrun
    cases hreturn
    have hlength := item.takes_of_span bytes hitem stage first middle hfirst hword
    have hword' : middle.stream.remaining ≤ maxWord := by
      rw [Source.remaining_eq_length] at hword ⊢
      omega
    have hlengths := rest.takes_of_span more hrest middle others after hothers hword'
    omega

end

/-- What declares a size takes as many bytes. -/
theorem Codec.takes_of_size {α : Type} (codec : Codec S α) (n : Nat) (hsize : codec.size = .fixed n)
    (stage : Stage Source) (value : α) (after : Stage Source)
    (h : codec.decodeWith references stage = .ok value after)
    (hword : stage.stream.remaining ≤ maxWord) :
    stage.stream.bytes.length = n + after.stream.bytes.length :=
  codec.takes_of_span n (codec.span_of_size n hsize) stage value after h hword

/-! ### Stages -/

namespace Stage

variable {α : Type}

/-- Beside the bytes of its source, a stage shows the references. -/
def view : View (Stage Source) := ⟨fun stage ↦ stage.stream.bytes, Cells, Stage.cells⟩

theorem findsEnd_onStream {action : Action Source α} (h : Source.view.FindsEnd action) :
    view.FindsEnd (onStream action) := by
  intro s a s' hrun hword
  obtain ⟨hstream, hcells⟩ := onStream_eq_ok.mp hrun
  obtain ⟨front, hfront⟩ := h _ _ _ hstream hword
  refine ⟨front, hfront.bytes, ?_, ?_⟩
  · intro t behind hbytes haside hlength
    obtain ⟨t', hrun', hbehind, -⟩ := hfront.again t.stream behind hbytes rfl hlength
    exact ⟨_, onStream_of_ok hrun', hbehind, Eq.trans haside hcells.symm⟩
  · intro t missing hcut hmissing _
    obtain ⟨e, t', hfails, he⟩ := hfront.cut t.stream missing hcut hmissing rfl
    exact ⟨e, _, onStream_of_error hfails, he⟩

theorem findsEnd_onCells (action : Action Cells α) :
    view.FindsEnd (onCells action : Action (Stage Source) α) := by
  intro s a s' hrun _
  refine ⟨[], took_nil (congrArg Source.bytes (stream_of_onCells hrun)) fun t haside ↦ ?_⟩
  have hcells : t.cells = s.cells := haside
  unfold onCells at hrun ⊢
  rw [hcells]
  cases hcall : action s.cells with
  | error failure cells =>
    rw [hcall] at hrun
    cases hrun
  | ok value cells =>
    rw [hcall] at hrun
    cases hrun
    exact ⟨_, rfl, rfl, rfl⟩

end Stage

namespace Decoding

variable {α β : Type}

/-- A frame was cut out before: its bytes are at hand, whatever the source holds. -/
theorem findsEnd_inFrame (frame : List UInt8) (inner : Decoding α) :
    Stage.view.FindsEnd (inFrame frame inner) := by
  intro s a s' hrun _
  obtain ⟨last, hinner, hlast, rfl⟩ := inFrame_eq_ok hrun
  refine ⟨[], took_nil rfl fun t haside ↦ ?_⟩
  have hcells : t.cells = s.cells := haside
  rw [← hcells] at hinner
  exact ⟨_, inFrame_of_ok hinner hlast, rfl, rfl⟩

/-- A look at the end of the source sees no more than what is sure to take a byte. -/
theorem findsEnd_expectItem {read requested : Nat} {next : Decoding α}
    (hnext : Stage.view.FindsEnd next)
    (hprogress : ∀ stage value after, next stage = .ok value after →
      stage.stream.remaining ≤ maxWord → after.stream.remaining < stage.stream.remaining) :
    Stage.view.FindsEnd (expectItem read requested >>= fun _ ↦ next) := by
  intro s a s' h hword
  obtain ⟨_, middle, hlook, hrun⟩ := bind_eq_ok.mp h
  rw [(expectItem_eq_ok hlook).2] at hrun
  obtain ⟨front, hfront⟩ := hnext s a s' hrun hword
  have hnonempty : front ≠ [] := by
    rintro rfl
    have hless := hprogress s a s' hrun ((Source.remaining_eq_length _).trans_le hword)
    have hsame : s.stream.bytes = s'.stream.bytes := hfront.bytes
    rw [Source.remaining_eq_length, Source.remaining_eq_length, hsame] at hless
    exact Nat.lt_irrefl _ hless
  refine ⟨front, hfront.bytes, ?_, ?_⟩
  · intro t behind hbytes haside hlength
    have hbytes' : t.stream.bytes ≠ [] := by
      rw [show t.stream.bytes = front ++ behind from hbytes]
      simp [hnonempty]
    obtain ⟨t', hrun', hafter⟩ := hfront.again t behind hbytes haside hlength
    exact ⟨t', (bind_of_ok (expectItem_of_ne_nil hbytes') _).trans hrun', hafter⟩
  · intro t missing hcut hmissing haside
    by_cases hempty : t.stream.bytes = []
    · have hremaining : t.stream.remaining = 0 := Source.remaining_eq_zero_iff.mpr hempty
      exact ⟨_, t, bind_of_error (expectItem_of_end hremaining) _, rfl⟩
    · obtain ⟨e, t', hfails, he⟩ := hfront.cut t missing hcut hmissing haside
      exact ⟨e, t', (bind_of_ok (expectItem_of_ne_nil hempty) _).trans hfails, he⟩

/-- Counted items find their end when each of them does. -/
theorem findsEnd_items {item : Decoding α} (hitem : Stage.view.FindsEnd item) {sized : Bool}
    (hprogress : sized = true → ∀ stage value after, item stage = .ok value after →
      stage.stream.remaining ≤ maxWord → after.stream.remaining < stage.stream.remaining)
    (requested left : Nat) : Stage.view.FindsEnd (items item sized requested left) := by
  induction left with
  | zero => exact findsEnd_pure _
  | succ left ih =>
    have hvalues : Stage.view.FindsEnd (do
        let value ← item
        let values ← items item sized requested left
        return value :: values) :=
      findsEnd_bind hitem fun value ↦ findsEnd_bind ih fun values ↦ findsEnd_pure _
    cases sized with
    | false => exact hvalues
    | true =>
      refine findsEnd_expectItem hvalues fun stage values after h hword ↦ ?_
      obtain ⟨value, middle, hvalue, hrun⟩ := bind_eq_ok.mp h
      obtain ⟨others, last, hothers, hreturn⟩ := bind_eq_ok.mp hrun
      cases hreturn
      have hless := hprogress rfl stage value middle hvalue hword
      -- The other items do not give bytes back.
      rw [Source.remaining_eq_length] at hless hword
      rw [Source.remaining_eq_length] at hless
      obtain ⟨back, hback⟩ := ih middle others after hothers
        (show middle.stream.bytes.length ≤ maxWord by omega)
      have hmiddle : middle.stream.bytes = back ++ after.stream.bytes := hback.bytes
      rw [hmiddle, List.length_append] at hless
      rw [Source.remaining_eq_length, Source.remaining_eq_length]
      omega

end Decoding

/-! ### Codecs -/

mutual

/-- No leaf takes whatever is left, no list runs to the end and no record is tagged, except inside a
frame; the references are to names of a set. -/
def Codec.FindsEnd (names : S.Name → Prop) : {α : Type} → Codec S α → Prop
  | _, .leaf leaf => leaf.FindsEnd
  | _, .tuple items => items.FindsEnd names
  | _, .fixedList item _ => item.FindsEnd names
  | _, .exhaustList _ _ => False
  | _, .map _ _ wire => wire.FindsEnd names
  | _, .case _ _ payload => payload.FindsEnd names
  | _, .byteCounted length _ _ => length.FindsEnd names
  | _, .itemCounted length _ _ body => length.FindsEnd names ∧ ∀ n, (body n).FindsEnd names
  | _, .record _ fields => fields.FindsEnd names
  | _, .tagged (i := _) _ _ _ _ _ _ _ => False
  | _, .choice (i := _) (j := _) tag _ _ _ _ table => tag.FindsEnd names ∧ table.FindsEnd names
  | _, .lazy _ name => names name

/-- So it is in every part of a tuple. -/
def Items.FindsEnd (names : S.Name → Prop) : {α : Type} → Items S α → Prop
  | _, .nil => True
  | _, .cons item rest => item.FindsEnd names ∧ rest.FindsEnd names

/-- So it is in every field of a record. -/
def Fields.FindsEnd (names : S.Name → Prop) : {R : Type} → Fields S R → Prop
  | _, .nil => True
  | _, .cons _ _ _ _ codec rest => codec.FindsEnd names ∧ rest.FindsEnd names

/-- So it is in every codec of a table. -/
def Table.FindsEnd (names : S.Name → Prop) : {K V : Type} → Table S K V → Prop
  | _, _, .nil => True
  | _, _, .cons _ codec rest => codec.FindsEnd names ∧ rest.FindsEnd names

end

/-- What declares a positive size takes a byte. -/
theorem Codec.progress_of_isPositive {α : Type} (item : Codec S α)
    (h : item.size.isPositive = true) (stage : Stage Source) (value : α) (after : Stage Source)
    (hrun : item.decodeWith references stage = .ok value after)
    (hword : stage.stream.remaining ≤ maxWord) :
    after.stream.remaining < stage.stream.remaining := by
  cases hsize : item.size with
  | fixed n =>
    have hlength := item.takes_of_size n hsize stage value after hrun hword
    have hpositive : 0 < n := by simpa [hsize, Size.isPositive] using h
    rw [Source.remaining_eq_length, Source.remaining_eq_length]
    omega
  | varying => simp [hsize, Size.isPositive] at h
  | overflow => simp [hsize, Size.isPositive] at h

variable {names : S.Name → Prop}

/-! One level of references: if the decoders of the names find their ends, then so does that of a
codec, of the parts of a tuple, of the fields of a record or of a table. -/

mutual

theorem Codec.findsEnd_decodeWith
    (hreferences : ∀ name, names name → Stage.view.FindsEnd (references name)) :
    {α : Type} → (codec : Codec S α) → codec.FindsEnd names →
    Stage.view.FindsEnd (codec.decodeWith references)
  | _, .leaf leaf, h => Stage.findsEnd_onStream (leaf.findsEnd_decode h)
  | _, .tuple items, h => items.findsEnd_decodeWith hreferences h
  | _, .fixedList item count, h => by
    rw [Codec.decodeWith_fixedList]
    split
    · exact findsEnd_throw _
    · exact Decoding.findsEnd_items (item.findsEnd_decodeWith hreferences h)
        (fun hpositive ↦ item.progress_of_isPositive hpositive) count count
  | _, .map _ fromWire wire, h =>
    findsEnd_bind (wire.findsEnd_decodeWith hreferences h) fun _ ↦ findsEnd_ofExcept _
  | _, .case _ _ payload, h =>
    findsEnd_bind (payload.findsEnd_decodeWith hreferences h) fun _ ↦ findsEnd_pure _
  | _, .byteCounted length range payload, h => by
    refine findsEnd_bind (length.findsEnd_decodeWith hreferences h) fun n ↦ ?_
    refine findsEnd_bind (findsEnd_ofExcept _) fun n ↦ ?_
    refine findsEnd_bind (Stage.findsEnd_onStream (Source.findsEnd_take n)) fun frame ↦ ?_
    exact Decoding.findsEnd_inFrame frame _
  | _, .itemCounted length range _ body, h => by
    refine findsEnd_bind (length.findsEnd_decodeWith hreferences h.1) fun n ↦ ?_
    refine findsEnd_bind (findsEnd_ofExcept _) fun n ↦ ?_
    exact (body n).findsEnd_decodeWith hreferences (h.2 n)
  | _, .record factory fields, h => by
    cases factory with
    | none => exact findsEnd_fail _
    | some start => exact fields.findsEnd_decodeWith hreferences h start
  | _, .choice (i := _) (j := _) tag showTag showKind _ registry table, h => by
    refine findsEnd_bind (tag.findsEnd_decodeWith hreferences h.1) fun key ↦ ?_
    cases registry.kindOf? key with
    | none => exact findsEnd_fail _
    | some kind =>
      have htable := table.findsEnd_decodeAt hreferences h.2 kind
      cases hdecode : table.decodeAt references kind with
      | none =>
        simp only [hdecode]
        exact findsEnd_fail _
      | some decode =>
        simp only [hdecode]
        exact htable decode hdecode
  | _, .lazy cell name, h =>
    findsEnd_bind (Stage.findsEnd_onCells _) fun _ ↦ hreferences name h

theorem Items.findsEnd_decodeWith
    (hreferences : ∀ name, names name → Stage.view.FindsEnd (references name)) :
    {α : Type} → (items : Items S α) → items.FindsEnd names →
    Stage.view.FindsEnd (items.decodeWith references)
  | _, .nil, _ => findsEnd_pure ()
  | _, .cons item rest, h =>
    findsEnd_bind (item.findsEnd_decodeWith hreferences h.1) fun _ ↦
      findsEnd_bind (rest.findsEnd_decodeWith hreferences h.2) fun _ ↦ findsEnd_pure _

theorem Fields.findsEnd_decodeWith
    (hreferences : ∀ name, names name → Stage.view.FindsEnd (references name)) :
    {R : Type} → (fields : Fields S R) → fields.FindsEnd names → (record : R) →
    Stage.view.FindsEnd (fields.decodeWith references record)
  | _, .nil, _, record => findsEnd_pure record
  | _, .cons _ _ set _ codec rest, h, record =>
    findsEnd_ite
      (findsEnd_bind (findsEnd_inField (codec.findsEnd_decodeWith hreferences h.1)) fun value ↦
        rest.findsEnd_decodeWith hreferences h.2 (set record value))
      (rest.findsEnd_decodeWith hreferences h.2 record)

theorem Table.findsEnd_decodeAt
    (hreferences : ∀ name, names name → Stage.view.FindsEnd (references name)) :
    {K V : Type} → [DecidableEq K] → (table : Table S K V) → table.FindsEnd names →
    (wanted : K) → ∀ decode, table.decodeAt references wanted = some decode →
    Stage.view.FindsEnd decode
  | _, _, _, .nil, _, _, _, h => by cases h
  | _, _, _, .cons key codec rest, hends, wanted, decode, h => by
    rw [Table.decodeAt] at h
    by_cases hkey : key = wanted
    · rw [if_pos hkey] at h
      cases h
      exact codec.findsEnd_decodeWith hreferences hends.1
    · rw [if_neg hkey] at h
      exact rest.findsEnd_decodeAt hreferences hends.2 wanted decode h

end

/-- By induction on the levels of references that are left. -/
theorem Definitions.findsEnd_decodeWithin {definitions : Definitions S}
    (hdefinitions : ∀ name, names name → (definitions name).FindsEnd names) (depth : Nat)
    (name : S.Name) (hname : names name) :
    Stage.view.FindsEnd (definitions.decodeWithin depth name) := by
  induction depth generalizing name with
  | zero => exact findsEnd_throw _
  | succ depth ih =>
    exact (definitions name).findsEnd_decodeWith ih (hdefinitions name hname)

/-- A codec that finds the end of what it reads, and reads all bytes of a message, reads none that
lacks bytes at the end: it fails for the want of them. -/
theorem Codec.decode_of_cut {α : Type} {codec : Codec S α} {definitions : Definitions S}
    {depth : Nat} (hcodec : codec.FindsEnd names)
    (hdefinitions : ∀ name, names name → (definitions name).FindsEnd names)
    {whole cut : Source} {cells : Cells} {value : α} {last : Stage Source}
    {missing : List UInt8} (hword : whole.remaining ≤ maxWord)
    (hwhole : codec.decode definitions depth ⟨whole, cells⟩ = .ok value last)
    (hall : last.stream.bytes = []) (hcut : whole.bytes = cut.bytes ++ missing)
    (hmissing : missing ≠ []) :
    ∃ e after, codec.decode definitions depth ⟨cut, cells⟩ = .error (.error e) after ∧
      e.kind.isCut = true := by
  have hfinds : Stage.view.FindsEnd (codec.decode definitions depth) :=
    codec.findsEnd_decodeWith (Definitions.findsEnd_decodeWithin hdefinitions depth) hcodec
  rw [Source.remaining_eq_length] at hword
  obtain ⟨front, hfront⟩ := hfinds _ _ _ hwhole hword
  have hbytes : whole.bytes = front := by
    have hsplit : whole.bytes = front ++ last.stream.bytes := hfront.bytes
    rwa [hall, List.append_nil] at hsplit
  exact hfront.cut ⟨cut, cells⟩ missing (hbytes.symm.trans hcut) hmissing rfl

/-- A text behind its length and a frame of bytes, cut inside the second half of a surrogate pair:
the error says that bytes are missing. -/
theorem Codec.decode_of_cut_pair :
    let codec : Codec Signature.empty (String × List (BitVec (8 * 1)) × Unit) := .tuple
      (.cons (.countedText (.leaf (.length .u8)) .unbounded .utf16be)
        (.cons
          (.byteCounted (.leaf (.length .u8)) .unbounded (.exhaustList (.leaf (.word 1)) none))
          .nil))
    let definitions : Definitions Signature.empty := nofun
    let whole := Source.ofBytes [1, 0xD8, 0x3D, 0xDE, 0x00, 2, 7, 8]
    let cut : Source := ⟨[[1, 0xD8], [0x3D, 0xDE]]⟩
    codec.FindsEnd (fun _ ↦ False) ∧
      codec.decode definitions 0 ⟨whole, Cells.fresh⟩ =
        .ok ("😀", [7, 8], ()) ⟨⟨[[]]⟩, Cells.fresh⟩ ∧
      whole.bytes = cut.bytes ++ [0x00, 2, 7, 8] ∧
      ∃ e after, codec.decode definitions 0 ⟨cut, Cells.fresh⟩ = .error (.error e) after ∧
        e.kind.isCut = true := by
  intro codec definitions whole cut
  have hcodec : codec.FindsEnd fun _ ↦ False := ⟨⟨trivial, fun _ ↦ trivial⟩, trivial, trivial⟩
  have hwhole : codec.decode definitions 0 ⟨whole, Cells.fresh⟩ =
      .ok ("😀", [7, 8], ()) ⟨⟨[[]]⟩, Cells.fresh⟩ := by
    with_unfolding_all rfl
  have hbytes : whole.bytes = cut.bytes ++ [0x00, 2, 7, 8] := rfl
  exact ⟨hcodec, hwhole, hbytes,
    Codec.decode_of_cut hcodec (fun _ hname ↦ hname.elim) (by decide) hwhole rfl hbytes (by simp)⟩

end WireFormat
