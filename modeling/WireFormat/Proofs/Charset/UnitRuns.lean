import WireFormat.Proofs.Charset.Encoding

/-!
# Runs of a decoder that is fed single bytes

A decoder may be fed any bytes, and goes on after a byte that it refused. Whatever it was fed, bytes
are pending only while the unit under way lacks some, and no unit takes more than four
(`UnitDecoder.Sane`). What one byte can lead to from such a decoder is said once
(`UnitDecoder.takes_push`): a unit or a refusal leaves nothing pending, anything else adds the byte
to what is pending. So a unit is under way for a bounded time, and the number of bytes that an
earlier sequence needed is not looked at between units (`UnitDecoder.Alike`).

A decoder of fixed size keeps the pending bytes at the front of a buffer of four, where the bytes of
earlier sequences stay behind them (`BufferedDecoder`). It stores and reads within the buffer and
answers as the decoder of a list does (`BufferedDecoder.Holds.pushAll`).
-/

set_option autoImplicit false
set_option relaxedAutoImplicit false

namespace WireFormat

/-! ### Units -/

namespace Charset

/-- The most bytes that a unit takes. -/
def maxUnitLength : Charset → Nat
  | .ascii | .latin1 => 1
  | .utf8 => 4
  | .utf16be | .utf16le => 2

/-- The number may be that of a unit: any of sixteen bits where units may be halves of a pair, and
only that of a character elsewhere. -/
def IsUnit (charset : Charset) (value : Nat) : Prop :=
  if charset.hasSurrogates then value < 0x10000 else value.isValidChar

variable {charset : Charset}

theorem maxUnitLength_pos (charset : Charset) : 0 < charset.maxUnitLength := by
  cases charset <;> decide

theorem isUnit_iff_of_hasSurrogates (h : charset.hasSurrogates = true) {value : Nat} :
    charset.IsUnit value ↔ value < 0x10000 := by
  rw [IsUnit, if_pos h]

end Charset

namespace UnitDecoder

/-- The number of bytes that the unit under way takes. -/
def unitLength (decoder : UnitDecoder) : Nat :=
  match decoder.charset with
  | .ascii | .latin1 => 1
  | .utf8 => decoder.need
  | .utf16be | .utf16le => 2

/-- Bytes are pending only while the unit under way lacks some, and the unit is no longer than those
of the charset are. Between units it does not matter what was needed before. -/
def Sane (decoder : UnitDecoder) : Prop :=
  decoder.pending = [] ∨ decoder.pending.length < decoder.unitLength ∧
    decoder.unitLength ≤ decoder.charset.maxUnitLength

variable {decoder other : UnitDecoder} {byte : UInt8} {pending bytes : List UInt8} {need : Nat}

theorem sane_decoder (charset : Charset) : charset.decoder.Sane :=
  .inl rfl

theorem Sane.length_pending (h : decoder.Sane) :
    decoder.pending.length < decoder.charset.maxUnitLength := by
  rcases h with hpending | ⟨hlength, hmax⟩
  · rw [hpending]
    exact decoder.charset.maxUnitLength_pos
  · exact hlength.trans_le hmax

/-! ### One byte -/

/-- What may come of a byte. -/
inductive Takes (decoder : UnitDecoder) (byte : UInt8) : Push × UnitDecoder → Prop where
  /-- It completes a unit, and nothing is pending. -/
  | unit {value : Nat} {next : UnitDecoder} (hunit : decoder.charset.IsUnit value)
    (hcharset : next.charset = decoder.charset) (hpending : next.pending = []) :
    Takes decoder byte (.unit value, next)
  /-- It is refused, and nothing is pending. -/
  | invalid {next : UnitDecoder} (hcharset : next.charset = decoder.charset)
    (hpending : next.pending = []) : Takes decoder byte (.invalid, next)
  /-- It is pending behind the others, and the unit still lacks some. -/
  | more {next : UnitDecoder} (hcharset : next.charset = decoder.charset)
    (hpending : next.pending = decoder.pending ++ [byte])
    (hlength : next.pending.length < next.unitLength)
    (hmax : next.unitLength ≤ next.charset.maxUnitLength) : Takes decoder byte (.more, next)

namespace Takes

variable {result : Push × UnitDecoder}

theorem charset_eq (h : decoder.Takes byte result) : result.2.charset = decoder.charset := by
  cases h <;> assumption

theorem sane (h : decoder.Takes byte result) : result.2.Sane := by
  cases h with
  | unit _ _ hpending => exact .inl hpending
  | invalid _ hpending => exact .inl hpending
  | more _ _ hlength hmax => exact .inr ⟨hlength, hmax⟩

theorem pending_eq_nil (h : decoder.Takes byte result) (hanswer : result.1 ≠ .more) :
    result.2.pending = [] := by
  cases h with
  | unit _ _ hpending => exact hpending
  | invalid _ hpending => exact hpending
  | more => exact absurd rfl hanswer

theorem pending_of_more (h : decoder.Takes byte result) (hanswer : result.1 = .more) :
    result.2.pending = decoder.pending ++ [byte] := by
  cases h with
  | unit => cases hanswer
  | invalid => cases hanswer
  | more _ hpending => exact hpending

theorem isUnit {value : Nat} (h : decoder.Takes byte result) (hanswer : result.1 = .unit value) :
    decoder.charset.IsUnit value := by
  cases h with
  | unit hunit =>
    cases hanswer
    exact hunit
  | invalid => cases hanswer
  | more => cases hanswer

end Takes

theorem takes_utf8 (h : (UnitDecoder.mk .utf8 pending need).Sane) (byte : UInt8) :
    Takes ⟨.utf8, pending, need⟩ byte ((UnitDecoder.mk .utf8 pending need).push byte) := by
  by_cases hpending : pending = []
  · subst hpending
    cases ha : Utf8.sequenceLength? byte with
    | none =>
      rw [Pull.push_stray ha]
      exact .invalid rfl rfl
    | some length =>
      rcases Utf8.sequenceLength?_le_four ha with rfl | rfl | rfl | rfl
      · rw [Pull.push_single ha]
        exact .unit (Pull.isValidChar_of_byte byte) rfl rfl
      all_goals
        rw [Pull.push_lead ha]
        exact .more rfl rfl (by simp [unitLength]) (by simp [unitLength, Charset.maxUnitLength])
  · have hlength : pending.length < need := (h.resolve_left hpending).1
    have hmax : need ≤ 4 := (h.resolve_left hpending).2
    cases hb : Utf8.isContinuation byte with
    | false =>
      rw [Pull.push_refused hpending hb]
      exact .invalid rfl rfl
    | true =>
      rcases Nat.lt_or_eq_of_le (Nat.succ_le_of_lt hlength) with hneed | hneed
      · rw [Pull.push_more hpending hb hneed]
        exact .more rfl rfl (by simpa [unitLength] using hneed) hmax
      · cases hc : Utf8.firstChar? (pending ++ [byte]) with
        | some c =>
          rw [Pull.push_last hpending hb hneed hc]
          exact .unit c.valid rfl rfl
        | none =>
          rw [Pull.push_last_of_none hpending hb hneed hc]
          exact .invalid rfl rfl

theorem takes_utf16 {charset : Charset} {value : UInt8 → UInt8 → Nat}
    (hcharset : charset.hasSurrogates = true) (hvalue : ∀ a b, value a b < 0x10000)
    (byte : UInt8) : Takes ⟨charset, pending, need⟩ byte
      ((UnitDecoder.mk charset pending need).pushUtf16 value byte) := by
  cases pending with
  | nil =>
    cases charset with
    | ascii | latin1 | utf8 => cases hcharset
    | utf16be | utf16le => exact .more rfl rfl (Nat.lt_succ_self 1) le_rfl
  | cons first rest =>
    exact .unit ((Charset.isUnit_iff_of_hasSurrogates hcharset).mpr (hvalue first byte)) rfl rfl

/-- Whatever a decoder is fed, one of three things comes of it. -/
theorem takes_push (h : decoder.Sane) (byte : UInt8) : decoder.Takes byte (decoder.push byte) := by
  obtain ⟨charset, pending, need⟩ := decoder
  cases charset with
  | ascii =>
    have hpending : pending = [] :=
      List.eq_nil_of_length_eq_zero (Nat.lt_one_iff.mp h.length_pending)
    simp only [push]
    split_ifs
    · exact .unit (Pull.isValidChar_of_byte byte) rfl hpending
    · exact .invalid rfl hpending
  | latin1 =>
    have hpending : pending = [] :=
      List.eq_nil_of_length_eq_zero (Nat.lt_one_iff.mp h.length_pending)
    exact .unit (Pull.isValidChar_of_byte byte) rfl hpending
  | utf8 => exact takes_utf8 h byte
  | utf16be => exact takes_utf16 rfl Utf16.isByteOrder_bigEndian.value_lt byte
  | utf16le => exact takes_utf16 rfl Utf16.isByteOrder_littleEndian.value_lt byte

/-! ### Many bytes -/

/-- The decoder behind the bytes. -/
def after (decoder : UnitDecoder) (bytes : List UInt8) : UnitDecoder :=
  bytes.foldl (fun before byte ↦ (before.push byte).2) decoder

theorem pushAll_cons : decoder.pushAll (byte :: bytes) =
    ((decoder.push byte).1, (decoder.push byte).2.inSequence) ::
      (decoder.push byte).2.pushAll bytes :=
  rfl

/-- The answers to bytes behind others are those of the decoder behind the others. -/
theorem pushAll_append (decoder : UnitDecoder) (front back : List UInt8) :
    decoder.pushAll (front ++ back) =
      decoder.pushAll front ++ (decoder.after front).pushAll back := by
  induction front generalizing decoder with
  | nil => rfl
  | cons byte front ih => exact congrArg (List.cons _) (ih (decoder.push byte).2)

theorem Sane.after (h : decoder.Sane) (bytes : List UInt8) : (decoder.after bytes).Sane := by
  induction bytes generalizing decoder with
  | nil => exact h
  | cons byte bytes ih => exact ih (takes_push h byte).sane

theorem Sane.charset_after (h : decoder.Sane) (bytes : List UInt8) :
    (decoder.after bytes).charset = decoder.charset := by
  induction bytes generalizing decoder with
  | nil => rfl
  | cons byte bytes ih =>
    have htakes := takes_push h byte
    exact (ih htakes.sane).trans htakes.charset_eq

/-- Every byte that completes nothing stays pending, so that not many of them come in a row. -/
theorem Sane.length_lt_of_more (h : decoder.Sane)
    (hmore : ∀ answer ∈ decoder.pushAll bytes, answer.1 = .more) :
    decoder.pending.length + bytes.length < decoder.charset.maxUnitLength := by
  induction bytes generalizing decoder with
  | nil => exact h.length_pending
  | cons byte bytes ih =>
    rw [pushAll_cons, List.forall_mem_cons] at hmore
    have htakes := takes_push h byte
    have hrest := ih htakes.sane hmore.2
    rw [htakes.charset_eq, htakes.pending_of_more hmore.1, List.length_append,
      List.length_singleton] at hrest
    rw [List.length_cons]
    omega

/-! ### Decoders that answer alike -/

/-- The decoders have the same bytes pending and, while there are some, lack the same number. -/
structure Alike (decoder other : UnitDecoder) : Prop where
  charset_eq : decoder.charset = other.charset
  pending_eq : decoder.pending = other.pending
  unitLength_eq : decoder.pending ≠ [] → decoder.unitLength = other.unitLength

theorem Alike.refl (decoder : UnitDecoder) : decoder.Alike decoder :=
  ⟨rfl, rfl, fun _ ↦ rfl⟩

/-- Between units it does not matter what was needed before. -/
theorem Alike.of_idle (hcharset : decoder.charset = other.charset)
    (hpending : decoder.pending = []) (hother : other.pending = []) : decoder.Alike other :=
  ⟨hcharset, hpending.trans hother.symm, fun h ↦ absurd hpending h⟩

/-- A sequence of UTF-8 that begins says itself how many bytes it needs. -/
theorem alike_push_utf8 (need other : Nat) (byte : UInt8) :
    ((UnitDecoder.mk .utf8 [] need).push byte).1 = ((UnitDecoder.mk .utf8 [] other).push byte).1 ∧
      ((UnitDecoder.mk .utf8 [] need).push byte).2.Alike
        ((UnitDecoder.mk .utf8 [] other).push byte).2 := by
  cases ha : Utf8.sequenceLength? byte with
  | none =>
    rw [Pull.push_stray ha, Pull.push_stray ha]
    exact ⟨rfl, .of_idle rfl rfl rfl⟩
  | some length =>
    rcases Utf8.sequenceLength?_le_four ha with rfl | rfl | rfl | rfl
    · rw [Pull.push_single ha, Pull.push_single ha]
      exact ⟨rfl, .of_idle rfl rfl rfl⟩
    all_goals
      rw [Pull.push_lead ha, Pull.push_lead ha]
      exact ⟨rfl, .refl _⟩

theorem Alike.push (h : decoder.Alike other) (byte : UInt8) :
    (decoder.push byte).1 = (other.push byte).1 ∧
      (decoder.push byte).2.Alike (other.push byte).2 := by
  obtain ⟨charset, pending, need⟩ := decoder
  obtain ⟨_, _, need'⟩ := other
  obtain ⟨rfl, rfl, hlength⟩ := h
  cases charset with
  | ascii =>
    simp only [UnitDecoder.push]
    split_ifs
    · exact ⟨rfl, rfl, rfl, hlength⟩
    · exact ⟨rfl, rfl, rfl, hlength⟩
  | latin1 => exact ⟨rfl, rfl, rfl, hlength⟩
  | utf8 =>
    by_cases hpending : pending = []
    · subst hpending
      exact alike_push_utf8 need need' byte
    · obtain rfl : need = need' := hlength hpending
      exact ⟨rfl, .refl _⟩
  | utf16be | utf16le =>
    cases pending with
    | nil => exact ⟨rfl, rfl, rfl, fun _ ↦ rfl⟩
    | cons first rest => exact ⟨rfl, rfl, rfl, fun _ ↦ rfl⟩

theorem Alike.pushAll (h : decoder.Alike other) (bytes : List UInt8) :
    decoder.pushAll bytes = other.pushAll bytes := by
  induction bytes generalizing decoder other with
  | nil => rfl
  | cons byte bytes ih =>
    obtain ⟨hanswer, hnext⟩ := h.push byte
    have hsequence : (decoder.push byte).2.inSequence = (other.push byte).2.inSequence := by
      rw [inSequence, inSequence, hnext.pending_eq]
    rw [pushAll_cons, pushAll_cons, hanswer, hsequence, ih hnext]

/-- A byte that is not left pending ends what came before it: nothing is under way, and all that
follows is answered as by a decoder that has seen nothing. -/
theorem Sane.starts_afresh (h : decoder.Sane) (hanswer : (decoder.push byte).1 ≠ .more)
    (bytes : List UInt8) : (decoder.push byte).2.inSequence = false ∧
      (decoder.push byte).2.pushAll bytes = decoder.charset.decoder.pushAll bytes := by
  have htakes := takes_push h byte
  have hpending := htakes.pending_eq_nil hanswer
  have hsequence : (decoder.push byte).2.inSequence = false := by
    rw [inSequence, hpending]
    rfl
  have hfresh : (decoder.push byte).2.Alike decoder.charset.decoder :=
    .of_idle htakes.charset_eq hpending rfl
  exact ⟨hsequence, hfresh.pushAll bytes⟩

end UnitDecoder

/-! ### A buffer of four bytes -/

/-- A decoder that keeps the pending bytes at the front of a buffer. -/
structure BufferedDecoder where
  charset : Charset
  buffer : Vector UInt8 4
  /-- How many bytes at the front of the buffer are pending. -/
  count : Nat
  /-- The number of bytes the first pending one asks for; only UTF-8 uses it. -/
  need : Nat
  deriving DecidableEq

/-- A decoder with a buffer that has seen nothing. -/
def Charset.bufferedDecoder (charset : Charset) : BufferedDecoder :=
  ⟨charset, Vector.replicate 4 0, 0, 0⟩

namespace BufferedDecoder

/-- Stores a byte behind the pending ones, if that is inside the buffer. -/
def store? (decoder : BufferedDecoder) (byte : UInt8) : Option BufferedDecoder :=
  if h : decoder.count < 4 then
    some { decoder with
      buffer := decoder.buffer.set decoder.count byte
      count := decoder.count + 1 }
  else none

/-- The pending bytes, if all are inside the buffer. -/
def pending? (decoder : BufferedDecoder) : Option (List UInt8) :=
  if decoder.count ≤ 4 then some (decoder.buffer.toList.take decoder.count) else none

/-- The pending bytes are done with; the buffer keeps them. -/
def clear (decoder : BufferedDecoder) : BufferedDecoder := { decoder with count := 0 }

/-- Adds a byte to a UTF-8 sequence. Nothing comes of it where the buffer would be left. -/
def extendUtf8? (decoder : BufferedDecoder) (byte : UInt8) : Option (Push × BufferedDecoder) := do
  let stored ← decoder.store? byte
  if stored.count < stored.need then return (.more, stored)
  let sequence ← stored.pending?
  match Utf8.firstChar? sequence with
  | some c => return (.unit c.toNat, stored.clear)
  | none => return (.invalid, stored.clear)

/-- Feeds one byte of UTF-8. -/
def pushUtf8? (decoder : BufferedDecoder) (byte : UInt8) : Option (Push × BufferedDecoder) :=
  if decoder.count = 0 then
    match Utf8.sequenceLength? byte with
    | none => some (.invalid, decoder)
    | some 1 => some (.unit byte.toNat, decoder)
    | some need => { decoder with need }.extendUtf8? byte
  else if Utf8.isContinuation byte then decoder.extendUtf8? byte
  else some (.invalid, decoder.clear)

/-- Feeds one byte of UTF-16, whose units `value` puts together from the first two bytes. -/
def pushUtf16? (decoder : BufferedDecoder) (value : UInt8 → UInt8 → Nat) (byte : UInt8) :
    Option (Push × BufferedDecoder) := do
  let stored ← decoder.store? byte
  if stored.count < 2 then return (.more, stored)
  return (.unit (value stored.buffer[0] stored.buffer[1]), stored.clear)

/-- Feeds one byte. -/
def push? (decoder : BufferedDecoder) (byte : UInt8) : Option (Push × BufferedDecoder) :=
  match decoder.charset with
  | .ascii =>
    if byte.toNat ≤ 0x7F then some (.unit byte.toNat, decoder) else some (.invalid, decoder)
  | .latin1 => some (.unit byte.toNat, decoder)
  | .utf8 => decoder.pushUtf8? byte
  | .utf16be => decoder.pushUtf16? (fun a b ↦ a.toNat * 256 + b.toNat) byte
  | .utf16le => decoder.pushUtf16? (fun a b ↦ b.toNat * 256 + a.toNat) byte

/-- Feeds bytes one after another, going on after a refused one. After each byte: the answer, and
whether a unit is under way. There is no outcome where the buffer would be left. -/
def pushAll? (decoder : BufferedDecoder) : List UInt8 → Option (List (Push × Bool))
  | [] => some []
  | byte :: bytes => do
    let (answer, next) ← decoder.push? byte
    let answers ← next.pushAll? bytes
    return (answer, decide (0 < next.count)) :: answers

/-- The pending bytes stand at the front of the buffer. What is behind them does not matter. -/
structure Holds (buffered : BufferedDecoder) (decoder : UnitDecoder) : Prop where
  charset_eq : buffered.charset = decoder.charset
  need_eq : buffered.need = decoder.need
  count_eq : buffered.count = decoder.pending.length
  front : decoder.pending <+: buffered.buffer.toList

variable {buffered : BufferedDecoder} {decoder : UnitDecoder} {byte : UInt8}

theorem holds_decoder (charset : Charset) : charset.bufferedDecoder.Holds charset.decoder :=
  ⟨rfl, rfl, rfl, List.nil_prefix⟩

namespace Holds

theorem clear (h : buffered.Holds decoder) : buffered.clear.Holds { decoder with pending := [] } :=
  ⟨h.charset_eq, h.need_eq, rfl, List.nil_prefix⟩

theorem withNeed (h : buffered.Holds decoder) (need : Nat) :
    { buffered with need }.Holds { decoder with need } :=
  ⟨h.charset_eq, rfl, h.count_eq, h.front⟩

theorem store? (h : buffered.Holds decoder) (hlength : decoder.pending.length < 4) (byte : UInt8) :
    ∃ stored, buffered.store? byte = some stored ∧
      stored.Holds { decoder with pending := decoder.pending ++ [byte] } := by
  have hcount : buffered.count < 4 := h.count_eq.trans_lt hlength
  refine ⟨_, dif_pos hcount, h.charset_eq, h.need_eq, ?_, ?_⟩
  · simpa using h.count_eq
  · -- Behind the pending bytes there is at least one, and the new byte takes its place.
    obtain ⟨behind, hbuffer⟩ := h.front
    have hbehind : decoder.pending.length + behind.length = 4 := by
      rw [← List.length_append, hbuffer, Vector.length_toList]
    cases behind with
    | nil => simp only [List.length_nil] at hbehind; omega
    | cons stale behind =>
      refine ⟨behind, ?_⟩
      rw [Vector.toList_set, ← hbuffer, h.count_eq, List.set_append_right _ _ le_rfl]
      simp

theorem pending? (h : buffered.Holds decoder) : buffered.pending? = some decoder.pending := by
  have hlength : decoder.pending.length ≤ 4 := by
    simpa using h.front.length_le
  rw [BufferedDecoder.pending?, if_pos (h.count_eq.trans_le hlength), h.count_eq,
    ← List.prefix_iff_eq_take.mp h.front]

theorem getElem_buffer (h : buffered.Holds decoder) {i : Nat} (hi : i < 4)
    (hpending : i < decoder.pending.length) : buffered.buffer[i] = decoder.pending[i] := by
  rw [h.front.getElem hpending, Vector.getElem_toList]

theorem extendUtf8? (h : buffered.Holds decoder) (hlength : decoder.pending.length < 4)
    (byte : UInt8) : ∃ next,
      buffered.extendUtf8? byte = some ((decoder.extendUtf8 decoder.need byte).1, next) ∧
        next.Holds (decoder.extendUtf8 decoder.need byte).2 := by
  obtain ⟨stored, hstore, hstored⟩ := h.store? hlength byte
  simp only [BufferedDecoder.extendUtf8?, UnitDecoder.extendUtf8, hstore, Option.bind_eq_bind,
    Option.bind_some, hstored.count_eq, hstored.need_eq]
  split_ifs with hneed
  · exact ⟨stored, rfl, hstored⟩
  · simp only [hstored.pending?, Option.bind_some]
    cases Utf8.firstChar? (decoder.pending ++ [byte]) with
    | some c => exact ⟨stored.clear, rfl, hstored.clear⟩
    | none => exact ⟨stored.clear, rfl, hstored.clear⟩

theorem pushUtf8? (h : buffered.Holds decoder) (hlength : decoder.pending.length < 4)
    (byte : UInt8) : ∃ next, buffered.pushUtf8? byte = some ((decoder.pushUtf8 byte).1, next) ∧
      next.Holds (decoder.pushUtf8 byte).2 := by
  by_cases hpending : decoder.pending = []
  · have hcount : buffered.count = 0 := by rw [h.count_eq, hpending, List.length_nil]
    have hempty : decoder.pending.isEmpty = true := List.isEmpty_iff.mpr hpending
    rw [BufferedDecoder.pushUtf8?, if_pos hcount, UnitDecoder.pushUtf8, if_pos hempty]
    cases ha : Utf8.sequenceLength? byte with
    | none => exact ⟨buffered, rfl, h⟩
    | some length =>
      rcases Utf8.sequenceLength?_le_four ha with rfl | rfl | rfl | rfl
      · exact ⟨buffered, rfl, h⟩
      · exact (h.withNeed 2).extendUtf8? hlength byte
      · exact (h.withNeed 3).extendUtf8? hlength byte
      · exact (h.withNeed 4).extendUtf8? hlength byte
  · have hcount : buffered.count ≠ 0 := by
      rw [h.count_eq]
      exact fun hzero ↦ hpending (List.eq_nil_of_length_eq_zero hzero)
    rw [BufferedDecoder.pushUtf8?, if_neg hcount, UnitDecoder.pushUtf8,
      if_neg (List.isEmpty_iff.not.mpr hpending)]
    split_ifs
    · exact h.extendUtf8? hlength byte
    · exact ⟨buffered.clear, rfl, h.clear⟩

theorem pushUtf16? (h : buffered.Holds decoder) (hlength : decoder.pending.length < 2)
    (value : UInt8 → UInt8 → Nat) (byte : UInt8) : ∃ next,
      buffered.pushUtf16? value byte = some ((decoder.pushUtf16 value byte).1, next) ∧
        next.Holds (decoder.pushUtf16 value byte).2 := by
  obtain ⟨stored, hstore, hstored⟩ := h.store? (hlength.trans (by decide)) byte
  simp only [BufferedDecoder.pushUtf16?, UnitDecoder.pushUtf16, hstore, Option.bind_eq_bind,
    Option.bind_some, hstored.count_eq]
  match hpending : decoder.pending, hlength with
  | [], _ =>
    rw [hpending] at hstored
    exact ⟨stored, rfl, hstored⟩
  | [first], _ =>
    rw [hpending] at hstored
    have hfirst : stored.buffer[0] = first := hstored.getElem_buffer (by decide) (by simp)
    have hsecond : stored.buffer[1] = byte := hstored.getElem_buffer (by decide) (by simp)
    refine ⟨stored.clear, ?_, hstored.clear⟩
    rw [hfirst, hsecond]
    rfl

/-- A decoder that is sane never leaves the buffer, and answers the same with it. -/
theorem push? (h : buffered.Holds decoder) (hsane : decoder.Sane) (byte : UInt8) :
    ∃ next, buffered.push? byte = some ((decoder.push byte).1, next) ∧
      next.Holds (decoder.push byte).2 := by
  have hlength := hsane.length_pending
  unfold BufferedDecoder.push? UnitDecoder.push
  rw [h.charset_eq]
  cases hcharset : decoder.charset with
  | ascii =>
    dsimp only
    split_ifs
    · exact ⟨buffered, rfl, h⟩
    · exact ⟨buffered, rfl, h⟩
  | latin1 => exact ⟨buffered, rfl, h⟩
  | utf8 =>
    rw [hcharset] at hlength
    exact h.pushUtf8? hlength byte
  | utf16be | utf16le =>
    rw [hcharset] at hlength
    exact h.pushUtf16? hlength _ byte

/-- What is under way shows in the number of pending bytes. -/
theorem inSequence_eq (h : buffered.Holds decoder) :
    decoder.inSequence = decide (0 < buffered.count) := by
  rw [UnitDecoder.inSequence, h.count_eq]
  cases decoder.pending with
  | nil => rfl
  | cons first rest => simp

theorem pushAll? (h : buffered.Holds decoder) (hsane : decoder.Sane) (bytes : List UInt8) :
    buffered.pushAll? bytes = some (decoder.pushAll bytes) := by
  induction bytes generalizing buffered decoder with
  | nil => rfl
  | cons byte bytes ih =>
    obtain ⟨next, hpush, hnext⟩ := h.push? hsane byte
    have hrest := ih hnext (UnitDecoder.takes_push hsane byte).sane
    simp only [BufferedDecoder.pushAll?, hpush, hrest, hnext.inSequence_eq, Option.bind_eq_bind,
      Option.bind_some, Option.pure_def, UnitDecoder.pushAll_cons]

end Holds

end BufferedDecoder

/-! ### Any bytes -/

namespace Charset

/-- How a decoder of the charset goes on whatever it is fed, also behind bytes that it refused. -/
structure RunsSanely (charset : Charset) : Prop where
  /-- A buffer of four is never left, and what it keeps of earlier sequences never shows. -/
  in_buffer : ∀ bytes,
    charset.bufferedDecoder.pushAll? bytes = some (charset.decoder.pushAll bytes)
  /-- Behind bytes that were fed, the answers are those of the decoder that they led to. -/
  pushAll_append : ∀ fed bytes, charset.decoder.pushAll (fed ++ bytes) =
    charset.decoder.pushAll fed ++ (charset.decoder.after fed).pushAll bytes
  /-- Behind a unit or a refusal nothing is under way, and all answers are those of a decoder that
  has seen nothing. -/
  starts_afresh : ∀ fed byte bytes, ((charset.decoder.after fed).push byte).1 ≠ .more →
    ((charset.decoder.after fed).push byte).2.inSequence = false ∧
      ((charset.decoder.after fed).push byte).2.pushAll bytes = charset.decoder.pushAll bytes
  /-- Bytes that all leave a unit lacking some are fewer than a unit takes. -/
  length_lt : ∀ fed bytes,
    (∀ answer ∈ (charset.decoder.after fed).pushAll bytes, answer.1 = .more) →
      bytes.length < charset.maxUnitLength
  /-- Only numbers of units are reported as such. -/
  isUnit : ∀ fed byte value, ((charset.decoder.after fed).push byte).1 = .unit value →
    charset.IsUnit value
  /-- Where units have sixteen bits, every number of sixteen bits is reported for some two bytes. -/
  exists_unit : charset.hasSurrogates = true → ∀ value < 0x10000, ∃ first second,
    charset.decoder.pushAll [first, second] = [(.more, true), (.unit value, false)]

theorem exists_unit_of_hasSurrogates {charset : Charset} (h : charset.hasSurrogates = true)
    {value : Nat} (hvalue : value < 0x10000) : ∃ first second,
      charset.decoder.pushAll [first, second] = [(.more, true), (.unit value, false)] := by
  cases charset with
  | ascii | latin1 | utf8 => cases h
  | utf16be =>
    obtain ⟨first, second, -, rfl⟩ := Utf16.isByteOrder_bigEndian.value_of_write value hvalue
    exact ⟨first, second, rfl⟩
  | utf16le =>
    obtain ⟨first, second, -, rfl⟩ := Utf16.isByteOrder_littleEndian.value_of_write value hvalue
    exact ⟨first, second, rfl⟩

theorem runs_sanely (charset : Charset) : charset.RunsSanely where
  in_buffer bytes :=
    (BufferedDecoder.holds_decoder charset).pushAll? (UnitDecoder.sane_decoder charset) bytes
  pushAll_append fed bytes := charset.decoder.pushAll_append fed bytes
  starts_afresh fed byte bytes hanswer := by
    have hsane := UnitDecoder.sane_decoder charset
    have hafresh := (hsane.after fed).starts_afresh hanswer bytes
    rwa [hsane.charset_after fed] at hafresh
  length_lt fed bytes hmore := by
    have hsane := UnitDecoder.sane_decoder charset
    have hlength := (hsane.after fed).length_lt_of_more hmore
    rw [hsane.charset_after fed] at hlength
    exact (Nat.le_add_left _ _).trans_lt hlength
  isUnit fed byte value hanswer := by
    have hsane := UnitDecoder.sane_decoder charset
    have hunit := (UnitDecoder.takes_push (hsane.after fed) byte).isUnit hanswer
    rwa [hsane.charset_after fed] at hunit
  exists_unit h value hvalue := exists_unit_of_hasSurrogates h hvalue

/-- The overlong form of a slash is refused at its last byte, a lead byte by the letter behind it,
and the next letter is a unit again. -/
theorem runs_sanely_after_overlong :
    ((Charset.utf8.decoder.after [0xE0, 0x80]).push 0xAF).1 = .invalid ∧
      ((Charset.utf8.decoder.after [0xE0, 0x80]).push 0xAF).2.pushAll [0xC3, 0x41, 0x41] =
        [(.more, true), (.invalid, false), (.unit 0x41, false)] ∧
      Charset.utf8.bufferedDecoder.pushAll? [0xE0, 0x80, 0xAF, 0xC3, 0x41, 0x41] =
        some [(.more, true), (.more, true), (.invalid, false), (.more, true), (.invalid, false),
          (.unit 0x41, false)] := by
  have hrefused : ((Charset.utf8.decoder.after [0xE0, 0x80]).push 0xAF).1 = .invalid := by decide
  refine ⟨hrefused, ?_, ?_⟩
  · rw [(runs_sanely .utf8).starts_afresh [0xE0, 0x80] 0xAF [0xC3, 0x41, 0x41]
      (by rw [hrefused]; decide) |>.2]
    decide
  · rw [(runs_sanely .utf8).in_buffer]
    decide

end Charset

end WireFormat
