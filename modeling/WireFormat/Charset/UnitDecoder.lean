import WireFormat.Charset.Basic
import WireFormat.Charset.Utf8

/-!
# Decoding one byte at a time

A `UnitDecoder` is fed single bytes and reports a code unit as soon as one is complete. In UTF-16
a unit is a value of sixteen bits, possibly half of a pair; in every other charset it is a code
point. After a unit or a refused byte the decoder starts afresh.
-/

set_option autoImplicit false
set_option relaxedAutoImplicit false

namespace WireFormat

/-- The bytes of the unit under way. -/
structure UnitDecoder where
  charset : Charset
  /-- The bytes taken since the last complete unit. -/
  pending : List UInt8
  /-- The number of bytes the first pending one asks for; only UTF-8 uses it. -/
  need : Nat
  deriving DecidableEq, Repr

/-- The answer to one byte. -/
inductive Push where
  /-- The byte completes this unit. -/
  | unit (value : Nat)
  /-- The unit needs more bytes. -/
  | more
  /-- The byte cannot stand here. -/
  | invalid
  deriving DecidableEq, Repr

/-- A decoder that has seen nothing. -/
def Charset.decoder (charset : Charset) : UnitDecoder := ⟨charset, [], 0⟩

namespace UnitDecoder

/-- Some bytes of an incomplete unit are pending. -/
def inSequence (decoder : UnitDecoder) : Bool := !decoder.pending.isEmpty

/-- Adds a byte to a UTF-8 sequence that needs `need` bytes. Overlong forms and encoded surrogates
show only once the sequence is complete. -/
def extendUtf8 (decoder : UnitDecoder) (need : Nat) (byte : UInt8) : Push × UnitDecoder :=
  let sequence := decoder.pending ++ [byte]
  if sequence.length < need then (.more, { decoder with pending := sequence, need })
  else
    let fresh := { decoder with pending := [], need }
    match Utf8.firstChar? sequence with
    | some c => (.unit c.toNat, fresh)
    | none => (.invalid, fresh)

/-- Feeds one byte of UTF-8. -/
def pushUtf8 (decoder : UnitDecoder) (byte : UInt8) : Push × UnitDecoder :=
  if decoder.pending.isEmpty then
    match Utf8.sequenceLength? byte with
    | none => (.invalid, decoder)
    | some 1 => (.unit byte.toNat, decoder)
    | some need => decoder.extendUtf8 need byte
  else if Utf8.isContinuation byte then decoder.extendUtf8 decoder.need byte
  else (.invalid, { decoder with pending := [] })

/-- Feeds one byte of UTF-16, whose units `value` puts together from two bytes. -/
def pushUtf16 (decoder : UnitDecoder) (value : UInt8 → UInt8 → Nat) (byte : UInt8) :
    Push × UnitDecoder :=
  match decoder.pending with
  | [] => (.more, { decoder with pending := [byte] })
  | first :: _ => (.unit (value first byte), { decoder with pending := [] })

/-- Feeds one byte. -/
def push (decoder : UnitDecoder) (byte : UInt8) : Push × UnitDecoder :=
  match decoder.charset with
  | .ascii => if byte.toNat ≤ 0x7F then (.unit byte.toNat, decoder) else (.invalid, decoder)
  | .latin1 => (.unit byte.toNat, decoder)
  | .utf8 => decoder.pushUtf8 byte
  | .utf16be => decoder.pushUtf16 (fun a b ↦ a.toNat * 256 + b.toNat) byte
  | .utf16le => decoder.pushUtf16 (fun a b ↦ b.toNat * 256 + a.toNat) byte

/-- Feeds bytes one after another, going on after a refused one. After each byte: the answer, and
whether a unit is under way. -/
def pushAll (decoder : UnitDecoder) : List UInt8 → List (Push × Bool)
  | [] => []
  | byte :: bytes =>
    let (answer, next) := decoder.push byte
    (answer, next.inSequence) :: next.pushAll bytes

end UnitDecoder

end WireFormat
