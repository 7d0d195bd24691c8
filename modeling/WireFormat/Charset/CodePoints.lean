import WireFormat.Charset.UnitDecoder
import WireFormat.Charset.Utf16
import WireFormat.Source

/-!
# Code points from a supply of bytes

Bytes are pulled one at a time, from a list or from a source, into a `UnitDecoder` until a code
point is complete; in UTF-16 two units may make one. No byte is pulled behind the last code point
that was asked for. `readUpTo` is the loop that both counted reads and whole texts use.
-/

set_option autoImplicit false
set_option relaxedAutoImplicit false

namespace WireFormat

/-- Something that yields bytes one at a time and comes to an end. -/
class ByteSupply (σ : Type) where
  /-- The next byte, and the supply behind it. -/
  next? : σ → Option (UInt8 × σ)
  /-- How many bytes are left. -/
  size : σ → Nat
  size_next? : ∀ {s rest : σ} {byte : UInt8}, next? s = some (byte, rest) → size rest < size s

instance : ByteSupply (List UInt8) where
  next?
    | [] => none
    | byte :: rest => some (byte, rest)
  size := List.length
  size_next? {s rest byte} h := by
    cases s with
    | nil => simp at h
    | cons head tail =>
      simp only [Option.some.injEq, Prod.mk.injEq] at h
      simp [h.2]

instance : ByteSupply Source where
  next? := Source.next?
  size := Source.remaining
  size_next? h := by
    have := Source.remaining_next? h
    omega

/-- A decoder on a supply, and the number of bytes it was given so far. -/
structure Pull (σ : Type) where
  decoder : UnitDecoder
  pulled : Nat
  supply : σ

/-- Why a code point could not be produced. -/
inductive Stop where
  | truncated
  | malformed
  deriving DecidableEq, Repr

variable {σ : Type} [ByteSupply σ]

namespace Pull

/-- A fresh decoder on a supply of which nothing was pulled. -/
def start (charset : Charset) (supply : σ) : Pull σ := ⟨charset.decoder, 0, supply⟩

/-- The next unit, or nothing at a clean end of the supply. -/
def nextUnit (pull : Pull σ) : EStateM.Result Stop (Pull σ) (Option Nat) :=
  match _ : ByteSupply.next? pull.supply with
  | none => if pull.decoder.inSequence then .error .truncated pull else .ok none pull
  | some (byte, supply) =>
    match pull.decoder.push byte with
    | (.unit value, decoder) => .ok (some value) ⟨decoder, pull.pulled + 1, supply⟩
    | (.invalid, decoder) => .error .malformed ⟨decoder, pull.pulled + 1, supply⟩
    | (.more, decoder) => nextUnit ⟨decoder, pull.pulled + 1, supply⟩
termination_by ByteSupply.size pull.supply
decreasing_by exact ByteSupply.size_next? (by assumption)

/-- A code point as a character, unless it is a surrogate. -/
def charOf (value : Nat) (pull : Pull σ) : EStateM.Result Stop (Pull σ) (Option Char) :=
  if value.isValidChar then .ok (some (Char.ofNat value)) pull else .error .malformed pull

/-- The next character, or nothing at a clean end of the supply. -/
def nextChar (pull : Pull σ) : EStateM.Result Stop (Pull σ) (Option Char) :=
  match pull.nextUnit with
  | .error stop pull => .error stop pull
  | .ok none pull => .ok none pull
  | .ok (some unit) pull =>
    if pull.decoder.charset.hasSurrogates && Utf16.isHighSurrogate unit then
      match pull.nextUnit with
      | .error stop pull => .error stop pull
      | .ok none pull => .error .truncated pull
      | .ok (some low) pull =>
        if Utf16.isLowSurrogate low then charOf (Utf16.pairValue unit low) pull
        else .error .malformed pull
    else charOf unit pull

/-- What stopped a reader, as an error. The byte at fault is the last one pulled. -/
def error (charset : Charset) (stop : Stop) (pull : Pull σ) : Error :=
  match stop with
  | .truncated => { kind := .truncated charset }
  | .malformed => { kind := .malformed charset (pull.pulled - 1) }

/-- Reads characters until there are `limit` of them or the supply ends. -/
def readUpTo (charset : Charset) : Nat → Pull σ → EStateM.Result Error (Pull σ) (List Char)
  | 0, pull => .ok [] pull
  | limit + 1, pull =>
    match pull.nextChar with
    | .error stop pull => .error (pull.error charset stop) pull
    | .ok none pull => .ok [] pull
    | .ok (some c) pull =>
      match readUpTo charset limit pull with
      | .ok chars pull => .ok (c :: chars) pull
      | .error e pull => .error e pull

/-- Reads exactly `count` characters. -/
def readExactly (charset : Charset) (count : Nat) (pull : Pull σ) :
    EStateM.Result Error (Pull σ) (List Char) :=
  match readUpTo charset count pull with
  | .error e pull => .error e pull
  | .ok chars pull =>
    if chars.length < count then
      .error { kind := .endOfStream "code points" chars.length count } pull
    else .ok chars pull

end Pull

end WireFormat
