import WireFormat.Sink
import WireFormat.Source
import WireFormat.Written

/-!
# Packed digits

A string of a fixed number of digits takes half as many bytes, the first digit of a byte in its
high nibble. When the number is odd one nibble is padding, before the first digit or behind the
last. Its value is configuration: it is written as configured and skipped when read.
-/

set_option autoImplicit false
set_option relaxedAutoImplicit false

namespace WireFormat

/-- The digits that are allowed. -/
inductive Alphabet where
  | decimal
  /-- Either case is written, upper case is read. -/
  | hex
  deriving DecidableEq, Repr

/-- Where the padding of an odd number of digits stands. -/
inductive PadPlacement where
  | beforeDigits
  | afterDigits
  deriving DecidableEq, Repr

namespace Alphabet

/-- The name in error messages. -/
def name : Alphabet → String
  | .decimal => "bcd"
  | .hex => "hex"

/-- The number of digits there are. -/
def radix : Alphabet → Nat
  | .decimal => 10
  | .hex => 16

/-- The value of a digit, a letter in either case, below sixteen. -/
def hexValue? (c : Char) : Option Nat :=
  if 48 ≤ c.toNat ∧ c.toNat ≤ 57 then some (c.toNat - 48)
  else if 65 ≤ c.toNat ∧ c.toNat ≤ 70 then some (c.toNat - 55)
  else if 97 ≤ c.toNat ∧ c.toNat ≤ 102 then some (c.toNat - 87)
  else none

/-- The value of a digit of the alphabet. -/
def value? (alphabet : Alphabet) (c : Char) : Option Nat :=
  match hexValue? c with
  | some value => if value < alphabet.radix then some value else none
  | none => none

/-- The digit of a value, a letter in upper case. -/
def digit? (alphabet : Alphabet) (value : Nat) : Option Char :=
  if value < alphabet.radix then
    some (if value < 10 then Char.ofNat (48 + value) else Char.ofNat (55 + value))
  else none

end Alphabet

/-- A fixed number of packed digits. -/
structure PackedDigits where
  alphabet : Alphabet
  digits : Nat
  placement : PadPlacement := .beforeDigits
  /-- The nibble written as padding. -/
  pad : Fin 16 := 0
  deriving DecidableEq, Repr

namespace PackedDigits

/-- The number of bytes the digits take. -/
def byteLength (format : PackedDigits) : Nat := (format.digits + 1) / 2

/-- The place of the padding among the nibbles, if there is any. -/
def padIndex? (format : PackedDigits) : Option Nat :=
  if format.digits % 2 = 0 then none
  else
    match format.placement with
    | .beforeDigits => some 0
    | .afterDigits => some format.digits

/-- The same format for another number of digits. -/
def withDigits (format : PackedDigits) (digits : Nat) : PackedDigits := { format with digits }

/-- The value of each digit, up to the first character that is none. -/
def values (format : PackedDigits) : List Char → Except Error (List Nat)
  | [] => .ok []
  | c :: chars =>
    match format.alphabet.value? c with
    | none => .error { kind := .invalid format.alphabet.name s!"character {Text.quoteChar c}" }
    | some value =>
      match format.values chars with
      | .ok rest => .ok (value :: rest)
      | .error e => .error e

/-- The nibbles of a field: the values of the digits with the padding in its place. -/
def nibbles (format : PackedDigits) (values : List Nat) : List Nat :=
  match format.padIndex? with
  | none => values
  | some 0 => format.pad.val :: values
  | some _ => values ++ [format.pad.val]

/-- Two nibbles to a byte, the first one high. -/
def pack : List Nat → List UInt8
  | high :: low :: rest => UInt8.ofNat (high * 16 + low) :: pack rest
  | _ => []

/-- Writes a string of digits. -/
def encode (format : PackedDigits) (text : String) : Action Sink Written := do
  let found := text.toList.length
  if found ≠ format.digits then fail (.invalidLength found format.digits)
  let values ← ofExcept (format.values text.toList)
  let bytes ← Sink.put (pack (format.nibbles values))
  return ⟨format.digits, bytes⟩

/-- The digit of the nibble at `index`, or nothing where the padding is. -/
def digitAt (format : PackedDigits) (index nibble : Nat) : Action Source (List Char) :=
  if format.padIndex? = some index then pure []
  else
    match format.alphabet.digit? nibble with
    | some c => pure [c]
    | none =>
      let text := String.ofList (Text.hexDigits nibble)
      fail (.invalid format.alphabet.name s!"non-decimal nibble 0x{text}")

/-- Reads `left` bytes, the first of which is the byte at `index`. -/
def readBytes (format : PackedDigits) : (left index : Nat) → Action Source (List Char)
  | 0, _ => pure []
  | left + 1, index => do
    let byte ← Source.getByte
    let high ← format.digitAt (2 * index) (byte.toNat / 16)
    let low ← format.digitAt (2 * index + 1) (byte.toNat % 16)
    let rest ← format.readBytes left (index + 1)
    return high ++ low ++ rest

/-- Reads a string of digits. Room for it, which is two characters at most for each of the bytes
that were found to be there, is taken for granted. -/
def decode (format : PackedDigits) : Action Source String := do
  Source.atLeast format.byteLength
  let chars ← format.readBytes format.byteLength 0
  return String.ofList chars

end PackedDigits

end WireFormat
