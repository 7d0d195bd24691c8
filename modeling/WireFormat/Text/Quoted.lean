import WireFormat.Text.Combining
import WireFormat.Text.Printable

/-!
# Quoted characters and texts

An error message shows a character between apostrophes and a text between quotation marks. Inside,
the delimiter and the backslash are escaped by a backslash, the four usual control characters have
a letter each, and a character that would not show on its own is written by its code point.
-/

set_option autoImplicit false
set_option relaxedAutoImplicit false

namespace WireFormat.Text

/-- The digit of a value below sixteen, in lower case. -/
def hexDigit (value : Nat) : Char :=
  if value < 10 then Char.ofNat (48 + value) else Char.ofNat (87 + value)

/-- The hexadecimal digits of a number, without leading zeros. -/
def hexDigits (value : Nat) : List Char :=
  if value < 16 then [hexDigit value] else hexDigits (value / 16) ++ [hexDigit (value % 16)]
termination_by value

/-- The two hexadecimal digits of a byte. -/
def hexByte (byte : UInt8) : List Char :=
  [hexDigit (byte.toNat / 16), hexDigit (byte.toNat % 16)]

/-- The backslash, which starts every escape. -/
def backslash : Char := Char.ofNat 92

/-- The delimiter of a quoted character. -/
def apostrophe : Char := Char.ofNat 39

/-- The delimiter of a quoted text. -/
def quotationMark : Char := Char.ofNat 34

/-- A character named by its code point, as a backslash, `u` and the hexadecimal digits in
braces. -/
def escapeCodePoint (c : Char) : List Char :=
  backslash :: Char.ofNat 117 :: Char.ofNat 123 :: hexDigits c.toNat ++ [Char.ofNat 125]

/-- One character as it stands inside the given delimiter. -/
def escape (delimiter c : Char) : List Char :=
  if c.toNat = 0 then [backslash, '0']
  else if c.toNat = 9 then [backslash, 't']
  else if c.toNat = 10 then [backslash, 'n']
  else if c.toNat = 13 then [backslash, 'r']
  else if c = backslash ∨ c = delimiter then [backslash, c]
  else if isCombining c || !isPrintable c then escapeCodePoint c
  else [c]

/-- A character between apostrophes. -/
def quoteChar (c : Char) : String :=
  String.ofList (apostrophe :: escape apostrophe c ++ [apostrophe])

/-- A text between quotation marks. -/
def quote (text : String) : String :=
  String.ofList (quotationMark :: text.toList.flatMap (escape quotationMark) ++ [quotationMark])

end WireFormat.Text
