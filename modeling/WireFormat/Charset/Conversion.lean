import WireFormat.Charset.CodePoints

/-!
# Whole texts in a charset

`Charset.encode` writes a text and fails at the first character the charset cannot represent;
`Charset.decode` reads bytes that are wholly a text. Every character takes at least one byte, so
there are no more characters than bytes to read.
-/

set_option autoImplicit false
set_option relaxedAutoImplicit false

namespace WireFormat.Charset

/-- The bytes of one character, if the charset can represent it. -/
def encodeChar? (charset : Charset) (c : Char) : Option (List UInt8) :=
  match charset with
  | .ascii => if c.toNat ≤ 0x7F then some [UInt8.ofNat c.toNat] else none
  | .latin1 => if c.toNat ≤ 0xFF then some [UInt8.ofNat c.toNat] else none
  | .utf8 => some (String.utf8EncodeChar c)
  | .utf16be => some ((Utf16.units c).flatMap Utf16.bigEndian)
  | .utf16le => some ((Utf16.units c).flatMap Utf16.littleEndian)

/-- The bytes of some characters, or the first one that the charset cannot represent. -/
def encodeChars (charset : Charset) : List Char → Except Error (List UInt8)
  | [] => .ok []
  | c :: chars =>
    match charset.encodeChar? c with
    | none => .error { kind := .unmappable charset c }
    | some bytes =>
      match encodeChars charset chars with
      | .ok rest => .ok (bytes ++ rest)
      | .error e => .error e

/-- The bytes of a text. -/
def encode (charset : Charset) (text : String) : Except Error (List UInt8) :=
  charset.encodeChars text.toList

/-- The characters of bytes that are wholly UTF-8. -/
def decodeUtf8 (bytes : List UInt8) : Except Error (List Char) :=
  let parse := Utf8.parse bytes
  match parse.ending with
  | .complete => .ok parse.chars
  | .truncated => .error { kind := .truncated .utf8 }
  | .malformed => .error { kind := .malformed .utf8 parse.length }

/-- The characters of bytes that are wholly a text, read one by one. -/
def decodeUnits (charset : Charset) (bytes : List UInt8) : Except Error (List Char) :=
  match Pull.readUpTo charset bytes.length (Pull.start charset bytes) with
  | .ok chars _ => .ok chars
  | .error e _ => .error e

/-- The text of some bytes. -/
def decode (charset : Charset) (bytes : List UInt8) : Except Error String :=
  (match charset with
    | .utf8 => decodeUtf8 bytes
    | charset => charset.decodeUnits bytes).map String.ofList

end WireFormat.Charset
