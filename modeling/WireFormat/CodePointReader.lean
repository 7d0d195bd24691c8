import WireFormat.Charset.Conversion

/-!
# Reading counted text

A `CodePointReader` takes exactly as many code points from a source as asked for, and no byte
behind them. There are two strategies. The buffered one looks at a window of the bytes in sight,
which must be all that is left, finds where the last code point ends and then takes that many
bytes; when it fails it has taken none. The unbuffered one takes the bytes one at a time.
-/

set_option autoImplicit false
set_option relaxedAutoImplicit false

namespace WireFormat

/-- How a reader avoids taking too much. -/
inductive Strategy where
  | buffered
  | unbuffered
  deriving DecidableEq, Repr

/-- A reader of counted text. -/
structure CodePointReader where
  charset : Charset
  strategy : Strategy
  deriving DecidableEq, Repr

namespace CodePointReader

/-- A reader for a source: buffered exactly when all that is left is in sight. -/
def on (source : Source) (charset : Charset) : CodePointReader :=
  ⟨charset, if source.isContiguous then .buffered else .unbuffered⟩

/-- A reader with a strategy of the caller's choice. -/
def withStrategy (source : Source) (charset : Charset) (strategy : Strategy) :
    Except Error CodePointReader :=
  if strategy = .buffered ∧ ¬ source.isContiguous then
    .error { kind := .config "buffered code point reading requires a contiguous source" }
  else .ok ⟨charset, strategy⟩

/-- The length of the window that `count` code points are looked for in. -/
def windowLength (charset : Charset) (count remaining : Nat) : Nat :=
  min (min (count * charset.maxBytesPerCodePoint) maxWord) remaining

/-- The first `count` characters of a window and the bytes they take, when the window is UTF-8 and
holds that many in front of the first byte that is not. -/
def utf8Front? (charset : Charset) (window : List UInt8) (count : Nat) :
    Option (List Char × Nat) :=
  if charset = .utf8 then
    let chars := (Utf8.parse window).chars
    if count ≤ chars.length then
      let front := chars.take count
      some (front, (Utf8.encode front).length)
    else none
  else none

/-- The first `count` characters of a window and the bytes they take. -/
def readWindow (charset : Charset) (window : List UInt8) (count : Nat) :
    Except Error (List Char × Nat) :=
  match utf8Front? charset window count with
  | some found => .ok found
  | none =>
    match Pull.readExactly charset count (Pull.start charset window) with
    | .ok chars pull => .ok (chars, pull.pulled)
    | .error e _ => .error e

/-- Reads from the bytes in sight, and takes those of the characters found. -/
def readBuffered (charset : Charset) (count : Nat) : Action Source (List Char) := do
  let source ← get
  let window := source.chunk.take (windowLength charset count source.remaining)
  let (chars, used) ← ofExcept (readWindow charset window count)
  Source.advance used
  return chars

/-- Takes one byte after another. -/
def readUnbuffered (charset : Charset) (count : Nat) : Action Source (List Char) := fun source ↦
  match Pull.readExactly charset count (Pull.start charset source) with
  | .ok chars pull => .ok chars pull.supply
  | .error e pull => .error (.error e) pull.supply

/-- Reads exactly `count` code points. -/
def read (reader : CodePointReader) (count : Nat) : Action Source String := do
  if count = 0 then return ""
  let chars ← match reader.strategy with
    | .buffered => readBuffered reader.charset count
    | .unbuffered => readUnbuffered reader.charset count
  return String.ofList chars

end CodePointReader

end WireFormat
