import WireFormat.Charset.Basic
import WireFormat.Text.Quoted

/-!
# Errors

An error is a cause together with the fields it crossed on its way out, innermost first. The
wording of every cause is in `ErrorKind.message`; `Error.message` puts the fields in front of it,
outermost first.
-/

set_option autoImplicit false
set_option relaxedAutoImplicit false

namespace WireFormat

/-- What went wrong, independent of where. -/
inductive ErrorKind where
  /-- Fewer bytes are left to read, or to write into, than an operation needs. -/
  | endOfBuffer (needed remaining : Nat)
  /-- The source ended after `read` of the `requested` units. -/
  | endOfStream (unit : String) (read requested : Nat)
  /-- The source ended inside a character. -/
  | truncated (charset : Charset)
  /-- The byte at `offset` cannot stand there. -/
  | malformed (charset : Charset) (offset : Nat)
  /-- The charset has no encoding for the character. -/
  | unmappable (charset : Charset) (ch : Char)
  /-- A value that its format does not admit. -/
  | invalid (context text : String)
  /-- A value of another length than the format fixes. -/
  | invalidLength (found expected : Nat)
  /-- A length outside its range, or too large for its field. -/
  | lengthOutOfRange (length : Nat)
  /-- Bytes left over where the value had to use them all. -/
  | extraData (bytes : Nat)
  /-- No codec is known for the tag or variant. -/
  | unregistered (subject : String)
  /-- A function of the format yielded nothing. -/
  | missing (subject : String)
  /-- A codec was put together wrongly. -/
  | config (reason : String)
  /-- A failure of a conversion supplied with the format, with what caused it. -/
  | other (message source : String)
  deriving DecidableEq, Repr

/-- The wording of a cause. -/
def ErrorKind.message : ErrorKind → String
  | .endOfBuffer needed remaining =>
    s!"unexpected end of buffer: needed {needed} bytes, {remaining} remaining"
  | .endOfStream unit read requested => s!"end of stream: read {read} of {requested} {unit}"
  | .truncated charset => s!"end of stream inside a {charset.name} sequence"
  | .malformed charset offset => s!"malformed {charset.name} input at byte {offset}"
  | .unmappable charset ch =>
    s!"character {Text.quoteChar ch} cannot be encoded as {charset.name}"
  | .invalid context text => s!"invalid {context}: {text}"
  | .invalidLength found expected => s!"invalid length: found {found}, expected {expected}"
  | .lengthOutOfRange length => s!"length {length} out of range"
  | .extraData bytes => s!"extra data found: {bytes} bytes"
  | .unregistered subject => s!"no codec registered for {subject}"
  | .missing subject => s!"{subject} yielded no instance"
  | .config reason => s!"invalid configuration: {reason}"
  | .other message _ => message

/-- A cause and the fields it crossed. -/
structure Error where
  kind : ErrorKind
  /-- Names of the fields around the failure, innermost first. -/
  path : List String := []
  deriving DecidableEq, Repr

namespace Error

/-- The error as seen from outside the field `name`. -/
def inField (name : String) (e : Error) : Error :=
  { e with path := e.path ++ [name] }

/-- The fields, outermost first and joined by dots, in front of the cause. -/
def message (e : Error) : String :=
  match e.path with
  | [] => e.kind.message
  | path =>
    let names := ".".intercalate path.reverse
    s!"field [{names}]: {e.kind.message}"

/-- What caused an error of a conversion. -/
def source? (e : Error) : Option String :=
  match e.kind with
  | .other _ source => some source
  | _ => none

end Error

end WireFormat
