/-!
# UTF-8

A code point takes one to four bytes; the first byte tells how many, the others carry six bits
each. Of the byte sequences of that shape, overlong ones, encoded surrogates and values above
`U+10FFFF` show in the second byte, which is therefore checked against the first
(`isSecondOfThree`, `isSecondOfFour`). `parse` splits bytes into the characters at their front and
the way in which the rest ends.
-/

set_option autoImplicit false
set_option relaxedAutoImplicit false

namespace WireFormat.Utf8

/-- The byte carries six bits of a code point begun earlier. -/
def isContinuation (byte : UInt8) : Bool :=
  0x80 ≤ byte.toNat && byte.toNat < 0xC0

/-- The byte may follow `lead` in a sequence of three: the value is neither below `U+0800` nor a
surrogate. -/
def isSecondOfThree (lead byte : UInt8) : Bool :=
  isContinuation byte && (lead.toNat ≠ 0xE0 || 0xA0 ≤ byte.toNat)
    && (lead.toNat ≠ 0xED || byte.toNat < 0xA0)

/-- The byte may follow `lead` in a sequence of four: the value is neither below `U+10000` nor
above `U+10FFFF`. -/
def isSecondOfFour (lead byte : UInt8) : Bool :=
  isContinuation byte && (lead.toNat ≠ 0xF0 || 0x90 ≤ byte.toNat)
    && (lead.toNat ≠ 0xF4 || byte.toNat < 0x90)

/-- The length of the sequence a byte begins. Continuation bytes begin none, nor do the leads that
could only begin an overlong sequence or a value that is too large. -/
def sequenceLength? (lead : UInt8) : Option Nat :=
  if lead.toNat < 0x80 then some 1
  else if lead.toNat < 0xC2 then none
  else if lead.toNat < 0xE0 then some 2
  else if lead.toNat < 0xF0 then some 3
  else if lead.toNat < 0xF5 then some 4
  else none

/-- The code point of a sequence of two bytes. -/
def value2 (a b : UInt8) : Nat := a.toNat % 32 * 64 + b.toNat % 64

/-- The code point of a sequence of three bytes. -/
def value3 (a b c : UInt8) : Nat := a.toNat % 16 * 4096 + b.toNat % 64 * 64 + c.toNat % 64

/-- The code point of a sequence of four bytes. -/
def value4 (a b c d : UInt8) : Nat :=
  a.toNat % 8 * 262144 + b.toNat % 64 * 4096 + c.toNat % 64 * 64 + d.toNat % 64

/-- How some bytes end behind the characters at their front. -/
inductive Ending where
  /-- Nothing is left. -/
  | complete
  /-- The beginning of a sequence is left. -/
  | truncated
  /-- Something is left that no continuation makes a sequence. -/
  | malformed
  deriving DecidableEq, Repr

/-- The characters at the front of some bytes. -/
structure Parse where
  chars : List Char
  /-- The bytes that these characters take. -/
  length : Nat
  ending : Ending
  deriving DecidableEq, Repr

namespace Parse

/-- No character at the front. -/
def stop (ending : Ending) : Parse := ⟨[], 0, ending⟩

/-- One more character in front, taking `length` bytes. -/
def cons (c : Char) (length : Nat) (rest : Parse) : Parse :=
  ⟨c :: rest.chars, length + rest.length, rest.ending⟩

end Parse

/-- The characters at the front of the bytes, up to the first sequence that is not one of a
character. -/
def parse : List UInt8 → Parse
  | [] => .stop .complete
  | a :: as =>
    match sequenceLength? a with
    | some 1 => (parse as).cons (Char.ofNat a.toNat) 1
    | some 2 =>
      match as with
      | [] => .stop .truncated
      | b :: bs =>
        if isContinuation b then (parse bs).cons (Char.ofNat (value2 a b)) 2
        else .stop .malformed
    | some 3 =>
      match as with
      | [] => .stop .truncated
      | b :: bs =>
        if isSecondOfThree a b then
          match bs with
          | [] => .stop .truncated
          | c :: cs =>
            if isContinuation c then (parse cs).cons (Char.ofNat (value3 a b c)) 3
            else .stop .malformed
        else .stop .malformed
    | some _ =>
      match as with
      | [] => .stop .truncated
      | b :: bs =>
        if isSecondOfFour a b then
          match bs with
          | [] => .stop .truncated
          | c :: cs =>
            if isContinuation c then
              match cs with
              | [] => .stop .truncated
              | d :: ds =>
                if isContinuation d then (parse ds).cons (Char.ofNat (value4 a b c d)) 4
                else .stop .malformed
            else .stop .malformed
        else .stop .malformed
    | none => .stop .malformed

/-- The first character of bytes that are wholly characters. -/
def firstChar? (bytes : List UInt8) : Option Char :=
  match (parse bytes).ending with
  | .complete => (parse bytes).chars.head?
  | _ => none

/-- The bytes of some characters. -/
def encode (chars : List Char) : List UInt8 :=
  chars.flatMap String.utf8EncodeChar

end WireFormat.Utf8
