import WireFormat.Failure

/-!
# Sources

A source is a sequence of bytes in chunks, some of which may be empty. Reading takes bytes from the
front and does not depend on the chunks; what a reader may see without taking it is the first
chunk that is not empty. A raw read (`getByte`, `getBytes`, `advance`) is defined only where enough
bytes are left; `atLeast` is the guard in front of it.
-/

set_option autoImplicit false
set_option relaxedAutoImplicit false

namespace WireFormat

/-- Bytes to be read, in chunks. -/
structure Source where
  chunks : List (List UInt8)
  deriving DecidableEq, Repr

namespace Source

/-- A source of a single chunk. -/
def ofBytes (bytes : List UInt8) : Source := ⟨[bytes]⟩

/-- All bytes, regardless of the chunks. -/
def bytes (source : Source) : List UInt8 := source.chunks.flatten

/-- The number of bytes in some chunks. -/
def lengthOf : List (List UInt8) → Nat
  | [] => 0
  | chunk :: chunks => chunk.length + lengthOf chunks

/-- How many bytes are left. -/
def remaining (source : Source) : Nat := lengthOf source.chunks

/-- The bytes in sight: those of the first chunk that is not empty. -/
def chunk (source : Source) : List UInt8 :=
  (source.chunks.find? fun c ↦ !c.isEmpty).getD []

/-- All bytes left are in sight. -/
def isContiguous (source : Source) : Bool :=
  source.chunk.length = source.remaining

/-- The first byte of some chunks, and what is left of them. -/
def nextOf : List (List UInt8) → Option (UInt8 × List (List UInt8))
  | [] => none
  | [] :: chunks => nextOf chunks
  | (byte :: chunk) :: chunks => some (byte, chunk :: chunks)

/-- The first byte, and the source behind it. -/
def next? (source : Source) : Option (UInt8 × Source) :=
  (nextOf source.chunks).map fun (byte, chunks) ↦ (byte, ⟨chunks⟩)

/-- The first `n` bytes of some chunks, and what is left of them. -/
def splitOf (n : Nat) : List (List UInt8) → Option (List UInt8 × List (List UInt8))
  | [] => if n = 0 then some ([], []) else none
  | chunk :: chunks =>
    if n ≤ chunk.length then some (chunk.take n, chunk.drop n :: chunks)
    else (splitOf (n - chunk.length) chunks).map fun (bytes, rest) ↦ (chunk ++ bytes, rest)

/-- The first `n` bytes, and the source behind them. Undefined when fewer are left. -/
def split? (n : Nat) (source : Source) : Option (List UInt8 × Source) :=
  (splitOf n source.chunks).map fun (bytes, chunks) ↦ (bytes, ⟨chunks⟩)

/-- Fails unless at least `n` bytes are left. -/
def atLeast (n : Nat) : Action Source Unit := do
  let source ← get
  if source.remaining < n then fail (.endOfBuffer n source.remaining)

/-- Takes one byte. -/
def getByte : Action Source UInt8 := fun source ↦
  match source.next? with
  | some (byte, rest) => .ok byte rest
  | none => .error .pastEnd source

/-- Takes `n` bytes. -/
def getBytes (n : Nat) : Action Source (List UInt8) := fun source ↦
  match source.split? n with
  | some (bytes, rest) => .ok bytes rest
  | none => .error .pastEnd source

/-- Drops `n` bytes. -/
def advance (n : Nat) : Action Source Unit := do
  let _ ← getBytes n

/-- Takes `n` bytes if that many are left. -/
def take (n : Nat) : Action Source (List UInt8) := do
  atLeast n
  getBytes n

/-- Takes all bytes that are left. -/
def takeAll : Action Source (List UInt8) := do
  getBytes (← get).remaining

/-- Taking a byte leaves one byte less. -/
theorem lengthOf_nextOf {chunks rest : List (List UInt8)} {byte : UInt8}
    (h : nextOf chunks = some (byte, rest)) : lengthOf rest + 1 = lengthOf chunks := by
  induction chunks with
  | nil => simp [nextOf] at h
  | cons chunk chunks ih =>
    cases chunk with
    | nil =>
      rw [lengthOf, List.length_nil, Nat.zero_add]
      exact ih h
    | cons head tail =>
      simp only [nextOf, Option.some.injEq, Prod.mk.injEq] at h
      obtain ⟨-, rfl⟩ := h
      simp only [lengthOf, List.length_cons]
      omega

theorem remaining_next? {source rest : Source} {byte : UInt8}
    (h : source.next? = some (byte, rest)) : rest.remaining + 1 = source.remaining := by
  unfold next? at h
  obtain ⟨⟨b, chunks⟩, hb, heq⟩ := Option.map_eq_some_iff.1 h
  obtain ⟨-, rfl⟩ := Prod.mk.inj heq
  exact lengthOf_nextOf hb

end Source

end WireFormat
