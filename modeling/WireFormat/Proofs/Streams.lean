import Mathlib
import WireFormat.Proofs.Action

/-!
# Streams as lists of bytes

Reading does not depend on how a source is cut into chunks: every operation is described by
`Source.bytes` alone, before and after. The descriptions of the guarded reads are
`Source.take_of_le`, `Source.take_of_lt` and `Source.getByte_of_cons`. A contiguous source shows all
its bytes (`Source.chunk_of_isContiguous`). On the side of sinks, `Sink.put_eq_ok` says that
whatever is put stands behind what was written before.
-/

set_option autoImplicit false
set_option relaxedAutoImplicit false

namespace WireFormat

/-! ### Bytes and their number -/

theorem toNat_ofNat_byte {n : Nat} (h : n < 256) : (UInt8.ofNat n).toNat = n :=
  UInt8.toNat_ofNat_of_lt' h

/-- Bytes are told apart by their numbers. -/
theorem ofNat_eq_byte {n : Nat} (byte : UInt8) (h : n = byte.toNat) : UInt8.ofNat n = byte := by
  rw [h, UInt8.ofNat_toNat]

namespace Source

@[simp] theorem bytes_ofBytes (bytes : List UInt8) : (ofBytes bytes).bytes = bytes := by
  simp [ofBytes, Source.bytes]

theorem lengthOf_eq (chunks : List (List UInt8)) : lengthOf chunks = chunks.flatten.length := by
  induction chunks with
  | nil => rfl
  | cons chunk chunks ih => rw [lengthOf, ih, List.flatten_cons, List.length_append]

theorem remaining_eq_length (source : Source) : source.remaining = source.bytes.length :=
  lengthOf_eq source.chunks

theorem remaining_eq_zero_iff {source : Source} : source.remaining = 0 ↔ source.bytes = [] := by
  rw [remaining_eq_length, List.length_eq_zero_iff]

/-- The bytes in sight are all bytes of a contiguous source. -/
theorem chunk_of_isContiguous {source : Source} (h : source.isContiguous = true) :
    source.chunk = source.bytes := by
  obtain ⟨chunks⟩ := source
  have hlength : (chunk ⟨chunks⟩).length = (bytes ⟨chunks⟩).length := by
    rw [← remaining_eq_length]
    simpa [isContiguous] using h
  clear h
  induction chunks with
  | nil => rfl
  | cons first others ih =>
    cases first with
    | nil =>
      simp only [chunk, bytes, List.find?_cons, List.isEmpty_nil, Bool.not_true, List.flatten_cons,
        List.nil_append] at hlength ⊢
      exact ih hlength
    | cons byte rest =>
      simp only [chunk, bytes, List.find?_cons, List.isEmpty_cons, Bool.not_false,
        Option.getD_some, List.flatten_cons, List.length_append] at hlength ⊢
      rw [List.eq_nil_of_length_eq_zero (by omega : others.flatten.length = 0), List.append_nil]

/-! ### Single bytes -/

theorem bytes_nextOf {chunks rest : List (List UInt8)} {byte : UInt8}
    (h : nextOf chunks = some (byte, rest)) : chunks.flatten = byte :: rest.flatten := by
  induction chunks with
  | nil => simp [nextOf] at h
  | cons first others ih =>
    cases first with
    | nil => simpa using ih h
    | cons head tail =>
      simp only [nextOf, Option.some.injEq, Prod.mk.injEq] at h
      obtain ⟨rfl, rfl⟩ := h
      simp

theorem nextOf_eq_none {chunks : List (List UInt8)} (h : nextOf chunks = none) :
    chunks.flatten = [] := by
  induction chunks with
  | nil => rfl
  | cons first others ih =>
    cases first with
    | nil => simpa using ih h
    | cons head tail => simp [nextOf] at h

/-- There is a next byte exactly when there is a first byte. -/
theorem next?_of_cons {source : Source} {byte : UInt8} {others : List UInt8}
    (h : source.bytes = byte :: others) :
    ∃ rest, source.next? = some (byte, rest) ∧ rest.bytes = others := by
  cases hnext : nextOf source.chunks with
  | none =>
    rw [Source.bytes, nextOf_eq_none hnext] at h
    cases h
  | some next =>
    obtain ⟨head, chunks⟩ := next
    have hflatten := bytes_nextOf hnext
    rw [Source.bytes, hflatten] at h
    obtain ⟨rfl, rfl⟩ := List.cons.inj h
    exact ⟨⟨chunks⟩, by simp [next?, hnext], rfl⟩

theorem next?_of_nil {source : Source} (h : source.bytes = []) : source.next? = none := by
  cases hnext : nextOf source.chunks with
  | none => simp [next?, hnext]
  | some next =>
    obtain ⟨head, chunks⟩ := next
    have hflatten := bytes_nextOf hnext
    rw [Source.bytes, hflatten] at h
    cases h

theorem getByte_of_cons {source : Source} {byte : UInt8} {others : List UInt8}
    (h : source.bytes = byte :: others) :
    ∃ rest, getByte source = .ok byte rest ∧ rest.bytes = others := by
  obtain ⟨rest, hnext, hrest⟩ := next?_of_cons h
  exact ⟨rest, by simp only [getByte, hnext], hrest⟩

/-! ### Several bytes -/

theorem splitOf_of_le {n : Nat} {chunks : List (List UInt8)} (h : n ≤ chunks.flatten.length) :
    ∃ rest, splitOf n chunks = some (chunks.flatten.take n, rest) ∧
      rest.flatten = chunks.flatten.drop n := by
  induction chunks generalizing n with
  | nil =>
    have hn : n = 0 := by simpa using h
    exact ⟨[], by simp [splitOf, hn], by simp⟩
  | cons first others ih =>
    by_cases hfirst : n ≤ first.length
    · refine ⟨first.drop n :: others, ?_, ?_⟩
      · simp [splitOf, hfirst, List.take_append_of_le_length hfirst]
      · simp [List.drop_append_of_le_length hfirst]
    · have hothers : n - first.length ≤ others.flatten.length := by
        simp only [List.flatten_cons, List.length_append] at h
        omega
      obtain ⟨rest, hsplit, hrest⟩ := ih hothers
      refine ⟨rest, ?_, ?_⟩
      · simp [splitOf, hfirst, hsplit, List.take_append,
          List.take_of_length_le (by omega : first.length ≤ n)]
      · simp [hrest, List.drop_append, List.drop_of_length_le (by omega : first.length ≤ n)]

/-- Enough bytes being left, a raw read takes those at the front. -/
theorem getBytes_of_le {n : Nat} {source : Source} (h : n ≤ source.bytes.length) :
    ∃ rest, getBytes n source = .ok (source.bytes.take n) rest ∧
      rest.bytes = source.bytes.drop n := by
  obtain ⟨rest, hsplit, hrest⟩ := splitOf_of_le h
  refine ⟨⟨rest⟩, ?_, hrest⟩
  simp only [getBytes, split?, hsplit, Option.map_some]
  rfl

theorem splitOf_of_lt {n : Nat} {chunks : List (List UInt8)} (h : chunks.flatten.length < n) :
    splitOf n chunks = none := by
  induction chunks generalizing n with
  | nil =>
    have hn : n ≠ 0 := by
      rintro rfl
      cases h
    simp [splitOf, hn]
  | cons first others ih =>
    simp only [List.flatten_cons, List.length_append] at h
    have hfirst : ¬ n ≤ first.length := by omega
    simp [splitOf, hfirst, ih (by omega : others.flatten.length < n - first.length)]

theorem getBytes_of_lt {n : Nat} {source : Source} (h : source.bytes.length < n) :
    getBytes n source = .error .pastEnd source := by
  simp only [getBytes, split?, splitOf_of_lt h, Option.map_none]

theorem advance_of_le {n : Nat} {source : Source} (h : n ≤ source.bytes.length) :
    ∃ rest, advance n source = .ok () rest ∧ rest.bytes = source.bytes.drop n := by
  obtain ⟨rest, hget, hrest⟩ := getBytes_of_le h
  exact ⟨rest, bind_of_ok hget _, hrest⟩

theorem atLeast_of_le {n : Nat} {source : Source} (h : n ≤ source.bytes.length) :
    atLeast n source = .ok () source := by
  rw [← remaining_eq_length] at h
  simp [atLeast, Nat.not_lt.mpr h]

theorem atLeast_of_lt {n : Nat} {source : Source} (h : source.bytes.length < n) :
    atLeast n source = .error (.error { kind := .endOfBuffer n source.bytes.length }) source := by
  rw [← remaining_eq_length] at h ⊢
  simp [atLeast, h]

theorem atLeast_of_nil {source : Source} (h : source.bytes = []) :
    atLeast 1 source = .error (.error { kind := .endOfBuffer 1 0 }) source := by
  have hempty : source.bytes.length = 0 := by rw [h, List.length_nil]
  rw [atLeast_of_lt (by omega), hempty]

theorem take_of_le {n : Nat} {source : Source} (h : n ≤ source.bytes.length) :
    ∃ rest, take n source = .ok (source.bytes.take n) rest ∧
      rest.bytes = source.bytes.drop n := by
  obtain ⟨rest, hget, hrest⟩ := getBytes_of_le h
  exact ⟨rest, (bind_of_ok (atLeast_of_le h) _).trans hget, hrest⟩

theorem take_of_lt {n : Nat} {source : Source} (h : source.bytes.length < n) :
    take n source = .error (.error { kind := .endOfBuffer n source.bytes.length }) source :=
  bind_of_error (atLeast_of_lt h) _

/-- A source that starts with `n` bytes yields them. -/
theorem take_of_append {n : Nat} {source : Source} {front back : List UInt8}
    (hbytes : source.bytes = front ++ back) (hn : front.length = n) :
    ∃ rest, take n source = .ok front rest ∧ rest.bytes = back := by
  have hle : n ≤ source.bytes.length := by
    rw [hbytes, List.length_append]
    omega
  obtain ⟨rest, htake, hrest⟩ := take_of_le hle
  rw [hbytes, ← hn, List.take_left] at htake
  rw [hbytes, ← hn, List.drop_left] at hrest
  exact ⟨rest, hn ▸ htake, hrest⟩

/-! Read backwards: what a read that succeeded tells of the bytes. -/

theorem atLeast_eq_ok {n : Nat} {source rest : Source}
    (h : atLeast n source = .ok () rest) : n ≤ source.bytes.length ∧ rest = source := by
  by_cases hn : n ≤ source.bytes.length
  · rw [atLeast_of_le hn] at h
    cases h
    exact ⟨hn, rfl⟩
  · rw [atLeast_of_lt (Nat.lt_of_not_le hn)] at h
    cases h

theorem getByte_eq_ok {source rest : Source} {byte : UInt8}
    (h : getByte source = .ok byte rest) : source.bytes = byte :: rest.bytes := by
  cases hbytes : source.bytes with
  | nil =>
    rw [getByte, next?_of_nil hbytes] at h
    cases h
  | cons first others =>
    obtain ⟨rest', hget, hrest⟩ := getByte_of_cons hbytes
    rw [hget] at h
    cases h
    rw [hrest]

theorem atLeast_of_getByte {source rest : Source} {byte : UInt8}
    (h : getByte source = .ok byte rest) : atLeast 1 source = .ok () source := by
  refine atLeast_of_le ?_
  rw [getByte_eq_ok h, List.length_cons]
  exact Nat.le_add_left 1 _

theorem take_eq_ok {n : Nat} {source rest : Source} {bytes : List UInt8}
    (h : take n source = .ok bytes rest) :
    bytes.length = n ∧ source.bytes = bytes ++ rest.bytes := by
  obtain ⟨_, middle, hguard, hrun⟩ := bind_eq_ok.mp h
  obtain ⟨hn, rfl⟩ := atLeast_eq_ok hguard
  obtain ⟨rest', hget, hrest⟩ := getBytes_of_le hn
  rw [hget] at hrun
  cases hrun
  rw [hrest]
  exact ⟨List.length_take_of_le hn, (List.take_append_drop _ _).symm⟩

theorem takeAll_eq (source : Source) :
    ∃ rest, takeAll source = .ok source.bytes rest ∧ rest.bytes = [] := by
  obtain ⟨rest, hget, hrest⟩ := getBytes_of_le (Nat.le_refl source.bytes.length)
  rw [List.take_length, ← remaining_eq_length] at hget
  rw [List.drop_length] at hrest
  exact ⟨rest, hget, hrest⟩

theorem takeAll_eq_ok {source rest : Source} {bytes : List UInt8}
    (h : takeAll source = .ok bytes rest) : source.bytes = bytes ++ rest.bytes := by
  obtain ⟨rest', htake, hrest⟩ := takeAll_eq source
  rw [htake] at h
  cases h
  rw [hrest, List.append_nil]

end Source

namespace Sink

/-- A sink with bytes added behind those it has. -/
def extend (sink : Sink) (bytes : List UInt8) : Sink :=
  { sink with written := sink.written ++ bytes }

@[simp] theorem written_extend (sink : Sink) (bytes : List UInt8) :
    (sink.extend bytes).written = sink.written ++ bytes := rfl

@[simp] theorem extend_nil (sink : Sink) : sink.extend [] = sink := by
  rw [extend, List.append_nil]

@[simp] theorem extend_extend (sink : Sink) (front back : List UInt8) :
    (sink.extend front).extend back = sink.extend (front ++ back) := by
  rw [extend, extend, extend, List.append_assoc]

theorem room_extend (sink : Sink) (bytes : List UInt8) :
    (sink.extend bytes).room = sink.room - bytes.length := by
  rw [room, room, written_extend, List.length_append, Nat.sub_add_eq]
  rfl

/-- Where there is no room for all bytes, none is written. -/
theorem put_of_lt {bytes : List UInt8} {sink : Sink} (h : sink.room < bytes.length) :
    put bytes sink = .error (.error { kind := .endOfBuffer bytes.length sink.room }) sink := by
  simp [put, hasCapacity, bind_assoc, h]

/-- What is put stands behind what was written before, and its length is reported. -/
theorem put_eq_ok {bytes : List UInt8} {sink after : Sink} {n : Nat} :
    put bytes sink = .ok n after ↔
      bytes.length ≤ sink.room ∧ n = bytes.length ∧ after = sink.extend bytes := by
  by_cases hroom : sink.room < bytes.length
  · simp only [put_of_lt hroom, Nat.not_le.mpr hroom, false_and]
    exact iff_of_false (by simp) (by simp)
  · have hle : bytes.length ≤ sink.room := Nat.not_lt.mp hroom
    have hguard : hasCapacity bytes.length sink = .ok () sink := by
      simp [hasCapacity, hroom]
    have happend : append bytes sink = .ok () (sink.extend bytes) := by
      simp [append, hle, extend]
    simp only [put, bind_of_ok hguard, bind_of_ok happend, pure_apply, hle, true_and,
      EStateM.Result.ok.injEq]
    exact and_congr eq_comm eq_comm

end Sink

end WireFormat
