import WireFormat.Proofs.Charset.Encoding

/-!
# Reading characters from a list of bytes

`Charset.readUpTo` and `Charset.readExactly` say what readers of counted text come to, as functions
of the bytes alone: no decoder, no window, no chunks. The loop that pulls bytes agrees with them
(`Pull.readExactly_start`), a window that is long enough gives the same answer as all bytes
(`Charset.readExactly_window`), and so does the shorter way that UTF-8 allows
(`CodePointReader.readWindow_eq`). What is read is what encoding writes: `Charset.readExactly_eq_ok`
and, for whole texts, `Charset.decode_of_encode`.
-/

set_option autoImplicit false
set_option relaxedAutoImplicit false

namespace WireFormat

namespace Charset

/-- Up to `limit` characters at the front of bytes, and where they end. Positions are counted from
`start`, that of the first byte. -/
def readUpTo (charset : Charset) : (limit start : Nat) → List UInt8 →
    Except Error (List Char × Nat)
  | 0, start, _ => .ok ([], start)
  | limit + 1, start, bytes =>
    match charset.front bytes with
    | .ended => .ok ([], start)
    | .truncated => .error { kind := .truncated charset }
    | .malformed offset => .error { kind := .malformed charset (start + offset) }
    | .char c n =>
      match charset.readUpTo limit (start + n) (bytes.drop n) with
      | .ok (chars, stop) => .ok (c :: chars, stop)
      | .error e => .error e

/-- Exactly `count` characters at the front of bytes, and the number of bytes they take. -/
def readExactly (charset : Charset) (count : Nat) (bytes : List UInt8) :
    Except Error (List Char × Nat) :=
  match charset.readUpTo count 0 bytes with
  | .error e => .error e
  | .ok (chars, stop) =>
    if chars.length < count then
      .error { kind := .endOfStream "code points" chars.length count }
    else .ok (chars, stop)

variable {charset : Charset} {limit start stop count n : Nat} {bytes code : List UInt8} {c : Char}
  {chars : List Char}

theorem readUpTo_of_ended (h : charset.front bytes = .ended) :
    charset.readUpTo limit start bytes = .ok ([], start) := by
  cases limit with
  | zero => rfl
  | succ limit => simp only [readUpTo, h]

theorem readUpTo_of_char (h : charset.front bytes = .char c n) :
    charset.readUpTo (limit + 1) start bytes =
      (charset.readUpTo limit (start + n) (bytes.drop n)).map
        fun (chars, stop) ↦ (c :: chars, stop) := by
  simp only [readUpTo, h]
  cases charset.readUpTo limit (start + n) (bytes.drop n) <;> rfl

/-- No more characters are read than were asked for. -/
theorem length_le_of_readUpTo (h : charset.readUpTo limit start bytes = .ok (chars, stop)) :
    chars.length ≤ limit := by
  induction limit generalizing start stop bytes chars with
  | zero =>
    cases h
    exact Nat.le_refl 0
  | succ limit ih =>
    cases hfront : charset.front bytes with
    | ended =>
      rw [readUpTo_of_ended hfront] at h
      cases h
      exact Nat.zero_le _
    | truncated => simp [readUpTo, hfront] at h
    | malformed offset => simp [readUpTo, hfront] at h
    | char c n =>
      rw [readUpTo_of_char hfront] at h
      cases hrest : charset.readUpTo limit (start + n) (bytes.drop n) with
      | error e => simp [hrest, Except.map] at h
      | ok found =>
        obtain ⟨others, last⟩ := found
        simp only [hrest, Except.map, Except.ok.injEq, Prod.mk.injEq] at h
        rw [← h.1, List.length_cons]
        exact Nat.succ_le_succ (ih hrest)

/-! ### The bytes looked at -/

/-- Where `limit` characters must end in sight, bytes out of sight do not matter. -/
theorem readUpTo_append (h : limit * charset.maxBytesPerCodePoint ≤ bytes.length) (start : Nat)
    (more : List UInt8) :
    charset.readUpTo limit start (bytes ++ more) = charset.readUpTo limit start bytes := by
  induction limit generalizing start bytes with
  | zero => rfl
  | succ limit ih =>
    rw [Nat.succ_mul] at h
    have hfront : charset.front (bytes ++ more) = charset.front bytes :=
      front_append (by omega) more
    cases hchar : charset.front bytes with
    | ended | truncated | malformed offset => simp only [readUpTo, hfront, hchar]
    | char c n =>
      obtain ⟨-, hle, hlength⟩ := length_of_front hchar
      have hdrop : (bytes ++ more).drop n = bytes.drop n ++ more :=
        List.drop_append_of_le_length hlength
      rw [readUpTo_of_char hchar, readUpTo_of_char (hfront.trans hchar), hdrop,
        ih (by rw [List.length_drop]; omega) (start + n)]

/-- A window that has room for the characters asked for, or shows all there is, is as good as all
bytes. -/
theorem readExactly_window {window : Nat}
    (h : count * charset.maxBytesPerCodePoint ≤ window ∨ bytes.length ≤ window) :
    charset.readExactly count (bytes.take window) = charset.readExactly count bytes := by
  by_cases hall : bytes.length ≤ window
  · rw [List.take_of_length_le hall]
  · have hroom : count * charset.maxBytesPerCodePoint ≤ (bytes.take window).length := by
      rw [List.length_take]
      omega
    have happend := readUpTo_append hroom 0 (bytes.drop window)
    rw [List.take_append_drop] at happend
    unfold readExactly
    rw [happend]

/-! ### What encoding writes -/

/-- The encoding of some characters is read as these characters. -/
theorem readUpTo_of_encodeChars (h : charset.encodeChars chars = .ok code) (start more : Nat)
    (rest : List UInt8) :
    charset.readUpTo (chars.length + more) start (code ++ rest) =
      (charset.readUpTo more (start + code.length) rest).map
        fun (others, stop) ↦ (chars ++ others, stop) := by
  induction chars generalizing start code with
  | nil =>
    obtain rfl := encodeChars_nil_eq_ok.mp h
    simp only [List.length_nil, Nat.zero_add, List.nil_append, Nat.add_zero]
    cases charset.readUpTo more start rest <;> rfl
  | cons c chars ih =>
    obtain ⟨first, others, hchar, hothers, rfl⟩ := encodeChars_cons_eq_ok.mp h
    have hfront : charset.front (first ++ (others ++ rest)) = .char c first.length :=
      front_of_encodeChar? hchar _
    rw [List.length_cons, Nat.add_right_comm, List.append_assoc, readUpTo_of_char hfront,
      List.drop_left, ih hothers, List.length_append, Nat.add_assoc]
    cases charset.readUpTo more (start + (first.length + others.length)) rest <;> rfl

/-- What is read as some characters begins with their encoding. -/
theorem encodeChars_of_readUpTo (h : charset.readUpTo limit start bytes = .ok (chars, stop)) :
    ∃ code rest, charset.encodeChars chars = .ok code ∧ bytes = code ++ rest ∧
      stop = start + code.length := by
  induction limit generalizing start bytes chars with
  | zero =>
    cases h
    exact ⟨[], bytes, rfl, rfl, rfl⟩
  | succ limit ih =>
    cases hfront : charset.front bytes with
    | ended =>
      rw [readUpTo_of_ended hfront] at h
      cases h
      exact ⟨[], bytes, rfl, rfl, rfl⟩
    | truncated => simp [readUpTo, hfront] at h
    | malformed offset => simp [readUpTo, hfront] at h
    | char c n =>
      rw [readUpTo_of_char hfront] at h
      cases hrest : charset.readUpTo limit (start + n) (bytes.drop n) with
      | error e => simp [hrest, Except.map] at h
      | ok found =>
        simp only [hrest, Except.map, Except.ok.injEq, Prod.mk.injEq] at h
        obtain ⟨rfl, rfl⟩ := h
        obtain ⟨others, rest, hothers, hdrop, hstop⟩ := ih hrest
        obtain ⟨first, behind, hfirst, rfl, rfl⟩ := encodeChar?_of_front hfront
        rw [List.drop_left] at hdrop
        subst hdrop
        refine ⟨first ++ others, rest, ?_, (List.append_assoc _ _ _).symm, ?_⟩
        · exact encodeChars_cons_eq_ok.mpr ⟨first, others, hfirst, hothers, rfl⟩
        · rw [hstop, List.length_append, Nat.add_assoc]

/-- Exactly `count` characters are read from bytes in front of which their encoding stands. -/
theorem readExactly_eq_ok : charset.readExactly count bytes = .ok (chars, n) ↔
    chars.length = count ∧
      ∃ code rest, charset.encodeChars chars = .ok code ∧ bytes = code ++ rest ∧
        n = code.length := by
  constructor
  · intro h
    unfold readExactly at h
    cases hread : charset.readUpTo count 0 bytes with
    | error e => simp [hread] at h
    | ok found =>
      obtain ⟨found, stop⟩ := found
      by_cases hshort : found.length < count
      · simp [hread, hshort] at h
      · simp only [hread, hshort, if_false, Except.ok.injEq, Prod.mk.injEq] at h
        obtain ⟨rfl, rfl⟩ := h
        have hle := length_le_of_readUpTo hread
        obtain ⟨code, rest, hcode, hbytes, hstop⟩ := encodeChars_of_readUpTo hread
        exact ⟨by omega, code, rest, hcode, hbytes, by omega⟩
  · rintro ⟨rfl, code, rest, hcode, rfl, rfl⟩
    have hread := readUpTo_of_encodeChars hcode 0 0 rest
    simp only [Nat.add_zero, Nat.zero_add, readUpTo, Except.map, List.append_nil] at hread
    simp only [readExactly, hread, Nat.lt_irrefl, if_false]

/-! ### Parsed UTF-8 -/

/-- Characters that the parser of UTF-8 finds are read one by one, too. -/
theorem readUpTo_of_parse (h : count ≤ (Utf8.parse bytes).chars.length) (start : Nat) :
    utf8.readUpTo count start bytes =
      .ok ((Utf8.parse bytes).chars.take count,
        start + (Utf8.encode ((Utf8.parse bytes).chars.take count)).length) := by
  induction count generalizing start bytes with
  | zero => simp [readUpTo, Utf8.encode]
  | succ count ih =>
    rcases Utf8.begins_or_parse_eq_stop bytes with ⟨c, n, hbegins⟩ | ⟨ending, hstop⟩
    · have hparse := Utf8.parse_of_begins hbegins
      obtain ⟨-, -, hn⟩ := Utf8.eq_utf8EncodeChar_of_begins hbegins
      have hfront : utf8.front bytes = .char c n := Utf8.front_of_begins hbegins
      rw [hparse, Utf8.Parse.cons, List.length_cons] at h
      rw [readUpTo_of_char hfront, ih (Nat.le_of_succ_le_succ h), hparse]
      simp [Utf8.Parse.cons, Except.map, Utf8.encode, hn, Nat.add_assoc]
    · rw [hstop] at h
      exact absurd h (Nat.not_succ_le_zero count)

/-- The parser takes off the characters that the bytes begin with, and goes on behind them. -/
theorem parse_append_of_encodeChars (h : utf8.encodeChars chars = .ok code) (tail : List UInt8) :
    Utf8.parse (code ++ tail) =
      ⟨chars ++ (Utf8.parse tail).chars, code.length + (Utf8.parse tail).length,
        (Utf8.parse tail).ending⟩ := by
  induction chars generalizing code with
  | nil =>
    obtain rfl := encodeChars_nil_eq_ok.mp h
    simp
  | cons c chars ih =>
    obtain ⟨first, others, hchar, hothers, rfl⟩ := encodeChars_cons_eq_ok.mp h
    have hbegins := Utf8.begins_of_front (front_of_encodeChar? hchar (others ++ tail))
    rw [List.append_assoc, Utf8.parse_of_begins hbegins, List.drop_left, ih hothers]
    simp [Utf8.Parse.cons, Nat.add_assoc]

/-- The encoding of some characters is parsed as these characters. -/
theorem parse_of_encodeChars (h : utf8.encodeChars chars = .ok code) :
    Utf8.parse code = ⟨chars, code.length, .complete⟩ := by
  have hparse := parse_append_of_encodeChars h []
  simpa [Utf8.parse, Utf8.Parse.stop] using hparse

end Charset

namespace Pull

/-! ### Pulling bytes from a list -/

variable {charset : Charset}

/-- What a reader came to: its characters, the position behind them and the bytes left. -/
def outcome : EStateM.Result Error (Pull (List UInt8)) (List Char) →
    Except Error (List Char × Nat × List UInt8)
  | .ok chars pull => .ok (chars, pull.pulled, pull.supply)
  | .error e _ => .error e

theorem eq_ok_of_outcome {result : EStateM.Result Error (Pull (List UInt8)) (List Char)}
    {chars : List Char} {n : Nat} {rest : List UInt8} (h : outcome result = .ok (chars, n, rest)) :
    ∃ decoder, result = .ok chars ⟨decoder, n, rest⟩ := by
  rcases result with ⟨_, decoder, _, _⟩ | _ <;> cases h
  exact ⟨decoder, rfl⟩

theorem eq_error_of_outcome {result : EStateM.Result Error (Pull (List UInt8)) (List Char)}
    {e : Error} (h : outcome result = .error e) : ∃ pull, result = .error e pull := by
  rcases result with _ | ⟨_, pull⟩ <;> cases h
  exact ⟨pull, rfl⟩

/-- One character comes before what the reader goes on with. -/
theorem outcome_of_char {pull next : Pull (List UInt8)} {c : Char}
    (h : pull.nextChar = .ok (some c) next) (limit : Nat) :
    outcome (readUpTo charset (limit + 1) pull) =
      (outcome (readUpTo charset limit next)).map fun (chars, rest) ↦ (c :: chars, rest) := by
  simp only [readUpTo, h]
  cases readUpTo charset limit next <;> rfl

/-- Pulling bytes from a list comes to the characters that stand at the front of the list. -/
theorem outcome_readUpTo (charset : Charset) (limit need pulled : Nat) (bytes : List UInt8) :
    outcome (readUpTo charset limit ⟨⟨charset, [], need⟩, pulled, bytes⟩) =
      (charset.readUpTo limit pulled bytes).map
        fun (chars, stop) ↦ (chars, stop, bytes.drop (stop - pulled)) := by
  induction limit generalizing need pulled bytes with
  | zero => simp [readUpTo, Charset.readUpTo, outcome, Except.map]
  | succ limit ih =>
    have hnext := nextChar_front charset need pulled bytes
    cases hfront : charset.front bytes with
    | ended =>
      rw [hfront] at hnext
      obtain ⟨need', hnext⟩ := hnext
      simp [readUpTo, hnext, Charset.readUpTo, hfront, outcome, Except.map]
    | truncated =>
      rw [hfront] at hnext
      obtain ⟨decoder, hnext⟩ := hnext
      simp only [readUpTo, hnext, Charset.readUpTo, hfront]
      rfl
    | malformed offset =>
      rw [hfront] at hnext
      obtain ⟨need', hnext⟩ := hnext
      simp only [readUpTo, hnext, Charset.readUpTo, hfront]
      rfl
    | char c n =>
      rw [hfront] at hnext
      obtain ⟨need', hnext⟩ := hnext
      rw [outcome_of_char hnext, ih, Charset.readUpTo_of_char hfront]
      cases hread : charset.readUpTo limit (pulled + n) (bytes.drop n) with
      | error e => rfl
      | ok found =>
        obtain ⟨chars, stop⟩ := found
        obtain ⟨code, rest, -, -, hstop⟩ := Charset.encodeChars_of_readUpTo hread
        have hdrop : n + (stop - (pulled + n)) = stop - pulled := by omega
        simp only [Except.map, List.drop_drop, hdrop]

/-- A counted reader on a list comes to the characters that stand at its front. -/
theorem outcome_readExactly (charset : Charset) (count : Nat) (bytes : List UInt8) :
    outcome (readExactly charset count (start charset bytes)) =
      (charset.readExactly count bytes).map fun (chars, n) ↦ (chars, n, bytes.drop n) := by
  have hshort (pull : Pull (List UInt8)) : outcome (readExactly charset count pull) =
      match outcome (readUpTo charset count pull) with
      | .error e => .error e
      | .ok (chars, rest) =>
        if chars.length < count then
          .error { kind := .endOfStream "code points" chars.length count }
        else .ok (chars, rest) := by
    unfold readExactly
    cases readUpTo charset count pull with
    | error e pull => rfl
    | ok chars pull => by_cases h : chars.length < count <;> simp [outcome, h]
  rw [hshort, start, Charset.decoder, outcome_readUpTo, Charset.readExactly]
  cases charset.readUpTo count 0 bytes with
  | error e => rfl
  | ok found => by_cases h : found.1.length < count <;> simp [Except.map, h]

end Pull

namespace Charset

/-! ### Whole texts -/

/-- There are no more characters than bytes. -/
theorem length_le_of_encodeChars {charset : Charset} {chars : List Char} {code : List UInt8}
    (h : charset.encodeChars chars = .ok code) : chars.length ≤ code.length := by
  induction chars generalizing code with
  | nil => exact Nat.zero_le _
  | cons c chars ih =>
    obtain ⟨first, others, hchar, hothers, rfl⟩ := encodeChars_cons_eq_ok.mp h
    have hfirst := (length_encodeChar? hchar).1
    have hle := ih hothers
    rw [List.length_cons, List.length_append]
    omega

/-- Decoding undoes encoding. -/
theorem decode_of_encode {charset : Charset} {text : String} {code : List UInt8}
    (h : charset.encode text = .ok code) : charset.decode code = .ok text := by
  have hunits : charset.decodeUnits code = .ok text.toList := by
    have hread := readUpTo_of_encodeChars h 0 (code.length - text.toList.length) []
    rw [Nat.add_sub_cancel' (length_le_of_encodeChars h), List.append_nil,
      readUpTo_of_ended charset.front_nil] at hread
    have hpull := Pull.outcome_readUpTo charset code.length 0 0 code
    rw [hread] at hpull
    obtain ⟨last, hresult⟩ := Pull.eq_ok_of_outcome hpull
    rw [List.append_nil] at hresult
    simp only [decodeUnits, Pull.start, decoder, hresult]
  cases charset with
  | utf8 =>
    have hparse := parse_of_encodeChars h
    simp [decode, decodeUtf8, hparse, Except.map]
  | _ => simp [decode, hunits, Except.map]

end Charset

namespace CodePointReader

/-! ### Windows -/

/-- Whichever way a window is read, what is found are the characters that stand at its front. -/
theorem readWindow_eq (charset : Charset) (window : List UInt8) (count : Nat) :
    readWindow charset window count = charset.readExactly count window := by
  unfold readWindow
  cases hfast : utf8Front? charset window count with
  | some found =>
    unfold utf8Front? at hfast
    by_cases hutf8 : charset = .utf8
    · subst hutf8
      by_cases hcount : count ≤ (Utf8.parse window).chars.length
      · have hread := Charset.readUpTo_of_parse hcount 0
        simp only [if_pos hcount, if_true, Option.some.injEq] at hfast
        subst hfast
        have hlength : ((Utf8.parse window).chars.take count).length = count :=
          List.length_take_of_le hcount
        simp [Charset.readExactly, hread, hlength]
      · simp [hcount] at hfast
    · simp [hutf8] at hfast
  | none =>
    have hread := Pull.outcome_readExactly charset count window
    cases hlist : charset.readExactly count window with
    | error e =>
      rw [hlist] at hread
      obtain ⟨pull, hpull⟩ := Pull.eq_error_of_outcome hread
      simp only [hpull]
    | ok found =>
      rw [hlist] at hread
      obtain ⟨last, hpull⟩ := Pull.eq_ok_of_outcome hread
      simp only [hpull]

end CodePointReader

end WireFormat
