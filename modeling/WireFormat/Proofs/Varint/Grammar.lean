import WireFormat.Proofs.Streams
import WireFormat.Varint

/-!
# The grammar of integers in groups of seven bits

The bytes of a number are some bytes with the high bit set and one without it behind them
(`Varint.IsForm`); each holds seven bits of the number, the lowest first (`Varint.denoted`). The
groups that are written are a form of their number (`Varint.isForm_groups`), as many as announced
(`Varint.length_groups`), and no form of it is shorter (`Varint.size_denoted_le`).

A source starts with a form of at most so many bytes, ends before that, or goes on beyond it
(`Varint.form_or_unfinished_or_long`), and what the reader does follows from which of the three it
is: `Varint.read_of_form`, `Varint.read_of_unfinished` and `Varint.read_of_long`. Up to the last
group that the width has room for it only adds (`Varint.readFrom_of_front`), and there the bits
above the width are clear exactly if the sum is a number of the width (`Varint.bits_above_iff`).
-/

set_option autoImplicit false
set_option relaxedAutoImplicit false

namespace WireFormat.Varint

/-! ### Forms of a number -/

/-- The bytes of a number: all but the last have the high bit set, and the last has not. -/
def IsForm (bytes : List UInt8) : Prop :=
  ∃ front last, bytes = front ++ [last] ∧ (∀ byte ∈ front, 128 ≤ byte.toNat) ∧ last.toNat < 128

/-- The sum of the groups of seven bits that the bytes hold, the lowest first. -/
def denoted : List UInt8 → Nat
  | [] => 0
  | byte :: bytes => byte.toNat % 128 + 128 * denoted bytes

/-- How many groups of seven bits a width has room for, the last one perhaps in part. -/
def maxGroups (width : Nat) : Nat := (width + 6) / 7

/-- The bytes start with a form of `value`, a number of the width, and go on with `tail`. -/
def Spells (width : Nat) (bytes : List UInt8) (value : Nat) (tail : List UInt8) : Prop :=
  ∃ form, IsForm form ∧ form.length ≤ maxGroups width ∧ bytes = form ++ tail ∧
    denoted form = value ∧ value < 2 ^ width

/-- The bytes end where a form that the width has room for could still go on. -/
def Unfinished (width : Nat) (bytes : List UInt8) : Prop :=
  bytes.length < maxGroups width ∧ ∀ byte ∈ bytes, 128 ≤ byte.toNat

variable {width shift value number : Nat} {byte : UInt8}
  {bytes front back form other tail rest : List UInt8} {source : Source}

theorem isForm_singleton (h : byte.toNat < 128) : IsForm [byte] :=
  ⟨[], byte, rfl, by simp, h⟩

theorem IsForm.cons (h : IsForm form) (hbyte : 128 ≤ byte.toNat) : IsForm (byte :: form) := by
  obtain ⟨front, last, rfl, hmore, hlast⟩ := h
  exact ⟨byte :: front, last, rfl, List.forall_mem_cons.mpr ⟨hbyte, hmore⟩, hlast⟩

/-- Different forms are told apart by their bytes, whatever follows. -/
theorem IsForm.append_inj (hform : IsForm form) (hother : IsForm other)
    (h : form ++ tail = other ++ rest) : form = other ∧ tail = rest := by
  obtain ⟨front, last, rfl, hmore, hlast⟩ := hform
  obtain ⟨front', last', rfl, hmore', hlast'⟩ := hother
  induction front generalizing front' with
  | nil =>
    cases front' with
    | nil => simpa using h
    | cons byte front' =>
      obtain ⟨rfl, -⟩ := List.cons.inj h
      have hbyte := hmore' last List.mem_cons_self
      omega
  | cons byte front ih =>
    cases front' with
    | nil =>
      obtain ⟨rfl, -⟩ := List.cons.inj h
      have hbyte := hmore byte List.mem_cons_self
      omega
    | cons byte' front' =>
      obtain ⟨rfl, hrest⟩ := List.cons.inj h
      obtain ⟨hforms, htails⟩ := ih (List.forall_mem_cons.mp hmore).2 front' hrest
        (List.forall_mem_cons.mp hmore').2
      exact ⟨congrArg (byte :: ·) hforms, htails⟩

theorem denoted_append (front back : List UInt8) :
    denoted (front ++ back) = denoted front + denoted back * 2 ^ (7 * front.length) := by
  induction front with
  | nil => simp [denoted]
  | cons byte front ih =>
    rw [List.cons_append, denoted, denoted, ih, List.length_cons, Nat.mul_succ, Nat.pow_add]
    ring

theorem denoted_singleton (byte : UInt8) : denoted [byte] = byte.toNat % 128 := rfl

theorem denoted_lt (bytes : List UInt8) : denoted bytes < 2 ^ (7 * bytes.length) := by
  induction bytes with
  | nil => exact Nat.one_pos
  | cons byte bytes ih =>
    have hgroup : byte.toNat % 128 < 128 := Nat.mod_lt _ (by decide)
    rw [denoted, List.length_cons, Nat.mul_succ, Nat.pow_add]
    omega

/-- A number that is too large for the width takes every group that the width has room for. -/
theorem length_eq_maxGroups (hlength : form.length ≤ maxGroups width)
    (h : 2 ^ width ≤ denoted form) : form.length = maxGroups width := by
  have hbits : 2 ^ width < 2 ^ (7 * form.length) := Nat.lt_of_le_of_lt h (denoted_lt form)
  have hwidth : width < 7 * form.length := (Nat.pow_lt_pow_iff_right (by decide)).mp hbits
  unfold maxGroups at hlength ⊢
  omega

/-- Bytes start with a form of limited length, or they end before it does, or it goes on beyond the
limit. -/
theorem form_or_unfinished_or_long (limit : Nat) (bytes : List UInt8) :
    (∃ form tail, IsForm form ∧ form.length ≤ limit ∧ bytes = form ++ tail) ∨
    (bytes.length < limit ∧ ∀ byte ∈ bytes, 128 ≤ byte.toNat) ∨
    ∃ front back, bytes = front ++ back ∧ front.length = limit ∧
      ∀ byte ∈ front, 128 ≤ byte.toNat := by
  induction bytes generalizing limit with
  | nil =>
    cases limit with
    | zero => exact Or.inr (Or.inr ⟨[], [], rfl, rfl, by simp⟩)
    | succ limit => exact Or.inr (Or.inl ⟨Nat.succ_pos limit, by simp⟩)
  | cons byte bytes ih =>
    cases limit with
    | zero => exact Or.inr (Or.inr ⟨[], byte :: bytes, rfl, rfl, by simp⟩)
    | succ limit =>
      by_cases hlast : byte.toNat < 128
      · -- A byte without the high bit is a form by itself, whatever follows.
        exact Or.inl ⟨[byte], bytes, isForm_singleton hlast, Nat.succ_le_succ (Nat.zero_le _), rfl⟩
      have hbyte : 128 ≤ byte.toNat := Nat.not_lt.mp hlast
      rcases ih limit with ⟨form, tail, hform, hlength, rfl⟩ | ⟨hlength, hmore⟩ |
        ⟨front, back, rfl, hlength, hmore⟩
      · exact Or.inl ⟨byte :: form, tail, hform.cons hbyte, Nat.succ_le_succ hlength, rfl⟩
      · exact Or.inr (Or.inl ⟨Nat.succ_lt_succ hlength, List.forall_mem_cons.mpr ⟨hbyte, hmore⟩⟩)
      · exact Or.inr (Or.inr ⟨byte :: front, back, rfl, congrArg (· + 1) hlength,
          List.forall_mem_cons.mpr ⟨hbyte, hmore⟩⟩)

/-! ### Groups of a number -/

theorem size_of_lt {value : Nat} (h : value < 128) : size value = 1 := by
  by_cases hzero : value = 0
  · subst hzero
    rfl
  · have hlog : value.log2 < 7 := (Nat.log2_lt hzero).mpr h
    rw [size, bitLength, if_neg hzero]
    omega

theorem size_of_ge {value : Nat} (h : 128 ≤ value) : size value = size (value / 128) + 1 := by
  have hvalue : value ≠ 0 := by omega
  have hquotient : value / 128 ≠ 0 := by omega
  have hlog : value.log2 = (value / 128).log2 + 7 := by
    rw [Nat.log2_eq_iff hvalue]
    have hle := Nat.log2_self_le hquotient
    have hlt := Nat.lt_log2_self (n := value / 128)
    constructor
    · rw [Nat.pow_add]
      omega
    · rw [Nat.add_right_comm, Nat.pow_add]
      omega
  rw [size, size, bitLength, bitLength, if_neg hvalue, if_neg hquotient, hlog]
  omega

/-- A smaller value takes no more bytes. -/
theorem size_mono {small value : Nat} (h : small ≤ value) : size small ≤ size value := by
  induction value using Nat.strong_induction_on generalizing small with
  | h value ih =>
    by_cases hsmall : small < 128
    · rw [size_of_lt hsmall]
      unfold size
      omega
    · have hvalue : 128 ≤ value := by omega
      rw [size_of_ge (Nat.not_lt.mp hsmall), size_of_ge hvalue]
      exact Nat.succ_le_succ (ih (value / 128) (by omega) (Nat.div_le_div_right h))

/-- There are as many groups as announced. -/
theorem length_groups (value : Nat) : (groups value).length = size value := by
  induction value using Nat.strongRecOn with
  | ind value ih =>
    rw [groups]
    by_cases hlast : value / 128 = 0
    · rw [if_pos hlast, size_of_lt (by omega)]
      rfl
    · rw [if_neg hlast, List.length_cons, ih (value / 128) (by omega),
        ← size_of_ge (by omega : 128 ≤ value)]

/-- The room that is asked for is what the groups take. -/
theorem write_eq_put (value : Nat) : write value = Sink.put (groups value) := by
  rw [write, Sink.put, length_groups]

theorem size_add_group {group number : Nat} (h : group < 128) :
    size (group + 128 * number) ≤ size number + 1 := by
  by_cases hsmall : group + 128 * number < 128
  · rw [size_of_lt hsmall]
    exact Nat.le_add_left 1 _
  · rw [size_of_ge (Nat.not_lt.mp hsmall),
      show (group + 128 * number) / 128 = number by omega]

/-- No form of a number is shorter than its groups. -/
theorem size_denoted_le (hbytes : bytes ≠ []) : size (denoted bytes) ≤ bytes.length := by
  induction bytes with
  | nil => exact absurd rfl hbytes
  | cons byte bytes ih =>
    have hgroup : byte.toNat % 128 < 128 := Nat.mod_lt _ (by decide)
    cases bytes with
    | nil =>
      rw [denoted_singleton, size_of_lt hgroup]
      exact Nat.le_refl 1
    | cons next others =>
      rw [denoted, List.length_cons]
      exact (size_add_group hgroup).trans (Nat.succ_le_succ (ih (List.cons_ne_nil _ _)))

/-- The groups of a number are one of its forms. -/
theorem isForm_groups (value : Nat) : IsForm (groups value) ∧ denoted (groups value) = value := by
  induction value using Nat.strongRecOn with
  | ind value ih =>
    rw [groups]
    by_cases hlast : value / 128 = 0
    · have hbyte : (UInt8.ofNat (value % 128)).toNat = value % 128 :=
        toNat_ofNat_byte (by omega)
      rw [if_pos hlast]
      refine ⟨isForm_singleton (by omega), ?_⟩
      rw [denoted_singleton, hbyte]
      omega
    · have hbyte : (UInt8.ofNat (value % 128 + 128)).toNat = value % 128 + 128 :=
        toNat_ofNat_byte (by omega)
      obtain ⟨hform, hdenoted⟩ := ih (value / 128) (by omega)
      rw [if_neg hlast]
      refine ⟨hform.cons (by omega), ?_⟩
      rw [denoted, hdenoted, hbyte]
      omega

/-- A number of the width takes no more groups than the width has room for. -/
theorem size_le_maxGroups (hwidth : 0 < width) (h : value < 2 ^ width) :
    size value ≤ maxGroups width := by
  have hbits : bitLength value ≤ width := by
    by_cases hzero : value = 0
    · rw [bitLength, if_pos hzero]
      exact Nat.zero_le width
    · rw [bitLength, if_neg hzero]
      exact (Nat.log2_lt hzero).mpr h
  unfold size maxGroups
  omega

/-! ### The reader -/

/-- The bits of a group above the width are clear exactly when the sum is a number of the width. -/
theorem bits_above_iff {group : Nat} (hshift : shift < width) (hvalue : value < 2 ^ shift)
    (hgroup : group < 128) :
    (width - shift < 7 ∧ group / 2 ^ (width - shift) ≠ 0) ↔
      2 ^ width ≤ value + group * 2 ^ shift := by
  have hpow : 2 ^ width = 2 ^ (width - shift) * 2 ^ shift := by
    rw [← Nat.pow_add, Nat.sub_add_cancel (Nat.le_of_lt hshift)]
  have hsum : 2 ^ width ≤ value + group * 2 ^ shift ↔ 2 ^ (width - shift) ≤ group := by
    rw [hpow]
    constructor
    · intro h
      by_contra hless
      have hmul : (group + 1) * 2 ^ shift ≤ 2 ^ (width - shift) * 2 ^ shift :=
        Nat.mul_le_mul_right _ (by omega)
      rw [Nat.succ_mul] at hmul
      omega
    · intro h
      exact (Nat.mul_le_mul_right _ h).trans (Nat.le_add_left _ _)
  have hdiv : group / 2 ^ (width - shift) ≠ 0 ↔ 2 ^ (width - shift) ≤ group := by
    rw [Nat.div_ne_zero_iff]
    exact and_iff_right (Nat.two_pow_pos _).ne'
  rw [hsum, hdiv]
  refine and_iff_right_of_imp fun h ↦ ?_
  exact (Nat.pow_lt_pow_iff_right (a := 2) (by decide)).mp (Nat.lt_of_le_of_lt h hgroup)

/-- With a group on top of it, a sum of lower groups takes seven bits more. -/
theorem sum_lt (hvalue : value < 2 ^ shift) (byte : UInt8) :
    value + byte.toNat % 128 * 2 ^ shift < 2 ^ (shift + 7) := by
  have hgroup : byte.toNat % 128 * 2 ^ shift ≤ 127 * 2 ^ shift :=
    Nat.mul_le_mul_right _ (by omega)
  rw [Nat.pow_add]
  omega

/-- One turn of the reader: it takes a byte, and stops at once when the sum is no number of the
width. The check of the whole at the end adds nothing to that. -/
theorem readFrom_of_getByte {rest : Source} (hshift : shift < width) (hvalue : value < 2 ^ shift)
    (hget : Source.getByte source = .ok byte rest) :
    readFrom width shift value source =
      (if value + byte.toNat % 128 * 2 ^ shift < 2 ^ width then
        if byte.toNat < 128 then pure (value + byte.toNat % 128 * 2 ^ shift)
        else readFrom width (shift + 7) (value + byte.toNat % 128 * 2 ^ shift)
      else overflow) rest := by
  have hgroup : byte.toNat % 128 < 128 := Nat.mod_lt _ (by decide)
  rw [readFrom, if_neg (Nat.not_le.mpr hshift), bind_of_ok (Source.atLeast_of_getByte hget),
    bind_of_ok hget]
  simp only [Nat.shiftRight_eq_div_pow, Nat.shiftLeft_eq, Nat.one_mul,
    bits_above_iff hshift hvalue hgroup]
  by_cases hfits : value + byte.toNat % 128 * 2 ^ shift < 2 ^ width
  · simp only [if_neg (Nat.not_le.mpr hfits), if_pos hfits]
  · simp only [if_pos (Nat.not_lt.mp hfits), if_neg hfits]

/-- Behind as many groups as the width has room for, the reader takes no further byte. -/
theorem readFrom_of_le (h : width ≤ shift) : readFrom width shift value = overflow := by
  rw [readFrom, if_pos h]

theorem readFrom_of_nil (hshift : shift < width) (hbytes : source.bytes = []) :
    readFrom width shift value source = .error (.error { kind := .endOfBuffer 1 0 }) source := by
  rw [readFrom, if_neg (Nat.not_le.mpr hshift), bind_of_error (Source.atLeast_of_nil hbytes)]

/-- The turns through bytes with the high bit set, none of them the last that the width has room
for: their groups are added up, and nothing is refused. -/
theorem readFrom_of_front (hmore : ∀ byte ∈ front, 128 ≤ byte.toNat)
    (hroom : shift + 7 * front.length < width) (hvalue : value < 2 ^ shift)
    (hbytes : source.bytes = front ++ back) :
    ∃ rest, rest.bytes = back ∧ readFrom width shift value source =
      readFrom width (shift + 7 * front.length) (value + denoted front * 2 ^ shift) rest := by
  induction front generalizing shift value source with
  | nil => exact ⟨source, hbytes, by simp [denoted]⟩
  | cons byte front ih =>
    obtain ⟨hbyte, hothers⟩ := List.forall_mem_cons.mp hmore
    rw [List.length_cons] at hroom ⊢
    have hsum := sum_lt hvalue byte
    -- Behind a group that is not the last there is room for seven bits more.
    have hfits : value + byte.toNat % 128 * 2 ^ shift < 2 ^ width :=
      hsum.trans_le (Nat.pow_le_pow_right (by decide) (by omega))
    have hshift : shift < width := by omega
    obtain ⟨middle, hget, hmiddle⟩ := Source.getByte_of_cons hbytes
    have hturn := readFrom_of_getByte hshift hvalue hget
    rw [if_pos hfits, if_neg (Nat.not_lt.mpr hbyte)] at hturn
    obtain ⟨rest, hrest, hturns⟩ := ih hothers (by omega) hsum hmiddle
    refine ⟨rest, hrest, hturn.trans (hturns.trans ?_)⟩
    congr 1
    · omega
    · rw [denoted, Nat.pow_add]
      ring

theorem read_of_front (hmore : ∀ byte ∈ front, 128 ≤ byte.toNat)
    (hroom : front.length < maxGroups width) (hbytes : source.bytes = front ++ back) :
    7 * front.length < width ∧ ∃ rest, rest.bytes = back ∧
      read width source = readFrom width (7 * front.length) (denoted front) rest := by
  have hbits : 7 * front.length < width := by
    unfold maxGroups at hroom
    omega
  have hturns : ∃ rest, rest.bytes = back ∧ readFrom width 0 0 source =
      readFrom width (0 + 7 * front.length) (0 + denoted front * 2 ^ 0) rest :=
    readFrom_of_front hmore (by omega) Nat.one_pos hbytes
  exact ⟨hbits, by simpa [read] using hturns⟩

/-- A form that the width has room for is taken whole, and yields what it denotes if that is a
number of the width. -/
theorem read_of_form (hform : IsForm form) (hlength : form.length ≤ maxGroups width)
    (hbytes : source.bytes = form ++ tail) :
    ∃ rest, rest.bytes = tail ∧ read width source =
      (if denoted form < 2 ^ width then pure (denoted form) else overflow) rest := by
  obtain ⟨front, last, rfl, hmore, hlast⟩ := hform
  rw [List.length_append, List.length_singleton] at hlength
  rw [List.append_assoc] at hbytes
  obtain ⟨hbits, middle, hmiddle, hfront⟩ := read_of_front hmore hlength hbytes
  obtain ⟨rest, hget, hrest⟩ := Source.getByte_of_cons hmiddle
  have hturn := readFrom_of_getByte hbits (denoted_lt front) hget
  rw [if_pos hlast] at hturn
  rw [denoted_append, denoted_singleton]
  exact ⟨rest, hrest, hfront.trans hturn⟩

/-- Bytes that end before a form does are all taken, and one more is asked for. -/
theorem read_of_unfinished (h : Unfinished width source.bytes) :
    ∃ rest, rest.bytes = [] ∧
      read width source = .error (.error { kind := .endOfBuffer 1 0 }) rest := by
  obtain ⟨hlength, hmore⟩ := h
  obtain ⟨hbits, rest, hrest, hfront⟩ := read_of_front hmore hlength (List.append_nil _).symm
  exact ⟨rest, hrest, hfront.trans (readFrom_of_nil hbits hrest)⟩

/-- As many bytes with the high bit set as the width has room for are taken and refused, by the bits
of the last of them or behind it. -/
theorem read_of_long (hlength : front.length = maxGroups width)
    (hmore : ∀ byte ∈ front, 128 ≤ byte.toNat) (hbytes : source.bytes = front ++ back) :
    ∃ rest, rest.bytes = back ∧ read width source = overflow rest := by
  rcases List.eq_nil_or_concat' front with rfl | ⟨init, last, rfl⟩
  · have hwidth : width ≤ 0 := by
      unfold maxGroups at hlength
      rw [List.length_nil] at hlength
      omega
    exact ⟨source, hbytes, congrFun (readFrom_of_le hwidth) source⟩
  · obtain ⟨hinit, hlast⟩ := List.forall_mem_append.mp hmore
    rw [List.length_append, List.length_singleton] at hlength
    rw [List.append_assoc] at hbytes
    have hroom : init.length < maxGroups width := by omega
    obtain ⟨hbits, middle, hmiddle, hfront⟩ := read_of_front hinit hroom hbytes
    obtain ⟨rest, hget, hrest⟩ := Source.getByte_of_cons hmiddle
    have hend : width ≤ 7 * init.length + 7 := by
      unfold maxGroups at hlength
      omega
    have hbyte : ¬ last.toNat < 128 := Nat.not_lt.mpr (hlast last (List.mem_singleton.mpr rfl))
    have hturn := readFrom_of_getByte hbits (denoted_lt init) hget
    rw [if_neg hbyte, readFrom_of_le hend, ite_self] at hturn
    exact ⟨rest, hrest, hfront.trans hturn⟩

/-- A number is read, or bytes are missing, or as many bytes as the width has room for are taken and
refused. -/
theorem read_cases (width : Nat) (source : Source) :
    ∃ rest, (∃ value, Spells width source.bytes value rest.bytes ∧
        read width source = .ok value rest) ∨
      (Unfinished width source.bytes ∧ rest.bytes = [] ∧
        read width source = .error (.error { kind := .endOfBuffer 1 0 }) rest) ∨
      (maxGroups width ≤ source.bytes.length ∧
        rest.bytes = source.bytes.drop (maxGroups width) ∧ read width source = overflow rest) := by
  rcases form_or_unfinished_or_long (maxGroups width) source.bytes with
    ⟨form, tail, hform, hlength, hbytes⟩ | hends | ⟨front, back, hbytes, hlength, hmore⟩
  · obtain ⟨rest, rfl, hread⟩ := read_of_form hform hlength hbytes
    refine ⟨rest, ?_⟩
    by_cases hfits : denoted form < 2 ^ width
    · rw [if_pos hfits] at hread
      exact Or.inl ⟨denoted form, ⟨form, hform, hlength, hbytes, rfl, hfits⟩, hread⟩
    · rw [if_neg hfits] at hread
      -- A form of a number that is too large is as long as the width allows.
      have hwhole := length_eq_maxGroups hlength (Nat.not_lt.mp hfits)
      rw [hbytes, ← hwhole, List.drop_left, List.length_append]
      exact Or.inr (Or.inr ⟨Nat.le_add_right _ _, rfl, hread⟩)
  · obtain ⟨rest, hrest, hread⟩ := read_of_unfinished hends
    exact ⟨rest, Or.inr (Or.inl ⟨hends, hrest, hread⟩)⟩
  · obtain ⟨rest, rfl, hread⟩ := read_of_long hlength hmore hbytes
    rw [hbytes, ← hlength, List.drop_left, List.length_append]
    exact ⟨rest, Or.inr (Or.inr ⟨Nat.le_add_right _ _, rfl, hread⟩)⟩

/-- A number is read exactly where the bytes start with a form of it. -/
theorem read_iff_spells :
    (∃ rest, read width source = .ok value rest ∧ rest.bytes = tail) ↔
      Spells width source.bytes value tail := by
  constructor
  · rintro ⟨rest, hread, rfl⟩
    obtain ⟨last, ⟨found, hspells, hresult⟩ | ⟨-, -, hresult⟩ | ⟨-, -, hresult⟩⟩ :=
      read_cases width source
    all_goals
      rw [hread] at hresult
      cases hresult
    exact hspells
  · rintro ⟨form, hform, hlength, hbytes, rfl, hfits⟩
    obtain ⟨rest, hrest, hresult⟩ := read_of_form hform hlength hbytes
    rw [if_pos hfits, pure_apply] at hresult
    exact ⟨rest, hresult, hrest⟩

/-- What neither spells a number of the width nor ends too early is refused. -/
theorem read_eq_overflow (hspells : ∀ value tail, ¬ Spells width source.bytes value tail)
    (hunfinished : ¬ Unfinished width source.bytes) :
    maxGroups width ≤ source.bytes.length ∧ ∃ rest,
      rest.bytes = source.bytes.drop (maxGroups width) ∧ read width source = overflow rest := by
  obtain ⟨rest, ⟨value, hfound, -⟩ | ⟨hends, -⟩ | ⟨hlength, hrest, hread⟩⟩ :=
    read_cases width source
  · exact absurd hfound (hspells value rest.bytes)
  · exact absurd hends hunfinished
  · exact ⟨hlength, rest, hrest, hread⟩

theorem not_unfinished_of_form (hform : IsForm form) (hbytes : bytes = form ++ tail) :
    ¬ Unfinished width bytes := by
  rintro ⟨-, hmore⟩
  obtain ⟨front, last, rfl, -, hlast⟩ := hform
  have hbyte := hmore last (by simp [hbytes])
  omega

theorem not_spells_of_form (hform : IsForm form) (hbytes : bytes = form ++ tail)
    (hlarge : 2 ^ width ≤ denoted form) (value : Nat) (rest : List UInt8) :
    ¬ Spells width bytes value rest := by
  rintro ⟨other, hother, -, hrest, rfl, hfits⟩
  obtain ⟨rfl, -⟩ := hform.append_inj hother (hbytes.symm.trans hrest)
  exact Nat.not_lt.mpr hlarge hfits

/-- A number below `2 ^ width` is read back from its groups. -/
theorem read_groups (hbytes : source.bytes = groups number ++ tail) (hwidth : 0 < width)
    (hfits : number < 2 ^ width) :
    ∃ last, read width source = .ok number last ∧ last.bytes = tail := by
  obtain ⟨hform, hdenoted⟩ := isForm_groups number
  have hlength : (groups number).length ≤ maxGroups width :=
    (length_groups number).trans_le (size_le_maxGroups hwidth hfits)
  exact read_iff_spells.mpr ⟨groups number, hform, hlength, hbytes, hdenoted, hfits⟩

theorem read_eq_ok {rest : Source} (h : read width source = .ok number rest) :
    number < 2 ^ width ∧ ∃ front, source.bytes = front ++ rest.bytes ∧
      (groups number).length ≤ front.length := by
  obtain ⟨form, ⟨front, last, rfl, -⟩, -, hbytes, rfl, hfits⟩ := read_iff_spells.mp ⟨rest, h, rfl⟩
  refine ⟨hfits, front ++ [last], hbytes, ?_⟩
  rw [length_groups]
  exact size_denoted_le (List.append_ne_nil_of_right_ne_nil _ (List.cons_ne_nil _ _))

/-! ### Main statement -/

/-- A number is written in as many bytes as its size says, or not at all where these have no room.
They are a form of it, and it has no shorter one. Behind them whatever may follow, a reader of any
width takes these bytes and no more and yields the number, if it is one of the width; otherwise it
refuses them, behind as many bytes as the width has room for. -/
theorem write_shortest_for_all_widths (value : Nat) :
    (∀ sink, write value sink =
      if size value ≤ sink.room then .ok (size value) (sink.extend (groups value))
      else .error (.error { kind := .endOfBuffer (size value) sink.room }) sink) ∧
    (groups value).length = size value ∧ IsForm (groups value) ∧ denoted (groups value) = value ∧
    (∀ form, IsForm form → denoted form = value → size value ≤ form.length) ∧
    ∀ width, 0 < width → ∀ (source : Source) (suffix : List UInt8),
      source.bytes = groups value ++ suffix →
      (value < 2 ^ width →
        ∃ rest, read width source = .ok value rest ∧ rest.bytes = suffix) ∧
      (2 ^ width ≤ value → ∃ rest,
        read width source = .error (.error { kind := .invalid "varint" "overflow" }) rest ∧
          rest.bytes = source.bytes.drop (maxGroups width)) := by
  obtain ⟨hform, hdenoted⟩ := isForm_groups value
  refine ⟨fun sink ↦ ?_, length_groups value, hform, hdenoted, ?_, ?_⟩
  · rw [write_eq_put, ← length_groups]
    split_ifs with hroom
    · exact Sink.put_eq_ok.mpr ⟨hroom, rfl, rfl⟩
    · exact Sink.put_of_lt (Nat.not_le.mp hroom)
  · rintro form ⟨front, last, rfl, -⟩ rfl
    exact size_denoted_le (List.append_ne_nil_of_right_ne_nil _ (List.cons_ne_nil _ _))
  · intro width hwidth source suffix hbytes
    refine ⟨read_groups hbytes hwidth, fun hlarge ↦ ?_⟩
    obtain ⟨-, rest, hrest, hread⟩ :=
      read_eq_overflow (not_spells_of_form hform hbytes (hdenoted.symm ▸ hlarge))
        (not_unfinished_of_form hform hbytes)
    exact ⟨rest, hread, hrest⟩

/-- Three hundred takes two bytes; read as a number of sixteen bits it leaves the byte behind it,
and eight bits are too few. -/
theorem write_shortest_for_all_widths_of_hundreds :
    let source := Source.ofBytes [0xAC, 0x02, 0x2A]
    write 300 (Sink.slice 2) = .ok 2 ⟨[0xAC, 0x02], 2⟩ ∧
      (∀ form, IsForm form → denoted form = 300 → 2 ≤ form.length) ∧
      (∃ rest, read 16 source = .ok 300 rest ∧ rest.bytes = [0x2A]) ∧
      ∃ rest, read 8 source =
        .error (.error { kind := .invalid "varint" "overflow" }) rest ∧ rest.bytes = [0x2A] := by
  intro source
  have hgroups : groups 300 = [0xAC, 0x02] := by
    rw [groups, groups]
    rfl
  obtain ⟨hwrite, -, -, -, hleast, hread⟩ := write_shortest_for_all_widths 300
  have hbytes : source.bytes = groups 300 ++ [0x2A] := by
    rw [hgroups]
    rfl
  refine ⟨?_, hleast, (hread 16 (by decide) source [0x2A] hbytes).1 (by decide),
    (hread 8 (by decide) source [0x2A] hbytes).2 (by decide)⟩
  have hslice := hwrite (Sink.slice 2)
  rw [hgroups] at hslice
  exact hslice

end WireFormat.Varint
