import Hypertree.Proofs.Bytes.Canonical
import Mathlib.Data.Nat.Digits.Lemmas

/-!
# The form of variable-length integers

Each byte contributes its seven low bits, the `group`, least significant group first; a byte of 128
or more is `Marked`: another group follows. A string is the form of a number if its last byte alone
is not marked, that byte is not zero unless it is the whole, and the groups are the digits of the
number in base 128 (`IsVarint`). This knows nothing of shifts and machine words, and the value is a
natural number in which no bit is lost.

The writer produces this form and no other string has it (`isVarint_iff`). Whatever begins with no
form of a number below `2 ^ 64` is unreadable for one of four reasons, and the reader fails with the
error for this reason (`varint_run_eq_error_iff`). So writer and reader agree on every string.

The marked bytes at the front of a string are passed all at once (`varintGroups_run_marked`). The
byte after them decides.
-/

namespace Hypertree

namespace Bytes

/-- Another group follows a byte. -/
def Marked (b : UInt8) : Prop :=
  128 ≤ b.toNat

instance (b : UInt8) : Decidable (Marked b) :=
  inferInstanceAs (Decidable (128 ≤ b.toNat))

/-- The seven bits that a byte contributes. -/
def group (b : UInt8) : Nat :=
  b.toNat % 128

/-- The number whose digits in base 128 are the groups of a string, least significant first. -/
def groupValue (bytes : Bytes) : Nat :=
  Nat.ofDigits 128 (bytes.map group)

/-- A string is the form of a 64-bit number. -/
structure IsVarint (bytes : Bytes) (n : Nat) : Prop where
  lt : n < 2 ^ 64
  value_eq : groupValue bytes = n
  shape : ∃ front last, bytes = front ++ [last] ∧ (∀ b ∈ front, Marked b) ∧ ¬ Marked last ∧
    (last = 0 → front = [])

/-! ### Values -/

theorem group_of_not_marked {b : UInt8} (h : ¬ Marked b) : group b = b.toNat :=
  Nat.mod_eq_of_lt (Nat.lt_of_not_le h)

theorem groupValue_cons (b : UInt8) (bytes : Bytes) :
    groupValue (b :: bytes) = b.toNat % 128 + 128 * groupValue bytes := by
  rw [groupValue, List.map_cons, Nat.ofDigits_cons]
  rfl

theorem groupValue_concat (front : Bytes) (last : UInt8) :
    groupValue (front ++ [last]) = groupValue front + 128 ^ front.length * group last := by
  rw [groupValue, List.map_append, Nat.ofDigits_append, List.length_map, List.map_singleton,
    Nat.ofDigits_singleton]
  rfl

theorem groupValue_lt (bytes : Bytes) : groupValue bytes < 128 ^ bytes.length := by
  have hlt : ∀ d ∈ bytes.map group, d < 128 := by
    intro d hd
    obtain ⟨b, -, rfl⟩ := List.mem_map.mp hd
    exact Nat.mod_lt _ (by decide)
  have h := Nat.ofDigits_lt_base_pow_length (by decide) hlt
  rwa [List.length_map] at h

/-- A last group that is not zero makes the value of the whole positive. -/
theorem groupValue_concat_pos (front : Bytes) {last : UInt8} (hlast : ¬ Marked last)
    (hzero : last ≠ 0) : 0 < groupValue (front ++ [last]) := by
  have hgroup : group last ≠ 0 := by
    rw [group_of_not_marked hlast]
    exact fun h => hzero (UInt8.toNat_inj.mp h)
  rw [groupValue_concat]
  have hpos := Nat.mul_pos (Nat.pow_pos (n := front.length) (show 0 < 128 by decide))
    (Nat.pos_of_ne_zero hgroup)
  omega

/-- Up to nine groups, and a tenth of one bit, are those of a 64-bit number. -/
theorem groupValue_concat_lt {front : Bytes} {last : UInt8} (hlen : front.length < 10)
    (htenth : front.length = 9 → group last ≤ 1) : groupValue (front ++ [last]) < 2 ^ 64 := by
  have hfront := groupValue_lt front
  rw [groupValue_concat]
  by_cases hnine : front.length = 9
  · have hone := htenth hnine
    rw [hnine] at hfront ⊢
    omega
  · have hlast : group last < 128 := Nat.mod_lt _ (by decide)
    have hpow : 128 ^ front.length ≤ 128 ^ 8 := Nat.pow_le_pow_right (by decide) (by omega)
    have hmul : 128 ^ front.length * group last ≤ 128 ^ 8 * 127 :=
      Nat.mul_le_mul hpow (by omega)
    omega

/-! ### The writer -/

/-- **What is written has the form of the number.** -/
theorem isVarint_varint (v : UInt64) : IsVarint (varint v) v.toNat := by
  fun_induction varint v with
  -- one group, which is the number itself
  | case1 v hsmall =>
    have hnat : v.toNat < 128 := by simpa [UInt64.lt_iff_toNat_lt] using hsmall
    have hbyte : v.toUInt8.toNat = v.toNat := by
      rw [UInt64.toNat_toUInt8]
      omega
    refine ⟨v.toNat_lt, ?_, [], v.toUInt8, rfl, List.forall_mem_nil _, ?_, fun _ => rfl⟩
    · rw [groupValue_cons, hbyte]
      exact Nat.mod_eq_of_lt hnat
    · unfold Marked
      omega
  -- the low seven bits, and then the groups of the rest
  | case2 v hlarge ih =>
    have hnat : 128 ≤ v.toNat := by simpa [UInt64.lt_iff_toNat_lt] using hlarge
    obtain ⟨-, hvalue, front, last, hshape, hfront, hlast, hzero⟩ := ih
    rw [toNat_shiftRight_seven] at hvalue
    have hbyte : ((v.toUInt8 &&& 0x7f) ||| 0x80).toNat = v.toNat % 128 + 128 := by
      rw [Decoder.toNat_continued, UInt64.toNat_toUInt8]
      omega
    refine ⟨v.toNat_lt, ?_, _ :: front, last, by rw [hshape, List.cons_append],
      List.forall_mem_cons.mpr ⟨?_, hfront⟩, hlast, ?_⟩
    · rw [groupValue_cons, hbyte, hvalue]
      omega
    · unfold Marked
      omega
    · -- a zero after the first group would be what is left of a number of one group
      intro h
      rw [hshape, hzero h, h] at hvalue
      have hdiv : 0 = v.toNat / 128 := hvalue
      omega

/-- Bytes of the right shape are what is written for their value. -/
theorem exists_varint_eq {last : UInt8} (hlast : ¬ Marked last) {front : Bytes}
    (hfront : ∀ b ∈ front, Marked b) (hzero : last = 0 → front = [])
    (hlt : groupValue (front ++ [last]) < 2 ^ 64) :
    ∃ v : UInt64, varint v = front ++ [last] ∧ v.toNat = groupValue (front ++ [last]) := by
  induction front with
  -- a single group is a number below 128
  | nil =>
    refine ⟨last.toUInt64, Decoder.varint_toUInt64 (Nat.lt_of_not_le hlast), ?_⟩
    rw [List.nil_append, groupValue_cons, UInt8.toNat_toUInt64]
    exact (group_of_not_marked hlast).symm
  | cons b front ih =>
    -- the last of several groups is not zero, so the number after the first group is positive
    have hne : last ≠ 0 := fun h => List.cons_ne_nil _ _ (hzero h)
    rw [List.forall_mem_cons] at hfront
    rw [List.cons_append, groupValue_cons] at hlt ⊢
    obtain ⟨v, hvarint, hv⟩ := ih hfront.2 (fun h => absurd h hne) (by omega)
    have hpos := groupValue_concat_pos front hlast hne
    rw [← hv] at hlt hpos ⊢
    have hv0 : v ≠ 0 := by
      rintro rfl
      exact Nat.lt_irrefl 0 hpos
    obtain ⟨u, hu, hvalue, -⟩ := Decoder.exists_varint_cons hfront.1 hv0 hlt
    exact ⟨u, hu.trans (congrArg _ hvarint), hvalue⟩

/-- **A number has one form**, the one that is written. -/
theorem isVarint_iff {bytes : Bytes} {n : Nat} :
    IsVarint bytes n ↔ n < 2 ^ 64 ∧ bytes = varint (UInt64.ofNat n) := by
  constructor
  · rintro ⟨hlt, rfl, front, last, rfl, hfront, hlast, hzero⟩
    obtain ⟨v, hvarint, hv⟩ := exists_varint_eq hlast hfront hzero hlt
    refine ⟨hlt, ?_⟩
    rw [← hv, UInt64.ofNat_toNat, hvarint]
  · rintro ⟨hlt, rfl⟩
    have h := isVarint_varint (UInt64.ofNat n)
    rwa [UInt64.toNat_ofNat_of_lt' hlt] at h

end Bytes

namespace Decoder

open Bytes

variable {field : Field} {front input rest : Bytes} {b : UInt8} {e : Error}

/-- Why a string does not begin with a variable-length integer, and the error that says so. -/
inductive UnreadableVarint (field : Field) : Bytes → Error → Prop
  /-- The string ends where another group should follow. -/
  | truncated {input : Bytes} : input.length < 10 → (∀ b ∈ input, Marked b) →
      UnreadableVarint field input (.truncated field)
  /-- The tenth group has more than the one bit for which there is room. -/
  | overflow {front rest : Bytes} {b : UInt8} : front.length = 9 → (∀ b ∈ front, Marked b) →
      1 < group b → UnreadableVarint field (front ++ b :: rest) (.encoding .varintOverflow)
  /-- Another group should follow the tenth. -/
  | tooLong {front rest : Bytes} {b : UInt8} : front.length = 9 → (∀ b ∈ front, Marked b) →
      group b ≤ 1 → Marked b → UnreadableVarint field (front ++ b :: rest) (.encoding .varintTooLong)
  /-- The last group is zero and could be left out. -/
  | notMinimal {front rest : Bytes} : front.length < 10 → (∀ b ∈ front, Marked b) → front ≠ [] →
      UnreadableVarint field (front ++ 0 :: rest) (.encoding .varintNotMinimal)

/-! ### The reader -/

/-- The top bit of a byte is its mark. -/
theorem high_ne_zero_of_marked (h : Marked b) : b &&& 0x80 ≠ 0 := fun hzero =>
  Nat.not_lt_of_le h ((high_eq_zero_iff b).mp hzero)

/-- The seven low bits of a byte are its group. -/
theorem one_lt_low_iff : 1 < (b &&& 0x7f).toUInt64 ↔ 1 < group b := by
  rw [UInt64.lt_iff_toNat_lt, UInt8.toNat_toUInt64, toNat_low]
  rfl

/-- An error among the groups is one of the whole. -/
theorem varint_run_error (h : (varintGroups field 10 0 0).run input = .error e) :
    (varint field).run input = .error e := by
  rw [varint, StateT.run_bind, h]
  rfl

/-- Marked bytes before the tenth are passed. -/
theorem varintGroups_run_marked (field : Field) (rest : Bytes)
    (hfront : ∀ b ∈ front, Marked b) (left : Nat) :
    ∀ shift value : UInt64, shift.toNat + 7 * (front.length + (left + 1)) = 70 →
      ∃ shift' value', shift'.toNat = shift.toNat + 7 * front.length ∧
        (varintGroups field (front.length + (left + 1)) shift value).run (front ++ rest)
          = (varintGroups field (left + 1) shift' value').run rest := by
  induction front with
  | nil =>
    intro shift value _
    refine ⟨shift, value, rfl, ?_⟩
    rw [List.length_nil, Nat.zero_add, List.nil_append]
  | cons b front ih =>
    intro shift value hshift
    rw [List.forall_mem_cons] at hfront
    rw [List.length_cons] at hshift ⊢
    -- the shift is still below 63: this is not the last of the ten groups
    have hover : ¬ (shift = 63 ∧ 1 < (b &&& 0x7f).toUInt64) := by
      rintro ⟨rfl, -⟩
      have h63 : (63 : UInt64).toNat = 63 := rfl
      omega
    have hshift7 := toNat_shift_add_seven (show shift.toNat ≤ 56 by omega)
    obtain ⟨shift', value', hshift', hrun⟩ := ih hfront.2 (shift + 7)
      (value ||| (b &&& 0x7f).toUInt64 <<< shift) (by omega)
    refine ⟨shift', value', by omega, ?_⟩
    rw [Nat.succ_add, List.cons_append, varintGroups_next field _ _ hover
      (high_ne_zero_of_marked hfront.1)]
    exact hrun

/-- What is left to read after marked bytes at the front. -/
theorem exists_varintGroups_run (field : Field) (rest : Bytes) (hlen : front.length < 10)
    (hfront : ∀ b ∈ front, Marked b) :
    ∃ (left : Nat) (shift value : UInt64), front.length + left = 9 ∧
      shift.toNat = 7 * front.length ∧
      (varintGroups field 10 0 0).run (front ++ rest)
        = (varintGroups field (left + 1) shift value).run rest := by
  obtain ⟨left, hleft⟩ := Nat.exists_eq_add_of_le (Nat.le_of_lt_succ hlen)
  have hten : front.length + (left + 1) = 10 := by omega
  obtain ⟨shift, value, hshift, hrun⟩ := varintGroups_run_marked field rest hfront left 0 0
    (by rw [hten]; rfl)
  rw [hten] at hrun
  exact ⟨left, shift, value, hleft.symm, by simpa using hshift, hrun⟩

/-- A group without room. -/
theorem varintGroups_run_overflow (left : Nat) {shift : UInt64} (value : UInt64) (rest : Bytes)
    (hshift : shift.toNat = 63) (hb : 1 < group b) :
    (varintGroups field (left + 1) shift value).run (b :: rest)
      = .error (.encoding .varintOverflow) := by
  have hover : shift = 63 ∧ 1 < (b &&& 0x7f).toUInt64 :=
    ⟨UInt64.toNat_inj.mp hshift, one_lt_low_iff.mpr hb⟩
  rw [varintGroups, StateT.run_bind]
  show (if shift = 63 ∧ 1 < (b &&& 0x7f).toUInt64 then _ else _ : Decoder UInt64).run rest = _
  rw [if_pos hover]
  rfl

/-- A last group that is zero. -/
theorem varintGroups_run_zero (left : Nat) {shift : UInt64} (value : UInt64) (rest : Bytes)
    (hshift : shift ≠ 0) :
    (varintGroups field (left + 1) shift value).run (0 :: rest)
      = .error (.encoding .varintNotMinimal) := by
  have hover : ¬ (shift = 63 ∧ 1 < ((0 : UInt8) &&& 0x7f).toUInt64) := fun h =>
    absurd h.2 (by decide)
  have hlast : (0 : UInt8) &&& 0x80 = 0 := by decide
  rw [varintGroups, StateT.run_bind]
  show (if shift = 63 ∧ 1 < ((0 : UInt8) &&& 0x7f).toUInt64 then _
    else _ : Decoder UInt64).run rest = _
  rw [if_neg hover, if_pos hlast, if_pos ⟨rfl, hshift⟩]
  rfl

/-- **The reader names the reason.** -/
theorem UnreadableVarint.run_eq (h : UnreadableVarint field input e) :
    (varint field).run input = .error e := by
  -- past the groups that go on, the reader stands at the group that is at fault
  apply varint_run_error
  cases h with
  | truncated hlen hmarked =>
    obtain ⟨left, shift, value, -, -, hrun⟩ := exists_varintGroups_run field [] hlen hmarked
    rw [List.append_nil] at hrun
    exact hrun
  | overflow hlen hmarked hb =>
    obtain ⟨left, shift, value, -, hshift, hrun⟩ :=
      exists_varintGroups_run field _ (by omega) hmarked
    rw [hrun]
    exact varintGroups_run_overflow left value _ (by omega) hb
  | @tooLong front rest b hlen hmarked hb hlast =>
    obtain ⟨left, shift, value, hleft, -, hrun⟩ :=
      exists_varintGroups_run field (b :: rest) (by omega) hmarked
    obtain rfl : left = 0 := by omega
    have hover : ¬ (shift = 63 ∧ 1 < (b &&& 0x7f).toUInt64) := fun h =>
      Nat.not_lt_of_le hb (one_lt_low_iff.mp h.2)
    rw [hrun, varintGroups_next field 0 rest hover (high_ne_zero_of_marked hlast)]
    rfl
  | notMinimal hlen hmarked hne =>
    obtain ⟨left, shift, value, -, hshift, hrun⟩ := exists_varintGroups_run field _ hlen hmarked
    have hpos := List.length_pos_iff.mpr hne
    rw [hrun]
    apply varintGroups_run_zero
    -- a zero shift would mean that no group came before
    rintro rfl
    have hzero : (0 : UInt64).toNat = 0 := rfl
    omega

/-! ### Every string -/

/-- A string of marked bytes, or the first byte that is not. -/
theorem exists_not_marked (input : Bytes) :
    (∀ b ∈ input, Marked b) ∨
      ∃ front b rest, input = front ++ b :: rest ∧ (∀ b ∈ front, Marked b) ∧ ¬ Marked b := by
  induction input with
  | nil => exact .inl (List.forall_mem_nil _)
  | cons b input ih =>
    by_cases hb : Marked b
    · obtain h | ⟨front, b', rest, rfl, hfront, hb'⟩ := ih
      · exact .inl (List.forall_mem_cons.mpr ⟨hb, h⟩)
      · exact .inr ⟨b :: front, b', rest, rfl, List.forall_mem_cons.mpr ⟨hb, hfront⟩, hb'⟩
    · exact .inr ⟨[], b, input, rfl, List.forall_mem_nil _, hb⟩

/-- Ten marked bytes are too many. -/
theorem exists_unreadable_of_ten_le (field : Field) (rest : Bytes)
    (hmarked : ∀ b ∈ front, Marked b) (hlen : 10 ≤ front.length) :
    ∃ e, UnreadableVarint field (front ++ rest) e := by
  have hnine : 9 < front.length := hlen
  have hsplit : front ++ rest = front.take 9 ++ front[9] :: (front.drop 10 ++ rest) := by
    rw [← List.cons_append, ← List.drop_eq_getElem_cons hnine, ← List.append_assoc,
      List.take_append_drop]
  have htake : (front.take 9).length = 9 := by
    rw [List.length_take]
    omega
  have hfront : ∀ b ∈ front.take 9, Marked b := fun b hb => hmarked b (List.mem_of_mem_take hb)
  rw [hsplit]
  -- the tenth group overflows, or it goes on although it is the last one
  by_cases hgroup : 1 < group front[9]
  · exact ⟨_, .overflow htake hfront hgroup⟩
  · exact ⟨_, .tooLong htake hfront (Nat.le_of_not_lt hgroup) (hmarked _ (List.getElem_mem _))⟩

/-- **Every string begins with a variable-length integer or is unreadable.** -/
theorem exists_isVarint_or_unreadable (field : Field) (input : Bytes) :
    (∃ bytes rest n, input = bytes ++ rest ∧ IsVarint bytes n) ∨
      ∃ e, UnreadableVarint field input e := by
  obtain hmarked | ⟨front, b, rest, rfl, hfront, hb⟩ := exists_not_marked input
  · right
    by_cases hlen : input.length < 10
    · exact ⟨_, .truncated hlen hmarked⟩
    · obtain ⟨e, h⟩ := exists_unreadable_of_ten_le field [] hmarked (Nat.le_of_not_lt hlen)
      rw [List.append_nil] at h
      exact ⟨e, h⟩
  · by_cases hlen : front.length < 10
    · -- the first byte that is not marked is the last one of the number, if there is one
      by_cases hover : front.length = 9 ∧ 1 < group b
      · exact .inr ⟨_, .overflow hover.1 hfront hover.2⟩
      · by_cases hzero : b = 0 ∧ front ≠ []
        · obtain ⟨rfl, hne⟩ := hzero
          exact .inr ⟨_, .notMinimal hlen hfront hne⟩
        · have hlt := groupValue_concat_lt hlen fun hnine =>
            Nat.le_of_not_lt fun hone => hover ⟨hnine, hone⟩
          refine .inl ⟨front ++ [b], rest, groupValue (front ++ [b]), by simp, hlt, rfl, front, b,
            rfl, hfront, hb, ?_⟩
          exact fun h => not_not.mp fun hne => hzero ⟨h, hne⟩
    · exact .inr (exists_unreadable_of_ten_le field (b :: rest) hfront (Nat.le_of_not_lt hlen))

/-- **When the reader succeeds**: the string begins with the form of the number, and what is after
it is left. -/
theorem varint_run_eq_ok_iff_isVarint {n : Nat} : (varint field).run input = .ok (n, rest) ↔
    ∃ bytes, input = bytes ++ rest ∧ IsVarint bytes n := by
  rw [varint_run_eq_ok_iff]
  constructor
  · rintro ⟨hn, rfl⟩
    exact ⟨_, rfl, isVarint_iff.mpr ⟨hn, rfl⟩⟩
  · rintro ⟨bytes, rfl, h⟩
    obtain ⟨hn, rfl⟩ := isVarint_iff.mp h
    exact ⟨hn, rfl⟩

/-- **When the reader fails**, and with which error. -/
theorem varint_run_eq_error_iff :
    (varint field).run input = .error e ↔ UnreadableVarint field input e := by
  refine ⟨fun herror => ?_, fun h => h.run_eq⟩
  obtain ⟨bytes, rest, n, hinput, h⟩ | ⟨e', h⟩ := exists_isVarint_or_unreadable field input
  · rw [varint_run_eq_ok_iff_isVarint.mpr ⟨bytes, hinput, h⟩] at herror
    cases herror
  · rw [h.run_eq] at herror
    obtain rfl := Except.error.inj herror
    exact h

/-- No form of a number begins that of another. -/
theorem varint_isPrefix_iff {v w : UInt64} : Bytes.varint v <+: Bytes.varint w ↔ v = w := by
  constructor
  · rintro ⟨tail, h⟩
    have hv : Bytes.varint (UInt64.ofNat v.toNat) ++ tail
        = Bytes.varint (UInt64.ofNat w.toNat) ++ [] := by
      rw [UInt64.ofNat_toNat, UInt64.ofNat_toNat, h, List.append_nil]
    exact UInt64.toNat_inj.mp (prefixFreeOn_varint v.toNat_lt w.toNat_lt hv).1
  · rintro rfl
    exact List.prefix_rfl

/-- **Variable-length integers are canonical and free of prefixes.** What is written for a number is
read back, up to exactly its end, and has the length foretold for it, at most ten bytes. The reader
succeeds on the form of a number below `2 ^ 64` and on nothing else, and the bytes that it takes are
those that are written for its result: the groups of the number in base 128, without a loss. Where
it fails, the string is too short, has more than 64 bits or ten bytes, or ends in a zero group. No
form begins another. -/
theorem varint_canonical (field : Field) :
    (∀ (v : UInt64) (rest : Bytes),
      (varint field).run (Bytes.varint v ++ rest) = .ok (v.toNat, rest)) ∧
    (∀ v : UInt64, (Bytes.varint v).length = Bytes.varintLength v ∧
      Bytes.varintLength v ≤ 10) ∧
    (∀ (input rest : Bytes) (n : Nat), (varint field).run input = .ok (n, rest) ↔
      ∃ bytes, input = bytes ++ rest ∧ IsVarint bytes n ∧
        bytes = Bytes.varint (UInt64.ofNat n)) ∧
    (∀ (input : Bytes) (e : Error),
      (varint field).run input = .error e ↔ UnreadableVarint field input e) ∧
    ∀ v w : UInt64, Bytes.varint v <+: Bytes.varint w ↔ v = w := by
  refine ⟨?_, ?_, ?_, fun _ _ => varint_run_eq_error_iff, fun _ _ => varint_isPrefix_iff⟩
  · intro v rest
    exact varint_run_eq_ok_iff.mpr ⟨v.toNat_lt, by rw [UInt64.ofNat_toNat]⟩
  · intro v
    refine ⟨length_varint v, varintLength_le (by decide) v ?_⟩
    exact v.toNat_lt.trans (by decide)
  · intro input rest n
    rw [varint_run_eq_ok_iff_isVarint]
    constructor
    · rintro ⟨bytes, hinput, h⟩
      exact ⟨bytes, hinput, h, (isVarint_iff.mp h).2⟩
    · rintro ⟨bytes, hinput, h, -⟩
      exact ⟨bytes, hinput, h⟩

end Decoder

end Hypertree
