import Hypertree.Bytes.Decoder
import Hypertree.Proofs.Reads

/-!
# Decoders that read what writers write

What each decoder reads: strings, bytes, sequences of values and variable-length integers.

Variable-length integers need the value read so far in their induction: after groups of `shift` bits
it is below `2 ^ shift`, and the groups still to come add a multiple of `2 ^ shift`.
-/

namespace Hypertree

namespace Decoder

section

variable {α : Type}

theorem reads_take {len : Nat} {bytes : Bytes} (h : bytes.length = len) (field : Field) :
    Reads (take len field) bytes bytes := by
  intro rest
  subst h
  show (take bytes.length field) (bytes ++ rest) = _
  simp only [take, List.take_left, List.drop_left, if_true]

theorem reads_byte (b : UInt8) (field : Field) : Reads (byte field) [b] b :=
  fun _ => rfl

theorem reads_repeated {d : Decoder α} {encode : α → Bytes} {values : List α}
    (h : ∀ v ∈ values, Reads d (encode v) v) :
    Reads (repeated d values.length) (values.flatMap encode) values := by
  induction values with
  | nil => exact reads_pure []
  | cons v values ih =>
    rw [List.length_cons, repeated, List.flatMap_cons]
    exact (h v List.mem_cons_self).bind
      (ih fun w hw => h w (List.mem_cons_of_mem _ hw)).bind_pure

/-- A string that a decoder reads is decoded. -/
theorem decode_eq {d : Decoder α} {bytes : Bytes} {v : α} (h : Reads d bytes v) :
    d.decode bytes = .ok v := by
  unfold decode
  rw [h.run]

end

/-! ### Variable-length integers -/

theorem length_varint (value : UInt64) :
    (Bytes.varint value).length = Bytes.varintLength value := by
  fun_induction Bytes.varint value with
  | case1 value hsmall => rw [Bytes.varintLength, if_pos hsmall]; rfl
  | case2 value hlarge ih =>
    rw [Bytes.varintLength, if_neg hlarge, List.length_cons, ih]

/-- A number of at most `7 * k` bits has at most `k` groups. -/
theorem varintLength_le {k : Nat} (hk : 0 < k) (value : UInt64) (h : value.toNat < 2 ^ (7 * k)) :
    Bytes.varintLength value ≤ k := by
  induction k generalizing value with
  | zero => exact absurd hk (Nat.lt_irrefl 0)
  | succ k ih =>
    unfold Bytes.varintLength
    split_ifs with hsmall
    · omega
    · have hge : 128 ≤ value.toNat := by simpa [UInt64.lt_iff_toNat_lt] using hsmall
      have hpow : 2 ^ (7 * (k + 1)) = 128 * 2 ^ (7 * k) := by
        rw [Nat.mul_succ, pow_add, mul_comm]
        rfl
      -- one group holds less than 128, so there is room for another
      have hkpos : 0 < k := by
        by_contra hzero
        obtain rfl : k = 0 := by omega
        omega
      have hlt : (value >>> 7).toNat < 2 ^ (7 * k) := by
        rw [Bytes.toNat_shiftRight_seven]
        exact Nat.div_lt_of_lt_mul (hpow ▸ h)
      have hrest := ih hkpos (value >>> 7) hlt
      omega

/-- The value read so far and the next group, which lies above it. -/
theorem toNat_or_shiftLeft {value shift : UInt64} (bits : UInt64)
    (hvalue : value.toNat < 2 ^ shift.toNat)
    (hshift : shift.toNat < 64) (hbits : bits.toNat * 2 ^ shift.toNat < 2 ^ 64) :
    (value ||| bits <<< shift).toNat = value.toNat + bits.toNat * 2 ^ shift.toNat := by
  rw [UInt64.toNat_or, UInt64.toNat_shiftLeft, Nat.mod_eq_of_lt hshift, Nat.shiftLeft_eq,
    Nat.mod_eq_of_lt hbits, ← Nat.shiftLeft_eq, Nat.or_comm,
    ← Nat.shiftLeft_add_eq_or_of_lt hvalue, Nat.add_comm]

theorem toNat_low (b : UInt8) : (b &&& 0x7f).toNat = b.toNat % 128 := by
  rw [UInt8.toNat_and]
  exact Nat.and_two_pow_sub_one_eq_mod b.toNat 7

theorem high_eq_zero_iff (b : UInt8) : b &&& 0x80 = 0 ↔ b.toNat < 128 := by
  have hb := b.toNat_lt
  have hand : (b &&& 0x80).toNat = (b.toNat.testBit 7).toNat * 2 ^ 7 := by
    rw [UInt8.toNat_and]
    exact Nat.and_two_pow b.toNat 7
  rw [← UInt8.toNat_inj, hand, Nat.testBit_eq_decide_div_mod_eq]
  by_cases h : b.toNat < 128
  · have hbit : b.toNat / 128 % 2 = 0 := by omega
    simp [h, hbit]
  · have hbit : b.toNat / 128 % 2 = 1 := by omega
    simp [h, hbit]

theorem toNat_continued (b : UInt8) : ((b &&& 0x7f) ||| 0x80).toNat = b.toNat % 128 + 128 := by
  have hlt : b.toNat % 128 < 2 ^ 7 := Nat.mod_lt _ (by decide)
  rw [UInt8.toNat_or, toNat_low, Nat.or_comm]
  exact (Nat.shiftLeft_add_eq_or_of_lt (a := 1) hlt).symm.trans (Nat.add_comm _ _)

section

variable (field : Field) (left : Nat) {shift value : UInt64} {b : UInt8} (rest : Bytes)

/-- A group that is the last one. -/
theorem varintGroups_last (hover : ¬ (shift = 63 ∧ 1 < (b &&& 0x7f).toUInt64))
    (hlast : b &&& 0x80 = 0) (hmin : ¬ (b = 0 ∧ shift ≠ 0)) :
    (varintGroups field (left + 1) shift value).run (b :: rest)
      = .ok (value ||| (b &&& 0x7f).toUInt64 <<< shift, rest) := by
  rw [varintGroups, StateT.run_bind]
  show (if shift = 63 ∧ 1 < (b &&& 0x7f).toUInt64 then _ else _ : Decoder UInt64).run rest = _
  rw [if_neg hover, if_pos hlast, if_neg hmin]
  rfl

/-- A group after which others follow. -/
theorem varintGroups_next (hover : ¬ (shift = 63 ∧ 1 < (b &&& 0x7f).toUInt64))
    (hnext : b &&& 0x80 ≠ 0) :
    (varintGroups field (left + 1) shift value).run (b :: rest)
      = (varintGroups field left (shift + 7)
          (value ||| (b &&& 0x7f).toUInt64 <<< shift)).run rest := by
  rw [varintGroups, StateT.run_bind]
  show (if shift = 63 ∧ 1 < (b &&& 0x7f).toUInt64 then _ else _ : Decoder UInt64).run rest = _
  rw [if_neg hover, if_neg hnext]

end

/-- The tenth group has room for one bit. -/
theorem toNat_lt_two {shift v : UInt64} (hshift : shift = 63)
    (hv : v.toNat * 2 ^ shift.toNat < 2 ^ 64) : v.toNat < 2 := by
  have h63 : shift.toNat = 63 := by rw [hshift]; rfl
  rw [h63] at hv
  omega

section

variable (field : Field) (left : Nat) {shift value v : UInt64} (rest : Bytes)

/-- A number of one group is read after a value that lies below it. -/
theorem varintGroups_run_last (hsmall : v < 0x80) (hshift : shift.toNat < 64)
    (hvalue : value.toNat < 2 ^ shift.toNat) (hv : v.toNat * 2 ^ shift.toNat < 2 ^ 64)
    (hmin : v ≠ 0 ∨ shift = 0) :
    ∃ u, (varintGroups field (left + 1) shift value).run (Bytes.varint v ++ rest) = .ok (u, rest) ∧
      u.toNat = value.toNat + v.toNat * 2 ^ shift.toNat := by
  have hnat : v.toNat < 128 := by simpa [UInt64.lt_iff_toNat_lt] using hsmall
  have hbyte : v.toUInt8.toNat = v.toNat := by
    rw [UInt64.toNat_toUInt8]
    omega
  have hbits : (v.toUInt8 &&& 0x7f).toUInt64 = v := by
    rw [← UInt64.toNat_inj, UInt8.toNat_toUInt64, toNat_low, hbyte]
    omega
  have hlast : v.toUInt8 &&& 0x80 = 0 := by
    rw [high_eq_zero_iff, hbyte]
    exact hnat
  -- at shift 63 the number has one bit left
  have hover : ¬ (shift = 63 ∧ 1 < (v.toUInt8 &&& 0x7f).toUInt64) := by
    rw [hbits]
    rintro ⟨hs, hone⟩
    have htwo := toNat_lt_two hs hv
    have hone' : 1 < v.toNat := hone
    omega
  -- a zero group is the only one
  have hzero : ¬ (v.toUInt8 = 0 ∧ shift ≠ 0) := by
    rintro ⟨hz, hs⟩
    have hv0 : v = 0 := by
      rw [← UInt64.toNat_inj, ← hbyte, hz]
      rfl
    exact hmin.elim (fun h => h hv0) hs
  refine ⟨value ||| (v.toUInt8 &&& 0x7f).toUInt64 <<< shift, ?_, ?_⟩
  · unfold Bytes.varint
    rw [if_pos hsmall]
    exact varintGroups_last field left rest hover hlast hzero
  · rw [hbits]
    exact toNat_or_shiftLeft v hvalue hshift hv

/-- Of a longer number, the lowest group joins the value and the others are still to be read. -/
theorem varintGroups_run_next (hlarge : ¬ v < 0x80) (hshift : shift.toNat < 64)
    (hvalue : value.toNat < 2 ^ shift.toNat) (hv : v.toNat * 2 ^ shift.toNat < 2 ^ 64) :
    ∃ value' : UInt64, value'.toNat = value.toNat + v.toNat % 128 * 2 ^ shift.toNat ∧
      (varintGroups field (left + 1) shift value).run (Bytes.varint v ++ rest)
        = (varintGroups field left (shift + 7) value').run (Bytes.varint (v >>> 7) ++ rest) := by
  have hnat : 128 ≤ v.toNat := by simpa [UInt64.lt_iff_toNat_lt] using hlarge
  set b := (v.toUInt8 &&& 0x7f) ||| 0x80 with hb
  have hbnat : b.toNat = v.toNat % 128 + 128 := by
    rw [hb, toNat_continued, UInt64.toNat_toUInt8]
    omega
  have hbits : (b &&& 0x7f).toUInt64.toNat = v.toNat % 128 := by
    rw [UInt8.toNat_toUInt64, toNat_low, hbnat]
    omega
  have hnext : b &&& 0x80 ≠ 0 := by
    intro h
    have hlow := (high_eq_zero_iff b).mp h
    omega
  -- at shift 63 the number has one bit left, and no group would follow
  have hover : ¬ (shift = 63 ∧ 1 < (b &&& 0x7f).toUInt64) := by
    rintro ⟨hs, -⟩
    have htwo := toNat_lt_two hs hv
    omega
  have hlow : v.toNat % 128 * 2 ^ shift.toNat < 2 ^ 64 :=
    lt_of_le_of_lt (Nat.mul_le_mul_right _ (Nat.mod_le _ _)) hv
  rw [← hbits] at hlow ⊢
  refine ⟨value ||| (b &&& 0x7f).toUInt64 <<< shift, toNat_or_shiftLeft _ hvalue hshift hlow, ?_⟩
  rw [Bytes.varint, if_neg hlarge]
  exact varintGroups_next field left _ hover hnext

end

/-- The next shift, unless the groups are at their end. -/
theorem toNat_shift_add_seven {shift : UInt64} (h : shift.toNat ≤ 56) :
    (shift + 7).toNat = shift.toNat + 7 := by
  have hseven : (7 : UInt64).toNat = 7 := rfl
  rw [UInt64.toNat_add]
  exact Nat.mod_eq_of_lt (by omega)

theorem two_pow_add_seven (k : Nat) : 2 ^ (k + 7) = 128 * 2 ^ k := by
  rw [pow_add, mul_comm]
  rfl

/-- A value with one more group stays below the next shift. -/
theorem add_group_lt {value group k : Nat} (hvalue : value < 2 ^ k) (hgroup : group < 128) :
    value + group * 2 ^ k < 2 ^ (k + 7) := by
  have hle := Nat.mul_le_mul_right (2 ^ k) (Nat.le_of_lt_succ hgroup)
  rw [two_pow_add_seven]
  omega

/-- The groups of a number are read after a value that lies below them. -/
theorem varintGroups_run (field : Field) (rest : Bytes) (left : Nat) :
    ∀ shift value v : UInt64, shift.toNat + 7 * left = 70 → value.toNat < 2 ^ shift.toNat →
      v.toNat * 2 ^ shift.toNat < 2 ^ 64 → (v ≠ 0 ∨ shift = 0) → 0 < left →
      ∃ u, (varintGroups field left shift value).run (Bytes.varint v ++ rest) = .ok (u, rest) ∧
        u.toNat = value.toNat + v.toNat * 2 ^ shift.toNat := by
  -- the induction is on the groups left, and the value read so far stays below those to come
  induction left with
  | zero =>
    intro shift value v _ _ _ _ hleft
    exact absurd hleft (Nat.lt_irrefl 0)
  | succ left ih =>
    intro shift value v hshift hvalue hv hmin _
    have hlt : shift.toNat < 64 := by omega
    by_cases hsmall : v < 0x80
    · exact varintGroups_run_last field left rest hsmall hlt hvalue hv hmin
    · obtain ⟨value', hvalue', hnext⟩ :=
        varintGroups_run_next field left rest hsmall hlt hvalue hv
      have hnat : 128 ≤ v.toNat := by simpa [UInt64.lt_iff_toNat_lt] using hsmall
      have hne63 : shift.toNat ≠ 63 := by
        intro h
        have htwo := toNat_lt_two (UInt64.toNat_inj.mp h) hv
        omega
      have hshift7 := toNat_shift_add_seven (show shift.toNat ≤ 56 by omega)
      have hpow := two_pow_add_seven shift.toNat
      have hsplit : v.toNat * 2 ^ shift.toNat
          = v.toNat % 128 * 2 ^ shift.toNat + v.toNat / 128 * (128 * 2 ^ shift.toNat) := by
        rw [← mul_assoc, ← add_mul, mul_comm (v.toNat / 128), Nat.mod_add_div]
      have hbelow : value'.toNat < 2 ^ (shift + 7).toNat := by
        rw [hvalue', hshift7]
        exact add_group_lt hvalue (Nat.mod_lt _ (by decide))
      have hrest : (v >>> 7).toNat * 2 ^ (shift + 7).toNat < 2 ^ 64 := by
        rw [Bytes.toNat_shiftRight_seven, hshift7, hpow]
        omega
      have hmore : v >>> 7 ≠ 0 := by
        intro h
        have hzero := congrArg UInt64.toNat h
        rw [Bytes.toNat_shiftRight_seven] at hzero
        have hdiv : v.toNat / 128 = 0 := hzero
        omega
      obtain ⟨u, hrun, hu⟩ :=
        ih (shift + 7) value' (v >>> 7) (by omega) hbelow hrest (Or.inl hmore) (by omega)
      refine ⟨u, ?_, ?_⟩
      · rw [hnext]
        exact hrun
      · rw [hu, hvalue', Bytes.toNat_shiftRight_seven, hshift7, hpow, hsplit, add_assoc]

theorem reads_varint (field : Field) {n : Nat} (hn : n < 2 ^ 64) :
    Reads (varint field) (Bytes.varint (UInt64.ofNat n)) n := by
  intro rest
  have hnat : (UInt64.ofNat n).toNat = n := UInt64.toNat_ofNat_of_lt' hn
  obtain ⟨u, hrun, hu⟩ := varintGroups_run field rest 10 0 0 (UInt64.ofNat n) rfl (by simp)
    (by rw [hnat]; simpa using hn) (Or.inr rfl) (by decide)
  rw [varint, StateT.run_bind, hrun]
  rw [hnat] at hu
  show Except.ok (u.toNat, rest) = _
  rw [hu]
  simp

theorem reads_bounded (field : Field) {n max : Nat} (hmax : n ≤ max) (hn : n < 2 ^ 64) :
    Reads (bounded field max) (Bytes.varint (UInt64.ofNat n)) n := by
  have h := (reads_varint field hn).bind
    (f := fun value => if value ≤ max then pure value else fault (.field field))
    (show Reads _ [] n by rw [if_pos hmax]; exact reads_pure n)
  rwa [List.append_nil] at h

/-- A string preceded by its length. -/
theorem reads_prefixed {len : Nat} {bytes : Bytes} (h : bytes.length = len) (hlen : len < 2 ^ 64)
    (field : Field) :
    Reads (prefixed len field) (Bytes.varint (UInt64.ofNat len) ++ bytes) bytes := by
  refine (reads_varint field hlen).bind ?_
  rw [if_pos rfl]
  exact reads_take h field

end Decoder

end Hypertree
