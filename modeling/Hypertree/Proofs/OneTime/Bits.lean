import Hypertree.Proofs.OneTime.Digits

/-!
# Digits as runs of bits

A byte string is a string of bits, the most significant bit of each byte first, with zeros after its
end as far as anyone looks (`bit`). A digit of `width` bits is the number that the next `width` of
these bits form, whether or not the width divides eight (`baseW_eq_map_bitsAt`).

Both sides are compared by their values. The first `count` bits form the number `leading`, one bit
more doubles it and adds the bit (`leading_succ`), so a run of bits is what `leading` gains over it
(`leading_add`). The digits that `baseW` cuts have the value of `leading` as well
(`ofDigits_baseW`), and digits of one base are determined by their number and value.
-/

namespace Hypertree

/-! ### Digits most significant first -/

theorem ofDigits_concat (base : Nat) (digits : List Nat) (d : Nat) :
    ofDigits base (digits ++ [d]) = ofDigits base digits * base + d := by
  rw [ofDigits, List.reverse_append, List.reverse_singleton, List.singleton_append,
    Nat.ofDigits_cons, ofDigits]
  ring

/-- Digits of one base are determined by their number and value. -/
theorem eq_of_ofDigits_eq {base : Nat} (hbase : 1 < base) {a b : List Nat}
    (hlen : a.length = b.length) (ha : ∀ d ∈ a, d < base) (hb : ∀ d ∈ b, d < base)
    (h : ofDigits base a = ofDigits base b) : a = b := by
  apply List.reverse_injective
  apply Nat.ofDigits_inj_of_len_eq hbase (by simpa using hlen)
  · simpa using ha
  · simpa using hb
  · exact h

namespace Bytes

/-! ### The bits of a byte string -/

/-- The bit at a place of a byte string. Place zero holds the most significant bit of the first
byte; the places after the end hold zeros. -/
def bit (input : Bytes) (place : Nat) : Bool :=
  (input.getD (place / 8) 0).toNat.testBit (7 - place % 8)

/-- The number that the `width` bits from a place on form, most significant first. -/
def bitsAt (input : Bytes) (place width : Nat) : Nat :=
  ofDigits 2 ((List.range width).map fun i => (bit input (place + i)).toNat)

/-- The number that the first `count` bits form: the value of the string with zeros after it, cut
off after them. -/
def leading (input : Bytes) (count : Nat) : Nat :=
  ofBigEndian input * 2 ^ count / 2 ^ (8 * input.length)

/-- The bits of the value of a string are those of the string, from its end. -/
theorem testBit_ofBigEndian {input : Bytes} : ∀ {place : Nat}, place < 8 * input.length →
    (ofBigEndian input).testBit (8 * input.length - 1 - place) = bit input place := by
  induction input with
  | nil =>
    intro place h
    exact absurd h (Nat.not_lt_zero _)
  | cons byte input ih =>
    intro place h
    have hvalue : ofBigEndian (byte :: input)
        = 2 ^ (8 * input.length) * byte.toNat + ofBigEndian input := by
      rw [ofBigEndian_cons, pow_mul, mul_comm]
      norm_num
    have hlt : ofBigEndian input < 2 ^ (8 * input.length) := by
      rw [pow_mul]
      exact ofBigEndian_lt input
    rw [List.length_cons] at h ⊢
    rw [hvalue, Nat.testBit_two_pow_mul_add _ hlt]
    by_cases hfirst : place < 8
    · -- a bit of the first byte
      have hindex : 8 * (input.length + 1) - 1 - place - 8 * input.length = 7 - place := by omega
      rw [if_neg (by omega), hindex]
      simp [bit, Nat.div_eq_of_lt hfirst, Nat.mod_eq_of_lt hfirst]
    · obtain ⟨later, rfl⟩ := Nat.exists_eq_add_of_le' (Nat.le_of_not_lt hfirst)
      have hindex : 8 * (input.length + 1) - 1 - (later + 8) = 8 * input.length - 1 - later := by
        omega
      rw [if_pos (by omega), hindex, ih (by omega)]
      simp [bit]

theorem bit_of_le {input : Bytes} {place : Nat} (h : 8 * input.length ≤ place) :
    bit input place = false := by
  have hend : input.length ≤ place / 8 := by omega
  unfold bit
  rw [List.getD_eq_default _ _ hend]
  exact Nat.zero_testBit _

/-! ### Numbers of leading bits -/

/-- Up to its end, the leading bits of a string are the high ones of its value. -/
theorem leading_of_le {input : Bytes} {count : Nat} (h : count ≤ 8 * input.length) :
    leading input count = ofBigEndian input / 2 ^ (8 * input.length - count) := by
  have hsplit : (2 : Nat) ^ (8 * input.length) = 2 ^ (8 * input.length - count) * 2 ^ count := by
    rw [← pow_add, Nat.sub_add_cancel h]
  rw [leading, hsplit, Nat.mul_div_mul_right _ _ (Nat.two_pow_pos _)]

/-- After its end, zeros follow. -/
theorem leading_of_ge {input : Bytes} {count : Nat} (h : 8 * input.length ≤ count) :
    leading input count = ofBigEndian input * 2 ^ (count - 8 * input.length) := by
  have hsplit : (2 : Nat) ^ count = 2 ^ (count - 8 * input.length) * 2 ^ (8 * input.length) := by
    rw [← pow_add, Nat.sub_add_cancel h]
  rw [leading, hsplit, ← mul_assoc, Nat.mul_div_cancel _ (Nat.two_pow_pos _)]

/-- One bit more. -/
theorem leading_succ (input : Bytes) (place : Nat) :
    leading input (place + 1) = 2 * leading input place + (bit input place).toNat := by
  by_cases h : place < 8 * input.length
  · have hshift : 8 * input.length - place = 8 * input.length - 1 - place + 1 := by omega
    have hshift' : 8 * input.length - (place + 1) = 8 * input.length - 1 - place := by omega
    rw [leading_of_le h, leading_of_le h.le, hshift, hshift', pow_succ, ← Nat.div_div_eq_div_mul,
      ← testBit_ofBigEndian h, Nat.toNat_testBit, Nat.div_add_mod]
  · have hle : 8 * input.length ≤ place := Nat.le_of_not_lt h
    rw [leading_of_ge hle, leading_of_ge (Nat.le_succ_of_le hle), bit_of_le hle,
      Nat.succ_sub hle, pow_succ]
    simp only [Bool.toNat_false]
    ring

/-- A run of bits more. -/
theorem leading_add (input : Bytes) (place width : Nat) :
    leading input (place + width)
      = leading input place * 2 ^ width + bitsAt input place width := by
  induction width with
  | zero => simp [bitsAt]
  | succ width ih =>
    have hlast : bitsAt input place (width + 1)
        = bitsAt input place width * 2 + (bit input (place + width)).toNat := by
      rw [bitsAt, List.range_succ, List.map_append, List.map_singleton, ofDigits_concat]
      rfl
    rw [← Nat.add_assoc, leading_succ, ih, hlast, pow_succ]
    ring

end Bytes

/-! ### Digits -/

open Bytes

theorem bitsAt_lt (input : Bytes) (place width : Nat) : bitsAt input place width < 2 ^ width := by
  have hbit : ∀ d ∈ ((List.range width).map fun i => (bit input (place + i)).toNat).reverse,
      d < 2 := by
    intro d hd
    obtain ⟨i, -, rfl⟩ := List.mem_map.mp (List.mem_reverse.mp hd)
    exact Bool.toNat_lt _
  have hlt := Nat.ofDigits_lt_base_pow_length one_lt_two hbit
  rwa [List.length_reverse, List.length_map, List.length_range] at hlt

/-- Runs of bits one after another, as digits, are the leading bits. -/
theorem ofDigits_map_bitsAt (input : Bytes) (width len : Nat) :
    ofDigits (2 ^ width) ((List.range len).map fun k => bitsAt input (k * width) width)
      = leading input (len * width) := by
  induction len with
  | zero =>
    have hlt : ofBigEndian input < 2 ^ (8 * input.length) := by
      rw [pow_mul]
      exact ofBigEndian_lt input
    rw [zero_mul, leading, pow_zero, mul_one, Nat.div_eq_of_lt hlt]
    rfl
  | succ len ih =>
    rw [List.range_succ, List.map_append, List.map_singleton, ofDigits_concat, ih, Nat.succ_mul,
      leading_add]

theorem ofDigits_baseW_eq_leading {width : Nat} (hwidth : width ≤ 8) (input : Bytes) (len : Nat) :
    ofDigits (2 ^ width) (baseW input width len) = leading input (len * width) := by
  rw [ofDigits_baseW hwidth, leading, mul_comm len]

/-- **A digit is the number formed by its run of bits.** -/
theorem baseW_eq_map_bitsAt {width : Nat} (hpos : 0 < width) (hwidth : width ≤ 8) (input : Bytes)
    (len : Nat) :
    baseW input width len = (List.range len).map fun k => bitsAt input (k * width) width := by
  apply eq_of_ofDigits_eq (Nat.one_lt_two_pow hpos.ne')
  · rw [length_baseW, List.length_map, List.length_range]
  · exact fun d hd => lt_of_mem_digitsFrom hwidth hd
  · intro d hd
    obtain ⟨k, -, rfl⟩ := List.mem_map.mp hd
    exact bitsAt_lt input _ width
  · rw [ofDigits_baseW_eq_leading hwidth, ofDigits_map_bitsAt]

/-- Strings of one length are told apart by digits that take in all their bits. -/
theorem baseW_injOn {width : Nat} (hwidth : width ≤ 8) {len n : Nat} (h : 8 * n ≤ width * len) :
    Set.InjOn (fun input => baseW input width len) {input | input.length = n} := by
  intro a ha b hb heq
  have hlen : a.length = b.length := Eq.trans ha hb.symm
  have hle : ∀ input : Bytes, input.length = n → 8 * input.length ≤ len * width := by
    rintro input rfl
    rwa [mul_comm len]
  have hvalue := congrArg (ofDigits (2 ^ width)) heq
  dsimp only at hvalue
  rw [ofDigits_baseW_eq_leading hwidth, ofDigits_baseW_eq_leading hwidth, leading_of_ge (hle a ha),
    leading_of_ge (hle b hb), hlen] at hvalue
  exact ofBigEndian_injective hlen (Nat.eq_of_mul_eq_mul_right (Nat.two_pow_pos _) hvalue)

/-- **Digits read the bit string.** There are as many as were asked for, each is the number formed
by its run of bits, and digits that take in all bits of a string tell it from all others of its
length. -/
theorem baseW_reads_bits {width : Nat} (hpos : 1 ≤ width) (hwidth : width ≤ 8) (len : Nat) :
    (∀ input, (baseW input width len).length = len ∧
      ∀ k < len, (baseW input width len)[k]? = some (bitsAt input (k * width) width)) ∧
    ∀ n, 8 * n ≤ width * len →
      Set.InjOn (fun input => baseW input width len) {input | input.length = n} := by
  refine ⟨fun input => ⟨length_baseW input width len, ?_⟩, fun n hn => baseW_injOn hwidth hn⟩
  intro k hk
  rw [baseW_eq_map_bitsAt hpos hwidth, List.getElem?_map, List.getElem?_range hk, Option.map_some]

/-- Digits of three bits straddle the bytes; the last of a longer row are padding. -/
theorem baseW_reads_bits_three :
    baseW [0xa5, 0x3c] 3 8 = [5, 1, 2, 3, 6, 0, 0, 0] ∧ bitsAt [0xa5, 0x3c] 6 3 = 2 ∧
    bitsAt [0xa5, 0x3c] 15 3 = 0 ∧
    Set.InjOn (fun input => baseW input 3 8) {input | input.length = 2} := by
  obtain ⟨hdigits, hinj⟩ := baseW_reads_bits (show 1 ≤ 3 by decide) (by decide) 8
  obtain ⟨-, hbits⟩ := hdigits [0xa5, 0x3c]
  have htwo := hbits 2 (by decide)
  have hfive := hbits 5 (by decide)
  have hrow : baseW [0xa5, 0x3c] 3 8 = [5, 1, 2, 3, 6, 0, 0, 0] := by decide
  rw [hrow] at htwo hfive
  exact ⟨hrow, (Option.some.inj htwo).symm, (Option.some.inj hfive).symm, hinj 2 (by decide)⟩

end Hypertree
