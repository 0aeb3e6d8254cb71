import Hypertree.OneTime.Digits
import Hypertree.Proofs.Bytes.BigEndian

/-!
# What the digits of a message say

`ofDigits_baseW`: the digits that `baseW` cuts from a byte string are those of its value, read as a
fraction of `256 ^ length` and cut off after the last digit. The accumulator never clears the bits
it has used; `unread` takes what is not yet used of the accumulator and the input together. Refilling
keeps it (`refill_spec`), and a digit is cut from its front (`unread_add`).

With that, distinct messages have incomparable digits (`exists_digit_lt`): digits that dominate
another message's everywhere have a smaller checksum, and then a smaller checksum digit. So walking
on along the chains never leads from one signature to another (`digits_incomparable`).
-/

namespace Hypertree

open Bytes

/-! ### Digits most significant first -/

/-- The number with the given digits, most significant first. -/
def ofDigits (base : Nat) (digits : List Nat) : Nat :=
  Nat.ofDigits base digits.reverse

@[simp]
theorem ofDigits_nil (base : Nat) : ofDigits base [] = 0 := rfl

theorem ofDigits_cons (base d : Nat) (digits : List Nat) :
    ofDigits base (d :: digits) = d * base ^ digits.length + ofDigits base digits := by
  rw [ofDigits, List.reverse_cons, Nat.ofDigits_append, Nat.ofDigits_singleton, List.length_reverse,
    ofDigits]
  ring

/-- Digits that are nowhere larger make a number that is not larger. -/
theorem ofDigits_le_ofDigits {base : Nat} {a b : List Nat} (h : List.Forall₂ (· ≤ ·) a b) :
    ofDigits base a ≤ ofDigits base b := by
  induction h with
  | nil => exact le_rfl
  | cons hd htail ih =>
    rw [ofDigits_cons, ofDigits_cons, htail.length_eq]
    exact Nat.add_le_add (Nat.mul_le_mul_right _ hd) ih

/-! ### The accumulator -/

/-- The bits that are still to be cut into digits, as a number: the `count` low ones of the
accumulator and then the input. -/
def unread (bits : UInt64) (count : Nat) (input : Bytes) : Nat :=
  bits.toNat % 2 ^ count * 256 ^ input.length + ofBigEndian input

/-- The number of those bits. -/
def unreadBits (count : Nat) (input : Bytes) : Nat :=
  count + 8 * input.length

theorem two_pow_unreadBits (count : Nat) (input : Bytes) :
    2 ^ unreadBits count input = 2 ^ count * 256 ^ input.length := by
  unfold unreadBits
  rw [pow_add, pow_mul]
  norm_num

theorem unread_lt (bits : UInt64) (count : Nat) (input : Bytes) :
    unread bits count input < 2 ^ unreadBits count input := by
  rw [two_pow_unreadBits, unread]
  have h1 : bits.toNat % 2 ^ count + 1 ≤ 2 ^ count := Nat.mod_lt _ (Nat.two_pow_pos _)
  have h2 := ofBigEndian_lt input
  calc bits.toNat % 2 ^ count * 256 ^ input.length + ofBigEndian input
      < bits.toNat % 2 ^ count * 256 ^ input.length + 256 ^ input.length := by omega
    _ = (bits.toNat % 2 ^ count + 1) * 256 ^ input.length := by ring
    _ ≤ 2 ^ count * 256 ^ input.length := Nat.mul_le_mul_right _ h1

/-- The unread bits are the next `width` of them and those after. -/
theorem unread_add (bits : UInt64) (k width : Nat) (input : Bytes) :
    unread bits (k + width) input
      = bits.toNat % 2 ^ (k + width) / 2 ^ k * 2 ^ unreadBits k input + unread bits k input := by
  have hsplit : bits.toNat % 2 ^ (k + width)
      = bits.toNat % 2 ^ (k + width) / 2 ^ k * 2 ^ k + bits.toNat % 2 ^ k := by
    rw [← Nat.mod_mod_of_dvd bits.toNat (pow_dvd_pow 2 (Nat.le_add_right k width)),
      Nat.div_add_mod']
  rw [two_pow_unreadBits, unread, unread]
  conv_lhs => rw [hsplit]
  ring

/-- A byte taken into the accumulator stays in front of the rest of the input. -/
theorem toNat_absorb (bits : UInt64) (byte : UInt8) (count : Nat) (hcount : count + 8 ≤ 64) :
    ((bits <<< 8) ||| byte.toUInt64).toNat % 2 ^ (count + 8)
      = bits.toNat % 2 ^ count * 256 + byte.toNat := by
  have hbyte : byte.toNat < 2 ^ 8 := byte.toNat_lt
  have hshift : (bits <<< 8).toNat = 2 ^ 8 * (bits.toNat % 2 ^ 56) := by
    rw [UInt64.toNat_shiftLeft]
    simp only [UInt64.reduceToNat, Nat.reduceMod, Nat.shiftLeft_eq]
    omega
  have hor : ((bits <<< 8) ||| byte.toUInt64).toNat
      = 2 ^ 8 * (bits.toNat % 2 ^ 56) + byte.toNat := by
    rw [UInt64.toNat_or, hshift, UInt8.toNat_toUInt64, Nat.two_pow_add_eq_or_of_lt hbyte]
  have hsplit : (2 : Nat) ^ (count + 8) = 2 ^ 8 * 2 ^ count := by rw [pow_add, mul_comm]
  -- the shift keeps 56 bits, and those still unread are among them
  have hdvd : (2 : Nat) ^ count ∣ 2 ^ 56 := pow_dvd_pow 2 (by omega)
  rw [hor, hsplit, Nat.mod_mul, Nat.mul_add_mod, Nat.mod_eq_of_lt hbyte,
    Nat.mul_add_div (by norm_num), Nat.div_eq_of_lt hbyte, add_zero, Nat.mod_mod_of_dvd _ hdvd]
  ring

/-- What taking bytes in leaves true: nothing unread is lost, and there is a whole digit unless the
input has ended. -/
theorem refill_spec {width : Nat} (hwidth : width ≤ 8) (input : Bytes) :
    ∀ (bits : UInt64) (count : Nat), count ≤ 16 →
      ∃ bits' count' rest, refill width bits count input = (bits', count', rest) ∧
        unread bits' count' rest = unread bits count input ∧
        unreadBits count' rest = unreadBits count input ∧
        count' ≤ 16 ∧ (width ≤ count' ∨ rest = []) := by
  induction input with
  | nil =>
    intro bits count hcount
    exact ⟨bits, count, [], rfl, rfl, rfl, hcount, Or.inr rfl⟩
  | cons byte input ih =>
    intro bits count hcount
    rw [refill]
    split_ifs with hlt
    · -- a byte is taken in
      obtain ⟨bits', count', rest, hr, hvalue, hbits, hle, hend⟩ :=
        ih ((bits <<< 8) ||| byte.toUInt64) (count + 8) (by omega)
      refine ⟨bits', count', rest, hr, ?_, ?_, hle, hend⟩
      · rw [hvalue, unread, unread, toNat_absorb bits byte count (by omega), ofBigEndian_cons,
          List.length_cons, pow_succ]
        ring
      · rw [hbits, unreadBits, unreadBits, List.length_cons]
        ring
    · -- there is a whole digit
      exact ⟨bits, count, byte :: input, rfl, rfl, rfl, hcount, Or.inl (Nat.le_of_not_lt hlt)⟩

theorem toNat_mask {width : Nat} (hwidth : width ≤ 8) :
    ((1 : UInt64) <<< UInt64.ofNat width - 1).toNat = 2 ^ width - 1 := by
  interval_cases width <;> rfl

theorem toNat_ofNat_of_le {k : Nat} (hk : k ≤ 16) : (UInt64.ofNat k).toNat % 64 = k := by
  interval_cases k <;> rfl

/-- A digit cut from the low end of the accumulator. -/
theorem toNat_cut (bits : UInt64) {width count : Nat} (hwidth : width ≤ 8) (hcount : count ≤ 16)
    (hle : width ≤ count) :
    ((bits >>> UInt64.ofNat (count - width)) &&& ((1 <<< UInt64.ofNat width) - 1)).toNat
      = bits.toNat % 2 ^ count / 2 ^ (count - width) := by
  rw [UInt64.toNat_and, toNat_mask hwidth, UInt64.toNat_shiftRight,
    toNat_ofNat_of_le (by omega), Nat.and_two_pow_sub_one_eq_mod, Nat.shiftRight_eq_div_pow]
  obtain ⟨k, rfl⟩ := Nat.exists_eq_add_of_le' hle
  rw [Nat.add_sub_cancel, pow_add, Nat.mod_mul_right_div_self]

/-- The last digit of an input that has ended, filled up with zero bits. -/
theorem toNat_pad (bits : UInt64) {width count : Nat} (hwidth : width ≤ 8) (hlt : count < width) :
    ((bits <<< UInt64.ofNat (width - count)) &&& ((1 <<< UInt64.ofNat width) - 1)).toNat
      = bits.toNat % 2 ^ count * 2 ^ (width - count) := by
  have hdvd : (2 : Nat) ^ width ∣ 2 ^ 64 := pow_dvd_pow 2 (by omega)
  rw [UInt64.toNat_and, toNat_mask hwidth, UInt64.toNat_shiftLeft,
    toNat_ofNat_of_le (by omega), Nat.and_two_pow_sub_one_eq_mod, Nat.shiftLeft_eq,
    Nat.mod_mod_of_dvd _ hdvd]
  have hsplit : (2 : Nat) ^ width = 2 ^ count * 2 ^ (width - count) := by
    rw [← pow_add, Nat.add_sub_cancel' hlt.le]
  rw [hsplit, Nat.mul_mod_mul_right]

/-! ### The value of the digits -/

@[simp]
theorem length_digitsFrom (width len : Nat) (bits : UInt64) (count : Nat) (input : Bytes) :
    (digitsFrom width len bits count input).length = len := by
  induction len generalizing bits count input with
  | zero => rfl
  | succ len ih =>
    rw [digitsFrom]
    split
    split <;> rw [List.length_cons, ih]

theorem lt_of_mem_digitsFrom {width : Nat} (hwidth : width ≤ 8) {len : Nat} {bits : UInt64}
    {count : Nat} {input : Bytes} {d : Nat} (h : d ∈ digitsFrom width len bits count input) :
    d < 2 ^ width := by
  -- every digit is cut out with the mask, whether or not a byte was taken in before
  have hand : ∀ v : UInt64, (v &&& ((1 <<< UInt64.ofNat width) - 1)).toNat < 2 ^ width := by
    intro v
    rw [UInt64.toNat_and, toNat_mask hwidth, Nat.and_two_pow_sub_one_eq_mod]
    exact Nat.mod_lt _ (Nat.two_pow_pos _)
  induction len generalizing bits count input with
  | zero => simp [digitsFrom] at h
  | succ len ih =>
    rw [digitsFrom] at h
    split at h
    split at h
    · rcases List.mem_cons.mp h with rfl | h
      · exact hand _
      · exact ih h
    · rcases List.mem_cons.mp h with rfl | h
      · exact hand _
      · exact ih h

/-- The digits are those of the unread bits as a fraction, cut off after the last one. -/
theorem ofDigits_digitsFrom {width : Nat} (hwidth : width ≤ 8) (len : Nat) :
    ∀ (bits : UInt64) (count : Nat) (input : Bytes), count ≤ 16 →
      ofDigits (2 ^ width) (digitsFrom width len bits count input)
        = unread bits count input * 2 ^ (width * len) / 2 ^ unreadBits count input := by
  induction len with
  | zero =>
    intro bits count input _
    rw [mul_zero, pow_zero, mul_one, Nat.div_eq_of_lt (unread_lt bits count input)]
    rfl
  | succ len ih =>
    intro bits count input hcount
    obtain ⟨bits', count', rest, hr, hvalue, hbits, hle, hend⟩ :=
      refill_spec hwidth input bits count hcount
    have hpow : (2 : Nat) ^ (width * (len + 1)) = 2 ^ (width * len) * 2 ^ width := by
      rw [Nat.mul_succ, pow_add]
    rw [← hvalue, ← hbits, hpow, digitsFrom, hr]
    dsimp only
    split_ifs with h
    · -- a whole digit: the quotient by the weight of the bits after it
      obtain ⟨k, rfl⟩ := Nat.exists_eq_add_of_le' h
      have hbits' : unreadBits (k + width) rest = unreadBits k rest + width := by
        unfold unreadBits
        ring
      have hscale : unread bits' (k + width) rest * (2 ^ (width * len) * 2 ^ width)
          / 2 ^ unreadBits (k + width) rest
          = unread bits' (k + width) rest * 2 ^ (width * len) / 2 ^ unreadBits k rest := by
        rw [hbits', pow_add, ← mul_assoc, Nat.mul_div_mul_right _ _ (Nat.two_pow_pos _)]
      rw [hscale, ofDigits_cons, length_digitsFrom, toNat_cut bits' hwidth hle h, Nat.add_sub_cancel,
        ih _ _ _ (by omega), ← pow_mul]
      rw [unread_add, add_mul, mul_right_comm, Nat.add_comm (_ * _ * _),
        Nat.add_mul_div_right _ _ (Nat.two_pow_pos _), Nat.add_comm]
    · -- the input has ended: the digit takes all that is left
      have hrest : rest = [] := hend.resolve_left h
      have hlt : count' < width := Nat.lt_of_not_le h
      have hsplit : (2 : Nat) ^ width = 2 ^ count' * 2 ^ (width - count') := by
        rw [← pow_add, Nat.add_sub_cancel' hlt.le]
      rw [ofDigits_cons, length_digitsFrom, toNat_pad bits' hwidth hlt, ih _ _ _ (by omega),
        ← pow_mul, hrest]
      simp only [unread, unreadBits, List.length_nil, pow_zero, mul_one, Nat.mod_one, zero_mul,
        ofBigEndian_nil, add_zero, mul_zero, Nat.zero_div]
      symm
      apply Nat.div_eq_of_eq_mul_left (Nat.two_pow_pos _)
      rw [hsplit]
      ring

theorem length_baseW (input : Bytes) (width len : Nat) : (baseW input width len).length = len :=
  length_digitsFrom ..

/-- **The digits of a byte string**: its value as a fraction of `2 ^ (8 * length)`, cut off after
`len` digits of `width` bits. -/
theorem ofDigits_baseW {width : Nat} (hwidth : width ≤ 8) (input : Bytes) (len : Nat) :
    ofDigits (2 ^ width) (baseW input width len)
      = ofBigEndian input * 2 ^ (width * len) / 2 ^ (8 * input.length) := by
  unfold baseW
  rw [ofDigits_digitsFrom hwidth len 0 0 input (by omega), unread, unreadBits, zero_add]
  simp

/-! ### The shape of a one-time key -/

namespace Winternitz

/-- What every engine's one-time keys satisfy: a supported chain length, a digest, and checksums
that are 32-bit numbers. -/
structure Valid (p : Winternitz) : Prop where
  w_eq : p.w = 4 ∨ p.w = 16 ∨ p.w = 256
  n_pos : 0 < p.n
  checksum_lt : p.messageDigits * (p.w - 1) < 2 ^ 32

variable {p : Winternitz}

namespace Valid

theorem two_le_w (hp : p.Valid) : 2 ≤ p.w := by
  rcases hp.w_eq with h | h | h <;> omega

theorem w_le (hp : p.Valid) : p.w ≤ 256 := by
  rcases hp.w_eq with h | h | h <;> omega

/-- A digit takes a whole fraction of a byte. -/
theorem digitBits_eq (hp : p.Valid) : p.digitBits = 2 ∨ p.digitBits = 4 ∨ p.digitBits = 8 := by
  rcases hp.w_eq with h | h | h <;> rw [digitBits, h] <;> decide

theorem digitBits_le (hp : p.Valid) : p.digitBits ≤ 8 := by
  rcases hp.digitBits_eq with h | h | h <;> omega

theorem two_pow_digitBits (hp : p.Valid) : 2 ^ p.digitBits = p.w := by
  rcases hp.w_eq with h | h | h <;> rw [digitBits, h] <;> decide

/-- The message digits are the bits of the message, without padding. -/
theorem digitBits_mul_messageDigits (hp : p.Valid) : p.digitBits * p.messageDigits = 8 * p.n := by
  unfold messageDigits pieceCount
  rcases hp.digitBits_eq with h | h | h <;> rw [h] <;> omega

/-- The largest checksum fits its digits. -/
theorem maxChecksum_lt (hp : p.Valid) :
    p.messageDigits * (p.w - 1) < 2 ^ (p.digitBits * p.checksumDigits) := by
  have hpos : 0 < p.digitBits := by rcases hp.digitBits_eq with h | h | h <;> omega
  have hmax : p.maxChecksum = p.messageDigits * (p.w - 1) := Nat.mod_eq_of_lt hp.checksum_lt
  unfold checksumDigits
  rw [hmax]
  refine lt_of_lt_of_le Nat.lt_log2_self (pow_le_pow_right₀ (by norm_num) ?_)
  have h := Nat.lt_mul_div_succ (p.messageDigits * (p.w - 1)).log2 hpos
  omega

end Valid

/-- The checksum digits and the shift fill the bytes of the checksum. -/
theorem digitBits_mul_checksumDigits (p : Winternitz) :
    p.digitBits * p.checksumDigits + p.checksumShift = 8 * p.checksumBytes := by
  unfold checksumShift checksumBytes pieceCount
  rw [mul_comm p.checksumDigits]
  omega

/-! ### Messages have incomparable digits -/

/-- The sum of the distances of digits from the end of their chains. -/
def distance (w : Nat) (digits : List Nat) : Nat :=
  (digits.map (w - 1 - ·)).sum

theorem distance_le {w : Nat} (digits : List Nat) :
    distance w digits ≤ digits.length * (w - 1) := by
  induction digits with
  | nil => simp [distance]
  | cons d digits ih =>
    unfold distance
    rw [List.map_cons, List.sum_cons, List.length_cons, Nat.succ_mul, Nat.add_comm]
    exact Nat.add_le_add ih (Nat.sub_le _ _)

/-- Larger digits are nearer to the ends of their chains, and only equal digits are as near. -/
theorem distance_le_distance {w : Nat} {a b : List Nat} (h : List.Forall₂ (· ≤ ·) a b)
    (hb : ∀ d ∈ b, d < w) :
    distance w b ≤ distance w a ∧ (distance w a ≤ distance w b → a = b) := by
  induction h with
  | nil => exact ⟨le_rfl, fun _ => rfl⟩
  | @cons x y a b hxy _ ih =>
    have hy : y < w := hb y List.mem_cons_self
    obtain ⟨hle, heq⟩ := ih fun d hd => hb d (List.mem_cons_of_mem _ hd)
    simp only [distance, List.map_cons, List.sum_cons] at hle heq ⊢
    refine ⟨by omega, ?_⟩
    intro hge
    -- neither the first digits nor the others can have made up for a difference
    have hhead : x = y := by omega
    have htail : a = b := heq (by omega)
    rw [hhead, htail]

theorem toNat_checksum {w : Nat} (hw : w ≤ 256) {digits : List Nat} (hd : ∀ d ∈ digits, d < w)
    (hlt : distance w digits < 2 ^ 32) : (checksum w digits).toNat = distance w digits := by
  -- no sum on the way overflows, as all are below the whole
  suffices h : ∀ (sum : UInt32), sum.toNat + distance w digits < 2 ^ 32 →
      (digits.foldl (fun sum digit => sum + (UInt32.ofNat w - 1 - UInt32.ofNat digit)) sum).toNat
        = sum.toNat + distance w digits by
    have h0 := h 0 (by simpa using hlt)
    simpa [checksum] using h0
  clear hlt
  induction digits with
  | nil => intro sum _; simp [distance]
  | cons d digits ih =>
    intro sum hlt
    have hdw : d < w := hd d List.mem_cons_self
    have hterm : (UInt32.ofNat w - 1 - UInt32.ofNat d).toNat = w - 1 - d := by
      have hw' : UInt32.ofNat w - 1 - UInt32.ofNat d = UInt32.ofNat (w - 1 - d) := by
        rw [UInt32.ofNat_sub (by omega), UInt32.ofNat_sub (by omega)]
        rfl
      rw [hw', UInt32.toNat_ofNat', Nat.mod_eq_of_lt (by omega)]
    simp only [distance, List.map_cons, List.sum_cons] at hlt ⊢
    have hsum : (sum + (UInt32.ofNat w - 1 - UInt32.ofNat d)).toNat = sum.toNat + (w - 1 - d) := by
      rw [UInt32.toNat_add, hterm, Nat.mod_eq_of_lt (by omega)]
    rw [List.foldl_cons, ih (fun d hd' => hd d (List.mem_cons_of_mem _ hd')), hsum, distance]
    · ring
    · rw [hsum, distance]
      omega

/-- The digits that carry the message. -/
def bodyDigits (p : Winternitz) (message : Bytes) : List Nat :=
  baseW message p.digitBits p.messageDigits

theorem digits_eq (p : Winternitz) (message : Bytes) :
    p.digits message = p.bodyDigits message
      ++ baseW (p.checksumField (p.bodyDigits message)) p.digitBits p.checksumDigits := rfl

@[simp]
theorem length_digits (p : Winternitz) (message : Bytes) :
    (p.digits message).length = p.chains := by
  rw [digits_eq, List.length_append, bodyDigits, length_baseW, length_baseW, chains]

theorem bodyDigits_lt (hp : p.Valid) (message : Bytes) : ∀ d ∈ p.bodyDigits message, d < p.w := by
  intro d hd
  rw [← hp.two_pow_digitBits]
  exact lt_of_mem_digitsFrom hp.digitBits_le hd

/-- Every digit is a position of its chain. -/
theorem digits_lt (hp : p.Valid) (message : Bytes) : ∀ d ∈ p.digits message, d < p.w := by
  intro d hd
  rw [digits_eq, List.mem_append] at hd
  rcases hd with hd | hd
  · exact bodyDigits_lt hp message d hd
  · rw [← hp.two_pow_digitBits]
    exact lt_of_mem_digitsFrom hp.digitBits_le hd

/-- A message is determined by its digits. -/
theorem bodyDigits_injective (hp : p.Valid) {a b : Bytes} (ha : a.length = p.n)
    (hb : b.length = p.n) (h : p.bodyDigits a = p.bodyDigits b) : a = b := by
  apply ofBigEndian_injective (ha.trans hb.symm)
  have h' := congrArg (ofDigits (2 ^ p.digitBits)) h
  rwa [bodyDigits, bodyDigits, ofDigits_baseW hp.digitBits_le, ofDigits_baseW hp.digitBits_le,
    hp.digitBits_mul_messageDigits, ha, hb, Nat.mul_div_cancel _ (Nat.two_pow_pos _),
    Nat.mul_div_cancel _ (Nat.two_pow_pos _)] at h'

/-- The checksum digits of a message are the digits of its distance. -/
theorem ofDigits_checksum (hp : p.Valid) (message : Bytes) :
    ofDigits (2 ^ p.digitBits)
        (baseW (p.checksumField (p.bodyDigits message)) p.digitBits p.checksumDigits)
      = distance p.w (p.bodyDigits message) := by
  have hle := distance_le (w := p.w) (p.bodyDigits message)
  unfold bodyDigits at hle
  rw [length_baseW, ← bodyDigits] at hle
  have hlt := lt_of_le_of_lt hle hp.maxChecksum_lt
  -- the digits cover the field but for the bits that the shift fills with zeros
  have hframe : (2 : Nat) ^ (p.digitBits * p.checksumDigits) * 2 ^ p.checksumShift
      = 256 ^ p.checksumBytes := by
    rw [← pow_add, p.digitBits_mul_checksumDigits, pow_mul]
    norm_num
  rw [ofDigits_baseW hp.digitBits_le, checksumField, length_bigEndian, ofBigEndian_bigEndian,
    toNat_checksum hp.w_le (bodyDigits_lt hp message) (lt_of_le_of_lt hle hp.checksum_lt),
    Nat.shiftLeft_eq, Nat.mod_eq_of_lt]
  · rw [← p.digitBits_mul_checksumDigits, pow_add, mul_right_comm, mul_assoc,
      Nat.mul_div_cancel _ (by positivity)]
  · rw [← hframe]
    exact Nat.mul_lt_mul_of_pos_right hlt (Nat.two_pow_pos _)

/-- Digits that dominate those of another message are its digits. -/
theorem eq_of_digits_le (hp : p.Valid) {a b : Bytes} (ha : a.length = p.n) (hb : b.length = p.n)
    (h : List.Forall₂ (· ≤ ·) (p.digits a) (p.digits b)) : a = b := by
  rw [digits_eq, digits_eq] at h
  have hlen : (p.bodyDigits a).length = (p.bodyDigits b).length := by
    unfold bodyDigits
    rw [length_baseW, length_baseW]
  have hbody : List.Forall₂ (· ≤ ·) (p.bodyDigits a) (p.bodyDigits b) := by
    simpa [hlen] using List.forall₂_take (p.bodyDigits a).length h
  have hchecksum := List.forall₂_drop (p.bodyDigits a).length h
  rw [List.drop_left, hlen, List.drop_left] at hchecksum
  -- larger checksum digits say that `b` is at least as far from the ends of its chains as `a`
  have hle : ofDigits (2 ^ p.digitBits) _ ≤ ofDigits (2 ^ p.digitBits) _ :=
    ofDigits_le_ofDigits hchecksum
  rw [ofDigits_checksum hp, ofDigits_checksum hp] at hle
  have heq : p.bodyDigits a = p.bodyDigits b :=
    (distance_le_distance hbody (bodyDigits_lt hp b)).2 hle
  exact bodyDigits_injective hp ha hb heq

/-- **Incomparability**: of two different messages each has a digit below the other's. -/
theorem exists_digit_lt (hp : p.Valid) {a b : Bytes} (ha : a.length = p.n) (hb : b.length = p.n)
    (hne : a ≠ b) : ∃ i < p.chains, (p.digits a).getD i 0 < (p.digits b).getD i 0 := by
  by_contra hno
  have hdominated : List.Forall₂ (· ≤ ·) (p.digits b) (p.digits a) := by
    rw [List.forall₂_iff_get]
    refine ⟨by simp, ?_⟩
    intro i hi hi'
    have hchain : i < p.chains := by simpa using hi
    have hge : ¬ (p.digits a).getD i 0 < (p.digits b).getD i 0 := fun hlt => hno ⟨i, hchain, hlt⟩
    rw [List.getD_eq_getElem _ _ hi, List.getD_eq_getElem _ _ hi', not_lt] at hge
    exact hge
  exact hne (eq_of_digits_le hp hb ha hdominated).symm

/-- On every chain, so many steps lead from the digit of `a` to that of `b`: whoever holds a
signature of `a` can walk on to one of `b`. -/
def Reaches (p : Winternitz) (a b : Bytes) : Prop :=
  ∀ i < p.chains, ∃ steps, (p.digits a).getD i 0 + steps = (p.digits b).getD i 0

/-- Walks do not go back. -/
theorem not_reaches_of_lt {a b : Bytes}
    (h : ∃ i < p.chains, (p.digits b).getD i 0 < (p.digits a).getD i 0) : ¬ p.Reaches a b := by
  obtain ⟨i, hi, hlt⟩ := h
  intro hreaches
  obtain ⟨steps, hsteps⟩ := hreaches i hi
  omega

/-- **Of two different messages, neither signature can be walked on to the other.** There is a digit
for each chain, each a position of it; of two different messages each has a digit above the
other's. -/
theorem digits_incomparable (hp : p.Valid) {a b : Bytes} (ha : a.length = p.n)
    (hb : b.length = p.n) (hne : a ≠ b) :
    (∀ message, (p.digits message).length = p.messageDigits + p.checksumDigits ∧
      ∀ d ∈ p.digits message, d < p.w) ∧
    (∃ i < p.chains, (p.digits b).getD i 0 < (p.digits a).getD i 0) ∧
    (∃ j < p.chains, (p.digits a).getD j 0 < (p.digits b).getD j 0) ∧
    ¬ p.Reaches a b ∧ ¬ p.Reaches b a := by
  have habove := exists_digit_lt hp hb ha hne.symm
  have hbelow := exists_digit_lt hp ha hb hne
  exact ⟨fun message => ⟨length_digits p message, digits_lt hp message⟩, habove, hbelow,
    not_reaches_of_lt habove, not_reaches_of_lt hbelow⟩

/-- The digits of the first message are nowhere below those of the second, up to the checksum. -/
theorem digits_incomparable_byte :
    Valid ⟨1, 4⟩ ∧ digits ⟨1, 4⟩ [0xff] = [3, 3, 3, 3, 0, 0] ∧
    digits ⟨1, 4⟩ [0xfe] = [3, 3, 3, 2, 0, 1] ∧ ¬ Reaches ⟨1, 4⟩ [0xfe] [0xff] := by
  have hp : Valid ⟨1, 4⟩ := ⟨Or.inl rfl, by decide, by decide⟩
  obtain ⟨-, -, -, -, hback⟩ :=
    digits_incomparable hp (a := [0xff]) (b := [0xfe]) rfl rfl (by decide)
  exact ⟨hp, by decide, by decide, hback⟩

end Winternitz

end Hypertree
