import Hypertree.Bytes
import Mathlib

/-!
# Numbers as bytes

`ofBigEndian` is the value of a byte string in base 256. The value of a string that `bigEndian`
wrote is the number it was given, cut to the width (`ofBigEndian_bigEndian`), and a string is
determined by its value and length (`ofBigEndian_injective`), so fixed-width fields lose nothing
that fits.
-/

namespace Hypertree.Bytes

/-! ### The value of a string -/

theorem foldl_ofBigEndian (bytes : Bytes) : ∀ value : Nat,
    bytes.foldl (fun value byte => 256 * value + byte.toNat) value
      = value * 256 ^ bytes.length + ofBigEndian bytes := by
  induction bytes with
  | nil => intro value; simp [ofBigEndian]
  | cons b bytes ih =>
    intro value
    have hhead : ofBigEndian (b :: bytes) = b.toNat * 256 ^ bytes.length + ofBigEndian bytes := by
      rw [← ih b.toNat, ofBigEndian, List.foldl_cons, mul_zero, zero_add]
    rw [List.foldl_cons, ih, hhead, List.length_cons, pow_succ]
    ring

@[simp]
theorem ofBigEndian_nil : ofBigEndian [] = 0 := rfl

theorem ofBigEndian_cons (b : UInt8) (bytes : Bytes) :
    ofBigEndian (b :: bytes) = b.toNat * 256 ^ bytes.length + ofBigEndian bytes := by
  rw [ofBigEndian, List.foldl_cons, foldl_ofBigEndian, mul_zero, zero_add]

theorem ofBigEndian_append (a b : Bytes) :
    ofBigEndian (a ++ b) = ofBigEndian a * 256 ^ b.length + ofBigEndian b := by
  unfold ofBigEndian
  rw [List.foldl_append, foldl_ofBigEndian]
  rfl

theorem ofBigEndian_lt (bytes : Bytes) : ofBigEndian bytes < 256 ^ bytes.length := by
  induction bytes with
  | nil => simp
  | cons b bytes ih =>
    rw [ofBigEndian_cons, List.length_cons, pow_succ]
    have hb : b.toNat < 256 := b.toNat_lt
    nlinarith

/-- Strings of one length are told apart by their values. -/
theorem ofBigEndian_injective {a b : Bytes} (hlen : a.length = b.length)
    (h : ofBigEndian a = ofBigEndian b) : a = b := by
  induction a generalizing b with
  | nil => exact (List.length_eq_zero_iff.mp hlen.symm).symm
  | cons x a ih =>
    obtain ⟨y, b, rfl⟩ := List.exists_cons_of_length_eq_add_one hlen.symm
    have hlen' : a.length = b.length := Nat.succ.inj hlen
    rw [ofBigEndian_cons, ofBigEndian_cons, hlen'] at h
    have ha := ofBigEndian_lt a
    have hb := ofBigEndian_lt b
    rw [hlen'] at ha
    have hpos : 0 < 256 ^ b.length := by positivity
    -- the first bytes are the quotients by the weight of the first place, the tails the remainders
    have hq := congrArg (· / 256 ^ b.length) h
    have hr := congrArg (· % 256 ^ b.length) h
    simp only [mul_comm _ (256 ^ b.length), Nat.mul_add_div hpos, Nat.div_eq_of_lt ha,
      Nat.div_eq_of_lt hb, add_zero, Nat.mul_add_mod, Nat.mod_eq_of_lt ha,
      Nat.mod_eq_of_lt hb] at hq hr
    rw [UInt8.toNat_inj.mp hq, ih hlen' hr]

/-! ### Writing a number -/

theorem bigEndian_succ (len value : Nat) :
    bigEndian (len + 1) value = bigEndian len (value / 256) ++ [UInt8.ofNat value] := by
  rw [bigEndian, littleEndian, List.reverse_cons]
  rfl

theorem bigEndian_zero (len : Nat) : bigEndian len 0 = zeros len := by
  induction len with
  | zero => rfl
  | succ len ih =>
    rw [bigEndian_succ, Nat.zero_div, ih, zeros, zeros, List.replicate_succ']
    rfl

/-- The bytes of a number in front of its low ones are those of what is left of it. -/
theorem bigEndian_add (k len value : Nat) :
    bigEndian (k + len) value = bigEndian k (value / 256 ^ len) ++ bigEndian len value := by
  induction len generalizing value with
  | zero =>
    rw [pow_zero, Nat.div_one]
    exact (List.append_nil _).symm
  | succ len ih =>
    rw [← Nat.add_assoc, bigEndian_succ, ih, bigEndian_succ, Nat.div_div_eq_div_mul, pow_succ',
      List.append_assoc]

/-- A number that fits its low bytes is written with zeros in front of them. -/
theorem bigEndian_of_lt (k : Nat) {len value : Nat} (h : value < 256 ^ len) :
    bigEndian (k + len) value = zeros k ++ bigEndian len value := by
  rw [bigEndian_add, Nat.div_eq_of_lt h, bigEndian_zero]

/-- A field holds what fits of the number written. -/
theorem ofBigEndian_bigEndian (len value : Nat) :
    ofBigEndian (bigEndian len value) = value % 256 ^ len := by
  induction len generalizing value with
  | zero => rw [pow_zero, Nat.mod_one]; rfl
  | succ len ih =>
    rw [bigEndian_succ, ofBigEndian_append, ih, ofBigEndian_cons, pow_succ', Nat.mod_mul,
      UInt8.toNat_ofNat']
    simp only [List.length_cons, List.length_nil, ofBigEndian_nil]
    omega

/-- Fields of one width are told apart, if what is written fits. -/
theorem bigEndian_inj {len a b : Nat} (ha : a < 256 ^ len) (hb : b < 256 ^ len)
    (h : bigEndian len a = bigEndian len b) : a = b := by
  have hvalue := congrArg ofBigEndian h
  rwa [ofBigEndian_bigEndian, ofBigEndian_bigEndian, Nat.mod_eq_of_lt ha,
    Nat.mod_eq_of_lt hb] at hvalue

end Hypertree.Bytes
