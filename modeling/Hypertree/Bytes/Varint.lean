import Hypertree.Bytes

/-!
# Variable-length integers

A 64-bit number is written in groups of seven bits, least significant group first; the top bit of a
byte says that another group follows. Every number has exactly one such form without a zero final
group, and `varintLength` is its length, between one and ten bytes.
-/

namespace Hypertree.Bytes

theorem toNat_shiftRight_seven (value : UInt64) : (value >>> 7).toNat = value.toNat / 128 := by
  rw [UInt64.toNat_shiftRight]
  simp [Nat.shiftRight_eq_div_pow]

theorem toNat_shiftRight_seven_lt {value : UInt64} (h : ¬ value < 0x80) :
    (value >>> 7).toNat < value.toNat := by
  have hge : 128 ≤ value.toNat := by
    simpa [UInt64.lt_iff_toNat_lt] using h
  rw [toNat_shiftRight_seven]
  omega

/-- The variable-length form of a number. -/
def varint (value : UInt64) : Bytes :=
  if value < 0x80 then [value.toUInt8]
  else ((value.toUInt8 &&& 0x7f) ||| 0x80) :: varint (value >>> 7)
termination_by value.toNat
decreasing_by exact toNat_shiftRight_seven_lt ‹_›

/-- The number of bytes of the variable-length form. -/
def varintLength (value : UInt64) : Nat :=
  if value < 0x80 then 1 else varintLength (value >>> 7) + 1
termination_by value.toNat
decreasing_by exact toNat_shiftRight_seven_lt ‹_›

end Hypertree.Bytes
