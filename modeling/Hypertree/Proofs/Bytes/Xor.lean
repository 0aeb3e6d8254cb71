import Hypertree.Bytes.Xor
import Mathlib

/-!
# Word-wise addition is byte-wise addition

`xorWords_eq`: in either byte order, adding eight bytes at a time gives the bytes of `xorBytewise`.
A word is packed, added and unpacked; unpacking commutes with the addition of words and undoes
packing (`unpackLittle_packLittle`), so each byte of the sum is the sum of the two bytes at its
place. The tail shorter than a word is added byte by byte on both sides.

`xor_eq` is the form in which masks are used: for operands of one length the sum exists and is the
byte-wise one.
-/

namespace Hypertree.Bytes

theorem unpackLittle_packLittle (b0 b1 b2 b3 b4 b5 b6 b7 : UInt8) (rest : Bytes) :
    unpackLittle (packLittle b0 b1 b2 b3 b4 b5 b6 b7) rest
      = b0 :: b1 :: b2 :: b3 :: b4 :: b5 :: b6 :: b7 :: rest := by
  simp only [unpackLittle, List.cons.injEq, and_true]
  refine ⟨?_, ?_, ?_, ?_, ?_, ?_, ?_, ?_⟩
  -- a bit of byte `k` of the word comes from bit `8 * k` on, where only byte `k` has bits
  all_goals
    apply UInt8.eq_of_toBitVec_eq
    apply BitVec.eq_of_getLsbD_eq
    intro i hi
    simp [packLittle]
  all_goals grind

theorem unpackBig_eq_reverse (w : UInt64) (rest : Bytes) :
    unpackBig w rest = (unpackLittle w []).reverse ++ rest := rfl

/-- Unpacking the sum of two words gives the sums of their bytes. -/
theorem unpackLittle_xor (v w : UInt64) (rest : Bytes) :
    unpackLittle (v ^^^ w) rest = xorBytewise (unpackLittle v []) (unpackLittle w []) ++ rest := by
  simp only [unpackLittle, xorBytewise, UInt64.shiftRight_xor, UInt64.toUInt8_xor,
    List.zipWith_cons_cons, List.zipWith_nil_left, List.cons_append, List.nil_append]

/-- **Word by word is byte by byte**, in either byte order. -/
theorem xorWords_eq (order : ByteOrder) (a b : Bytes) : xorWords order a b = xorBytewise a b := by
  fun_induction xorWords order a b with
  | case1 a0 a1 a2 a3 a4 a5 a6 a7 a b0 b1 b2 b3 b4 b5 b6 b7 b horder ih =>
    rw [horder] at ih
    rw [unpackLittle_xor, unpackLittle_packLittle, unpackLittle_packLittle, ih]
    rfl
  | case2 a0 a1 a2 a3 a4 a5 a6 a7 a b0 b1 b2 b3 b4 b5 b6 b7 b horder ih =>
    rw [horder] at ih
    rw [unpackBig_eq_reverse, unpackLittle_xor, unpackLittle_packLittle, unpackLittle_packLittle,
      ih]
    rfl
  | case3 a b => rfl

@[simp]
theorem length_xorBytewise (a b : Bytes) :
    (xorBytewise a b).length = min a.length b.length :=
  List.length_zipWith

/-- The sum of two strings of one length. -/
theorem xor_eq {a b : Bytes} (h : a.length = b.length) : xor a b = .ok (xorBytewise a b) := by
  unfold xor xorOn
  rw [xorWords_eq]
  exact if_pos h

end Hypertree.Bytes
