/-!
# Byte strings

Every message, seed, tree node and encoding of the library is a list of bytes. This module fixes the
integer layouts used on them: `littleEndian` and `bigEndian` write a natural number in a given
number of bytes, least and most significant byte first, and drop whatever does not fit;
`ofBigEndian` reads one back. `pieces` cuts a string into parts of one size, the shape in which
one-time keys, signatures and authentication paths are stored.
-/

namespace Hypertree

-- Powers and sums of numbers are those of the core library also where there are other instances.
attribute [scoped instance (2000)] instPowNat Zero.ofOfNat0

/-- A byte string. -/
abbrev Bytes := List UInt8

namespace Bytes

/-- The `len` low bytes of `value`, least significant first. -/
def littleEndian : (len value : Nat) → Bytes
  | 0, _ => []
  | len + 1, value => UInt8.ofNat value :: littleEndian len (value / 256)

/-- The `len` low bytes of `value`, most significant first. -/
def bigEndian (len value : Nat) : Bytes :=
  (littleEndian len value).reverse

/-- The number whose big-endian digits in base 256 are the given bytes. -/
def ofBigEndian (bytes : Bytes) : Nat :=
  bytes.foldl (fun value byte => 256 * value + byte.toNat) 0

/-- A string of `len` zero bytes. -/
def zeros (len : Nat) : Bytes :=
  List.replicate len 0

/-- Whether every byte is zero. -/
def isZero (bytes : Bytes) : Bool :=
  bytes.all (· == 0)

/-- The first `count` consecutive parts of `size` bytes; the last ones are short or empty when the
string is. -/
def pieces (size : Nat) : (count : Nat) → Bytes → List Bytes
  | 0, _ => []
  | count + 1, bytes => bytes.take size :: pieces size count (bytes.drop size)

/-- The number of parts of `size` bytes that cover `len` bytes, the last one possibly short. -/
def pieceCount (size len : Nat) : Nat :=
  (len + size - 1) / size

@[simp]
theorem length_littleEndian (len value : Nat) : (littleEndian len value).length = len := by
  induction len generalizing value with
  | zero => rfl
  | succ len ih => simp [littleEndian, ih]

@[simp]
theorem length_bigEndian (len value : Nat) : (bigEndian len value).length = len := by
  simp [bigEndian]

@[simp]
theorem length_zeros (len : Nat) : (zeros len).length = len := by
  simp [zeros]

@[simp]
theorem length_pieces (size count : Nat) (bytes : Bytes) :
    (pieces size count bytes).length = count := by
  induction count generalizing bytes with
  | zero => rfl
  | succ count ih => simp [pieces, ih]

end Bytes

end Hypertree
