import Hypertree.Error

/-!
# Adding byte strings

Masks are added to nodes eight bytes at a time: both strings are read as 64-bit words in some byte
order, the words are added, and a tail shorter than a word is added byte by byte. `xor` does so for
operands of one length and refuses others; which byte order a machine uses does not matter, as every
bit of a word meets the bit of the other word that came from the same place. `xorBytewise` is the
sum stated directly.

The sum is written over a buffer, another one or the left operand itself. Writing is a computation
with the buffer as its state, which a failure leaves as it is at that moment (`Writing`).
-/

namespace Hypertree

/-- The order in which a machine packs bytes into words. -/
inductive ByteOrder where
  | little
  | big
  deriving DecidableEq, Repr

namespace Bytes

/-- Packs eight bytes into a word, the first one lowest. -/
@[inline]
def packLittle (b0 b1 b2 b3 b4 b5 b6 b7 : UInt8) : UInt64 :=
  b0.toUInt64 ||| (b1.toUInt64 <<< 8) ||| (b2.toUInt64 <<< 16) ||| (b3.toUInt64 <<< 24) |||
    (b4.toUInt64 <<< 32) ||| (b5.toUInt64 <<< 40) ||| (b6.toUInt64 <<< 48) ||| (b7.toUInt64 <<< 56)

/-- The eight bytes of a word, the lowest one first. -/
@[inline]
def unpackLittle (w : UInt64) (rest : Bytes) : Bytes :=
  w.toUInt8 :: (w >>> 8).toUInt8 :: (w >>> 16).toUInt8 :: (w >>> 24).toUInt8 ::
    (w >>> 32).toUInt8 :: (w >>> 40).toUInt8 :: (w >>> 48).toUInt8 :: (w >>> 56).toUInt8 :: rest

/-- The eight bytes of a word, the highest one first. -/
@[inline]
def unpackBig (w : UInt64) (rest : Bytes) : Bytes :=
  (w >>> 56).toUInt8 :: (w >>> 48).toUInt8 :: (w >>> 40).toUInt8 :: (w >>> 32).toUInt8 ::
    (w >>> 24).toUInt8 :: (w >>> 16).toUInt8 :: (w >>> 8).toUInt8 :: w.toUInt8 :: rest

/-- The sum of two byte strings, byte by byte, as long as the shorter one. -/
def xorBytewise (a b : Bytes) : Bytes :=
  List.zipWith (· ^^^ ·) a b

/-- The sum of two byte strings, word by word while both have eight more bytes. -/
def xorWords (order : ByteOrder) : (a b : Bytes) → Bytes
  | a0 :: a1 :: a2 :: a3 :: a4 :: a5 :: a6 :: a7 :: a,
    b0 :: b1 :: b2 :: b3 :: b4 :: b5 :: b6 :: b7 :: b =>
    match order with
    | .little =>
      unpackLittle (packLittle a0 a1 a2 a3 a4 a5 a6 a7 ^^^ packLittle b0 b1 b2 b3 b4 b5 b6 b7)
        (xorWords order a b)
    | .big =>
      unpackBig (packLittle a7 a6 a5 a4 a3 a2 a1 a0 ^^^ packLittle b7 b6 b5 b4 b3 b2 b1 b0)
        (xorWords order a b)
  | a, b => xorBytewise a b

/-- The sum of two byte strings of one length, on a machine with the given byte order. -/
def xorOn (order : ByteOrder) (a b : Bytes) : Except Error Bytes :=
  if a.length = b.length then .ok (xorWords order a b) else .error .unequalOperands

/-- The sum of two byte strings of one length. -/
def xor (a b : Bytes) : Except Error Bytes :=
  xorOn .little a b

/-- A computation on a buffer. What it has written stays there also when it fails. -/
abbrev Writing := EStateM Error Bytes Unit

namespace Writing

/-- The buffer that a computation leaves if it does not fail. -/
def result (w : Writing) (buffer : Bytes) : Except Error Bytes :=
  match w.run buffer with
  | .ok () buffer => .ok buffer
  | .error e _ => .error e

/-- Refuses operands of different lengths. -/
def sameLength (m n : Nat) : Writing :=
  unless m = n do throw .unequalOperands

/-- Puts bytes in the place of those of the buffer from a position on. -/
def write (start : Nat) (bytes : Bytes) : Writing :=
  modify fun buffer => buffer.take start ++ (bytes ++ buffer.drop (start + bytes.length))

/-- Puts in the place of `size` bytes the sum of those of two operands. The left operand may be the
buffer itself: it is looked up in the buffer at this moment. -/
def writeSum (sum : Bytes → Bytes → Bytes) (left : Bytes → Bytes) (right : Bytes)
    (size start : Nat) : Writing := do
  let buffer ← get
  write start (sum (((left buffer).drop start).take size) ((right.drop start).take size))

/-- Writes the sum of two operands of the buffer's length over the buffer: word by word, and then
the tail byte by byte. -/
def writeSums (order : ByteOrder) (left : Bytes → Bytes) (right : Bytes) : Writing := do
  let size := (← get).length
  (List.range (size / 8)).forM fun word => writeSum (xorWords order) left right 8 (8 * word)
  (List.range (size % 8)).forM fun byte =>
    writeSum xorBytewise left right 1 (8 * (size / 8) + byte)

/-- Writes the sum of two byte strings over the buffer; all three must have one length. -/
def sumOf (order : ByteOrder) (a b : Bytes) : Writing := do
  sameLength (← get).length a.length
  sameLength a.length b.length
  writeSums order (fun _ => a) b

/-- Adds a mask of the buffer's length to the buffer. -/
def masked (order : ByteOrder) (mask : Bytes) : Writing := do
  sameLength (← get).length mask.length
  writeSums order id mask

end Writing

/-- Writes the sum of two byte strings over a buffer; all three must have one length. -/
def xorInto (order : ByteOrder) (out a b : Bytes) : Except Error Bytes :=
  (Writing.sumOf order a b).result out

end Bytes

end Hypertree
