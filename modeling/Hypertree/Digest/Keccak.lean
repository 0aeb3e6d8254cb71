import Hypertree.Bytes

/-!
# The Keccak sponge

The permutation works on twenty-five 64-bit lanes held in one flat structure, so that a round
allocates once. The sponge has a rate of 136 bytes, which SHA3-256 and SHAKE256 share; they differ
only in the domain byte that opens the padding. Both are squeezed for thirty-two bytes, less than
one block (`length_sha3`, `length_shake`).
-/

namespace Hypertree.Keccak

/-- The sponge state: the lane in column `x` of row `y` is number `x + 5 * y`. -/
structure Lanes where
  a0 : UInt64
  a1 : UInt64
  a2 : UInt64
  a3 : UInt64
  a4 : UInt64
  a5 : UInt64
  a6 : UInt64
  a7 : UInt64
  a8 : UInt64
  a9 : UInt64
  a10 : UInt64
  a11 : UInt64
  a12 : UInt64
  a13 : UInt64
  a14 : UInt64
  a15 : UInt64
  a16 : UInt64
  a17 : UInt64
  a18 : UInt64
  a19 : UInt64
  a20 : UInt64
  a21 : UInt64
  a22 : UInt64
  a23 : UInt64
  a24 : UInt64

/-- The state before anything is absorbed. -/
def initial : Lanes :=
  ⟨0, 0, 0, 0, 0, 0, 0, 0, 0, 0, 0, 0, 0, 0, 0, 0, 0, 0, 0, 0, 0, 0, 0, 0, 0⟩

/-- One constant per round, added to lane 0. -/
def roundConstants : List UInt64 :=
  [0x0000000000000001, 0x0000000000008082, 0x800000000000808a, 0x8000000080008000,
   0x000000000000808b, 0x0000000080000001, 0x8000000080008081, 0x8000000000008009,
   0x000000000000008a, 0x0000000000000088, 0x0000000080008009, 0x000000008000000a,
   0x000000008000808b, 0x800000000000008b, 0x8000000000008089, 0x8000000000008003,
   0x8000000000008002, 0x8000000000000080, 0x000000000000800a, 0x800000008000000a,
   0x8000000080008081, 0x8000000000008080, 0x0000000080000001, 0x8000000080008008]

/-- Rotation of a lane to the left; the amount is between 1 and 63. -/
@[inline]
def rotl (x amount : UInt64) : UInt64 :=
  (x <<< amount) ||| (x >>> (64 - amount))

/-- One round. The column parities `c` give the corrections `d`; the corrected lanes are rotated and
moved to `b`; each row of `b` is mixed with its two right-hand neighbours. -/
def round (s : Lanes) (constant : UInt64) : Lanes :=
  let c0 := s.a0 ^^^ s.a5 ^^^ s.a10 ^^^ s.a15 ^^^ s.a20
  let c1 := s.a1 ^^^ s.a6 ^^^ s.a11 ^^^ s.a16 ^^^ s.a21
  let c2 := s.a2 ^^^ s.a7 ^^^ s.a12 ^^^ s.a17 ^^^ s.a22
  let c3 := s.a3 ^^^ s.a8 ^^^ s.a13 ^^^ s.a18 ^^^ s.a23
  let c4 := s.a4 ^^^ s.a9 ^^^ s.a14 ^^^ s.a19 ^^^ s.a24
  let d0 := c4 ^^^ rotl c1 1
  let d1 := c0 ^^^ rotl c2 1
  let d2 := c1 ^^^ rotl c3 1
  let d3 := c2 ^^^ rotl c4 1
  let d4 := c3 ^^^ rotl c0 1
  let b0 := s.a0 ^^^ d0
  let b1 := rotl (s.a6 ^^^ d1) 44
  let b2 := rotl (s.a12 ^^^ d2) 43
  let b3 := rotl (s.a18 ^^^ d3) 21
  let b4 := rotl (s.a24 ^^^ d4) 14
  let b5 := rotl (s.a3 ^^^ d3) 28
  let b6 := rotl (s.a9 ^^^ d4) 20
  let b7 := rotl (s.a10 ^^^ d0) 3
  let b8 := rotl (s.a16 ^^^ d1) 45
  let b9 := rotl (s.a22 ^^^ d2) 61
  let b10 := rotl (s.a1 ^^^ d1) 1
  let b11 := rotl (s.a7 ^^^ d2) 6
  let b12 := rotl (s.a13 ^^^ d3) 25
  let b13 := rotl (s.a19 ^^^ d4) 8
  let b14 := rotl (s.a20 ^^^ d0) 18
  let b15 := rotl (s.a4 ^^^ d4) 27
  let b16 := rotl (s.a5 ^^^ d0) 36
  let b17 := rotl (s.a11 ^^^ d1) 10
  let b18 := rotl (s.a17 ^^^ d2) 15
  let b19 := rotl (s.a23 ^^^ d3) 56
  let b20 := rotl (s.a2 ^^^ d2) 62
  let b21 := rotl (s.a8 ^^^ d3) 55
  let b22 := rotl (s.a14 ^^^ d4) 39
  let b23 := rotl (s.a15 ^^^ d0) 41
  let b24 := rotl (s.a21 ^^^ d1) 2
  ⟨b0 ^^^ ((~~~ b1) &&& b2) ^^^ constant, b1 ^^^ ((~~~ b2) &&& b3),
   b2 ^^^ ((~~~ b3) &&& b4), b3 ^^^ ((~~~ b4) &&& b0),
   b4 ^^^ ((~~~ b0) &&& b1), b5 ^^^ ((~~~ b6) &&& b7),
   b6 ^^^ ((~~~ b7) &&& b8), b7 ^^^ ((~~~ b8) &&& b9),
   b8 ^^^ ((~~~ b9) &&& b5), b9 ^^^ ((~~~ b5) &&& b6),
   b10 ^^^ ((~~~ b11) &&& b12), b11 ^^^ ((~~~ b12) &&& b13),
   b12 ^^^ ((~~~ b13) &&& b14), b13 ^^^ ((~~~ b14) &&& b10),
   b14 ^^^ ((~~~ b10) &&& b11), b15 ^^^ ((~~~ b16) &&& b17),
   b16 ^^^ ((~~~ b17) &&& b18), b17 ^^^ ((~~~ b18) &&& b19),
   b18 ^^^ ((~~~ b19) &&& b15), b19 ^^^ ((~~~ b15) &&& b16),
   b20 ^^^ ((~~~ b21) &&& b22), b21 ^^^ ((~~~ b22) &&& b23),
   b22 ^^^ ((~~~ b23) &&& b24), b23 ^^^ ((~~~ b24) &&& b20),
   b24 ^^^ ((~~~ b20) &&& b21)⟩

/-- Twenty-four rounds. -/
def permute (s : Lanes) : Lanes :=
  roundConstants.foldl round s

/-- The byte at a position, zero past the end. -/
@[inline]
def byteAt (bytes : ByteArray) (pos : Nat) : UInt64 :=
  if h : pos < bytes.size then bytes[pos].toUInt64 else 0

/-- The little-endian lane that starts at a position. -/
def laneAt (bytes : ByteArray) (pos : Nat) : UInt64 :=
  byteAt bytes pos ||| (byteAt bytes (pos + 1) <<< 8) |||
    (byteAt bytes (pos + 2) <<< 16) ||| (byteAt bytes (pos + 3) <<< 24) |||
    (byteAt bytes (pos + 4) <<< 32) ||| (byteAt bytes (pos + 5) <<< 40) |||
    (byteAt bytes (pos + 6) <<< 48) ||| (byteAt bytes (pos + 7) <<< 56)

/-- Adds the block of seventeen lanes at a position to the state. -/
def addBlock (s : Lanes) (bytes : ByteArray) (pos : Nat) : Lanes :=
  { s with
    a0 := s.a0 ^^^ laneAt bytes pos,
    a1 := s.a1 ^^^ laneAt bytes (pos + 8),
    a2 := s.a2 ^^^ laneAt bytes (pos + 16),
    a3 := s.a3 ^^^ laneAt bytes (pos + 24),
    a4 := s.a4 ^^^ laneAt bytes (pos + 32),
    a5 := s.a5 ^^^ laneAt bytes (pos + 40),
    a6 := s.a6 ^^^ laneAt bytes (pos + 48),
    a7 := s.a7 ^^^ laneAt bytes (pos + 56),
    a8 := s.a8 ^^^ laneAt bytes (pos + 64),
    a9 := s.a9 ^^^ laneAt bytes (pos + 72),
    a10 := s.a10 ^^^ laneAt bytes (pos + 80),
    a11 := s.a11 ^^^ laneAt bytes (pos + 88),
    a12 := s.a12 ^^^ laneAt bytes (pos + 96),
    a13 := s.a13 ^^^ laneAt bytes (pos + 104),
    a14 := s.a14 ^^^ laneAt bytes (pos + 112),
    a15 := s.a15 ^^^ laneAt bytes (pos + 120),
    a16 := s.a16 ^^^ laneAt bytes (pos + 128) }

/-- Absorbs `count` consecutive blocks. -/
def absorb (bytes : ByteArray) : (count pos : Nat) → Lanes → Lanes
  | 0, _, s => s
  | count + 1, pos, s => absorb bytes count (pos + 136) (permute (addBlock s bytes pos))

/-- The message as an array, closed by the domain byte and zeros up to a block boundary; the last
byte of the last block has its top bit set. -/
def padded (domain : UInt8) (message : Bytes) : ByteArray :=
  let body := message.foldl ByteArray.push (ByteArray.emptyWithCapacity 272)
  let gap := 135 - body.size % 136
  let tail := if gap = 0 then [domain ||| 0x80] else domain :: (Bytes.zeros (gap - 1) ++ [0x80])
  tail.foldl ByteArray.push body

/-- The eight bytes of a lane, least significant first. -/
def laneBytes (w : UInt64) : Bytes :=
  [w.toUInt8, (w >>> 8).toUInt8, (w >>> 16).toUInt8, (w >>> 24).toUInt8,
   (w >>> 32).toUInt8, (w >>> 40).toUInt8, (w >>> 48).toUInt8, (w >>> 56).toUInt8]

/-- The first thirty-two bytes squeezed after absorbing the message. -/
def sponge (domain : UInt8) (message : Bytes) : Bytes :=
  let input := padded domain message
  let s := absorb input (input.size / 136) 0 initial
  laneBytes s.a0 ++ (laneBytes s.a1 ++ (laneBytes s.a2 ++ laneBytes s.a3))

/-- The SHA3-256 digest of a message. -/
def sha3 (message : Bytes) : Bytes :=
  sponge 0x06 message

/-- The first thirty-two bytes of SHAKE256 on a message. -/
def shake (message : Bytes) : Bytes :=
  sponge 0x1f message

theorem length_sha3 (message : Bytes) : (sha3 message).length = 32 := rfl

theorem length_shake (message : Bytes) : (shake message).length = 32 := rfl

end Hypertree.Keccak
