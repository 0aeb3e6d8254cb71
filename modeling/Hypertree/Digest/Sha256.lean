import Hypertree.Bytes

/-!
# SHA-256

The compression function runs on unboxed 32-bit words. Padding appends the bit `1`, zeros and the
64-bit length in bits; each 64-byte block is expanded to sixty-four words, and the working variables
are carried through one round per constant. The output is the eight chaining words, most significant
byte first, hence always thirty-two bytes (`length_digest`).
-/

namespace Hypertree.Sha256

/-- The chaining value: eight words. -/
structure State where
  a : UInt32
  b : UInt32
  c : UInt32
  d : UInt32
  e : UInt32
  f : UInt32
  g : UInt32
  h : UInt32

/-- The chaining value before the first block: fractional parts of square roots of primes. -/
def initial : State :=
  ⟨0x6a09e667, 0xbb67ae85, 0x3c6ef372, 0xa54ff53a, 0x510e527f, 0x9b05688c, 0x1f83d9ab, 0x5be0cd19⟩

/-- One constant per round: fractional parts of cube roots of primes. -/
def roundConstants : List UInt32 :=
  [0x428a2f98, 0x71374491, 0xb5c0fbcf, 0xe9b5dba5, 0x3956c25b, 0x59f111f1, 0x923f82a4, 0xab1c5ed5,
   0xd807aa98, 0x12835b01, 0x243185be, 0x550c7dc3, 0x72be5d74, 0x80deb1fe, 0x9bdc06a7, 0xc19bf174,
   0xe49b69c1, 0xefbe4786, 0x0fc19dc6, 0x240ca1cc, 0x2de92c6f, 0x4a7484aa, 0x5cb0a9dc, 0x76f988da,
   0x983e5152, 0xa831c66d, 0xb00327c8, 0xbf597fc7, 0xc6e00bf3, 0xd5a79147, 0x06ca6351, 0x14292967,
   0x27b70a85, 0x2e1b2138, 0x4d2c6dfc, 0x53380d13, 0x650a7354, 0x766a0abb, 0x81c2c92e, 0x92722c85,
   0xa2bfe8a1, 0xa81a664b, 0xc24b8b70, 0xc76c51a3, 0xd192e819, 0xd6990624, 0xf40e3585, 0x106aa070,
   0x19a4c116, 0x1e376c08, 0x2748774c, 0x34b0bcb5, 0x391c0cb3, 0x4ed8aa4a, 0x5b9cca4f, 0x682e6ff3,
   0x748f82ee, 0x78a5636f, 0x84c87814, 0x8cc70208, 0x90befffa, 0xa4506ceb, 0xbef9a3f7, 0xc67178f2]

/-- Rotation of a word to the right; the amount is between 1 and 31. -/
@[inline]
def rotr (x amount : UInt32) : UInt32 :=
  (x >>> amount) ||| (x <<< (32 - amount))

/-- The byte at a position, zero past the end. -/
@[inline]
def byteAt (bytes : ByteArray) (pos : Nat) : UInt32 :=
  if h : pos < bytes.size then bytes[pos].toUInt32 else 0

/-- The big-endian word that starts at a position. -/
@[inline]
def wordAt (bytes : ByteArray) (pos : Nat) : UInt32 :=
  (byteAt bytes pos <<< 24) ||| (byteAt bytes (pos + 1) <<< 16) |||
    (byteAt bytes (pos + 2) <<< 8) ||| byteAt bytes (pos + 3)

/-- Appends the next `count` words of the block to the schedule. -/
def loadWords (bytes : ByteArray) : (count pos : Nat) → Array UInt32 → Array UInt32
  | 0, _, words => words
  | count + 1, pos, words => loadWords bytes count (pos + 4) (words.push (wordAt bytes pos))

/-- Appends `count` expanded words to the schedule. -/
def expand : (count : Nat) → Array UInt32 → Array UInt32
  | 0, words => words
  | count + 1, words =>
    let t := words.size
    let w15 := words.getD (t - 15) 0
    let w2 := words.getD (t - 2) 0
    let s0 := rotr w15 7 ^^^ rotr w15 18 ^^^ (w15 >>> 3)
    let s1 := rotr w2 17 ^^^ rotr w2 19 ^^^ (w2 >>> 10)
    expand count (words.push (words.getD (t - 16) 0 + s0 + words.getD (t - 7) 0 + s1))

/-- One round per constant; `t` counts the schedule words used. -/
def rounds (words : Array UInt32) :
    List UInt32 → (t : Nat) → (a b c d e f g h : UInt32) → State
  | [], _, a, b, c, d, e, f, g, h => ⟨a, b, c, d, e, f, g, h⟩
  | k :: ks, t, a, b, c, d, e, f, g, h =>
    let s1 := rotr e 6 ^^^ rotr e 11 ^^^ rotr e 25
    let choice := (e &&& f) ^^^ ((~~~ e) &&& g)
    let t1 := h + s1 + choice + k + words.getD t 0
    let s0 := rotr a 2 ^^^ rotr a 13 ^^^ rotr a 22
    let majority := (a &&& b) ^^^ (a &&& c) ^^^ (b &&& c)
    rounds words ks (t + 1) (t1 + s0 + majority) a b c (d + t1) e f g

/-- Folds the block at a position into the chaining value. -/
def compress (s : State) (bytes : ByteArray) (pos : Nat) : State :=
  let words := expand 48 (loadWords bytes 16 pos (Array.emptyWithCapacity 64))
  let r := rounds words roundConstants 0 s.a s.b s.c s.d s.e s.f s.g s.h
  ⟨s.a + r.a, s.b + r.b, s.c + r.c, s.d + r.d, s.e + r.e, s.f + r.f, s.g + r.g, s.h + r.h⟩

/-- Folds `count` consecutive blocks into the chaining value. -/
def absorb (bytes : ByteArray) : (count pos : Nat) → State → State
  | 0, _, s => s
  | count + 1, pos, s => absorb bytes count (pos + 64) (compress s bytes pos)

/-- The message as an array, closed by the bit `1`, zeros and the 64-bit length in bits. -/
def padded (message : Bytes) : ByteArray :=
  let body := message.foldl ByteArray.push (ByteArray.emptyWithCapacity 192)
  let gap := (119 - body.size % 64) % 64
  let tail := 0x80 :: (Bytes.zeros gap ++ Bytes.bigEndian 8 (8 * body.size))
  tail.foldl ByteArray.push body

/-- The four bytes of a word, most significant first. -/
def wordBytes (w : UInt32) : Bytes :=
  [(w >>> 24).toUInt8, (w >>> 16).toUInt8, (w >>> 8).toUInt8, w.toUInt8]

/-- The bytes of a chaining value. -/
def State.bytes (s : State) : Bytes :=
  wordBytes s.a ++ (wordBytes s.b ++ (wordBytes s.c ++ (wordBytes s.d ++
    (wordBytes s.e ++ (wordBytes s.f ++ (wordBytes s.g ++ wordBytes s.h))))))

/-- The SHA-256 digest of a message. -/
def digest (message : Bytes) : Bytes :=
  let input := padded message
  (absorb input (input.size / 64) 0 initial).bytes

theorem length_digest (message : Bytes) : (digest message).length = 32 := rfl

end Hypertree.Sha256
