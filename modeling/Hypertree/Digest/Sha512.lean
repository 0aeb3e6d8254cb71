import Hypertree.Bytes

/-!
# SHA-512

The 64-bit sibling of SHA-256: blocks of 128 bytes, eighty rounds, a 128-bit length in the padding
and an output of sixty-four bytes (`length_digest`).
-/

namespace Hypertree.Sha512

/-- The chaining value: eight words. -/
structure State where
  a : UInt64
  b : UInt64
  c : UInt64
  d : UInt64
  e : UInt64
  f : UInt64
  g : UInt64
  h : UInt64

/-- The chaining value before the first block: fractional parts of square roots of primes. -/
def initial : State :=
  ⟨0x6a09e667f3bcc908, 0xbb67ae8584caa73b, 0x3c6ef372fe94f82b, 0xa54ff53a5f1d36f1,
   0x510e527fade682d1, 0x9b05688c2b3e6c1f, 0x1f83d9abfb41bd6b, 0x5be0cd19137e2179⟩

/-- One constant per round: fractional parts of cube roots of primes. -/
def roundConstants : List UInt64 :=
  [0x428a2f98d728ae22, 0x7137449123ef65cd, 0xb5c0fbcfec4d3b2f, 0xe9b5dba58189dbbc,
   0x3956c25bf348b538, 0x59f111f1b605d019, 0x923f82a4af194f9b, 0xab1c5ed5da6d8118,
   0xd807aa98a3030242, 0x12835b0145706fbe, 0x243185be4ee4b28c, 0x550c7dc3d5ffb4e2,
   0x72be5d74f27b896f, 0x80deb1fe3b1696b1, 0x9bdc06a725c71235, 0xc19bf174cf692694,
   0xe49b69c19ef14ad2, 0xefbe4786384f25e3, 0x0fc19dc68b8cd5b5, 0x240ca1cc77ac9c65,
   0x2de92c6f592b0275, 0x4a7484aa6ea6e483, 0x5cb0a9dcbd41fbd4, 0x76f988da831153b5,
   0x983e5152ee66dfab, 0xa831c66d2db43210, 0xb00327c898fb213f, 0xbf597fc7beef0ee4,
   0xc6e00bf33da88fc2, 0xd5a79147930aa725, 0x06ca6351e003826f, 0x142929670a0e6e70,
   0x27b70a8546d22ffc, 0x2e1b21385c26c926, 0x4d2c6dfc5ac42aed, 0x53380d139d95b3df,
   0x650a73548baf63de, 0x766a0abb3c77b2a8, 0x81c2c92e47edaee6, 0x92722c851482353b,
   0xa2bfe8a14cf10364, 0xa81a664bbc423001, 0xc24b8b70d0f89791, 0xc76c51a30654be30,
   0xd192e819d6ef5218, 0xd69906245565a910, 0xf40e35855771202a, 0x106aa07032bbd1b8,
   0x19a4c116b8d2d0c8, 0x1e376c085141ab53, 0x2748774cdf8eeb99, 0x34b0bcb5e19b48a8,
   0x391c0cb3c5c95a63, 0x4ed8aa4ae3418acb, 0x5b9cca4f7763e373, 0x682e6ff3d6b2b8a3,
   0x748f82ee5defb2fc, 0x78a5636f43172f60, 0x84c87814a1f0ab72, 0x8cc702081a6439ec,
   0x90befffa23631e28, 0xa4506cebde82bde9, 0xbef9a3f7b2c67915, 0xc67178f2e372532b,
   0xca273eceea26619c, 0xd186b8c721c0c207, 0xeada7dd6cde0eb1e, 0xf57d4f7fee6ed178,
   0x06f067aa72176fba, 0x0a637dc5a2c898a6, 0x113f9804bef90dae, 0x1b710b35131c471b,
   0x28db77f523047d84, 0x32caab7b40c72493, 0x3c9ebe0a15c9bebc, 0x431d67c49c100d4c,
   0x4cc5d4becb3e42b6, 0x597f299cfc657e2a, 0x5fcb6fab3ad6faec, 0x6c44198c4a475817]

/-- Rotation of a word to the right; the amount is between 1 and 63. -/
@[inline]
def rotr (x amount : UInt64) : UInt64 :=
  (x >>> amount) ||| (x <<< (64 - amount))

/-- The byte at a position, zero past the end. -/
@[inline]
def byteAt (bytes : ByteArray) (pos : Nat) : UInt64 :=
  if h : pos < bytes.size then bytes[pos].toUInt64 else 0

/-- The big-endian word that starts at a position. -/
@[inline]
def wordAt (bytes : ByteArray) (pos : Nat) : UInt64 :=
  (byteAt bytes pos <<< 56) ||| (byteAt bytes (pos + 1) <<< 48) |||
    (byteAt bytes (pos + 2) <<< 40) ||| (byteAt bytes (pos + 3) <<< 32) |||
    (byteAt bytes (pos + 4) <<< 24) ||| (byteAt bytes (pos + 5) <<< 16) |||
    (byteAt bytes (pos + 6) <<< 8) ||| byteAt bytes (pos + 7)

/-- Appends the next `count` words of the block to the schedule. -/
def loadWords (bytes : ByteArray) : (count pos : Nat) → Array UInt64 → Array UInt64
  | 0, _, words => words
  | count + 1, pos, words => loadWords bytes count (pos + 8) (words.push (wordAt bytes pos))

/-- Appends `count` expanded words to the schedule. -/
def expand : (count : Nat) → Array UInt64 → Array UInt64
  | 0, words => words
  | count + 1, words =>
    let t := words.size
    let w15 := words.getD (t - 15) 0
    let w2 := words.getD (t - 2) 0
    let s0 := rotr w15 1 ^^^ rotr w15 8 ^^^ (w15 >>> 7)
    let s1 := rotr w2 19 ^^^ rotr w2 61 ^^^ (w2 >>> 6)
    expand count (words.push (words.getD (t - 16) 0 + s0 + words.getD (t - 7) 0 + s1))

/-- One round per constant; `t` counts the schedule words used. -/
def rounds (words : Array UInt64) :
    List UInt64 → (t : Nat) → (a b c d e f g h : UInt64) → State
  | [], _, a, b, c, d, e, f, g, h => ⟨a, b, c, d, e, f, g, h⟩
  | k :: ks, t, a, b, c, d, e, f, g, h =>
    let s1 := rotr e 14 ^^^ rotr e 18 ^^^ rotr e 41
    let choice := (e &&& f) ^^^ ((~~~ e) &&& g)
    let t1 := h + s1 + choice + k + words.getD t 0
    let s0 := rotr a 28 ^^^ rotr a 34 ^^^ rotr a 39
    let majority := (a &&& b) ^^^ (a &&& c) ^^^ (b &&& c)
    rounds words ks (t + 1) (t1 + s0 + majority) a b c (d + t1) e f g

/-- Folds the block at a position into the chaining value. -/
def compress (s : State) (bytes : ByteArray) (pos : Nat) : State :=
  let words := expand 64 (loadWords bytes 16 pos (Array.emptyWithCapacity 80))
  let r := rounds words roundConstants 0 s.a s.b s.c s.d s.e s.f s.g s.h
  ⟨s.a + r.a, s.b + r.b, s.c + r.c, s.d + r.d, s.e + r.e, s.f + r.f, s.g + r.g, s.h + r.h⟩

/-- Folds `count` consecutive blocks into the chaining value. -/
def absorb (bytes : ByteArray) : (count pos : Nat) → State → State
  | 0, _, s => s
  | count + 1, pos, s => absorb bytes count (pos + 128) (compress s bytes pos)

/-- The message as an array, closed by the bit `1`, zeros and the 128-bit length in bits. -/
def padded (message : Bytes) : ByteArray :=
  let body := message.foldl ByteArray.push (ByteArray.emptyWithCapacity 384)
  let gap := (239 - body.size % 128) % 128
  let tail := 0x80 :: (Bytes.zeros gap ++ Bytes.bigEndian 16 (8 * body.size))
  tail.foldl ByteArray.push body

/-- The eight bytes of a word, most significant first. -/
def wordBytes (w : UInt64) : Bytes :=
  [(w >>> 56).toUInt8, (w >>> 48).toUInt8, (w >>> 40).toUInt8, (w >>> 32).toUInt8,
   (w >>> 24).toUInt8, (w >>> 16).toUInt8, (w >>> 8).toUInt8, w.toUInt8]

/-- The bytes of a chaining value. -/
def State.bytes (s : State) : Bytes :=
  wordBytes s.a ++ (wordBytes s.b ++ (wordBytes s.c ++ (wordBytes s.d ++
    (wordBytes s.e ++ (wordBytes s.f ++ (wordBytes s.g ++ wordBytes s.h))))))

/-- The SHA-512 digest of a message. -/
def digest (message : Bytes) : Bytes :=
  let input := padded message
  (absorb input (input.size / 128) 0 initial).bytes

theorem length_digest (message : Bytes) : (digest message).length = 64 := rfl

end Hypertree.Sha512
