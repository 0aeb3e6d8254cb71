import Hypertree.Bytes

/-!
# The shape of a one-time key

A one-time key signs an `n`-byte digest with hash chains of `w` positions. The digest is read as
`messageDigits` digits in base `w`; `checksumDigits` further digits hold the sum of the digits'
distances from `w - 1`. Each digit owns one chain.
-/

namespace Hypertree

/-- The digest size in bytes and the number of positions of a chain, a power of two. -/
structure Winternitz where
  n : Nat
  w : Nat
  deriving DecidableEq, Repr

namespace Winternitz

variable (p : Winternitz)

/-- Bits per digit: the exponent of the highest power of two that divides `w`. -/
def digitBits : Nat :=
  (p.w ^^^ (p.w - 1)).log2

/-- Digits that hold the message. -/
def messageDigits : Nat :=
  Bytes.pieceCount p.digitBits (8 * p.n)

/-- The largest possible checksum. Checksums are 32-bit numbers, so it is reduced like one. -/
def maxChecksum : Nat :=
  p.messageDigits * (p.w - 1) % 2 ^ (32 : Nat)

/-- Digits that hold the largest possible checksum. -/
def checksumDigits : Nat :=
  p.maxChecksum.log2 / p.digitBits + 1

/-- The number of chains. -/
def chains : Nat :=
  p.messageDigits + p.checksumDigits

/-- The size of a one-time signature in bytes, and of a one-time public key. -/
def signatureBytes : Nat :=
  p.chains * p.n

/-- The shift that aligns the checksum digits with a byte boundary on the left. -/
def checksumShift : Nat :=
  (8 - p.checksumDigits * p.digitBits % 8) % 8

/-- The bytes that hold the shifted checksum. -/
def checksumBytes : Nat :=
  Bytes.pieceCount 8 (p.checksumDigits * p.digitBits)

end Winternitz

end Hypertree
