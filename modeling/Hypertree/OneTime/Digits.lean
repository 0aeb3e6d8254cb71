import Hypertree.OneTime.Lengths

/-!
# Message digits

`baseW` reads a byte string as digits of a fixed number of bits, most significant first. It streams:
a 64-bit accumulator takes a byte when fewer bits than a digit are left, and the digit is cut from
its low end; bits already used are shifted out of reach and never cleared. Past the end of the
string the digits are padded with zero bits.

The digits of a message are its base-`w` digits followed by those of their checksum.
-/

namespace Hypertree

/-- Takes bytes into the accumulator until it holds at least one digit of `width` bits, or the input
ends. `count` is the number of bits not yet used. -/
def refill (width : Nat) : (bits : UInt64) → (count : Nat) → Bytes → UInt64 × Nat × Bytes
  | bits, count, [] => (bits, count, [])
  | bits, count, byte :: rest =>
    if count < width then refill width ((bits <<< 8) ||| byte.toUInt64) (count + 8) rest
    else (bits, count, byte :: rest)

/-- The next `len` digits of `width` bits, from an accumulator with `count` unused bits and the rest
of the input. -/
def digitsFrom (width : Nat) : (len : Nat) → (bits : UInt64) → (count : Nat) → Bytes → List Nat
  | 0, _, _, _ => []
  | len + 1, bits, count, input =>
    let (bits, count, rest) := refill width bits count input
    let mask : UInt64 := (1 <<< UInt64.ofNat width) - 1
    if width ≤ count then
      ((bits >>> UInt64.ofNat (count - width)) &&& mask).toNat ::
        digitsFrom width len bits (count - width) rest
    else
      -- the input has ended
      ((bits <<< UInt64.ofNat (width - count)) &&& mask).toNat :: digitsFrom width len bits 0 rest

/-- The first `len` digits of `width` bits of a byte string, most significant first. -/
def baseW (input : Bytes) (width len : Nat) : List Nat :=
  digitsFrom width len 0 0 input

/-- The sum of the digits' distances from `w - 1`, in 32-bit arithmetic. -/
def checksum (w : Nat) (digits : List Nat) : UInt32 :=
  digits.foldl (fun sum digit => sum + (UInt32.ofNat w - 1 - UInt32.ofNat digit)) 0

namespace Winternitz

/-- The checksum as the bytes from which its digits are read. -/
def checksumField (p : Winternitz) (digits : List Nat) : Bytes :=
  Bytes.bigEndian p.checksumBytes ((checksum p.w digits).toNat <<< p.checksumShift)

/-- The digits of a message followed by the digits of their checksum: one per chain. -/
def digits (p : Winternitz) (message : Bytes) : List Nat :=
  let body := baseW message p.digitBits p.messageDigits
  body ++ baseW (p.checksumField body) p.digitBits p.checksumDigits

end Winternitz

end Hypertree
