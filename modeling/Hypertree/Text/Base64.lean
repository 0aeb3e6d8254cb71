import Hypertree.Text

/-!
# Base64

Three bytes are written as four digits of six bits; a last group of one or two bytes is filled up
with `=` to four. The reader admits exactly what the writer produces: groups of four, padding only
at the end, and zero bits in what the padding leaves over.
-/

namespace Hypertree.Text

/-- The digit of a number below sixty-four. -/
def base64Digit (n : Nat) : Char :=
  if n < 26 then Char.ofNat ('A'.toNat + n)
  else if n < 52 then Char.ofNat ('a'.toNat + (n - 26))
  else if n < 62 then Char.ofNat ('0'.toNat + (n - 52))
  else if n = 62 then '+'
  else '/'

/-- The value of a digit. -/
def base64Value? (c : Char) : Option Nat :=
  if 'A' ≤ c ∧ c ≤ 'Z' then some (c.toNat - 'A'.toNat)
  else if 'a' ≤ c ∧ c ≤ 'z' then some (c.toNat - 'a'.toNat + 26)
  else if '0' ≤ c ∧ c ≤ '9' then some (c.toNat - '0'.toNat + 52)
  else if c = '+' then some 62
  else if c = '/' then some 63
  else none

/-- The base64 form of a byte string. -/
def base64 : Bytes → Text
  | [] => []
  | [a] =>
    let v := a.toNat * 16
    [base64Digit (v / 64), base64Digit (v % 64), '=', '=']
  | [a, b] =>
    let v := (a.toNat * 256 + b.toNat) * 4
    [base64Digit (v / 4096), base64Digit (v / 64 % 64), base64Digit (v % 64), '=']
  | a :: b :: c :: rest =>
    let v := (a.toNat * 256 + b.toNat) * 256 + c.toNat
    base64Digit (v / 262144) :: base64Digit (v / 4096 % 64) :: base64Digit (v / 64 % 64) ::
      base64Digit (v % 64) :: base64 rest

/-- The bytes of a last group with padding. -/
def base64Tail? (p q r : Char) : Option Bytes := do
  let p ← base64Value? p
  let q ← base64Value? q
  if r = '=' then
    if q % 16 = 0 then some [UInt8.ofNat (p * 4 + q / 16)] else none
  else
    let r ← base64Value? r
    if r % 4 = 0 then
      some [UInt8.ofNat (p * 4 + q / 16), UInt8.ofNat (q * 16 + r / 4)]
    else none

/-- The byte string with a given base64 form. -/
def ofBase64? : Text → Option Bytes
  | [] => some []
  | [p, q, r, '='] => base64Tail? p q r
  | p :: q :: r :: s :: rest =>
    match base64Value? p, base64Value? q, base64Value? r, base64Value? s, ofBase64? rest with
    | some p, some q, some r, some s, some bytes =>
      some (UInt8.ofNat (p * 4 + q / 16) :: UInt8.ofNat (q * 16 + r / 4) ::
        UInt8.ofNat (r * 64 + s) :: bytes)
    | _, _, _, _, _ => none
  | _ => none

end Hypertree.Text
