import Hypertree.Text

/-!
# Numbers in text

Counts are written in decimal without leading zeros, nonces as eight hexadecimal digits. Readers
admit more than writers produce: a plus sign and leading zeros in decimal, a plus sign and upper
case in hexadecimal. A number must stay below the bound of its type.
-/

namespace Hypertree.Text

/-- The decimal digits of a number, without leading zeros. -/
def decimal (n : Nat) : Text :=
  if n < 10 then [Nat.digitChar n] else decimal (n / 10) ++ [Nat.digitChar (n % 10)]
termination_by n
decreasing_by omega

/-- The value of a decimal digit. -/
def decimalValue? (c : Char) : Option Nat :=
  if '0' ≤ c ∧ c ≤ '9' then some (c.toNat - '0'.toNat) else none

/-- The number that digits in a base continue from `value`, if it stays below a bound. A number only
grows with its digits, so reading ends at the first that takes it to the bound. -/
def continueNumber (base : Nat) (digitValue? : Char → Option Nat) (bound : Nat) :
    (value : Nat) → Text → Option Nat
  | value, [] => some value
  | value, c :: rest =>
    match digitValue? c with
    | none => none
    | some d =>
      let next := base * value + d
      if next < bound then continueNumber base digitValue? bound next rest else none

/-- A number below a bound: an optional plus sign and at least one digit. -/
def readNumber? (base : Nat) (digitValue? : Char → Option Nat) (bound : Nat) (text : Text) :
    Option Nat :=
  let digits := match text with
    | '+' :: rest => rest
    | _ => text
  if digits.isEmpty then none else continueNumber base digitValue? bound 0 digits

/-- A decimal number below a bound. -/
def readDecimal? (bound : Nat) (text : Text) : Option Nat :=
  readNumber? 10 decimalValue? bound text

/-- A hexadecimal number below a bound. -/
def readHex? (bound : Nat) (text : Text) : Option Nat :=
  readNumber? 16 hexValue? bound text

/-- The last `width` hexadecimal digits of a number. -/
def hexPadded : (width n : Nat) → Text
  | 0, _ => []
  | width + 1, n => hexPadded width (n / 16) ++ [hexDigit (n % 16)]

end Hypertree.Text
