/-!
# Hexadecimal digits

Digits are written in lower case and read in either case.

## Main definitions

* `hexDigit`, `hexByte` — the digits of a value below sixteen, and of a byte
* `hexValue?` — the value of a digit
* `hexBytes?` — the bytes that a run of digits spells
-/

namespace KeyLedger.Text

/-- The hexadecimal digit of a value below sixteen, in lower case. -/
def hexDigit (n : Nat) : Char :=
  Char.ofNat (if n < 10 then '0'.toNat + n else 'a'.toNat + (n - 10))

/-- The two hexadecimal digits of a byte, in lower case. -/
def hexByte (b : UInt8) : List Char :=
  [hexDigit (b.toNat / 16), hexDigit (b.toNat % 16)]

/-- The value of a hexadecimal digit of either case. -/
def hexValue? (c : Char) : Option Nat :=
  if '0' ≤ c ∧ c ≤ '9' then some (c.toNat - '0'.toNat)
  else if 'a' ≤ c ∧ c ≤ 'f' then some (c.toNat - 'a'.toNat + 10)
  else if 'A' ≤ c ∧ c ≤ 'F' then some (c.toNat - 'A'.toNat + 10)
  else none

/-- The bytes that pairs of digits spell. -/
def hexBytes? : List Char → Option (List UInt8)
  | [] => some []
  | a :: b :: cs => do
    let high ← hexValue? a
    let low ← hexValue? b
    let bytes ← hexBytes? cs
    return UInt8.ofNat (16 * high + low) :: bytes
  | [_] => none

end KeyLedger.Text
