import KeyLedger.Numeral.Binary64

/-!
# The shortest decimal that reads back

Of all decimals that round to a given double, the one with the fewest digits is chosen, and of
those the nearest. The decimals that round to a double form an interval around it, which contains
its ends exactly when the mantissa is even. For each number of digits only the two neighbours of
the value on the decimal grid have to be tried, in exact arithmetic.

## Main definitions

* `Shortest.digits` — the digits and the position of the decimal point
* `Binary64.text` — the decimal text of a double
-/

namespace KeyLedger

namespace Shortest

/-- A positive decimal `0.d₁d₂… * 10 ^ point`, given by the natural number of its digits. -/
structure Decimal where
  /-- The digits, read as a natural number. -/
  coefficient : Nat
  /-- The number of digits before the decimal point; it may be negative. -/
  point : Int
deriving DecidableEq, Repr

/-- The interval of reals that round to a positive double, in units of `2 ^ (-1076)`: the value,
its lower end and its upper end. Below a power of two the doubles are twice as dense. -/
def interval (x : Binary64) : Nat × Nat × Nat :=
  let gap := Nat.pow 2 x.exponent
  let value := 4 * x.mantissa * gap
  let below := if x.mantissa = Binary64.leadingBit ∧ 0 < x.exponent then gap else 2 * gap
  (value, value - below, value + 2 * gap)

/-- The number of decimal digits before the point of a positive double. -/
def pointOf (x : Binary64) : Int :=
  let scaled := x.units * Nat.pow 10 330 / Nat.pow 2 1074
  (Nat.toDigits 10 scaled).length - 330

/-- The decimal with `n` digits that rounds to `x`, the nearest if there are two. -/
def withDigits? (x : Binary64) (point : Int) (n : Nat) : Option Nat :=
  let shift : Int := n - point
  let up := Nat.pow 10 shift.toNat
  let den := Nat.pow 2 1076 * Nat.pow 10 (-shift).toNat
  let (value, low, high) := interval x
  let closed := x.mantissa % 2 = 0
  let fits := fun d : Nat =>
    if closed then decide (low * up ≤ d * den ∧ d * den ≤ high * up)
    else decide (low * up < d * den ∧ d * den < high * up)
  let d := value * up / den
  let rest := value * up % den
  match fits d, fits (d + 1) with
  | true, true => some (if 2 * rest < den ∨ (2 * rest = den ∧ d % 2 = 0) then d else d + 1)
  | true, false => some d
  | false, true => some (d + 1)
  | false, false => none

/-- A natural number without its trailing zeros; `fuel` bounds how many may be dropped. -/
def dropZeros : Nat → Nat → Nat
  | 0, n => n
  | fuel + 1, n => if n % 10 = 0 ∧ n ≠ 0 then dropZeros fuel (n / 10) else n

/-- The shortest decimal that rounds to a positive double. Seventeen digits always suffice. -/
def digits (x : Binary64) : Decimal :=
  let point := pointOf x
  let found := (List.range 17).findSome? fun i =>
    (withDigits? x point (i + 1)).map fun d => (i + 1, d)
  match found with
  | none => ⟨0, 0⟩
  | some (n, d) => ⟨dropZeros 17 d, if d = Nat.pow 10 n then point + 1 else point⟩

end Shortest

namespace Binary64

/-- A decimal is written positionally when its point position is above `low` and at most `high`,
and with an exponent otherwise. -/
structure Style where
  /-- Positions at or below this one take an exponent. -/
  low : Int
  /-- Positions above this one take an exponent. -/
  high : Int
deriving DecidableEq, Repr

/-- Positional from `0.00001` up to sixteen digits before the point. -/
def standard : Style := ⟨-5, 16⟩

/-- The text of a positive decimal: always a digit on each side of a positional point, and always a
sign on an exponent. -/
def decimalText (style : Style) (d : Shortest.Decimal) : List Char :=
  let ds := Nat.toDigits 10 d.coefficient
  if style.low < d.point ∧ d.point ≤ style.high then
    if 0 < d.point then
      let n := d.point.toNat
      let whole := ds.take n ++ List.replicate (n - ds.length) '0'
      let fraction := ds.drop n
      whole ++ '.' :: (if fraction.isEmpty then ['0'] else fraction)
    else '0' :: '.' :: (List.replicate (-d.point).toNat '0' ++ ds)
  else
    let e := d.point - 1
    let mantissa := if ds.length ≤ 1 then ds else ds.take 1 ++ '.' :: ds.drop 1
    mantissa ++ 'e' :: (if e < 0 then '-' else '+') :: Nat.toDigits 10 e.natAbs

/-- The decimal text of a double. -/
def text (x : Binary64) : List Char :=
  let magnitude := if x.mantissa = 0 then ['0', '.', '0']
    else decimalText standard (Shortest.digits x)
  if x.negative then '-' :: magnitude else magnitude

end Binary64

end KeyLedger
