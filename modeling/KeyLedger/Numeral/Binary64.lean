/-!
# Finite double-precision numbers

A finite double is a sign and a magnitude `mantissa * 2 ^ (exponent - 1074)`, with the mantissa
below `2 ^ 53` and, except at the least exponent, at least `2 ^ 52`: each value has one
representation. Arithmetic is exact in the natural numbers followed by one rounding to the nearest
double, halves going to the even mantissa; a magnitude that is too large has no double.

## Main definitions

* `Binary64` — a finite double
* `Binary64.nearest?` — the double nearest to a quotient
* `Binary64.scale?` — multiplication by a power of ten, rounding as floating-point arithmetic does
-/

namespace KeyLedger

/-- The bound on mantissas, `2 ^ 53`. -/
def Binary64.mantissaBound : Nat := 9007199254740992

/-- The leading bit of a mantissa, `2 ^ 52`. -/
def Binary64.leadingBit : Nat := 4503599627370496

/-- A finite double-precision number. -/
structure Binary64 where
  /-- The sign; zero has two. -/
  negative : Bool
  /-- The digits of the magnitude. -/
  mantissa : Nat
  /-- The magnitude is `mantissa * 2 ^ (exponent - 1074)`. -/
  exponent : Nat
  /-- The mantissa has at most fifty-three bits. -/
  mantissa_lt : mantissa < Binary64.mantissaBound
  /-- The exponent is that of a finite number. -/
  exponent_le : exponent ≤ 2045
  /-- The leading bit is set, except at the least exponent. -/
  normal : exponent = 0 ∨ Binary64.leadingBit ≤ mantissa
deriving DecidableEq, Repr

namespace Binary64

/-- Positive zero. -/
def zero : Binary64 := ⟨false, 0, 0, by decide, by decide, .inl rfl⟩

instance : Inhabited Binary64 := ⟨zero⟩

/-- The double with the given parts, if they are those of a finite double. -/
def ofParts? (negative : Bool) (mantissa exponent : Nat) : Option Binary64 :=
  if h : mantissa < mantissaBound ∧ exponent ≤ 2045 ∧ (exponent = 0 ∨ leadingBit ≤ mantissa) then
    some ⟨negative, mantissa, exponent, h.1, h.2.1, h.2.2⟩
  else none

/-- The natural number nearest to `num / den`; a half goes to the even neighbour. -/
def roundQuotient (num den : Nat) : Nat :=
  let q := num / den
  let r := num % den
  if den < 2 * r ∨ (2 * r = den ∧ q % 2 = 1) then q + 1 else q

/-- The positive double nearest to `num / den`, ties to even, unless it is too large. -/
def nearest? (num den : Nat) : Option Binary64 :=
  let units := num * Nat.pow 2 1074
  let exponent := (units / den).log2 - 52
  let mantissa := roundQuotient units (den * Nat.pow 2 exponent)
  if mantissa = mantissaBound then ofParts? false leadingBit (exponent + 1)
  else ofParts? false mantissa exponent

/-- The magnitude in units of `2 ^ (-1074)`, the least positive double. -/
def units (x : Binary64) : Nat :=
  x.mantissa * Nat.pow 2 x.exponent

/-- The product of two magnitudes, rounded. -/
def mul? (x y : Binary64) : Option Binary64 :=
  nearest? (x.units * y.units) (Nat.pow 2 2148)

/-- The quotient of two magnitudes, rounded. -/
def div? (x y : Binary64) : Option Binary64 :=
  nearest? x.units y.units

/-- The same magnitude with the given sign. -/
def withSign (x : Binary64) (negative : Bool) : Binary64 :=
  { x with negative }

/-! ### Powers of ten -/

/-- The largest power of ten that is a finite double. -/
def maxPower : Nat := 308

/-- The magnitude divided by `10 ^ n`. A divisor beyond the largest finite power of ten is divided
out in steps, each of them rounded, until the magnitude is zero or the rest is in range. -/
def divPowTen? (x : Binary64) (n : Nat) : Option Binary64 :=
  if n ≤ maxPower then nearest? (Nat.pow 10 n) 1 >>= x.div?
  else if x.mantissa = 0 then some x
  else do
    let p ← nearest? (Nat.pow 10 maxPower) 1
    let y ← x.div? p
    y.divPowTen? (n - maxPower)
termination_by n
decreasing_by simp [maxPower] at *; omega

/-- The magnitude multiplied by `10 ^ n`; only zero survives a factor beyond the largest finite
power of ten. -/
def mulPowTen? (x : Binary64) (n : Nat) : Option Binary64 :=
  if n ≤ maxPower then nearest? (Nat.pow 10 n) 1 >>= x.mul?
  else if x.mantissa = 0 then some x
  else none

/-- The magnitude multiplied by `10 ^ e`, for an exponent of either sign. -/
def scale? (x : Binary64) : Int → Option Binary64
  | .ofNat n => x.mulPowTen? n
  | .negSucc n => x.divPowTen? (n + 1)

end Binary64

end KeyLedger
