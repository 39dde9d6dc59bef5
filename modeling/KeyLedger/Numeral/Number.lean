import KeyLedger.Numeral.Binary64
import KeyLedger.Numeral.Shortest

/-!
# Numbers of a document

A number is an integer that fits in 64 bits, signed or unsigned, or a double. Which of the two a
literal denotes is decided by its spelling: an integer literal in range is an integer, and every
other literal, `-0` included, is a double. The double is computed from a 64-bit significand and a
power of ten, each step rounding; digits that no longer fit in the significand only move the point.
A literal whose magnitude is too large denotes no number.

## Main definitions

* `Number` — an integer or a double
* `Literal` — the parts of a numeric literal
* `Literal.parse?` — the grammar of numeric literals
* `Literal.value?` — the number that a literal denotes
* `Number.text` — the literal that denotes a number
-/

namespace KeyLedger

/-- The integers that stay integers: those of 64 bits, signed or unsigned. -/
def IsWide (n : Int) : Prop := -9223372036854775808 ≤ n ∧ n < 18446744073709551616

instance (n : Int) : Decidable (IsWide n) := by unfold IsWide; infer_instance

/-- A number of a document. -/
inductive Number where
  /-- An integer of 64 bits, signed or unsigned. -/
  | int (value : Int) (wide : IsWide value)
  /-- A double. -/
  | float (value : Binary64)
deriving DecidableEq

/-- A 64-bit offset as a number. -/
def Number.ofUInt64 (n : UInt64) : Number :=
  .int n.toNat ⟨by omega, by have := n.toNat_lt; omega⟩

/-- A count as a number; a count beyond 64 bits is written as the largest one. -/
def Number.ofNat (n : Nat) : Number :=
  if h : n < 18446744073709551616 then .int n ⟨by omega, by omega⟩
  else .int 18446744073709551615 ⟨by decide, by decide⟩

/-- The natural number below `bound` that a number is, if it is one. -/
def Number.below? (bound : Nat) : Number → Option Nat
  | .int n _ => if 0 ≤ n ∧ n < bound then some n.toNat else none
  | .float _ => none

/-! ### Literals -/

/-- The parts of a numeric literal. -/
structure Literal where
  /-- Whether a minus sign stands in front. -/
  negative : Bool
  /-- The digits before the point. -/
  whole : List Char
  /-- The digits after the point, empty if there is no point. -/
  fraction : List Char
  /-- Whether the exponent is negative, and its digits. -/
  exponent : Option (Bool × List Char)
deriving DecidableEq, Repr

namespace Literal

/-- The exponent part of a literal, which must take up all of the text. -/
def exponent? : List Char → Option (Option (Bool × List Char))
  | [] => some none
  | c :: cs =>
    if c = 'e' ∨ c = 'E' then
      let (negative, ds) := match cs with
        | '+' :: ds => (false, ds)
        | '-' :: ds => (true, ds)
        | ds => (false, ds)
      if ds.isEmpty || !ds.all Char.isDigit then none else some (some (negative, ds))
    else none

/-- The part of a literal from the point on. -/
def fraction? : List Char → Option (List Char × Option (Bool × List Char))
  | '.' :: cs =>
    let ds := cs.takeWhile Char.isDigit
    if ds.isEmpty then none
    else (exponent? (cs.dropWhile Char.isDigit)).map fun e => (ds, e)
  | cs => (exponent? cs).map fun e => ([], e)

/-- A literal: a sign, digits without a leading zero, a fraction and an exponent, of which only the
digits are required. -/
def parse? (cs : List Char) : Option Literal :=
  let (negative, body) := match cs with
    | '-' :: body => (true, body)
    | body => (false, body)
  let whole := body.takeWhile Char.isDigit
  if whole.isEmpty || (whole.head? == some '0' && whole.length != 1) then none
  else (fraction? (body.dropWhile Char.isDigit)).map fun (fraction, exponent) =>
    { negative, whole, fraction, exponent }

/-- The value of a decimal digit. -/
def digitValue (c : Char) : Nat :=
  c.toNat - '0'.toNat

/-- Appends digits to a significand as long as it fits in 64 bits, and returns the digits that are
left over. -/
def absorb (significand : Nat) : List Char → Nat × List Char
  | [] => (significand, [])
  | d :: ds =>
    if 10 * significand + digitValue d < UInt64.size then
      absorb (10 * significand + digitValue d) ds
    else (significand, d :: ds)

/-- The double `significand * 10 ^ exponent` with a sign. -/
def double? (negative : Bool) (significand : Nat) (exponent : Int) : Option Number := do
  let x ← Binary64.nearest? significand 1
  let y ← x.scale? exponent
  return .float (y.withSign negative)

/-- The number that an integer literal with the given magnitude denotes. -/
def integer? (negative : Bool) (magnitude : Nat) : Option Number :=
  let n : Int := if negative then -magnitude else magnitude
  if h : IsWide n ∧ ¬ (negative ∧ magnitude = 0) then some (.int n h.1)
  else double? negative magnitude 0

/-- The number that a literal denotes, if its magnitude is in range. An exponent beyond 31 bits is
decided without arithmetic: the number is zero, or too large. -/
def value? (l : Literal) : Option Number :=
  let (head, dropped) := absorb 0 l.whole
  if dropped.isEmpty ∧ l.fraction.isEmpty ∧ l.exponent.isNone then integer? l.negative head
  else
    let (significand, ignored) := absorb head l.fraction
    let shift : Int := dropped.length - (l.fraction.length - ignored.length : Nat)
    match l.exponent with
    | none => double? l.negative significand shift
    | some (negative, ds) =>
      let e := Nat.ofDigitChars 10 ds 0
      if 2147483648 ≤ e then
        if significand ≠ 0 ∧ !negative then none
        else some (.float (Binary64.zero.withSign l.negative))
      else double? l.negative significand (if negative then shift - e else shift + e)

end Literal

/-- The literal that denotes a number. -/
def Number.text : Number → List Char
  | .int n _ =>
    if n < 0 then '-' :: Nat.toDigits 10 n.natAbs else Nat.toDigits 10 n.natAbs
  | .float x => x.text

end KeyLedger
