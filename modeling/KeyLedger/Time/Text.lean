import KeyLedger.Text.Blank
import KeyLedger.Time.Instant

/-!
# The text of an instant

An instant is written as date and time in UTC, with as many digits of the second as are needed, in
groups of three. Years of other than four digits carry a sign.

Reading is more liberal. Numbers need not be padded, blanks may stand before every number and mark
and at the end, date and time may be separated by a `T` of either case or by a space, and the
instant may be given at an offset from UTC.

## Main definitions

* `Instant.text` — the written form
* `Instant.parse?` — reads a written form
* `Instant.stamp` — date and time to the minute, for file names
-/

namespace KeyLedger

namespace Instant

/-! ### Writing -/

/-- A number padded with zeros to a width. -/
def padded (width n : Nat) : List Char :=
  let ds := Nat.toDigits 10 n
  List.replicate (width - ds.length) '0' ++ ds

/-- A year, with a sign unless it has four digits. -/
def yearText (year : Int) : List Char :=
  if 0 ≤ year ∧ year ≤ 9999 then padded 4 year.toNat
  else (if year < 0 then '-' else '+') :: padded 4 year.natAbs

/-- The fraction of a second, in the fewest groups of three digits that give it exactly. -/
def fractionText (nano : Nat) : List Char :=
  if nano = 0 then []
  else if nano % 1000000 = 0 then '.' :: padded 3 (nano / 1000000)
  else if nano % 1000 = 0 then '.' :: padded 6 (nano / 1000)
  else '.' :: padded 9 nano

/-- The written form of an instant. -/
def chars (t : Instant) : List Char :=
  let leap := nanosPerSecond ≤ t.time.nano
  let second := if leap then 60 else t.time.second
  let nano := if leap then t.time.nano - nanosPerSecond else t.time.nano
  yearText t.date.year ++ '-' :: padded 2 t.date.month ++ '-' :: padded 2 t.date.day
    ++ 'T' :: padded 2 t.time.hour ++ ':' :: padded 2 t.time.minute ++ ':' :: padded 2 second
    ++ fractionText nano ++ ['Z']

/-- The written form of an instant, as a string. -/
def text (t : Instant) : String := String.ofList t.chars

/-- Date and time to the minute, without punctuation inside either. -/
def stamp (t : Instant) : String :=
  String.ofList (yearText t.date.year ++ padded 2 t.date.month ++ padded 2 t.date.day
    ++ '-' :: padded 2 t.time.hour ++ padded 2 t.time.minute)

/-! ### Reading -/

/-- Reads a part of a text and leaves the rest. -/
abbrev Scan (α : Type) : Type := StateT (List Char) Option α

namespace Scan

/-- Skips blanks. -/
def blanks : Scan Unit := modify (List.dropWhile Text.isBlank)

/-- Takes one character that satisfies `p`. -/
def oneOf (p : Char → Bool) : Scan Char := do
  match ← get with
  | c :: cs => if p c then set cs; return c else failure
  | [] => failure

/-- Takes at least one digit and at most `width` of them. -/
def digits (width : Nat) : Scan (List Char) := do
  let cs ← get
  let ds := (cs.take width).takeWhile Char.isDigit
  if ds.isEmpty then failure
  set (cs.drop ds.length)
  return ds

/-- Takes a number of at most `width` digits, with blanks before it. -/
def number (width : Nat) : Scan Nat := do
  blanks
  return Nat.ofDigitChars 10 (← digits width) 0

/-- Takes a mark, with blanks before it. -/
def mark (c : Char) : Scan Unit := do
  blanks
  let _ ← oneOf (· == c)

/-- Takes a year: a sign and any number of digits, or at most four digits. -/
def year : Scan Int := do
  blanks
  let cs ← get
  match cs with
  | '-' :: rest => do
    set rest
    return -(Nat.ofDigitChars 10 (← digits rest.length) 0 : Nat)
  | '+' :: rest => do
    set rest
    return (Nat.ofDigitChars 10 (← digits rest.length) 0 : Nat)
  | _ => return (Nat.ofDigitChars 10 (← digits 4) 0 : Nat)

/-- Takes the fraction of a second, in nanoseconds, if there is one. Digits after the ninth are
dropped. -/
def fraction : Scan Nat := do
  match ← get with
  | '.' :: rest => do
    set rest
    let ds ← digits 9
    modify (List.dropWhile Char.isDigit)
    return Nat.ofDigitChars 10 ds 0 * Nat.pow 10 (9 - ds.length)
  | _ => return 0

/-- Takes two digits. -/
def pair : Scan Nat := do
  let a ← oneOf Char.isDigit
  let b ← oneOf Char.isDigit
  return Nat.ofDigitChars 10 [a, b] 0

/-- Takes an offset from UTC in minutes, with blanks before it: one of the names of UTC, or a sign,
hours and minutes. -/
def offset : Scan Int := do
  blanks
  let cs ← get
  match cs with
  | u :: t :: c :: rest =>
    if u.toLower = 'u' ∧ t.toLower = 't' ∧ c.toLower = 'c' then do
      set rest
      return 0
    else numeric
  | _ => numeric
where
  /-- Takes the single letter for UTC, or a sign, hours and minutes, with any colons and blanks
  between the two. -/
  numeric : Scan Int := do
    let sign ← oneOf fun c => c == 'Z' || c == 'z' || c == '+' || c == '-' || c == '\u2212'
    if sign = 'Z' ∨ sign = 'z' then return 0
    let hours ← pair
    modify (List.dropWhile fun c => c == ':' || Text.isBlank c)
    let minutes ← pair
    if 60 ≤ minutes ∨ 24 ≤ hours then failure
    let total : Int := hours * 60 + minutes
    return if sign = '+' then total else -total

/-- Takes a date and a time at an offset from UTC. -/
def instant : Scan Instant := do
  let y ← year
  mark '-'
  let month ← number 2
  mark '-'
  let day ← number 2
  let _ ← oneOf fun c => c == 'T' || c == 't' || c == ' '
  let hour ← number 2
  mark ':'
  let minute ← number 2
  mark ':'
  let second ← number 2
  let nano ← fraction
  let ahead ← offset
  let date ← Date.of? y month day
  let time ← TimeOfDay.of? hour minute second nano
  Instant.ofLocal? date time ahead

end Scan

/-- Reads a written form of an instant; only blanks may follow it. -/
def parse? (s : String) : Option Instant := do
  let (t, rest) ← Scan.instant.run s.toList
  if rest.all Text.isBlank then some t else none

end Instant

end KeyLedger
