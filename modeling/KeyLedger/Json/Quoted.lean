import KeyLedger.Text.Hex

/-!
# Quoted strings

The text between the quotes of a JSON string. Writing escapes the quote, the backslash and the
control characters below the space, five of them by letter and the others by number. Reading
accepts every escape of the format; a character beyond sixteen bits is escaped as a pair of
surrogates, and half a pair denotes no character. A string with such a half is well-formed text
without a value, which matters only when somebody asks for the value.

## Main definitions

* `Quoted.encode` — the written form of a text
* `Quoted.decode` — whether a written form is well-formed, and the text if it has one
-/

namespace KeyLedger.Quoted

/-- The escape of a character, or the character itself. -/
def encodeChar (c : Char) : List Char :=
  if c = '"' then ['\\', '"']
  else if c = '\\' then ['\\', '\\']
  else if c = '\x08' then ['\\', 'b']
  else if c = '\x0c' then ['\\', 'f']
  else if c = '\n' then ['\\', 'n']
  else if c = '\r' then ['\\', 'r']
  else if c = '\t' then ['\\', 't']
  else if c.toNat < 0x20 then
    ['\\', 'u', '0', '0', Text.hexDigit (c.toNat / 16), Text.hexDigit (c.toNat % 16)]
  else [c]

/-- The text between the quotes. -/
def encode (cs : List Char) : List Char :=
  cs.flatMap encodeChar

/-- The value of four hexadecimal digits. -/
def hex4? (a b c d : Char) : Option Nat := do
  let w ← Text.hexValue? a
  let x ← Text.hexValue? b
  let y ← Text.hexValue? c
  let z ← Text.hexValue? d
  return 4096 * w + 256 * x + 16 * y + z

/-- The character that a one-letter escape stands for. -/
def escaped? (c : Char) : Option Char :=
  if c = '"' ∨ c = '\\' ∨ c = '/' then some c
  else if c = 'b' then some '\x08'
  else if c = 'f' then some '\x0c'
  else if c = 'n' then some '\n'
  else if c = 'r' then some '\r'
  else if c = 't' then some '\t'
  else none

/-- One element of a quoted text: a character, or half of a surrogate pair. -/
inductive Element where
  /-- A whole character. -/
  | char (c : Char)
  /-- A sixteen-bit unit that is no character. -/
  | half (n : Nat)
deriving DecidableEq, Repr

/-- The first half of a surrogate pair. -/
def isHigh (n : Nat) : Bool := decide (0xD800 ≤ n ∧ n ≤ 0xDBFF)

/-- The second half of a surrogate pair. -/
def isLow (n : Nat) : Bool := decide (0xDC00 ≤ n ∧ n ≤ 0xDFFF)

/-- The element that a numeric escape stands for. -/
def Element.ofUnit (n : Nat) : Element :=
  if isHigh n || isLow n then .half n else .char (Char.ofNat n)

/-- The elements of the text between quotes, unless it is malformed. -/
def elements? : List Char → Option (List Element)
  | [] => some []
  | '\\' :: 'u' :: a :: b :: c :: d :: rest => do
    let n ← hex4? a b c d
    let es ← elements? rest
    return .ofUnit n :: es
  | '\\' :: c :: rest => do
    let x ← escaped? c
    let es ← elements? rest
    return .char x :: es
  | c :: rest =>
    if c.toNat < 0x20 ∨ c = '\\' then none
    else (elements? rest).map (.char c :: ·)

/-- The character of a surrogate pair. -/
def pairValue (high low : Nat) : Char :=
  Char.ofNat (0x10000 + (high - 0xD800) * 0x400 + (low - 0xDC00))

/-- The text of a list of elements, in which halves have to come in pairs. -/
def join? : List Element → Option (List Char)
  | [] => some []
  | .char c :: es => (join? es).map (c :: ·)
  | .half n :: .half m :: es =>
    if isHigh n && isLow m then (join? es).map (pairValue n m :: ·) else none
  | .half _ :: _ => none

/-- Reads the text between quotes. There is no result if the text is malformed; the result is
`none` if it is well-formed but half a surrogate pair keeps it from having a value. -/
def decode (cs : List Char) : Option (Option (List Char)) :=
  (elements? cs).map join?

end KeyLedger.Quoted
