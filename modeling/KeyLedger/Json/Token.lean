import KeyLedger.Json.Quoted
import KeyLedger.Numeral.Number

/-!
# JSON tokens

The lexer is an automaton that reads one character at a time. What it holds between characters is
the token begun but not finished; a number or a word ends where a character that cannot belong to
it begins, and that character then starts the next token. Running it over a concatenation is
running it over the parts in turn.

A number that is too large and a string with half a surrogate pair are tokens without a value.

## Main definitions

* `Token` — tokens
* `Token.lex?` — the tokens of a text
-/

namespace KeyLedger

/-- A JSON token. -/
inductive Token where
  /-- An opening brace. -/
  | openBrace
  /-- A closing brace. -/
  | closeBrace
  /-- An opening bracket. -/
  | openBracket
  /-- A closing bracket. -/
  | closeBracket
  /-- The colon between key and value. -/
  | colon
  /-- The comma between items. -/
  | comma
  /-- The word for the null value. -/
  | null
  /-- The word for a truth value. -/
  | bool (b : Bool)
  /-- A numeric literal, with the number it denotes if there is one. -/
  | num (n : Option Number)
  /-- A quoted string, with the text it denotes if there is one. -/
  | str (s : Option String)
deriving DecidableEq

namespace Token

/-- A token that has begun; its characters so far are held last first. -/
inductive Pending where
  /-- Between tokens. -/
  | idle
  /-- Within a word. -/
  | word (spelled : List Char)
  /-- Within a numeric literal. -/
  | number (spelled : List Char)
  /-- Within a quoted string. -/
  | text (raw : List Char)
  /-- Just after a backslash within a quoted string. -/
  | escape (raw : List Char)
deriving DecidableEq, Repr

/-- The characters between tokens. -/
def isGap (c : Char) : Bool :=
  c == ' ' || c == '\t' || c == '\n' || c == '\r'

/-- The characters of numeric literals. -/
def isNumeral (c : Char) : Bool :=
  c.isDigit || c == '-' || c == '+' || c == '.' || c == 'e' || c == 'E'

/-- The token of a punctuation mark. -/
def punctuation? (c : Char) : Option Token :=
  if c = '\x7b' then some .openBrace
  else if c = '\x7d' then some .closeBrace
  else if c = '[' then some .openBracket
  else if c = ']' then some .closeBracket
  else if c = ':' then some .colon
  else if c = ',' then some .comma
  else none

/-- The token of a word. -/
def word? (spelled : List Char) : Option Token :=
  if spelled = ['n', 'u', 'l', 'l'] then some .null
  else if spelled = ['t', 'r', 'u', 'e'] then some (.bool true)
  else if spelled = ['f', 'a', 'l', 's', 'e'] then some (.bool false)
  else none

/-- The token of a numeric literal. -/
def number? (spelled : List Char) : Option Token :=
  (Literal.parse? spelled).map fun l => .num l.value?

/-- The token of a quoted string. -/
def text? (raw : List Char) : Option Token :=
  (Quoted.decode raw).map fun s => .str (s.map String.ofList)

/-- What the lexer holds: the token begun, and the finished tokens, last first. -/
structure State where
  /-- The token begun. -/
  pending : Pending
  /-- The tokens finished. -/
  tokens : List Token
deriving DecidableEq

/-- A character between tokens begins the next one. -/
def start (tokens : List Token) (c : Char) : Option State :=
  if isGap c then some ⟨.idle, tokens⟩
  else if c = '"' then some ⟨.text [], tokens⟩
  else if c.isDigit || c = '-' then some ⟨.number [c], tokens⟩
  else if c.isLower then some ⟨.word [c], tokens⟩
  else (punctuation? c).map fun t => ⟨.idle, t :: tokens⟩

/-- One character. -/
def step (s : State) (c : Char) : Option State :=
  match s.pending with
  | .idle => start s.tokens c
  | .word spelled =>
    if c.isLower then some ⟨.word (c :: spelled), s.tokens⟩
    else word? spelled.reverse >>= fun t => start (t :: s.tokens) c
  | .number spelled =>
    if isNumeral c then some ⟨.number (c :: spelled), s.tokens⟩
    else number? spelled.reverse >>= fun t => start (t :: s.tokens) c
  | .text raw =>
    if c = '"' then (text? raw.reverse).map fun t => ⟨.idle, t :: s.tokens⟩
    else if c = '\\' then some ⟨.escape (c :: raw), s.tokens⟩
    else some ⟨.text (c :: raw), s.tokens⟩
  | .escape raw => some ⟨.text (c :: raw), s.tokens⟩

/-- The tokens at the end of a text, in order. An unfinished string is malformed. -/
def finish (s : State) : Option (List Token) :=
  match s.pending with
  | .idle => some s.tokens.reverse
  | .word spelled => (word? spelled.reverse).map fun t => (t :: s.tokens).reverse
  | .number spelled => (number? spelled.reverse).map fun t => (t :: s.tokens).reverse
  | .text _ => none
  | .escape _ => none

/-- The tokens of a text, unless one is malformed. -/
def lex? (cs : List Char) : Option (List Token) :=
  cs.foldlM step ⟨.idle, []⟩ >>= finish

end Token

end KeyLedger
