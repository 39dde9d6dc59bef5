import KeyLedger.Json.Basic
import KeyLedger.Json.Quoted

/-!
# The text of a JSON value

Values are written with or without line breaks. The persisted form is the indented text of the
canonical form, closed by a line feed; it depends only on the value and not on the order in which
members were added.

## Main definitions

* `Json.Layout` — where a text may be broken, and how
* `Json.pretty`, `Json.compact` — the two layouts
* `Json.sortedText` — the persisted form
-/

namespace KeyLedger.Json

/-- The gaps of a text: what stands before an item at a given depth and what follows a key. -/
structure Layout where
  /-- The break before an item or a closing mark, by depth. -/
  line : Nat → List Char
  /-- What follows the colon after a key. -/
  afterColon : List Char

/-- One item to a line, indented by two spaces for each level. -/
def Layout.indented : Layout := ⟨fun depth => '\n' :: List.replicate (2 * depth) ' ', [' ']⟩

/-- No gaps at all. -/
def Layout.dense : Layout := ⟨fun _ => [], []⟩

/-- A quoted string. -/
def quote (s : String) : List Char :=
  '"' :: (Quoted.encode s.toList ++ ['"'])

mutual

/-- The text of a value at a depth. An empty container has no gap in it. -/
def write (l : Layout) (depth : Nat) : Json → List Char
  | .null => ['n', 'u', 'l', 'l']
  | .bool true => ['t', 'r', 'u', 'e']
  | .bool false => ['f', 'a', 'l', 's', 'e']
  | .num n => n.text
  | .str s => quote s
  | .arr [] => ['[', ']']
  | .arr (v :: vs) =>
    '[' :: (l.line (depth + 1) ++ write l (depth + 1) v ++ writeItems l (depth + 1) vs
      ++ l.line depth ++ [']'])
  | .obj [] => ['\x7b', '\x7d']
  | .obj ((k, v) :: ms) =>
    '\x7b' :: (l.line (depth + 1) ++ quote k ++ ':' :: l.afterColon ++ write l (depth + 1) v
      ++ writeMembers l (depth + 1) ms ++ l.line depth ++ ['\x7d'])

/-- The items of an array after the first. -/
def writeItems (l : Layout) (depth : Nat) : List Json → List Char
  | [] => []
  | v :: vs => ',' :: (l.line depth ++ write l depth v ++ writeItems l depth vs)

/-- The members of an object after the first. -/
def writeMembers (l : Layout) (depth : Nat) : List (String × Json) → List Char
  | [] => []
  | (k, v) :: ms =>
    ',' :: (l.line depth ++ quote k ++ ':' :: l.afterColon ++ write l depth v
      ++ writeMembers l depth ms)

end

/-- The text of a value on several lines. -/
def pretty (v : Json) : String :=
  String.ofList (v.write .indented 0)

/-- The text of a value on one line. -/
def compact (v : Json) : String :=
  String.ofList (v.write .dense 0)

/-- The persisted form of a value: canonical, indented, closed by a line feed. -/
def sortedText (v : Json) : String :=
  v.sortKeys.pretty ++ "\n"

end KeyLedger.Json
