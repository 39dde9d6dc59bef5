import KeyLedger.Json.Basic
import KeyLedger.Json.Token

/-!
# JSON documents

A document is the tree of a text before anybody has asked for its values: numbers and strings
without a value are still in it, and an object keeps all its members, repeated keys included. A
typed reader may skip such a part unread. Taken as a value as a whole, every number and string has
to have one, containers nest only so deep, and the last of several members with one key wins.

The tree is built by an automaton over the tokens, with a stack of the containers that are open.

## Main definitions

* `Doc` — documents
* `Doc.ofTokens?` — the tree of a list of tokens
* `Doc.parse?` — the tree of a text
* `Doc.toJson?`, `Json.parse?` — the value of a document, and of a text
* `Doc.ofJson` — a value as a document
-/

namespace KeyLedger

/-- The tree of a JSON text. -/
inductive Doc where
  /-- The null value. -/
  | null
  /-- A truth value. -/
  | bool (b : Bool)
  /-- A numeric literal. -/
  | num (n : Option Number)
  /-- A quoted string. -/
  | str (s : Option String)
  /-- An array. -/
  | arr (items : List Doc)
  /-- An object with all its members. -/
  | obj (members : List (Option String × Doc))

namespace Doc

instance : Inhabited Doc := ⟨null⟩

/-! ### From tokens to trees -/

/-- A container that is open; what it already holds stands last first. -/
inductive Frame where
  /-- An array. -/
  | arr (done : List Doc)
  /-- An object, whose member `key` is being read. -/
  | member (done : List (Option String × Doc)) (key : Option String)

/-- What may come next. -/
inductive Mode where
  /-- A value. -/
  | value
  /-- The first item of an array, or its end. -/
  | firstItem
  /-- The first key of an object, or its end. -/
  | firstKey
  /-- A further key. -/
  | key (done : List (Option String × Doc))
  /-- The colon after a key. -/
  | colon (done : List (Option String × Doc)) (key : Option String)
  /-- Whatever may follow a value that is complete. -/
  | after (v : Doc)

/-- A token where a value begins. -/
def begin (open_ : List Frame) : Token → Option (Mode × List Frame)
  | .null => some (.after .null, open_)
  | .bool b => some (.after (.bool b), open_)
  | .num n => some (.after (.num n), open_)
  | .str s => some (.after (.str s), open_)
  | .openBracket => some (.firstItem, open_)
  | .openBrace => some (.firstKey, open_)
  | _ => none

/-- One token. -/
def step : Mode × List Frame → Token → Option (Mode × List Frame)
  | (.value, open_), t => begin open_ t
  | (.firstItem, open_), .closeBracket => some (.after (.arr []), open_)
  | (.firstItem, open_), t => begin (.arr [] :: open_) t
  | (.firstKey, open_), .closeBrace => some (.after (.obj []), open_)
  | (.firstKey, open_), .str k => some (.colon [] k, open_)
  | (.key done, open_), .str k => some (.colon done k, open_)
  | (.colon done k, open_), .colon => some (.value, .member done k :: open_)
  | (.after v, .arr done :: open_), .comma => some (.value, .arr (v :: done) :: open_)
  | (.after v, .arr done :: open_), .closeBracket =>
    some (.after (.arr (v :: done).reverse), open_)
  | (.after v, .member done k :: open_), .comma => some (.key ((k, v) :: done), open_)
  | (.after v, .member done k :: open_), .closeBrace =>
    some (.after (.obj ((k, v) :: done).reverse), open_)
  | _, _ => none

/-- The tree that is complete once all containers are closed. -/
def complete? : Mode × List Frame → Option Doc
  | (.after v, []) => some v
  | _ => none

/-- The tree of a list of tokens. -/
def ofTokens? (ts : List Token) : Option Doc :=
  ts.foldlM step (.value, []) >>= complete?

/-- The tree of a text. -/
def parse? (text : String) : Option Doc :=
  Token.lex? text.toList >>= ofTokens?

/-! ### Documents and values -/

mutual

/-- The value of a document in which containers nest at most `budget` deep. -/
def toJson? (budget : Nat) : Doc → Option Json
  | .null => some .null
  | .bool b => some (.bool b)
  | .num n => n.map .num
  | .str s => s.map .str
  | .arr items =>
    match budget with
    | 0 => none
    | b + 1 => (toJsonItems? b items).map .arr
  | .obj members =>
    match budget with
    | 0 => none
    | b + 1 => (toJsonMembers? b members).map fun ms => .obj (Members.ofList ms)

/-- The values of the items of an array. -/
def toJsonItems? (budget : Nat) : List Doc → Option (List Json)
  | [] => some []
  | v :: vs => do
    let x ← toJson? budget v
    let xs ← toJsonItems? budget vs
    return x :: xs

/-- The members of an object with their values, in text order. -/
def toJsonMembers? (budget : Nat) : List (Option String × Doc) → Option (List (String × Json))
  | [] => some []
  | (k, v) :: ms => do
    let key ← k
    let x ← toJson? budget v
    let xs ← toJsonMembers? budget ms
    return (key, x) :: xs

end

mutual

/-- A value as a document. -/
def ofJson : Json → Doc
  | .null => .null
  | .bool b => .bool b
  | .num n => .num (some n)
  | .str s => .str (some s)
  | .arr items => .arr (ofJsonItems items)
  | .obj members => .obj (ofJsonMembers members)

/-- `ofJson` on the items of an array. -/
def ofJsonItems : List Json → List Doc
  | [] => []
  | v :: vs => ofJson v :: ofJsonItems vs

/-- `ofJson` on the members of an object. -/
def ofJsonMembers : List (String × Json) → List (Option String × Doc)
  | [] => []
  | (k, v) :: ms => (some k, ofJson v) :: ofJsonMembers ms

end

/-- The number of containers that may enclose one another. -/
def maxDepth : Nat := 127

end Doc

/-- The value of a text. -/
def Json.parse? (text : String) : Option Json :=
  Doc.parse? text >>= Doc.toJson? Doc.maxDepth

end KeyLedger
