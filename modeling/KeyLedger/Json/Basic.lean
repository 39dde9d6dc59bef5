import KeyLedger.Dict
import KeyLedger.Numeral.Number

/-!
# JSON values

A value as it is held in memory: the members of an object stand in a list, in the order in which
they are written. The canonical form of a value has the keys of every object in ascending order;
objects that are read from text are in that order to begin with.

## Main definitions

* `Json` — values
* `Json.sortKeys` — the canonical form
* `Json.depth` — how deeply containers are nested
-/

namespace KeyLedger

/-- A JSON value. -/
inductive Json where
  /-- The null value. -/
  | null
  /-- A truth value. -/
  | bool (b : Bool)
  /-- A number. -/
  | num (n : Number)
  /-- A string. -/
  | str (s : String)
  /-- An array. -/
  | arr (items : List Json)
  /-- An object, with its members in writing order. -/
  | obj (members : List (String × Json))

namespace Json

instance : Inhabited Json := ⟨null⟩

/-- A count as a value. -/
def nat (n : Nat) : Json := .num (.ofNat n)

/-- A 64-bit offset as a value. -/
def offset (n : UInt64) : Json := .num (.ofUInt64 n)

/-- An array of strings. -/
def strings (ss : List String) : Json := .arr (ss.map .str)

/-- A string, or null if there is none. -/
def optional : Option String → Json
  | some s => .str s
  | none => .null

/-- The object with the members of a dictionary. -/
def ofDict (d : Dict Json) : Json := .obj d.toList

/-- A member that is written only if it has a value. -/
def memberIf (k : String) : Option Json → List (String × Json)
  | some v => [(k, v)]
  | none => []

/-! ### Canonical form -/

/-- Members in ascending key order; members with one key keep their relative order. -/
def sortMembers (ms : List (String × Json)) : List (String × Json) :=
  ms.mergeSort fun a b => decide (a.1 ≤ b.1)

mutual

/-- The same value with the keys of every object in ascending order. -/
def sortKeys : Json → Json
  | .null => .null
  | .bool b => .bool b
  | .num n => .num n
  | .str s => .str s
  | .arr items => .arr (sortKeysItems items)
  | .obj members => .obj (sortMembers (sortKeysMembers members))

/-- `sortKeys` on the items of an array. -/
def sortKeysItems : List Json → List Json
  | [] => []
  | v :: vs => sortKeys v :: sortKeysItems vs

/-- `sortKeys` on the values of an object, which keep their places. -/
def sortKeysMembers : List (String × Json) → List (String × Json)
  | [] => []
  | (k, v) :: ms => (k, sortKeys v) :: sortKeysMembers ms

end

/-! ### Nesting -/

mutual

/-- The number of containers around the deepest part of a value, itself included. -/
def depth : Json → Nat
  | .null => 0
  | .bool _ => 0
  | .num _ => 0
  | .str _ => 0
  | .arr items => depthItems items + 1
  | .obj members => depthMembers members + 1

/-- The greatest depth among the items of an array. -/
def depthItems : List Json → Nat
  | [] => 0
  | v :: vs => max (depth v) (depthItems vs)

/-- The greatest depth among the values of an object. -/
def depthMembers : List (String × Json) → Nat
  | [] => 0
  | (_, v) :: ms => max (depth v) (depthMembers ms)

end

end Json

end KeyLedger
