import KeyLedger.Json.Document

/-!
# Typed readers of documents

A reader takes a document apart into a value of a given type, or refuses it. It is given the number
of containers that it may still enter, since nesting is limited; parts of a document that no reader
looks at are not limited in any way.

A record may be written by name or by position. By name, members that are not fields of the record
are skipped and a field may not be given twice. By position, the fields stand in declaration order,
and there may be fewer items than fields but not more. A field that is not given has to be one that
may be left out.

## Main definitions

* `Reader` — readers
* `Reader.string`, `Reader.natBelow`, `Reader.oneOf` — readers of scalars
* `Reader.list`, `Reader.dict`, `Reader.value` — readers of containers and of any value
* `Reader.record`, `Fields` — readers of records
* `Reader.run?` — reads a whole text
-/

namespace KeyLedger

/-- A reader of values of a type, given how many containers it may enter. -/
def Reader (α : Type) : Type := Nat → Doc → Option α

namespace Reader

variable {α : Type}

/-! ### Scalars -/

/-- Reads a string. -/
def string : Reader String
  | _, .str s => s
  | _, _ => none

/-- Reads a natural number below a bound, written as an integer. -/
def natBelow (bound : Nat) : Reader Nat
  | _, .num (some n) => n.below? bound
  | _, _ => none

/-- Reads a 64-bit offset. -/
def uint64 : Reader UInt64 := fun budget d =>
  (natBelow UInt64.size budget d).map UInt64.ofNat

/-- Reads one of the names of an enumeration, either as a string or as the key of an object whose
only member is null. -/
def oneOf (names : List (String × α)) : Reader α
  | _, .str (some s) => names.lookup s
  | _ + 1, .obj [(some k, .null)] => names.lookup k
  | _, _ => none

/-- Reads what `r` reads and passes it through `f`, which may refuse it. -/
def refine {β : Type} (r : Reader α) (f : α → Option β) : Reader β := fun budget d =>
  r budget d >>= f

/-- Reads null, or what `r` reads. -/
def nullable (r : Reader α) : Reader (Option α)
  | _, .null => some none
  | budget, d => (r budget d).map some

/-! ### Containers -/

/-- Reads an array. -/
def list (r : Reader α) : Reader (List α)
  | budget + 1, .arr items => items.mapM (r budget)
  | _, _ => none

/-- Reads an object as a dictionary; of several members with one key the last is kept. -/
def dict (r : Reader α) : Reader (Dict α)
  | budget + 1, .obj members => do
    let ms ← members.mapM fun m => do return (← m.1, ← r budget m.2)
    return Dict.ofList ms
  | _, _ => none

/-- Reads any value. -/
def value : Reader Json := fun budget d => d.toJson? budget

/-! ### Records -/

end Reader

/-- The fields of a record that a document gives, by name. -/
structure Fields where
  /-- How many containers may be entered within a field. -/
  budget : Nat
  /-- The fields that are given. -/
  given : List (String × Doc)

namespace Fields

variable {α : Type}

/-- A field that has to be given. -/
def required (fs : Fields) (name : String) (r : Reader α) : Option α :=
  fs.given.lookup name >>= r fs.budget

/-- A field with a value to fall back on if it is not given. -/
def withDefault (fs : Fields) (name : String) (fallback : α) (r : Reader α) : Option α :=
  match fs.given.lookup name with
  | some d => r fs.budget d
  | none => some fallback

/-- A field that may be absent or null. -/
def optional (fs : Fields) (name : String) (r : Reader α) : Option (Option α) :=
  fs.withDefault name none r.nullable

end Fields

namespace Reader

variable {α : Type}

/-- The members of an object that are fields of a record, each given once; every key has to have a
value. -/
def fieldsOf? (names : List String) (members : List (Option String × Doc)) :
    Option (List (String × Doc)) := do
  let named ← members.mapM fun m => m.1.map fun k => (k, m.2)
  let known := named.filter fun m => names.contains m.1
  if (known.map Prod.fst).Nodup then some known else none

/-- Reads a record with the given fields, by name or by position. -/
def record (names : List String) (body : Fields → Option α) : Reader α
  | budget + 1, .obj members => do
    let given ← fieldsOf? names members
    body { budget, given }
  | budget + 1, .arr items =>
    if items.length ≤ names.length then body { budget, given := names.zip items } else none
  | _, _ => none

/-- Reads a whole text. -/
def run? (r : Reader α) (text : String) : Option α :=
  Doc.parse? text >>= r Doc.maxDepth

end Reader

end KeyLedger
