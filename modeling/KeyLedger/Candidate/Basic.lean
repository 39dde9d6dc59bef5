import KeyLedger.Dict

/-!
# Candidates

A candidate is a piece of displayed text that was found in a source file. Candidates live for
one run: they are matched against the manifest and never stored. An extractor may already know the
key of a candidate in the locale files and then passes it on as a hint.

## Main definitions

* `NodeKind`, `InlineTag`, `SourceRange` — the parts of a candidate
* `Candidate` — candidates
* `Candidate.keyHint` — the key that comes with a candidate
* `Slot` — a namespace and a key in it
-/

namespace KeyLedger

/-- The shape of the node that a text was found in. -/
inductive NodeKind where
  /-- The content of a block element. -/
  | block
  /-- The value of an attribute that is displayed. -/
  | attr
  /-- Block content with inline formatting, kept as placeholders. -/
  | rich
deriving DecidableEq, Repr

/-- The inline tags that may occur in rich content. -/
inductive InlineTag where
  /-- Strong importance. -/
  | strong
  /-- Bold. -/
  | b
  /-- Stress emphasis. -/
  | em
  /-- Italic. -/
  | i
  /-- Underlined. -/
  | u
  /-- Code. -/
  | code
  /-- A link. -/
  | a
  /-- Anything else. -/
  | span
deriving DecidableEq, Repr

/-- The half-open range from `start` to `stop` in the text of a file. -/
structure SourceRange where
  /-- The path of the file. -/
  file : String
  /-- Where the range begins. -/
  start : UInt64
  /-- Where the range ends. -/
  stop : UInt64
deriving DecidableEq, Repr

/-- A piece of displayed text found in a source file. -/
structure Candidate where
  /-- An identifier given by the extractor. -/
  id : String
  /-- The dotted namespace that the text belongs to. -/
  ns : String
  /-- The shape of the node. -/
  kind : NodeKind
  /-- The element around the text. -/
  tag : Option String
  /-- The attribute that holds the text. -/
  attr : Option String
  /-- The text, with placeholders for inline formatting. -/
  text : String
  /-- The inline tags that occur in the text. -/
  inlineTags : List InlineTag
  /-- What else the extractor knows, by name. -/
  hints : Dict String
  /-- Where the text was found. -/
  loc : SourceRange
  /-- The framework of the source file. -/
  framework : String
deriving DecidableEq

/-- The key that an extractor passes on; an empty one counts as none. -/
def Candidate.keyHint (c : Candidate) : Option String :=
  (c.hints.find? "key").filter fun k => k ≠ ""

/-- A key of the locale files within a namespace. -/
structure Slot where
  /-- The namespace. -/
  ns : String
  /-- The key. -/
  key : String
deriving DecidableEq, Repr

/-- The slot that a candidate asks for, if it has a key. -/
def Candidate.slot? (c : Candidate) : Option Slot :=
  c.keyHint.map fun k => ⟨c.ns, k⟩

theorem Candidate.slot?_eq_some_iff {c : Candidate} {ns key : String} :
    c.slot? = some ⟨ns, key⟩ ↔ c.ns = ns ∧ c.keyHint = some key := by
  cases hkey : c.keyHint <;> simp [slot?, hkey]

end KeyLedger
