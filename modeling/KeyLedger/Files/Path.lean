import KeyLedger.Text.Lines

/-!
# Paths

A path is the text that names a file, with slashes between its segments. It is shown as it was
given: nothing is simplified when paths are joined. Only when a path is taken apart do empty
segments and single dots not count, except that a leading dot does.

## Main definitions

* `Path` — paths
* `Path.join` — a path below another
* `Path.parent?`, `Path.fileName?`, `Path.withFileName` — the parts of a path
* `Path.endsInName` — whether the last part is a name, dots at the end included
-/

namespace KeyLedger

/-- A path, as the text that names it. -/
structure Path where
  /-- The text. -/
  text : String
deriving DecidableEq, Repr

namespace Path

/-- Whether a path starts at the root. -/
def isAbsolute (p : Path) : Bool := p.text.toList.head? == some '/'

/-- A path relative to another. An absolute path stands for itself. -/
def join (p : Path) (s : String) : Path :=
  if s.toList.head? == some '/' then ⟨s⟩
  else if p.text.isEmpty || p.text.toList.getLast? == some '/' then ⟨p.text ++ s⟩
  else ⟨p.text ++ "/" ++ s⟩

/-- The stretches between the slashes, those at the root apart. -/
def segments (p : Path) : List String :=
  Text.splitAt '/' (if p.isAbsolute then String.ofList p.text.toList.tail else p.text)

/-- The path with the given segments. -/
def ofSegments (absolute : Bool) (ss : List String) : Path :=
  ⟨(if absolute then "/" else "") ++ String.intercalate "/" ss⟩

/-- Whether the segment at an index says nothing about where a path leads. -/
def isIdle (absolute : Bool) (s : String) (index : Nat) : Bool :=
  s == "" || (s == "." && (absolute || index != 0))

/-- Segments without those at the end that say nothing. -/
def settled (absolute : Bool) (ss : List String) : List String :=
  let rest := ss.zipIdx.reverse.dropWhile fun s => isIdle absolute s.1 s.2
  rest.reverse.map Prod.fst

/-- The path without its last segment that counts. Neither the root nor the empty path has one. -/
def parent? (p : Path) : Option Path :=
  let ss := settled p.isAbsolute p.segments
  if ss.isEmpty then none
  else some (ofSegments p.isAbsolute (settled p.isAbsolute ss.dropLast))

/-- The last segment that counts, if it is a name. -/
def fileName? (p : Path) : Option String :=
  (settled p.isAbsolute p.segments).getLast?.filter fun s => s ≠ "." ∧ s ≠ ".."

/-- The path of a sibling; a path without a name gains one. -/
def withFileName (p : Path) (name : String) : Path :=
  match p.fileName?, p.parent? with
  | some _, some parent => parent.join name
  | _, _ => p.join name

/-- Whether the last thing that a path says is a name, and not dots or the root. -/
def endsInName (p : Path) : Bool :=
  match (p.segments.filter (· ≠ "")).getLast? with
  | some last => last ≠ "." && last ≠ ".."
  | none => false

end Path

end KeyLedger
