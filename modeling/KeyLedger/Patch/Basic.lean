import KeyLedger.Distinct
import KeyLedger.Json.Basic

/-!
# Patches

A patch proposes changes to one file: edits of byte ranges, and import statements that the file has
to have. Several patches may name the same file. The outcome of applying patches lists the files
that were changed, or could have been, and the files that were left alone because of a conflict.

## Main definitions

* `Import`, `Edit`, `Patch` — what is proposed
* `mergeImports` — imports without repetitions
* `FileChange`, `Conflict`, `ApplyResult` — what came of it
-/

namespace KeyLedger

/-- An import statement that a file has to have. -/
structure Import where
  /-- The module that is imported. -/
  source : String
  /-- The text of the statement. -/
  code : String
deriving DecidableEq, Repr

/-- Replaces the bytes from `start` to `stop` of a file. -/
structure Edit where
  /-- Where the range begins. -/
  start : Nat
  /-- Where the range ends. -/
  stop : Nat
  /-- What takes its place. -/
  replacement : String
deriving DecidableEq, Repr

/-- The edit that inserts a text at an offset. -/
def Edit.insert (offset : Nat) (text : String) : Edit := ⟨offset, offset, text⟩

/-- The changes proposed for a file. -/
structure Patch where
  /-- The path of the file. -/
  file : String
  /-- The edits. -/
  edits : List Edit
  /-- The imports that the file has to have. -/
  imports : List Import
  /-- Whatever else is known about the patch. -/
  details : Dict Json

/-- Imports without repetitions, in the order of their first occurrences. -/
def mergeImports (imports : List Import) : List Import := distinct imports

/-- What applying the patches of a file came to. -/
structure FileChange where
  /-- The path of the file. -/
  file : String
  /-- The text before. -/
  old : String
  /-- The text after. -/
  new : String
  /-- Whether the file was written. -/
  wrote : Bool
  /-- The imports of its patches. -/
  imports : List Import
deriving DecidableEq, Repr

/-- A range of bytes that edits compete for. -/
structure ByteRange where
  /-- Where the range begins. -/
  start : Nat
  /-- Where the range ends. -/
  stop : Nat
deriving DecidableEq, Repr

/-- Why a file was left alone. -/
structure Conflict where
  /-- The path of the file. -/
  file : String
  /-- The ranges that edits compete for, or that do not fit. -/
  ranges : List ByteRange
  /-- What went wrong, unless edits compete. -/
  error : Option String
deriving DecidableEq, Repr

/-- What came of a list of patches. -/
structure ApplyResult where
  /-- The files to which the patches were applied. -/
  files : List FileChange
  /-- The files that were left alone. -/
  conflicts : List Conflict
deriving DecidableEq, Repr

end KeyLedger
