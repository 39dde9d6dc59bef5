import KeyLedger.Failure
import KeyLedger.Patch.Header

/-!
# Planning an injection

Patches are consolidated into one for each file, in the order of the paths. Its imports are those
of all patches without repetitions, and the ones that the file lacks become one more edit. Its edits
are in the order of their starts, edits with one start in the order in which they were proposed. Of
several details with one name the first is kept.

A file is read only if it has imports, and a file without edits and imports is left out.

## Main definitions

* `PatchGroup` — all that is proposed for a file
* `plan` — one patch for each file
-/

namespace KeyLedger

/-- All that is proposed for a file. -/
structure PatchGroup where
  /-- All edits, in the order in which they were proposed. -/
  edits : List Edit
  /-- All imports, in the order in which they were proposed. -/
  imports : List Import
  /-- The first of all details with each name. -/
  details : Dict Json

namespace PatchGroup

/-- Nothing is proposed. -/
def empty : PatchGroup := ⟨[], [], ∅⟩

/-- One more patch. -/
def add (g : PatchGroup) (p : Patch) : PatchGroup :=
  { edits := g.edits ++ p.edits
    imports := g.imports ++ p.imports
    details := p.details.toList.foldl (fun d m => d.insertNew m.1 m.2) g.details }

/-- All that is proposed, by file. -/
def ofPatches (ps : List Patch) : Dict PatchGroup :=
  ps.foldl (fun groups p => groups.alter p.file empty fun g => g.add p) ∅

end PatchGroup

/-- Edits in the order of their starts; edits with one start keep their order. -/
def sortEdits (edits : List Edit) : List Edit :=
  edits.mergeSort fun a b => decide (a.start ≤ b.start)

variable {m : Type → Type} [Monad m]

/-- The patch of a file, if anything is proposed for it. -/
def planFile (read : String → m (Except IoError String)) (file : String) (g : PatchGroup) :
    ExceptT Failure m (Option Patch) := do
  let imports := mergeImports g.imports
  let insertion ←
    if imports.isEmpty then pure none
    else do
      let content ← attempt (.read ⟨file⟩) (read file)
      pure (importInsertion? content.toList imports)
  let edits := g.edits ++ insertion.toList
  if edits.isEmpty && imports.isEmpty then return none
  else return some { file, edits := sortEdits edits, imports, details := g.details }

/-- Consolidates patches into one for each file, reading the files through `read`. -/
def plan (read : String → m (Except IoError String)) (ps : List Patch) :
    ExceptT Failure m (List Patch) := do
  let planned ← (PatchGroup.ofPatches ps).toList.mapM fun (file, g) => planFile read file g
  return planned.filterMap id

/-- Reads files below a directory. -/
def readBelow [MonadFiles m] (root : Path) (file : String) : m (Except IoError String) :=
  readText (root.join file)

end KeyLedger
