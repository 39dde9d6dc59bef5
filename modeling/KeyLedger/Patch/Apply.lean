import KeyLedger.Files.Write
import KeyLedger.Patch.Plan
import KeyLedger.Text.Bytes

/-!
# Applying patches

The edits of a file are applied all together or not at all. Before anything is read, every edit is
checked to end no earlier than it starts. Edits that overlap or touch are a conflict, and so is a
file that cannot be read, an edit that does not fit the file and a file that cannot be written.

Edits that do not touch are applied from the last to the first, so that the offsets of those still
to come stay valid.

## Main definitions

* `overlaps` — the ranges that neighbouring edits compete for
* `fits` — whether an edit falls on characters of a text
* `splice`, `spliceAll` — the text with edits applied
* `apply` — applies patches to files
-/

namespace KeyLedger

/-! ### Edits of one file -/

/-- The unions of those neighbouring edits that overlap or touch, for edits in the order of their
starts. -/
def overlaps : List Edit → List ByteRange
  | a :: b :: rest =>
    if b.start ≤ a.stop then ⟨min a.start b.start, max a.stop b.stop⟩ :: overlaps (b :: rest)
    else overlaps (b :: rest)
  | _ => []

/-- Whether both ends of an edit fall between characters of a text. -/
def fits (content : List Char) (e : Edit) : Bool :=
  decide (e.stop ≤ Text.byteLength content) && Text.isBoundary e.start content &&
    Text.isBoundary e.stop content

/-- A text with one edit applied. -/
def splice (content : List Char) (e : Edit) : List Char :=
  Text.takeBytes e.start content ++ e.replacement.toList ++ Text.dropBytes e.stop content

/-- A text with edits applied from the last to the first. -/
def spliceAll (content : List Char) (edits : List Edit) : List Char :=
  edits.foldr (fun e cs => splice cs e) content

/-! ### Patches of one file -/

/-- The patches of a file. -/
structure FilePatches where
  /-- The path of the file. -/
  file : String
  /-- The patches, in the order in which they were given. -/
  patches : List Patch

namespace FilePatches

/-- The patches by file, in the order in which the files are first named. -/
def group (ps : List Patch) : List FilePatches :=
  (distinct (ps.map Patch.file)).map fun file => ⟨file, ps.filter fun p => p.file = file⟩

/-- All edits of a file. -/
def edits (g : FilePatches) : List Edit := g.patches.flatMap Patch.edits

/-- All imports of a file. -/
def imports (g : FilePatches) : List Import := g.patches.flatMap Patch.imports

/-- The first edit that ends before it starts. -/
def backward? (g : FilePatches) : Option Edit :=
  g.edits.find? fun e => decide (e.stop < e.start)

end FilePatches

/-- The conflict of an edit that does not fit. -/
def misfit (file : String) (content : List Char) (e : Edit) : Conflict :=
  { file
    ranges := [⟨e.start, e.stop⟩]
    error := some ("Edit range " ++ decimal e.start ++ ".." ++ decimal e.stop
      ++ " is out of bounds or splits a character (file has "
      ++ decimal (Text.byteLength content) ++ " bytes)") }

/-- How patches are applied. -/
structure ApplyOptions where
  /-- Whether files that change are written. -/
  write : Bool
  /-- Texts of files that are not to be read. -/
  contents : Option (Dict String)
  /-- The directory that the paths of patches start from. -/
  root : Path

variable {m : Type → Type} [Monad m] [MonadFiles m]

/-- The text of a file that patches are applied to. -/
def currentText (options : ApplyOptions) (file : String) : m (Except IoError String) :=
  match options.contents >>= fun c => c.find? file with
  | some text => pure (.ok text)
  | none => readBelow options.root file

/-- Applies the patches of a file. -/
def applyFile (options : ApplyOptions) (g : FilePatches) : m (Except Conflict FileChange) := do
  let edits := sortEdits g.edits
  let ranges := overlaps edits
  if ¬ ranges.isEmpty then
    return .error ⟨g.file, ranges, none⟩
  else
    match ← currentText options g.file with
    | .error e => return .error ⟨g.file, [], some ("Failed to read file: " ++ e.message)⟩
    | .ok old =>
      match edits.find? fun e => !fits old.toList e with
      | some e => return .error (misfit g.file old.toList e)
      | none =>
        let new := String.ofList (spliceAll old.toList edits)
        let wrote := options.write && new != old
        let change := ⟨g.file, old, new, wrote, mergeImports g.imports⟩
        if wrote then
          match ← (writeAtomic (options.root.join g.file) new).run with
          | .ok () => return .ok change
          | .error e => return .error ⟨g.file, [], some ("Failed to write file: " ++ e.message)⟩
        else return .ok change

/-- The first edit of all that ends before it starts, with its file. -/
def backwardEdit? (groups : List FilePatches) : Option (String × Edit) :=
  groups.findSome? fun g => g.backward?.map fun e => (g.file, e)

/-- The outcomes of single files, taken together. -/
def ApplyResult.ofOutcomes (outcomes : List (Except Conflict FileChange)) : ApplyResult :=
  { files := outcomes.filterMap fun
      | .ok change => some change
      | .error _ => none
    conflicts := outcomes.filterMap fun
      | .ok _ => none
      | .error conflict => some conflict }

/-- Applies patches to files. An edit that ends before it starts makes the whole of it fail before
any file is looked at. -/
def apply (ps : List Patch) (options : ApplyOptions) : ExceptT Failure m ApplyResult := do
  let groups := FilePatches.group ps
  match backwardEdit? groups with
  | some (file, e) => throw (.invalidEditRange file e.start e.stop)
  | none =>
    let outcomes ← groups.mapM fun g => applyFile (m := m) options g
    return .ofOutcomes outcomes

end KeyLedger
