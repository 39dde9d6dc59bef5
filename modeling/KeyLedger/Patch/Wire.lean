import KeyLedger.Json.Reader
import KeyLedger.Patch.Basic

/-!
# Patches as JSON

Edits are always written; imports and details are left out if there are none. All three may be left
out when a patch is read.

## Main definitions

* `Patch.toJson`, `Patch.reader` — the written form of a patch
* `ApplyResult.toJson` — what came of patches
-/

namespace KeyLedger

/-- An import as JSON. -/
def Import.toJson (i : Import) : Json :=
  .obj [("from", .str i.source), ("code", .str i.code)]

/-- Reads an import. -/
def Import.reader : Reader Import :=
  .record ["from", "code"] fun fs => do
    let source ← fs.required "from" .string
    let code ← fs.required "code" .string
    return { source, code }

/-- Reads a list of imports. -/
def Import.listReader : Reader (List Import) := .list Import.reader

/-- An edit as JSON. -/
def Edit.toJson (e : Edit) : Json :=
  .obj [("start", .nat e.start), ("end", .nat e.stop), ("replacement", .str e.replacement)]

/-- Reads an edit, whose offsets have at most 64 bits. -/
def Edit.reader : Reader Edit :=
  .record ["start", "end", "replacement"] fun fs => do
    let start ← fs.required "start" (.natBelow UInt64.size)
    let stop ← fs.required "end" (.natBelow UInt64.size)
    let replacement ← fs.required "replacement" .string
    return { start, stop, replacement }

/-- A patch as JSON. -/
def Patch.toJson (p : Patch) : Json :=
  .obj <|
    [("file", .str p.file), ("edits", .arr (p.edits.map Edit.toJson))]
    ++ (if p.imports.isEmpty then [] else [("imports", .arr (p.imports.map Import.toJson))])
    ++ (if p.details.isEmpty then [] else [("meta", .ofDict p.details)])

/-- Reads a patch. -/
def Patch.reader : Reader Patch :=
  .record ["file", "edits", "imports", "meta"] fun fs => do
    let file ← fs.required "file" .string
    let edits ← fs.withDefault "edits" [] (.list Edit.reader)
    let imports ← fs.withDefault "imports" [] Import.listReader
    let details ← fs.withDefault "meta" ∅ (.dict .value)
    return { file, edits, imports, details }

/-- Reads a list of patches. -/
def Patch.listReader : Reader (List Patch) := .list Patch.reader

/-- A changed file as JSON. -/
def FileChange.toJson (c : FileChange) : Json :=
  .obj [("file", .str c.file), ("oldContent", .str c.old), ("newContent", .str c.new),
    ("wrote", .bool c.wrote), ("mergedImports", .arr (c.imports.map Import.toJson))]

/-- A range of bytes as JSON. -/
def ByteRange.toJson (r : ByteRange) : Json :=
  .obj [("start", .nat r.start), ("end", .nat r.stop)]

/-- A conflict as JSON. -/
def Conflict.toJson (c : Conflict) : Json :=
  .obj <|
    [("file", .str c.file), ("ranges", .arr (c.ranges.map ByteRange.toJson))]
    ++ Json.memberIf "error" (c.error.map .str)

/-- What came of patches, as JSON. -/
def ApplyResult.toJson (r : ApplyResult) : Json :=
  .obj [("files", .arr (r.files.map FileChange.toJson)),
    ("conflicts", .arr (r.conflicts.map Conflict.toJson))]

end KeyLedger
