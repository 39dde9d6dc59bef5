import KeyLedger.Candidate.Wire
import KeyLedger.Json.Printer
import KeyLedger.Manifest.Basic
import KeyLedger.Time.Text

/-!
# The manifest as JSON

The key of an entry is always written, as null if there is none; its tag and commit are left out if
there are none. The stable text of a manifest lists the entries by namespace, file and key, and
entries that agree in all three in the order in which the manifest has them.

A manifest file is read leniently: the version may be missing or odd, and whatever else is wrong
makes the file no manifest at all.

## Main definitions

* `Entry.toJson`, `Entry.reader`, `Manifest.toJson`, `Manifest.reader` — the written form
* `Manifest.sorted`, `Manifest.stableText` — the persisted form
* `Manifest.ofText?` — the manifest that the text of a file holds
-/

namespace KeyLedger

/-- The names of the stages of life. -/
def Status.names : List (String × Status) :=
  [("extracted", .extracted), ("rewritten", .rewritten), ("ignored", .ignored),
   ("orphaned", .orphaned)]

/-- The name of a stage of life. -/
def Status.name : Status → String
  | .extracted => "extracted"
  | .rewritten => "rewritten"
  | .ignored => "ignored"
  | .orphaned => "orphaned"

/-- A fingerprint as JSON. -/
def Fingerprint.toJson (f : Fingerprint) : Json :=
  .obj [("descriptor", .str f.descriptor)]

/-- Reads a fingerprint. -/
def Fingerprint.reader : Reader Fingerprint :=
  .record ["descriptor"] fun fs => do
    let descriptor ← fs.required "descriptor" .string
    return { descriptor }

/-- Reads an instant. -/
def Instant.reader : Reader Instant :=
  .refine .string Instant.parse?

/-- An entry as JSON. -/
def Entry.toJson (e : Entry) : Json :=
  .obj <|
    [("file", .str e.file), ("namespace", .str e.ns), ("key", .optional e.key)]
    ++ Json.memberIf "tag" (e.tag.map .str)
    ++ [("status", .str e.status.name), ("contentHash", .str e.contentHash),
        ("fingerprint", e.fingerprint.toJson), ("start", .offset e.start),
        ("end", .offset e.stop), ("lastSeen", .str e.lastSeen.text)]
    ++ Json.memberIf "lastCommit" (e.lastCommit.map .str)

/-- Reads an entry. -/
def Entry.reader : Reader Entry :=
  .record
    ["file", "namespace", "key", "tag", "status", "contentHash", "fingerprint", "start", "end",
     "lastSeen", "lastCommit"]
    fun fs => do
      let file ← fs.required "file" .string
      let ns ← fs.required "namespace" .string
      let key ← fs.optional "key" .string
      let tag ← fs.optional "tag" .string
      let status ← fs.required "status" (.oneOf Status.names)
      let contentHash ← fs.required "contentHash" .string
      let fingerprint ← fs.required "fingerprint" Fingerprint.reader
      let start ← fs.required "start" .uint64
      let stop ← fs.required "end" .uint64
      let lastSeen ← fs.required "lastSeen" Instant.reader
      let lastCommit ← fs.optional "lastCommit" .string
      return { file, ns, key, tag, status, contentHash, fingerprint, start, stop, lastSeen,
               lastCommit }

/-- Reads a list of entries. -/
def Entry.listReader : Reader (List Entry) := .list Entry.reader

namespace Manifest

/-- A manifest as JSON. -/
def toJson (m : Manifest) : Json :=
  .obj [("version", .nat m.version.toNat), ("entries", .arr (m.entries.map Entry.toJson))]

/-- Reads a manifest; without a version it has the current one. -/
def reader : Reader Manifest :=
  .record ["version", "entries"] fun fs => do
    let version ← fs.withDefault "version" currentVersion.toNat (.natBelow UInt32.size)
    let entries ← fs.required "entries" Entry.listReader
    return { version := UInt32.ofNat version, entries }

/-! ### The persisted form -/

/-- Whether one entry may stand before another: by namespace, then by file, then by key, where no
key counts as the empty one. -/
def entryLE (a b : Entry) : Bool :=
  if a.ns ≠ b.ns then decide (a.ns < b.ns)
  else if a.file ≠ b.file then decide (a.file < b.file)
  else decide (a.key.getD "" ≤ b.key.getD "")

/-- The same manifest with its entries in order; entries of equal rank keep theirs. -/
def sorted (m : Manifest) : Manifest :=
  { m with entries := m.entries.mergeSort entryLE }

/-- The persisted form of a manifest. -/
def stableText (m : Manifest) : String :=
  m.sorted.toJson.sortedText

/-- The manifest that a text holds. The text has to be an object with an array of well-formed
entries; a version that is not a 32-bit number counts as the current one. -/
def ofText? (text : String) : Option Manifest := do
  let .obj members ← Json.parse? text | none
  let .arr items ← members.lookup "entries" | none
  let entries ← Entry.listReader Doc.maxDepth (Doc.ofJson (.arr items))
  let version := match members.lookup "version" with
    | some (.num n) => (n.below? UInt32.size).getD currentVersion.toNat
    | _ => currentVersion.toNat
  return { version := UInt32.ofNat version, entries }

end Manifest

end KeyLedger
