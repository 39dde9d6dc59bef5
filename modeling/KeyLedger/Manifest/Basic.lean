import KeyLedger.Candidate.Basic
import KeyLedger.Time.Instant

/-!
# The manifest

The manifest is the ledger of all texts that were ever found. Each entry is one identity: it keeps
its key, its fingerprint and its commit for life, while its place, its content hash and its status
follow the sources.

## Main definitions

* `Status`, `Fingerprint`, `Entry` — the entries
* `Manifest` — the ledger
* `Manifest.owner?` — the first entry that holds a slot
-/

namespace KeyLedger

/-- The stage of life that an entry is in. -/
inductive Status where
  /-- Found in the sources. -/
  | extracted
  /-- Replaced in the sources by a lookup of its key. -/
  | rewritten
  /-- Found, and to be left alone. -/
  | ignored
  /-- No longer found. -/
  | orphaned
deriving DecidableEq, Repr

/-- A rough description of where a text was first found. -/
structure Fingerprint where
  /-- The description. -/
  descriptor : String
deriving DecidableEq, Repr

/-- The fingerprint of a text inside an element that begins at an offset. -/
def Fingerprint.at (tag : Option String) (start : UInt64) : Fingerprint :=
  ⟨tag.getD "" ++ "#" ++ String.ofList (Nat.toDigits 10 start.toNat)⟩

/-- One identity of the ledger. -/
structure Entry where
  /-- The path of the file in which the text was last found. -/
  file : String
  /-- The dotted namespace. -/
  ns : String
  /-- The key in the locale files, once it has one. -/
  key : Option String
  /-- The element around the text. -/
  tag : Option String
  /-- The stage of life. -/
  status : Status
  /-- The hash of the normal form of the text. -/
  contentHash : String
  /-- Where the text was first found. -/
  fingerprint : Fingerprint
  /-- Where the text begins in its file. -/
  start : UInt64
  /-- Where the text ends in its file. -/
  stop : UInt64
  /-- When the text was last found. -/
  lastSeen : Instant
  /-- The commit that recorded the entry. -/
  lastCommit : Option String
deriving DecidableEq

/-- The slot that an entry holds, if it has a key. -/
def Entry.slot? (e : Entry) : Option Slot :=
  e.key.map fun k => ⟨e.ns, k⟩

theorem Entry.slot?_eq_some_iff {e : Entry} {ns key : String} :
    e.slot? = some ⟨ns, key⟩ ↔ e.ns = ns ∧ e.key = some key := by
  cases hkey : e.key <;> simp [slot?, hkey]

/-- The ledger of all identities. -/
structure Manifest where
  /-- The version of the format. -/
  version : UInt32
  /-- The entries. -/
  entries : List Entry
deriving DecidableEq

namespace Manifest

/-- The version of the format that is written for a new manifest. -/
def currentVersion : UInt32 := 1

/-- The manifest of a project without one. -/
def fresh : Manifest := ⟨currentVersion, []⟩

instance : Inhabited Manifest := ⟨fresh⟩

/-- The first entry that holds a slot, with its index. -/
def owner? (m : Manifest) (s : Slot) : Option (Entry × Nat) :=
  m.entries.zipIdx.find? fun p => p.1.slot? == some s

end Manifest

end KeyLedger
