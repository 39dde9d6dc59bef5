import KeyLedger.Manifest.Basic

/-!
# What a run finds

The outcome of a run sorts its observations into entries that are new, that have changed, that are
the same and that are gone, and records which entries of the manifest were observed. The manifest
that follows is put together from these parts; the entries that are gone are those which were not
observed, and they stay in it as orphans.

## Main definitions

* `Outcome` — the outcome of a run
* `Manifest.orphans` — the entries that were not observed
* `Outcome.assemble` — the manifest that follows
* `SyncPlan`, `Manifest.sync` — the manifest that follows, with its orphans derived afresh
-/

namespace KeyLedger

/-- An entry whose content has changed under its key. -/
structure Update where
  /-- The entry before. -/
  previous : Entry
  /-- The entry after. -/
  entry : Entry
deriving DecidableEq

/-- The outcome of a run against a manifest. -/
structure Outcome where
  /-- Entries for texts that no entry accounted for. -/
  created : List Entry
  /-- Entries found under their key with another text. -/
  updated : List Update
  /-- Entries found with the same text. -/
  unchanged : List Entry
  /-- Entries that were not found. -/
  orphaned : List Entry
  /-- The indices of the entries that were found, ascending. -/
  matched : List Nat
deriving DecidableEq

/-- The entries whose index is not in `matched`, as orphans. -/
def Manifest.orphans (m : Manifest) (matched : List Nat) : List Entry :=
  (m.entries.zipIdx.filter fun p => !matched.contains p.2).map fun p =>
    { p.1 with status := .orphaned }

/-- The manifest after a run: unchanged, updated, created and orphaned entries, in this order. -/
def Outcome.assemble (o : Outcome) (version : UInt32) (orphaned : List Entry) : Manifest :=
  { version, entries := o.unchanged ++ o.updated.map Update.entry ++ o.created ++ orphaned }

/-- The next manifest together with the orphans in it. -/
structure SyncPlan where
  /-- The manifest that follows. -/
  next : Manifest
  /-- The entries that were not found. -/
  orphaned : List Entry
deriving DecidableEq

/-- The manifest that follows a run, with the orphans derived from the indices that the outcome
recorded. -/
def Manifest.sync (m : Manifest) (o : Outcome) : SyncPlan :=
  let orphaned := m.orphans o.matched
  ⟨o.assemble m.version orphaned, orphaned⟩

end KeyLedger
