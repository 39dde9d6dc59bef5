import KeyLedger.Locale.Merge
import KeyLedger.Patch.Apply
import KeyLedger.Reconcile.Basic
import KeyLedger.Settings
import KeyLedger.Store

/-!
# The steps of a project

What can be done to a project with given settings. Scanning records a run in the manifest and in a
report; syncing records it and puts orphans into quarantine; extracting merges it into the locale
files and leaves the manifest alone. Injecting plans patches and applies the plan.

## Main definitions

* `observe` — reconciles candidates with the stored manifest
* `scan`, `sync`, `extract` — record a run
* `inject` — plans and applies patches
-/

namespace KeyLedger

variable {m : Type → Type} [Monad m] [MonadFiles m]

/-- The stored manifest and the outcome of a run against it. -/
def observe (s : Settings) (candidates : List Candidate) (now : Instant) :
    m (Manifest × Outcome) := do
  let manifest ← readManifest s.manifestPath
  return (manifest, reconcile candidates manifest now)

/-- What a scan did. -/
structure ScanResult where
  /-- The outcome of the run. -/
  outcome : Outcome
  /-- Whether the manifest changed. -/
  wrote : Bool
  /-- Where the report is. -/
  report : Path
deriving DecidableEq

/-- Records a run in the manifest and in a report. -/
def scan (s : Settings) (candidates : List Candidate) (now : Instant) :
    ExceptT Failure m ScanResult := do
  let (manifest, outcome) ← observe (m := m) s candidates now
  let wrote ← writeManifest s.manifestPath (outcome.assemble manifest.version outcome.orphaned)
  let report ← writeReport (.ofOutcome outcome) s.reportsDir now
  return { outcome, wrote, report }

/-- What a sync did. -/
structure SyncResult where
  /-- The outcome of the run. -/
  outcome : Outcome
  /-- Whether the manifest changed. -/
  wrote : Bool
  /-- The quarantine files that changed. -/
  touched : List Path
deriving DecidableEq

/-- Records a run in the manifest and puts orphans into quarantine. -/
def sync (s : Settings) (candidates : List Candidate) (now : Instant) :
    ExceptT Failure m SyncResult := do
  let (manifest, outcome) ← observe (m := m) s candidates now
  let next := (manifest.sync outcome).next
  let wrote ← writeManifest s.manifestPath next
  let touched ← quarantine next.entries s.trashDir
  return { outcome, wrote, touched }

/-- Merges a run into the locale files. -/
def extract (s : Settings) (candidates : List Candidate) (now : Instant) :
    ExceptT Failure m (Outcome × MergeSummary) := do
  let (_, outcome) ← observe (m := m) s candidates now
  let summary ← mergeLocales candidates s.layout outcome
  return (outcome, summary)

/-- Plans patches for files below a directory and applies the plan. -/
def inject (root : Path) (ps : List Patch) (write : Bool) :
    ExceptT Failure m (List Patch × ApplyResult) := do
  let planned ← plan (readBelow root) ps
  let result ← apply planned { write, contents := none, root }
  return (planned, result)

end KeyLedger
