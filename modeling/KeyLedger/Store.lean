import KeyLedger.Files.Write
import KeyLedger.Manifest.Wire
import KeyLedger.Report

/-!
# The stored manifest and reports

Reading the manifest never fails: a file that is missing, unreadable or malformed counts as a fresh
manifest. Manifest and reports are written in the persisted form and only if they change.

## Main definitions

* `readManifest`, `writeManifest` — the stored manifest
* `writeReport` — stores a report
-/

namespace KeyLedger

variable {m : Type → Type} [Monad m] [MonadFiles m]

/-- The stored manifest. -/
def readManifest (p : Path) : m Manifest := do
  match ← readText p with
  | .ok text => return (Manifest.ofText? text).getD .fresh
  | .error _ => return .fresh

/-- Stores a manifest; the result says whether the file changed. -/
def writeManifest (p : Path) (manifest : Manifest) : ExceptT Failure m Bool :=
  during (.writeManifest p) (writeStable p manifest.stableText)

/-- Stores a report of a run at an instant and returns its path. -/
def writeReport (r : Report) (dir : Path) (now : Instant) : ExceptT Failure m Path := do
  let p := dir.join (Report.fileName now)
  let _ ← during (.writeReport p) (writeStable p r.toJson.sortedText)
  return p

end KeyLedger
