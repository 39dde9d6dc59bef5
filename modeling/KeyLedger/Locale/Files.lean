import KeyLedger.Files.Write
import KeyLedger.Locale.Nested

/-!
# Locale files

There is one file for each namespace of each locale. A file that is missing, unreadable or not an
object counts as empty; files are written in the persisted form and only if they change.

## Main definitions

* `Layout` — which locales there are, and where their files are kept
* `readLocale`, `writeLocale` — the data of a file
-/

namespace KeyLedger

/-- Where locale files are kept. -/
structure Layout where
  /-- The directory of all locales. -/
  dir : Path
  /-- The locale of the source texts. -/
  defaultLocale : String
  /-- All locales. -/
  locales : List String
deriving DecidableEq, Repr

/-- The file of a namespace in a locale. -/
def Layout.file (l : Layout) (locale ns : String) : Path :=
  (l.dir.join locale).join (ns ++ ".json")

variable {m : Type → Type} [Monad m] [MonadFiles m]

/-- The data of a locale file. -/
def readLocale (p : Path) : m LocaleData := do
  match ← readText p with
  | .ok text => return .ofText text
  | .error _ => return ∅

/-- Writes the data of a locale file; the result says whether the file changed. -/
def writeLocale (p : Path) (d : LocaleData) : ExceptT Failure m Bool :=
  writeStable p d.text

end KeyLedger
