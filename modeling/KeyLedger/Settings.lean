import KeyLedger.Distinct
import KeyLedger.Locale.Files
import KeyLedger.Quarantine
import KeyLedger.Text.Blank
import KeyLedger.Text.Lines

/-!
# Settings

Where a project keeps its files and which locales it has, as environment variables say. All paths
are relative to the root of the project. The age window of the quarantine is kept as it was given,
since only the collection of trash has a use for it.

## Main definitions

* `Environment` — the values of variables
* `Environment.ofText` — the variables that a file defines
* `Settings` — settings
* `Settings.ofEnvironment` — the settings that variables make
-/

namespace KeyLedger

/-- The values of environment variables, by name. -/
abbrev Environment : Type := String → Option String

namespace Environment

/-- The name and the value on a line, with the blanks around them dropped. -/
def ofLine? (line : List Char) : Option (String × String) :=
  let name := line.takeWhile (· ≠ '=')
  match line.dropWhile (· ≠ '=') with
  | _ :: value => some (String.ofList (Text.trim name), String.ofList (Text.trim value))
  | [] => none

/-- The variables that a file defines, one on a line. The first definition of a name counts. -/
def ofText (text : String) : Environment :=
  let defined := (Text.pieces '\n' text.toList).filterMap ofLine?
  fun name => defined.lookup name

/-- The variables of one environment, and those of another that it lacks. -/
def orElse (a b : Environment) : Environment := fun name => a name <|> b name

end Environment

/-- The settings of a project. -/
structure Settings where
  /-- The root of the project. -/
  root : Path
  /-- The manifest. -/
  manifestPath : Path
  /-- The quarantine. -/
  trashDir : Path
  /-- Where reports are kept. -/
  reportsDir : Path
  /-- Where locale files are kept. -/
  localesDir : Path
  /-- The locale of the source texts. -/
  defaultLocale : String
  /-- All locales, the default one first. -/
  locales : List String
  /-- How long quarantine files are kept, as it was given. -/
  quarantineAge : String
deriving DecidableEq, Repr

namespace Settings

/-- The manifest of a project whose settings name none, below its root. -/
def defaultManifest : String := ".voko/manifest.json"

/-- The quarantine of a project whose settings name none, below its root. -/
def defaultTrash : String := ".voko/trash"

/-- The directory of reports of a project whose settings name none, below its root. -/
def defaultReports : String := "reports"

/-- The directory of locale files of a project whose settings name none, below its root. -/
def defaultLocales : String := "locales"

/-- The default locale followed by the locales of a list with commas, without repetitions. -/
def localeList (list defaultLocale : String) : List String :=
  let named := (Text.splitAt ',' list).map Text.trimmed
  distinct (defaultLocale :: named.filter (· ≠ ""))

/-- The settings that environment variables make. -/
def ofEnvironment (env : Environment) : Settings :=
  let root : Path := ⟨(env "VOKO_ROOT").getD "."⟩
  let below := fun name fallback => root.join ((env name).getD fallback)
  let defaultLocale :=
    (((env "VOKO_DEFAULT_LOCALE").map Text.trimmed).filter (· ≠ "")).getD "en"
  { root
    manifestPath := below "VOKO_MANIFEST_PATH" defaultManifest
    trashDir := below "VOKO_TRASH_DIR" defaultTrash
    reportsDir := below "VOKO_REPORTS_DIR" defaultReports
    localesDir := below "VOKO_LOCALES_DIR" defaultLocales
    defaultLocale
    locales := localeList ((env "VOKO_LOCALES").getD "") defaultLocale
    quarantineAge := (env "VOKO_QUARANTINE_AGE").getD "14d" }

/-- How many days quarantine files are kept. -/
def quarantineDays (s : Settings) : Except Failure Nat := parseAge? s.quarantineAge

/-- Where locale files are kept. -/
def layout (s : Settings) : Layout :=
  { dir := s.localesDir, defaultLocale := s.defaultLocale, locales := s.locales }

end Settings

end KeyLedger
