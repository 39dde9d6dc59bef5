import KeyLedger.Candidate.Wire
import KeyLedger.Patch.Preview
import KeyLedger.Patch.Wire
import KeyLedger.Workflow

/-!
# The command lines

Two programs share the library: the ledger tool, whose first argument is a command, and the preview
of patches, which never writes. A run of a program takes its arguments, the environment and the
time, and yields an exit code and what is printed.

Input files are JSON arrays. The file is the first argument that does not begin with two dashes.

## Main definitions

* `Answer` — exit code and output
* `Command` — the commands of the ledger tool
* `runLedger`, `runPreview` — the two programs
-/

namespace KeyLedger

/-- What a program leaves behind. -/
structure Answer where
  /-- The exit code. -/
  code : UInt32
  /-- What is printed. -/
  out : String
  /-- What is printed as an error. -/
  err : String
deriving DecidableEq, Repr

/-- Nothing is printed. -/
def Answer.silent (code : UInt32) : Answer := ⟨code, "", ""⟩

/-- A command of the ledger tool. -/
inductive Command where
  /-- Record a run. -/
  | scan
  /-- Record a run and put orphans into quarantine. -/
  | sync
  /-- Merge a run into the locale files. -/
  | extract
  /-- Fail if a run creates entries. -/
  | check
  /-- Delete what has been in quarantine for long enough. -/
  | gc
  /-- Plan and apply patches. -/
  | inject
deriving DecidableEq, Repr

namespace Command

/-- The command with a name. -/
def ofName? (name : String) : Option Command :=
  [("scan", .scan), ("sync", .sync), ("extract", .extract), ("check", .check), ("gc", .gc),
   ("inject", .inject)].lookup name

/-- The exit code of a command that failed. -/
def failureCode : Command → UInt32
  | .scan => 3
  | .sync => 3
  | .gc => 3
  | .extract => 5
  | .inject => 7
  | .check => 10

end Command

/-- The exit code of an injection that met conflicts. -/
def conflictCode : UInt32 := 6

/-- The exit code of a malformed age window. -/
def invalidAgeCode : UInt32 := 8

/-- The exit code of a check that did not pass. -/
def violationCode : UInt32 := 9

/-- How the ledger tool is used. -/
def usage : String := "
voko - keep translation keys stable across codemod runs

USAGE:
    voko <COMMAND> [ARGS]

COMMANDS:
    scan <candidates.json>      Reconcile with the manifest, write manifest and scan report
    sync <candidates.json>      Reconcile and move orphaned keys to the trash
    extract <candidates.json>   Merge new and updated keys into locale files
    check <candidates.json>     Exit 9 when reconciliation creates entries, 10 on bad input
    gc [--age <window>]         Delete trash files older than the window (e.g. 14d, 2w)
    inject <patches.json>       Plan and apply patches (dry run unless --write)

ENVIRONMENT VARIABLES:
    VOKO_ROOT             Project root (default: .)
    VOKO_MANIFEST_PATH    Manifest file (default: .voko/manifest.json)
    VOKO_TRASH_DIR        Quarantine directory (default: .voko/trash)
    VOKO_REPORTS_DIR      Scan reports (default: reports)
    VOKO_LOCALES_DIR      Locale files (default: locales)
    VOKO_DEFAULT_LOCALE   Base locale (default: en)
    VOKO_LOCALES          Comma-separated locales (default: en)
    VOKO_QUARANTINE_AGE   Default gc window, checked by gc only (default: 14d)
    RUST_LOG              Log filter (default: voko=info)
"

/-! ### Arguments and input files -/

/-- Whether an argument is a flag. -/
def isFlag (arg : String) : Bool := ['-', '-'].isPrefixOf arg.toList

/-- The first argument that is not a flag. -/
def inputArgument (args : List String) (what : String) : Except Failure Path :=
  match args.find? fun a => !isFlag a with
  | some a => .ok ⟨a⟩
  | none => .error (.missingArgument what)

/-- The argument that follows the first occurrence of a flag; an empty one if none follows. -/
def flagValue? (args : List String) (flag : String) : Option String :=
  match args.dropWhile (· ≠ flag) with
  | [] => none
  | _ :: rest => some (rest.headD "")

variable {m : Type → Type} [Monad m] [MonadFiles m]

/-- Reads an input file. -/
def loadInput {α : Type} (r : Reader α) (p : Path) : ExceptT Failure m α := do
  let text ← attempt (.read p) (readText p)
  match r.run? text with
  | some v => return v
  | none => throw (.malformed p)

/-- Reads the candidates that the arguments name. -/
def loadCandidates (args : List String) : ExceptT Failure m (List Candidate) := do
  let p ← inputArgument args "candidates"
  loadInput Candidate.listReader p

/-- Reads the patches that the arguments name. -/
def loadPatches (args : List String) : ExceptT Failure m (List Patch) := do
  let p ← inputArgument args "patches"
  loadInput Patch.listReader p

/-! ### The ledger tool -/

/-- Runs a command. -/
def Command.run (s : Settings) (now : Instant) (args : List String) :
    Command → ExceptT Failure m Answer
  | .scan => do
    let candidates ← loadCandidates args
    let _ ← KeyLedger.scan s candidates now
    return .silent 0
  | .sync => do
    let candidates ← loadCandidates args
    let _ ← KeyLedger.sync s candidates now
    return .silent 0
  | .extract => do
    let candidates ← loadCandidates args
    let _ ← KeyLedger.extract s candidates now
    return .silent 0
  | .check => do
    let candidates ← loadCandidates args
    let (_, outcome) ← observe (m := m) s candidates now
    return .silent (if (Check.ofOutcome outcome).passed then 0 else violationCode)
  | .gc => do
    let days ← match flagValue? args "--age" with
      | some token => parseAge? token
      | none => s.quarantineDays
    let _ ← collectTrash s.trashDir days now.nanoseconds
    return .silent 0
  | .inject => do
    let write := args.contains "--write"
    let patches ← loadPatches args
    let (_, result) ← KeyLedger.inject s.root patches write
    let preview := if write then "" else previewAll result.files
    let out := if preview.isEmpty then "" else preview ++ "\n"
    return ⟨if result.conflicts.isEmpty then 0 else conflictCode, out, ""⟩

/-- The environment, completed by the definitions in the working directory. -/
def completeEnvironment (env : Environment) : m Environment := do
  match ← readText ⟨".env"⟩ with
  | .ok text => return env.orElse (.ofText text)
  | .error _ => return env

/-- Runs the ledger tool. -/
def runLedger (args : List String) (env : Environment) (now : Instant) : m Answer := do
  let env ← completeEnvironment env
  match args with
  | [] => return ⟨0, usage ++ "\n", ""⟩
  | name :: rest =>
    if name = "--help" ∨ name = "-h" ∨ name = "help" then return ⟨0, usage ++ "\n", ""⟩
    else
      match Command.ofName? name with
      | none => return ⟨1, usage ++ "\n", "Unknown command: " ++ name ++ "\n"⟩
      | some command =>
        match ← (command.run (.ofEnvironment env) now rest).run with
        | .ok answer => return answer
        | .error (.invalidAge _) => return .silent invalidAgeCode
        | .error _ => return .silent command.failureCode

/-! ### The preview -/

/-- A rule across the page. -/
def rule : String := String.ofList (List.replicate 80 '=')

/-- The page that shows what patches come to. -/
def previewPage (r : ApplyResult) : String :=
  "\n" ++ rule ++ "\nPATCH PREVIEW (" ++ decimal r.files.length ++ " files, "
    ++ decimal r.conflicts.length ++ " conflicts)\n" ++ rule ++ "\n\n" ++ previewAll r.files ++ rule
    ++ "\n"

/-- Shows what patches come to, as a page or as JSON. Nothing is written. -/
def preview (args : List String) (root : Path) : ExceptT Failure m Answer := do
  let patches ← loadPatches args
  let (_, result) ← inject root patches false
  let out := if args.contains "--json" then result.toJson.pretty ++ "\n" else previewPage result
  return ⟨0, out, ""⟩

/-- Runs the preview. -/
def runPreview (args : List String) (env : Environment) : m Answer := do
  let env ← completeEnvironment env
  match ← (preview args ⟨(env "VOKO_ROOT").getD "."⟩).run with
  | .ok answer => return answer
  | .error e => return ⟨1, "", "Error: " ++ e.message ++ "\n"⟩

end KeyLedger
