import KeyLedger.CommandLine
import KeyLedger.Files.System
import Std.Time.DateTime.Timestamp

/-!
# The programs

Under the name `preview` the program previews patches, and under any other it is the ledger tool.
-/

namespace KeyLedger

/-- The environment variables that the programs look at. -/
def variableNames : List String :=
  ["VOKO_ROOT", "VOKO_MANIFEST_PATH", "VOKO_TRASH_DIR", "VOKO_REPORTS_DIR", "VOKO_LOCALES_DIR",
   "VOKO_DEFAULT_LOCALE", "VOKO_LOCALES", "VOKO_QUARANTINE_AGE"]

/-- The environment of the process. -/
def processEnvironment : IO Environment := do
  let values ← variableNames.mapM fun name => do return (name, ← IO.getEnv name)
  return fun name => (values.lookup name).join

/-- The current time. -/
def currentInstant : IO Instant := do
  let since := (← Std.Time.Timestamp.now).toDurationSinceUnixEpoch
  match Instant.ofUnix? since.second.val since.nano.val.toNat with
  | some t => return t
  | none => throw (IO.userError "the clock is out of range")

end KeyLedger

open KeyLedger in
/-- Runs the program that the name of the executable asks for. -/
def main (args : List String) : IO UInt32 := do
  let env ← processEnvironment
  let program ← IO.appPath
  let answer ← if program.fileName = some "preview" then runPreview args env
    else runLedger args env (← currentInstant)
  IO.print answer.out
  IO.eprint answer.err
  return answer.code
