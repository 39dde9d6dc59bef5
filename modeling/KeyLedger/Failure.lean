import KeyLedger.Files.Basic

/-!
# Failures

The ways in which an operation of the library comes to nothing. A failure of the file system is
reported with what was going on at the time, from the outside in.

## Main definitions

* `Activity` — what was going on
* `Failure` — failures
* `Failure.message` — the words for a failure
* `attempt`, `during` — file operations within an activity
-/

namespace KeyLedger

/-- What was going on when a file operation failed. -/
inductive Activity where
  /-- Making a directory. -/
  | createDirectory (p : Path)
  /-- Reading a file. -/
  | read (p : Path)
  /-- Writing a file. -/
  | write (p : Path)
  /-- Moving a finished file to its place. -/
  | moveIntoPlace (p : Path)
  /-- Deleting a file. -/
  | remove (p : Path)
  /-- Writing the manifest. -/
  | writeManifest (p : Path)
  /-- Writing a report. -/
  | writeReport (p : Path)
  /-- Listing the quarantine. -/
  | listTrash (p : Path)
deriving DecidableEq, Repr

/-- The words for an activity that failed. -/
def Activity.message : Activity → String
  | .createDirectory p => "Failed to create directory " ++ p.text
  | .read p => "Failed to read " ++ p.text
  | .write p => "Failed to write " ++ p.text
  | .moveIntoPlace p => "Failed to move " ++ p.text ++ " into place"
  | .remove p => "Failed to remove " ++ p.text
  | .writeManifest p => "Failed to write manifest " ++ p.text
  | .writeReport p => "Failed to write scan report " ++ p.text
  | .listTrash p => "Failed to list trash directory " ++ p.text

/-- The ways in which an operation fails. -/
inductive Failure where
  /-- A token that is no age window. -/
  | invalidAge (token : String)
  /-- An edit that ends before it starts. -/
  | invalidEditRange (file : String) (start stop : Nat)
  /-- A file operation failed; the activities stand outermost first. -/
  | io (activities : List Activity) (cause : IoError)
  /-- An input file that does not hold what it should. -/
  | malformed (p : Path)
  /-- A command without the argument that it needs. -/
  | missingArgument (what : String)
deriving DecidableEq, Repr

/-- A natural number in decimal. -/
def decimal (n : Nat) : String := String.ofList (Nat.toDigits 10 n)

/-- The words for a failure. -/
def Failure.message : Failure → String
  | .invalidAge token =>
    "invalid age '" ++ token
      ++ "': expected a positive count followed by 'd' or 'w' (e.g. 14d, 2w)"
  | .invalidEditRange file start stop =>
    "invalid edit range for file \"" ++ file ++ "\": start=" ++ decimal start ++ " end="
      ++ decimal stop ++ " (start must be <= end)"
  | .io activities cause =>
    String.intercalate ": " (activities.map Activity.message ++ [cause.message])
  | .malformed p => "Failed to parse " ++ p.text
  | .missingArgument what => "Missing " ++ what ++ " file argument"

variable {m : Type → Type} [Monad m] {α : Type}

/-- A file operation as part of an activity. -/
def attempt (a : Activity) (x : m (Except IoError α)) : ExceptT Failure m α :=
  ExceptT.mk do
    match ← x with
    | .ok v => return .ok v
    | .error e => return .error (.io [a] e)

/-- A computation as part of a larger activity. -/
def during (a : Activity) (x : ExceptT Failure m α) : ExceptT Failure m α :=
  ExceptT.mk do
    match ← x.run with
    | .error (.io as e) => return .error (.io (a :: as) e)
    | r => return r

end KeyLedger
