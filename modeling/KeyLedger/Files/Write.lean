import KeyLedger.Failure

/-!
# Ways of writing a file

A stable write leaves a file alone that already holds what is to be written, so that its time of
modification tells when it last changed. An atomic write goes through a sibling that is moved into
place, so that a reader sees the old text or the new one.

## Main definitions

* `writeStable` — writes only if something changes
* `writeAtomic` — writes through a sibling
-/

namespace KeyLedger

variable {m : Type → Type} [Monad m] [MonadFiles m]

/-- Writes a text to a file, making its directory first if need be. A file that already holds the
text is left alone; one that cannot be read because it is not text is replaced. The result says
whether anything was written. -/
def writeStable (p : Path) (text : String) : ExceptT Failure m Bool := do
  match p.parent? with
  | some parent =>
    if parent.text ≠ "" then
      attempt (.createDirectory parent) (createDirs parent)
  | none => pure ()
  match ← readText (m := m) p with
  | .ok old =>
    if old = text then return false
  | .error .notFound | .error .notText => pure ()
  | .error e => throw (.io [.read p] e)
  attempt (.write p) (writeText p text)
  return true

/-- The sibling through which a file is written. -/
def temporary (p : Path) : Path :=
  p.withFileName (p.fileName?.getD "" ++ ".voko-tmp")

/-- Replaces a file through its sibling. If the sibling cannot be moved into place it is removed
again. -/
def writeAtomic (p : Path) (text : String) : ExceptT Failure m Unit := do
  attempt (.write (temporary p)) (writeText (temporary p) text)
  match ← rename (m := m) (temporary p) p with
  | .ok () => return ()
  | .error e =>
    let _ ← removeFile (m := m) (temporary p)
    throw (.io [.moveIntoPlace p] e)

end KeyLedger
