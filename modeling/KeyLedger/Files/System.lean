import KeyLedger.Files.Basic

/-!
# The files of the operating system

The operations on files as the system performs them. Failures are sorted by the number that the
system gives them.

## Main definitions

* `IoError.ofSystem` — the failure behind an error of the system
-/

namespace KeyLedger

/-- The number of an error. Some operations report it with its sign turned. -/
def errorNumber (code : UInt32) : Nat :=
  if code < 0x80000000 then code.toNat else (0 - code).toNat

/-- The failure behind an error of the system. -/
def IoError.ofSystem : IO.Error → IoError
  | .noFileOrDirectory _ _ _ => .notFound
  | .alreadyExists _ _ _ => .alreadyExists
  | e@(.inappropriateType _ code _) | e@(.resourceExhausted _ code _) | e@(.resourceBusy code _) =>
    match errorNumber code with
    | 16 => .busy
    | 20 => .notDirectory
    | 21 => .isDirectory
    | 28 => .noSpace
    | _ => .other (toString e)
  | e => .other (toString e)

/-- An action whose errors are values. -/
def IoError.capture {α : Type} (x : IO α) : IO (Except IoError α) := do
  try
    return .ok (← x)
  catch e =>
    return .error (.ofSystem e)

/-- An item of a directory, as the system describes it. -/
def DirItem.ofSystem (e : IO.FS.DirEntry) : IO DirItem := do
  let info ← e.path.metadata
  let modified : Int := info.modified.sec * 1000000000 + info.modified.nsec.toNat
  return ⟨e.fileName, info.type matches .file, modified⟩

instance : MonadFiles IO where
  readText p := do
    match ← IoError.capture (IO.FS.readBinFile p.text) with
    | .error e => return .error e
    | .ok bytes =>
      match String.fromUTF8? bytes with
      | some s => return .ok s
      | none => return .error .notText
  writeText p s := IoError.capture (IO.FS.writeFile p.text s)
  createDirs p := IoError.capture (IO.FS.createDirAll p.text)
  rename old new := IoError.capture (IO.FS.rename old.text new.text)
  removeFile p := IoError.capture (IO.FS.removeFile p.text)
  listDir p := IoError.capture do
    let here ← IO.currentDir
    let items ← (here / p.text).readDir
    items.toList.mapM DirItem.ofSystem

end KeyLedger
