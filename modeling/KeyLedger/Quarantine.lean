import KeyLedger.Locale.Files
import KeyLedger.Manifest.Basic
import KeyLedger.Text.Blank

/-!
# The quarantine

The keys of orphaned entries are marked as deprecated in a quarantine file for their namespace. A
quarantine file that has not changed for a given time is deleted. The time is given as a count of
days or weeks.

## Main definitions

* `quarantine` — marks the keys of orphans
* `parseAge?` — reads an age window
* `collectTrash` — deletes what has been in quarantine for long enough
-/

namespace KeyLedger

/-! ### Moving orphans in -/

/-- What stands under a deprecated key. -/
def deprecatedMark : Json := .obj [("__deprecated", .bool true)]

/-- The keys of the orphans among some entries, by namespace. -/
def orphanKeys (entries : List Entry) : Dict (List String) :=
  entries.foldl
    (fun acc e =>
      match e.status, e.key with
      | .orphaned, some key => acc.alter e.ns [] (· ++ [key])
      | _, _ => acc)
    ∅

/-- The data of a quarantine file with some keys marked as deprecated. -/
def withMarks (d : LocaleData) (keys : List String) : LocaleData :=
  keys.foldl (fun d k => d.set k deprecatedMark) d

variable {m : Type → Type} [Monad m] [MonadFiles m]

/-- Marks the keys of the orphans among some entries in the quarantine files of their namespaces.
The result lists the files that changed. -/
def quarantine (entries : List Entry) (dir : Path) : ExceptT Failure m (List Path) := do
  let touched ← (orphanKeys entries).toList.mapM fun (ns, keys) => do
    let p := dir.join (ns ++ ".json")
    let d ← readLocale (m := m) p
    return if ← writeLocale p (withMarks d keys) then [p] else []
  return touched.flatten

/-! ### Age windows -/

/-- The unit of an age window, in days. -/
def daysPerUnit? : List Char → Option Nat
  | ['d'] => some 1
  | ['w'] => some 7
  | _ => none

/-- The days of an age window: a positive count in decimal, blanks, and `d` or `w`, between any
blanks. Neither the count nor the days may exceed 32 bits. -/
def parseAge? (token : String) : Except Failure Nat :=
  let cs := Text.trim token.toList
  let digits := cs.takeWhile Char.isDigit
  let rest := (cs.dropWhile Char.isDigit).dropWhile Text.isBlank
  let count := Nat.ofDigitChars 10 digits 0
  match daysPerUnit? rest with
  | some days =>
    if ¬ digits.isEmpty ∧ 0 < count ∧ count * days < UInt32.size then .ok (count * days)
    else .error (.invalidAge token)
  | none => .error (.invalidAge token)

/-! ### Deleting what is old -/

/-- Whether a file last modified at one time is at least `days` old at another. A file from the
future has no age. -/
def isExpired (days : Nat) (modified now : Int) : Bool :=
  decide ((days * 86400 * 1000000000 : Nat) ≤ max 0 (now - modified))

/-- Deletes the files in the quarantine that are at least `days` old. The result lists their paths
in order. A quarantine that does not exist is empty. -/
def collectTrash (dir : Path) (days : Nat) (now : Int) : ExceptT Failure m (List Path) := do
  match ← listDir (m := m) dir with
  | .error .notFound => return []
  | .error e => throw (.io [.listTrash dir] e)
  | .ok items =>
    let expired := items.filter fun i => i.isFile && isExpired days i.modified now
    let paths := expired.map fun i => dir.join i.name
    paths.forM fun p => attempt (.remove p) (removeFile p)
    return paths.mergeSort fun a b => decide (a.text ≤ b.text)

end KeyLedger
