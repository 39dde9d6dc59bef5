import KeyLedger.Json.Printer
import KeyLedger.Json.Reader
import KeyLedger.Reconcile.Outcome
import KeyLedger.Time.Text

/-!
# Scan reports and the check gate

A report counts the new, changed and orphaned entries of a run, and those new or changed ones that
have no key yet, in total and for each namespace. The gate refuses a run that had to create
entries: a text without an entry has not reached the locale files.

## Main definitions

* `Tally`, `Report`, `Report.ofOutcome` — the counts of a run
* `Report.fileName` — the name of the file that a report is kept in
* `Check`, `Check.ofOutcome` — the gate
-/

namespace KeyLedger

/-- Counts of entries. -/
structure Tally where
  /-- New entries. -/
  created : Nat
  /-- Changed entries. -/
  updated : Nat
  /-- Entries that are gone. -/
  orphaned : Nat
  /-- New or changed entries without a key. -/
  skipped : Nat
deriving DecidableEq, Repr

namespace Tally

/-- No entries. -/
def zero : Tally := ⟨0, 0, 0, 0⟩

instance : Inhabited Tally := ⟨zero⟩

/-- One more new entry. -/
def addCreated (t : Tally) : Tally := { t with created := t.created + 1 }

/-- One more changed entry. -/
def addUpdated (t : Tally) : Tally := { t with updated := t.updated + 1 }

/-- One more entry that is gone. -/
def addOrphaned (t : Tally) : Tally := { t with orphaned := t.orphaned + 1 }

/-- One more entry without a key. -/
def addSkipped (t : Tally) : Tally := { t with skipped := t.skipped + 1 }

/-- Counts as JSON. -/
def toJson (t : Tally) : Json :=
  .obj [("created", .nat t.created), ("updated", .nat t.updated), ("orphaned", .nat t.orphaned),
    ("skipped", .nat t.skipped)]

/-- Reads counts. -/
def reader : Reader Tally :=
  .record ["created", "updated", "orphaned", "skipped"] fun fs => do
    let created ← fs.required "created" (.natBelow UInt64.size)
    let updated ← fs.required "updated" (.natBelow UInt64.size)
    let orphaned ← fs.required "orphaned" (.natBelow UInt64.size)
    let skipped ← fs.required "skipped" (.natBelow UInt64.size)
    return { created, updated, orphaned, skipped }

end Tally

/-- The counts of a run. -/
structure Report where
  /-- The counts in total. -/
  summary : Tally
  /-- The counts of each namespace that has any. -/
  byNamespace : Dict Tally
  /-- Remarks. -/
  notes : List String
deriving DecidableEq

namespace Report

/-- The report of a run without entries. -/
def blank : Report := ⟨.zero, ∅, []⟩

/-- Counts entries, in total and for their namespaces. -/
def count (add : Tally → Tally) (r : Report) (entries : List Entry) : Report :=
  entries.foldl
    (fun r e => { r with
      summary := add r.summary
      byNamespace := r.byNamespace.alter e.ns .zero add })
    r

/-- The report of a run. -/
def ofOutcome (o : Outcome) : Report :=
  let changed := o.updated.map Update.entry
  let keyless := (o.created ++ changed).filter fun e => e.key.isNone
  blank.count .addCreated o.created
    |>.count .addUpdated changed
    |>.count .addOrphaned o.orphaned
    |>.count .addSkipped keyless

/-- A report as JSON. -/
def toJson (r : Report) : Json :=
  .obj [("summary", r.summary.toJson),
    ("byNamespace", .obj (r.byNamespace.toList.map fun m => (m.1, m.2.toJson))),
    ("notes", .strings r.notes)]

/-- Reads a report. -/
def reader : Reader Report :=
  .record ["summary", "byNamespace", "notes"] fun fs => do
    let summary ← fs.required "summary" Tally.reader
    let byNamespace ← fs.required "byNamespace" (.dict Tally.reader)
    let notes ← fs.withDefault "notes" [] (.list .string)
    return { summary, byNamespace, notes }

/-- The name of the file for the report of a run at an instant. -/
def fileName (now : Instant) : String :=
  "voko-scan-" ++ now.stamp ++ ".json"

end Report

/-- The verdict of the gate. -/
structure Check where
  /-- Why the gate stays shut. -/
  violations : List String
deriving DecidableEq, Repr

namespace Check

/-- Whether the gate opens. -/
def passed (c : Check) : Bool := c.violations.isEmpty

/-- The verdict on a run: it must not have created anything. -/
def ofOutcome (o : Outcome) : Check :=
  if o.created.isEmpty then ⟨[]⟩
  else ⟨["created:" ++ String.ofList (Nat.toDigits 10 o.created.length)]⟩

end Check

end KeyLedger
