import KeyLedger.Candidate.Basic
import KeyLedger.Digest.ContentHash
import KeyLedger.Locale.Files
import KeyLedger.Reconcile.Outcome

/-!
# Merging a run into the locale files

The default locale takes over the source text of every new or changed key. The other locales get an
empty text for a new key that they do not have, and nothing for a changed one: what stands in them
is never overwritten. Entries without a key do not reach the locale files and are only counted.

## Main definitions

* `sourceText` — the text that an entry was recorded from
* `KeyTexts` — the texts of keys, by namespace
* `MergeSummary`, `mergeLocales` — the merge
-/

namespace KeyLedger

/-- The text of the candidate that an entry was recorded from: among the candidates with the key of
the entry, the first with its content hash, or else the first. -/
def sourceText (candidates : List Candidate) (e : Entry) (key : String) : String :=
  let keyed := candidates.filter fun c => c.slot? == some ⟨e.ns, key⟩
  let recorded := keyed.find? fun c => Digest.contentHash c.text == e.contentHash
  ((recorded <|> keyed.head?).map Candidate.text).getD ""

/-- The texts of keys, by namespace. -/
abbrev KeyTexts : Type := Dict (Dict String)

/-- The texts of the entries that have a key; a later entry replaces an earlier one. -/
def KeyTexts.ofEntries (candidates : List Candidate) (entries : List Entry) : KeyTexts :=
  entries.foldl
    (fun acc e =>
      match e.key with
      | some key => acc.alter e.ns ∅ fun texts => texts.insert key (sourceText candidates e key)
      | none => acc)
    ∅

/-- The texts of a namespace. -/
def KeyTexts.of (t : KeyTexts) (ns : String) : Dict String := (t.find? ns).getD ∅

/-- What a merge did. -/
structure MergeSummary where
  /-- The files that changed. -/
  touched : List Path
  /-- The number of new keys. -/
  createdKeys : Nat
  /-- The number of changed keys. -/
  updatedKeys : Nat
  /-- The number of new or changed entries without a key. -/
  skipped : Nat
deriving DecidableEq, Repr

/-- A merge summary as JSON. -/
def MergeSummary.toJson (s : MergeSummary) : Json :=
  .obj [("touchedFiles", .strings (s.touched.map Path.text)), ("createdKeys", .nat s.createdKeys),
    ("updatedKeys", .nat s.updatedKeys), ("skipped", .nat s.skipped)]

/-- The data of the default locale with the texts of keys put in. -/
def withTexts (d : LocaleData) (texts : List (String × String)) : LocaleData :=
  texts.foldl (fun d t => d.set t.1 (.str t.2)) d

/-- The data of another locale with empty texts for the keys that it lacks. -/
def withBlanks (d : LocaleData) (keys : List String) : LocaleData :=
  keys.foldl (fun d k => d.ensure k (.str "")) d

/-- The namespaces that have a new or a changed key, ascending. -/
def namespacesOf (created updated : KeyTexts) : List String :=
  (Dict.ofList ((created.keys ++ updated.keys).map fun ns => (ns, ()))).keys

variable {m : Type → Type} [Monad m] [MonadFiles m]

/-- Changes a locale file; the result holds its path if that changed anything. -/
def updateLocale (p : Path) (f : LocaleData → LocaleData) : ExceptT Failure m (List Path) := do
  let d ← readLocale (m := m) p
  return if ← writeLocale p (f d) then [p] else []

/-- Merges the keys of a namespace into the files of all locales; the result lists the files that
changed. -/
def mergeNamespace (layout : Layout) (ns : String) (created updated : Dict String) :
    ExceptT Failure m (List Path) := do
  let base ← updateLocale (layout.file layout.defaultLocale ns)
    (withTexts · (created.toList ++ updated.toList))
  let others := layout.locales.filter (· ≠ layout.defaultLocale)
  let rest ← others.mapM fun locale =>
    updateLocale (layout.file locale ns) (withBlanks · created.keys)
  return base ++ rest.flatten

/-- Merges the outcome of a run into the locale files. -/
def mergeLocales (candidates : List Candidate) (layout : Layout) (o : Outcome) :
    ExceptT Failure m MergeSummary := do
  let changed := o.updated.map Update.entry
  let created := KeyTexts.ofEntries candidates o.created
  let updated := KeyTexts.ofEntries candidates changed
  let namespaces := namespacesOf created updated
  let touched ← namespaces.mapM fun ns => mergeNamespace layout ns (created.of ns) (updated.of ns)
  return {
    touched := touched.flatten
    createdKeys := (namespaces.flatMap fun ns => (created.of ns).toList).length
    updatedKeys := (namespaces.flatMap fun ns => (updated.of ns).toList).length
    skipped := ((o.created ++ changed).filter fun e => e.key.isNone).length }

end KeyLedger
