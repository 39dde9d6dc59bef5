import KeyLedger.Proofs.Dict
import KeyLedger.Proofs.Locale.Updates

/-!
# A merge as a walk

A merge that succeeds walks over the files of all locales, namespace by namespace: for each
namespace that has a new or a changed key it visits the file of the default locale and then those of
the others, in the order in which they are listed. Which namespaces are visited, and with which
keys, can be told from the slots of the entries alone.

## Main definitions

* `HasSlot` — some of the entries has a slot
* `Layout.visits` — the files of a namespace, in the order in which they are visited
* `mergeChange` — what a merge makes of the data of a file
* `Layout.Visits` — the files that a merge visits
* `Layout.Apart` — a file that shares its place with no other file of a merge

## Main results

* `KeyTexts.mem_keys_of` — the keys of a namespace
* `exists_walk_mergeLocales` — a merge walks over the files that it visits
-/

namespace KeyLedger

/-! ### The keys of a namespace -/

/-- Some of the entries has a slot. -/
def HasSlot (entries : List Entry) (s : Slot) : Prop := ∃ e ∈ entries, e.slot? = some s

theorem hasSlot_append {es es' : List Entry} {s : Slot} :
    HasSlot (es ++ es') s ↔ HasSlot es s ∨ HasSlot es' s := by
  simp [HasSlot, or_and_right, exists_or]

theorem exists_hasSlot_iff {entries : List Entry} {ns : String} :
    (∃ key, HasSlot entries ⟨ns, key⟩) ↔ ∃ e ∈ entries, ∃ key, e.slot? = some ⟨ns, key⟩ := by
  simp only [HasSlot]
  rw [exists_comm]
  simp only [exists_and_left]

/-- What an item can bring about, and no other one undoes, is there after a fold if one of the items
has brought it about or if it was there before. -/
theorem foldl_iff {α β : Type} {f : β → α → β} {P : β → Prop} {Q : α → Prop}
    (h : ∀ b a, P (f b a) ↔ Q a ∨ P b) (l : List α) (b : β) :
    P (l.foldl f b) ↔ (∃ a ∈ l, Q a) ∨ P b := by
  induction l generalizing b with
  | nil => simp
  | cons a l ih =>
    rw [List.foldl_cons, ih, h, ← or_assoc, or_comm (a := ∃ a ∈ l, Q a)]
    simp

namespace KeyTexts

variable {candidates : List Candidate} {entries : List Entry} {ns key : String}

theorem of_alter (t : KeyTexts) (ns ns' : String) (f : Dict String → Dict String) :
    of (t.alter ns ∅ f) ns' = if ns' = ns then f (t.of ns) else t.of ns' := by
  rw [of, Dict.find?_alter]
  split <;> rfl

/-- The texts with that of one more entry. -/
def add (candidates : List Candidate) (t : KeyTexts) (e : Entry) : KeyTexts :=
  match e.key with
  | some key => t.alter e.ns ∅ fun texts => texts.insert key (sourceText candidates e key)
  | none => t

theorem mem_keys_of_add {t : KeyTexts} {e : Entry} :
    key ∈ ((add candidates t e).of ns).keys ↔
      e.slot? = some ⟨ns, key⟩ ∨ key ∈ (t.of ns).keys := by
  rw [add, Entry.slot?_eq_some_iff]
  cases hkey : e.key with
  | none => simp
  | some k =>
    rw [of_alter]
    by_cases hns : ns = e.ns
    · subst hns
      rw [if_pos rfl, Dict.mem_keys_insert]
      simp [eq_comm]
    · simp [if_neg hns, Ne.symm hns]

theorem mem_keys_add {t : KeyTexts} {e : Entry} :
    ns ∈ (add candidates t e).keys ↔ (∃ key, e.slot? = some ⟨ns, key⟩) ∨ ns ∈ t.keys := by
  simp only [add, Entry.slot?_eq_some_iff]
  cases hkey : e.key with
  | none => simp
  | some k =>
    simp [Dict.mem_keys_alter, eq_comm]

/-- **The keys of a namespace** are those of the entries. -/
theorem mem_keys_of :
    key ∈ ((ofEntries candidates entries).of ns).keys ↔ HasSlot entries ⟨ns, key⟩ :=
  (foldl_iff (f := add candidates) (P := fun t => key ∈ (t.of ns).keys)
    (fun _ _ => mem_keys_of_add) entries ∅).trans (or_iff_left List.not_mem_nil)

/-- The namespaces are those of the entries that have a key. -/
theorem mem_keys :
    ns ∈ (ofEntries candidates entries).keys ↔ ∃ key, HasSlot entries ⟨ns, key⟩ := by
  rw [exists_hasSlot_iff]
  exact (foldl_iff (f := add candidates) (P := fun t => ns ∈ t.keys)
    (fun _ _ => mem_keys_add) entries ∅).trans (or_iff_left List.not_mem_nil)

end KeyTexts

/-! ### The files of a merge -/

/-- The files of a namespace in the order in which a merge visits them, each given by its locale
and the namespace. -/
def Layout.visits (layout : Layout) (ns : String) : List (String × String) :=
  (layout.defaultLocale, ns) ::
    (layout.locales.filter (· ≠ layout.defaultLocale)).map fun locale => (locale, ns)

/-- What a merge makes of the data of a file. -/
def mergeChange (layout : Layout) (created updated : KeyTexts) (w : String × String) :
    LocaleData → LocaleData :=
  if w.1 = layout.defaultLocale then
    (withTexts · ((created.of w.2).toList ++ (updated.of w.2).toList))
  else (withBlanks · (created.of w.2).keys)

/-- The default locale gets the texts of the new and of the changed keys. -/
theorem mergeChange_defaultLocale (layout : Layout) (created updated : KeyTexts) (ns : String) :
    mergeChange layout created updated (layout.defaultLocale, ns) =
      (withTexts · ((created.of ns).toList ++ (updated.of ns).toList)) :=
  if_pos rfl

/-- Other locales get blanks for the new keys. -/
theorem mergeChange_of_ne {layout : Layout} {locale ns : String}
    (hother : locale ≠ layout.defaultLocale) (created updated : KeyTexts) :
    mergeChange layout created updated (locale, ns) = (withBlanks · (created.of ns).keys) :=
  if_neg hother

/-- A merge visits the file of a namespace in a locale. -/
def Layout.Visits (layout : Layout) (o : Outcome) (w : String × String) : Prop :=
  (w.1 = layout.defaultLocale ∨ w.1 ∈ layout.locales) ∧
    ∃ key, HasSlot (o.created ++ o.updated.map Update.entry) ⟨w.2, key⟩

/-- No other file that a merge visits is at the place of a given one. -/
def Layout.Apart (layout : Layout) (o : Outcome) (d : Disk) (locale ns : String) : Prop :=
  ∀ w, layout.Visits o w → w ≠ (locale, ns) →
    d.place? (layout.file w.1 w.2) ≠ d.place? (layout.file locale ns)

/-- It is enough to look at all locales and at the namespaces of all entries. -/
theorem Layout.Apart.of_forall {layout : Layout} {o : Outcome} {d : Disk} {locale ns : String}
    (h : ∀ l ∈ layout.defaultLocale :: layout.locales,
      ∀ e ∈ o.created ++ o.updated.map Update.entry, (l, e.ns) ≠ (locale, ns) →
        d.place? (layout.file l e.ns) ≠ d.place? (layout.file locale ns)) :
    layout.Apart o d locale ns := by
  rintro ⟨l, n⟩ ⟨hlocale, key, e, he, hslot⟩ hne
  obtain ⟨rfl, -⟩ := Entry.slot?_eq_some_iff.mp hslot
  exact h l (List.mem_cons.mpr hlocale) e he hne

theorem mem_namespacesOf {created updated : KeyTexts} {ns : String} :
    ns ∈ namespacesOf created updated ↔ ns ∈ created.keys ∨ ns ∈ updated.keys := by
  rw [namespacesOf, Dict.mem_keys_ofList, List.map_map]
  simp

/-- The namespaces of a merge are those of the entries that have a key. -/
theorem mem_namespacesOf_iff {candidates : List Candidate} {created updated : List Entry}
    {ns : String} :
    ns ∈ namespacesOf (.ofEntries candidates created) (.ofEntries candidates updated) ↔
      ∃ key, HasSlot (created ++ updated) ⟨ns, key⟩ := by
  simp only [mem_namespacesOf, KeyTexts.mem_keys, hasSlot_append, exists_or]

theorem Layout.mem_visits {layout : Layout} {ns : String} {w : String × String} :
    w ∈ layout.visits ns ↔ (w.1 = layout.defaultLocale ∨ w.1 ∈ layout.locales) ∧ w.2 = ns := by
  obtain ⟨locale, ns'⟩ := w
  simp only [visits, List.mem_cons, List.mem_map, List.mem_filter, Prod.mk.injEq]
  by_cases hlocale : locale = layout.defaultLocale
  · simp [hlocale]
  · simp [hlocale, @eq_comm _ ns]

section Merge

variable {candidates : List Candidate} {layout : Layout} {o : Outcome} {d d' : Disk}
  {created updated : KeyTexts} {touched : List Path} {s : MergeSummary}

theorem walk_mergeNamespace {ns : String}
    (h : (mergeNamespace (m := DiskM) layout ns (created.of ns) (updated.of ns)).run d =
      (.ok touched, d')) :
    Walk (fun w => layout.file w.1 w.2) (mergeChange layout created updated) (layout.visits ns) d
      touched d' := by
  rw [mergeNamespace, DiskM.bind_eq_ok_iff] at h
  obtain ⟨base, d₁, hbase, hrest⟩ := h
  rw [DiskM.bind_eq_ok_iff] at hrest
  obtain ⟨rest, d₂, hothers, hpure⟩ := hrest
  obtain ⟨hok, rfl⟩ := Prod.mk.inj hpure
  obtain rfl := Except.ok.inj hok
  have hwalk : Walk (fun w => layout.file w.1 w.2) (mergeChange layout created updated)
      ((layout.locales.filter (· ≠ layout.defaultLocale)).flatMap fun locale => [(locale, ns)]) d₁
      rest.flatten d₂ := by
    refine Walk.of_mapM (fun locale hlocale d touched d' h => ?_) hothers
    have hother : locale ≠ layout.defaultLocale := by simpa using (List.mem_filter.mp hlocale).2
    rw [← mergeChange_of_ne hother] at h
    exact Walk.of_updateLocale (w := (locale, ns)) h
  rw [← mergeChange_defaultLocale] at hbase
  have hfirst : Walk (fun w => layout.file w.1 w.2) (mergeChange layout created updated)
      [(layout.defaultLocale, ns)] d base d₁ := Walk.of_updateLocale hbase
  rw [← List.map_eq_flatMap] at hwalk
  exact hfirst.append hwalk

/-- **A merge walks over the files that it visits.** -/
theorem exists_walk_mergeLocales
    (h : (mergeLocales (m := DiskM) candidates layout o).run d = (.ok s, d')) :
    ∃ ws, Walk (fun w => layout.file w.1 w.2)
        (mergeChange layout (.ofEntries candidates o.created)
          (.ofEntries candidates (o.updated.map Update.entry))) ws d s.touched d' ∧
      ∀ w, w ∈ ws ↔ layout.Visits o w := by
  rw [mergeLocales, DiskM.bind_eq_ok_iff] at h
  obtain ⟨lists, d₁, hall, hpure⟩ := h
  obtain ⟨hok, rfl⟩ := Prod.mk.inj hpure
  obtain rfl := Except.ok.inj hok
  refine ⟨_, Walk.of_mapM (fun ns _ d touched d' h => walk_mergeNamespace h) hall, fun w => ?_⟩
  simp only [List.mem_flatMap, Layout.mem_visits, Layout.Visits,
    ← @mem_namespacesOf_iff candidates]
  constructor
  · rintro ⟨ns, hmem, hlocale, rfl⟩
    exact ⟨hlocale, hmem⟩
  · rintro ⟨hlocale, hmem⟩
    exact ⟨w.2, hmem, hlocale, rfl⟩

end Merge

end KeyLedger
