import KeyLedger.Proofs.Locale.Overwriting
import KeyLedger.Proofs.Locale.Quarantine
import KeyLedger.Proofs.Reconcile.Log

/-!
# Doing the same again

A merge or a quarantine that is repeated writes nothing, so that the time of a file tells when it
was last changed in earnest. Three things have to come together. The texts of keys overwrite each
other where one key goes on from another, but putting all of them in once more changes nothing. The
data that was written is read back as it was, which asks that it does not nest too deeply and that
the numbers which were in the file before are denoted by their own spellings, as all integers of 64
bits are. And no other file of the same run is at the same place.

An integer that takes more than 64 bits is read as a double, and its spelling as that of a double
need not denote it: such a file is written a second time (`wide_integer_written_twice`).

## Main definitions

* `LocaleData.Legible` — data that is read back from its own text
* `LocaleData.Repeatable` — a change that does nothing the second time
* `Disk.Tidy` — the files of a run are told apart by their places, and their numbers are steady

## Main results

* `Walk.settled` — every file of a walk is settled in the end
* `mergeLocales_of_settled`, `quarantine_of_settled` — a run over settled files does nothing
* `repetition_writes_nothing` — repeating a merge or a quarantine
-/

namespace KeyLedger

namespace LocaleData

variable {d : LocaleData} {l : List (String × Json)} {keys : List String}
  {texts : List (String × String)}

/-! ### Changes that do nothing the second time -/

/-- Data that is read back from its own text. -/
structure Legible (d : LocaleData) : Prop where
  /-- The numbers are denoted by their own spellings. -/
  canonical : (Json.ofDict d).Canonical Number.Steady
  /-- A reader can follow the nesting. -/
  shallow : (Json.ofDict d).depth ≤ Doc.maxDepth

theorem legible_empty : Legible ∅ := ⟨Json.canonical_obj_nil, by decide⟩

theorem legible_ofText {text : String} (h : ∀ v, Json.parse? text = some v → v.Steady) :
    Legible (ofText text) := by
  cases hparse : Json.parse? text with
  | none =>
    rw [ofText_of_parse?_eq_none hparse]
    exact legible_empty
  | some v =>
    cases v with
    | obj ms =>
      obtain ⟨hcanonical, hdepth⟩ := Json.canonical_of_parse? hparse
      rw [← ofDict_ofText hparse] at hcanonical hdepth
      exact ⟨hcanonical.of_steady (ofDict_ofText hparse ▸ h _ hparse), hdepth⟩
    | _ =>
      rw [ofText, hparse]
      exact legible_empty

/-- A change that keeps data legible, and that does nothing the second time. -/
def Repeatable (f : LocaleData → LocaleData) : Prop :=
  ∀ d, Legible d → Legible (f d) ∧ f (f d) = f d

theorem Legible.set {k : String} {v : Json} (h : Legible d) (hv : v.Canonical Number.Steady)
    (hk : (segmentsOf k).length + v.depth ≤ Doc.maxDepth) : Legible (d.set k v) :=
  ⟨canonical_set h.canonical hv k, depth_set_le h.shallow hk⟩

theorem repeatable_setAll (h : ∀ m ∈ l, m.2.Canonical Number.Steady ∧
    (segmentsOf m.1).length + m.2.depth ≤ Doc.maxDepth) : Repeatable (setAll · l) :=
  fun d hd => ⟨setAll_of_step hd fun _ m hm he => he.set (h m hm).1 (h m hm).2, setAll_setAll d l⟩

theorem repeatable_withTexts (h : ∀ t ∈ texts, (segmentsOf t.1).length ≤ Doc.maxDepth) :
    Repeatable (withTexts · texts) := by
  simp only [withTexts_eq_setAll]
  refine repeatable_setAll fun m hm => ?_
  obtain ⟨t, ht, rfl⟩ := List.mem_map.mp hm
  exact ⟨.str t.2, h t ht⟩

/-- A mark is an object, and takes up one more level. -/
theorem repeatable_withMarks (h : ∀ key ∈ keys, (segmentsOf key).length < Doc.maxDepth) :
    Repeatable (withMarks · keys) := by
  simp only [withMarks_eq_setAll]
  refine repeatable_setAll fun m hm => ?_
  obtain ⟨key, hkey, rfl⟩ := List.mem_map.mp hm
  exact ⟨(Json.Canonical.bool true).singleton "__deprecated", h key hkey⟩

theorem repeatable_withBlanks (h : ∀ key ∈ keys, (segmentsOf key).length ≤ Doc.maxDepth) :
    Repeatable (withBlanks · keys) := by
  intro d hd
  refine ⟨⟨canonical_withBlanks hd.canonical keys, ?_⟩, withBlanks_withBlanks hd.canonical keys⟩
  exact (depth_withBlanks_le_iff hd.shallow).mpr h

end LocaleData

/-! ### Walks that settle -/

namespace Disk

variable {d d' : Disk} {p : Path} {q : Place} {f : LocaleData → LocaleData}

/-- The numbers in the file at a place are denoted by their own spellings, as integers of 64 bits
are. A file that does not hold a document has none. -/
def SteadyAt (d : Disk) (q : Place) : Prop :=
  ∀ text modified v, d.file? q = some (.text text, modified) → Json.parse? text = some v → v.Steady

/-- The numbers in the file at a place are integers of 64 bits. -/
def RegularAt (d : Disk) (q : Place) : Prop :=
  ∀ text modified v, d.file? q = some (.text text, modified) → Json.parse? text = some v → v.Regular

theorem RegularAt.steadyAt (h : d.RegularAt q) : d.SteadyAt q :=
  fun text modified v hfile hparse => (h text modified v hfile hparse).steady

/-- A file in persisted form. -/
theorem SteadyAt.of_sortedText {v : Json} {modified : Int} (hv : v.Canonical Number.Steady)
    (hfile : d.file? q = some (.text v.sortedText, modified)) : d.SteadyAt q := by
  intro text modified w hw hparse
  cases hfile.symm.trans hw
  rw [hv.parse?_sortedText] at hparse
  split at hparse
  · cases hparse
    exact hv.steady
  · cases hparse

/-- Neither the time nor the journal of a disk matters to what can be read from it. -/
theorem Settled.later (h : d.Settled p f) (clock : Int) (journal : List Place) :
    Settled { d with clock, journal } p f := by
  obtain ⟨text, hread, hfix⟩ := h
  exact ⟨text, hread, hfix⟩

/-- The data of a file with steady numbers. -/
theorem legible_localeData (h : Retains d d') (hq : d'.place? p = some q) (hsteady : d.SteadyAt q) :
    (d.localeData p).Legible := by
  cases hread : d.readText p with
  | error e =>
    rw [localeData, hread]
    exact LocaleData.legible_empty
  | ok text =>
    obtain ⟨r, modified, hlocate, hfile⟩ := readText_eq_ok_iff.mp hread
    have hplace : d'.place? p = some r := h.place? (place?_eq_some_iff.mpr ⟨_, hlocate⟩)
    cases hplace.symm.trans hq
    rw [localeData_of_readText hread]
    exact LocaleData.legible_ofText fun v => hsteady text modified v hfile

/-- A file that was just visited is settled. -/
theorem StableWrite.settled {wrote : Bool}
    (h : d.StableWrite p (f (d.localeData p)).text wrote d' q) (hf : LocaleData.Repeatable f)
    (hdata : (d.localeData p).Legible) : d'.Settled p f := by
  obtain ⟨hlegible, hagain⟩ := hf _ hdata
  refine ⟨_, h.readText, ?_⟩
  rw [LocaleData.ofText_text hlegible.canonical hlegible.shallow, hagain]

end Disk

section Walk

variable {ω : Type} {file : ω → Path} {change : ω → LocaleData → LocaleData} {ws : List ω} {w₀ : ω}
  {d d' : Disk} {touched : List Path}

/-- **Every file of a walk is settled in the end**, if it shares its place with no other one. -/
theorem Walk.settled (h : Walk file change ws d touched d') (hapart : Apart file ws d' w₀)
    (hchange : LocaleData.Repeatable (change w₀))
    (hsteady : ∀ q, d'.place? (file w₀) = some q → d.SteadyAt q) (hmem : w₀ ∈ ws) :
    d'.Settled (file w₀) (change w₀) := by
  induction h with
  | nil => cases hmem
  | @cons w ws d d₁ d' wrote q rest visit others ih =>
    have hothers : Apart file ws d' w₀ := fun w hw => hapart w (List.mem_cons_of_mem _ hw)
    have hplace : d'.place? (file w) = some q := others.retains.place? visit.place?
    by_cases hw : w = w₀
    · -- The visit settles the file, and a settled file is left alone by what follows.
      subst hw
      have hdata := Disk.legible_localeData (visit.retains.trans others.retains) hplace
        (hsteady q hplace)
      have hsettled := visit.settled hchange hdata
      have hkept := (others.untouched_iff hothers (.of_place? others.retains visit.place?)).mpr
        fun _ => hsettled
      exact (others.retains.settled_iff hkept.1).mpr hsettled
    · refine ih hothers (fun r hr => ?_) ((List.mem_cons.mp hmem).resolve_left (Ne.symm hw))
      have hne : r ≠ q := by
        rintro rfl
        exact hapart w List.mem_cons_self hw (hplace.trans hr.symm)
      intro text modified v hfile
      exact hsteady r hr text modified v ((visit.elsewhere r hne).symm.trans hfile)

end Walk

/-! ### Runs over settled files -/

section Settled

variable {d : Disk} {p : Path} {f : LocaleData → LocaleData}

/-- A visit of a settled file does nothing. -/
theorem updateLocale_of_settled (h : d.Settled p f) :
    (updateLocale (m := DiskM) p f).run d = (.ok [], d) := by
  obtain ⟨text, hread, hfix⟩ := h
  rw [updateLocale, DiskM.run_liftM_bind, run_readLocale, Disk.localeData_of_readText hread]
  refine DiskM.bind_eq_ok_iff.mpr ⟨false, d, ?_, rfl⟩
  rw [writeLocale, hfix]
  exact Disk.writeStable_of_readText hread

/-- A computation that does nothing for each item of a list does nothing. -/
theorem mapM_of_idle {α : Type} {g : α → ExceptT Failure DiskM (List Path)} {l : List α}
    (h : ∀ a ∈ l, (g a).run d = (.ok [], d)) :
    ∃ lists, (l.mapM g).run d = (.ok lists, d) ∧ lists.flatten = [] := by
  induction l with
  | nil => exact ⟨[], rfl, rfl⟩
  | cons a l ih =>
    obtain ⟨lists, hlists, hflat⟩ := ih fun b hb => h b (List.mem_cons_of_mem _ hb)
    refine ⟨[] :: lists, ?_, hflat⟩
    rw [List.mapM_cons]
    refine DiskM.bind_eq_ok_iff.mpr ⟨[], d, h a List.mem_cons_self, ?_⟩
    exact DiskM.bind_eq_ok_iff.mpr ⟨lists, d, hlists, rfl⟩

variable {candidates : List Candidate} {layout : Layout} {o : Outcome} {created updated : KeyTexts}
  {ns : String}

theorem mergeNamespace_of_settled (h : ∀ w ∈ layout.visits ns,
      d.Settled (layout.file w.1 w.2) (mergeChange layout created updated w)) :
    (mergeNamespace (m := DiskM) layout ns (created.of ns) (updated.of ns)).run d =
      (.ok [], d) := by
  obtain ⟨hbase, hrest⟩ := List.forall_mem_cons.mp h
  rw [mergeChange_defaultLocale] at hbase
  have hothers : ∀ locale ∈ layout.locales.filter (· ≠ layout.defaultLocale),
      (updateLocale (m := DiskM) (layout.file locale ns)
        (withBlanks · (created.of ns).keys)).run d = (.ok [], d) := by
    intro locale hlocale
    have hother : locale ≠ layout.defaultLocale := by simpa using (List.mem_filter.mp hlocale).2
    rw [← mergeChange_of_ne hother created updated]
    exact updateLocale_of_settled (hrest (locale, ns) (List.mem_map_of_mem hlocale))
  obtain ⟨lists, hlists, hflat⟩ := mapM_of_idle hothers
  rw [mergeNamespace]
  refine DiskM.bind_eq_ok_iff.mpr ⟨[], d, updateLocale_of_settled hbase, ?_⟩
  refine DiskM.bind_eq_ok_iff.mpr ⟨lists, d, hlists, ?_⟩
  rw [List.nil_append, hflat]
  rfl

/-- **A merge over settled files does nothing**, and counts the keys as any other one does. -/
theorem mergeLocales_of_settled {d₀ d' : Disk} {s : MergeSummary}
    (h : (mergeLocales (m := DiskM) candidates layout o).run d₀ = (.ok s, d'))
    (hsettled : ∀ w, layout.Visits o w → d.Settled (layout.file w.1 w.2)
      (mergeChange layout (.ofEntries candidates o.created)
        (.ofEntries candidates (o.updated.map Update.entry)) w)) :
    (mergeLocales (m := DiskM) candidates layout o).run d = (.ok { s with touched := [] }, d) := by
  rw [mergeLocales, DiskM.bind_eq_ok_iff] at h
  obtain ⟨lists₀, d₁, -, hpure⟩ := h
  obtain ⟨hok, -⟩ := Prod.mk.inj hpure
  obtain rfl := Except.ok.inj hok
  have hvisits : ∀ ns ∈ namespacesOf (.ofEntries candidates o.created)
      (.ofEntries candidates (o.updated.map Update.entry)), ∀ w ∈ layout.visits ns,
      layout.Visits o w := by
    intro ns hns w hw
    obtain ⟨hlocale, rfl⟩ := Layout.mem_visits.mp hw
    exact ⟨hlocale, mem_namespacesOf_iff.mp hns⟩
  obtain ⟨lists, hlists, hflat⟩ := mapM_of_idle fun ns hns =>
    mergeNamespace_of_settled fun w hw => hsettled w (hvisits ns hns w hw)
  rw [mergeLocales]
  refine DiskM.bind_eq_ok_iff.mpr ⟨lists, d, hlists, ?_⟩
  rw [hflat]
  rfl

/-- **A quarantine over settled files does nothing.** -/
theorem quarantine_of_settled {entries : List Entry} {dir : Path}
    (h : ∀ m ∈ (orphanKeys entries).toList,
      d.Settled (trashFile dir m.1) (withMarks · m.2)) :
    (quarantine (m := DiskM) entries dir).run d = (.ok [], d) := by
  obtain ⟨lists, hlists, hflat⟩ := mapM_of_idle fun m hm => updateLocale_of_settled (h m hm)
  rw [quarantine_eq]
  refine DiskM.bind_eq_ok_iff.mpr ⟨lists, d, hlists, ?_⟩
  rw [hflat]
  rfl

end Settled

/-! ### The second run -/

section Repetition

variable {candidates : List Candidate} {layout : Layout} {o : Outcome} {entries : List Entry}
  {dir : Path} {d d' : Disk} {touched : List Path} {s : MergeSummary}

/-- The files of a run from `d` to `d'` are in order: no two of them are at one place in the end,
and the numbers that they hold to begin with are denoted by their own spellings. -/
structure Disk.Tidy {ω : Type} (d d' : Disk) (file : ω → Path) (visited : ω → Prop) : Prop where
  /-- Different files are at different places. -/
  apart : ∀ w w', visited w → visited w' → d'.place? (file w) = d'.place? (file w') → w = w'
  /-- The numbers in a file are steady. -/
  steady : ∀ w q, visited w → d'.place? (file w) = some q → d.SteadyAt q

theorem repeatable_mergeChange
    (hkeys : ∀ slot, HasSlot (o.created ++ o.updated.map Update.entry) slot →
      (segmentsOf slot.key).length ≤ Doc.maxDepth) (w : String × String) :
    LocaleData.Repeatable (mergeChange layout (.ofEntries candidates o.created)
      (.ofEntries candidates (o.updated.map Update.entry)) w) := by
  obtain ⟨locale, ns⟩ := w
  simp only [hasSlot_append] at hkeys
  by_cases hlocale : locale = layout.defaultLocale
  · subst hlocale
    rw [mergeChange_defaultLocale]
    refine LocaleData.repeatable_withTexts fun t ht => ?_
    refine hkeys ⟨ns, t.1⟩ ((List.mem_append.mp ht).imp ?_ ?_) <;>
      exact fun ht => KeyTexts.mem_keys_of.mp (List.mem_map_of_mem ht)
  · rw [mergeChange_of_ne hlocale]
    exact LocaleData.repeatable_withBlanks fun key hkey =>
      hkeys ⟨ns, key⟩ (.inl (KeyTexts.mem_keys_of.mp hkey))

/-- Every file that a merge visits is settled in the end. -/
theorem settled_of_mergeLocales
    (h : (mergeLocales (m := DiskM) candidates layout o).run d = (.ok s, d'))
    (htidy : d.Tidy d' (fun w => layout.file w.1 w.2) (layout.Visits o))
    (hkeys : ∀ slot, HasSlot (o.created ++ o.updated.map Update.entry) slot →
      (segmentsOf slot.key).length ≤ Doc.maxDepth) (w : String × String)
    (hw : layout.Visits o w) :
    d'.Settled (layout.file w.1 w.2) (mergeChange layout (.ofEntries candidates o.created)
      (.ofEntries candidates (o.updated.map Update.entry)) w) := by
  obtain ⟨ws, hwalk, hws⟩ := exists_walk_mergeLocales h
  refine hwalk.settled (fun w' hw' hne heq => hne ?_) (repeatable_mergeChange hkeys w)
    (fun q => htidy.steady w q hw) ((hws w).mpr hw)
  exact htidy.apart w' w ((hws w').mp hw') hw heq

/-- Every file that a quarantine visits is settled in the end. -/
theorem settled_of_quarantine
    (h : (quarantine (m := DiskM) entries dir).run d = (.ok touched, d'))
    (htidy : d.Tidy d' (trashFile dir) fun ns => ∃ key, HasSlot (orphansOf entries) ⟨ns, key⟩)
    (hkeys : ∀ slot, HasSlot (orphansOf entries) slot →
      (segmentsOf slot.key).length < Doc.maxDepth) (m : String × List String)
    (hm : m ∈ (orphanKeys entries).toList) :
    d'.Settled (trashFile dir m.1) (withMarks · m.2) := by
  have hvisited : ∀ m ∈ (orphanKeys entries).toList,
      ∃ key, HasSlot (orphansOf entries) ⟨m.1, key⟩ :=
    fun m hm => mem_keys_orphanKeys.mp (List.mem_map_of_mem hm)
  refine (walk_quarantine h).settled (fun m' hm' hne heq => hne ?_) ?_
    (fun q => htidy.steady m.1 q (hvisited m hm)) hm
  · exact Dict.eq_of_key hm' hm (htidy.apart m'.1 m.1 (hvisited m' hm') (hvisited m hm) heq)
  · exact LocaleData.repeatable_withMarks fun key hkey =>
      hkeys ⟨m.1, key⟩ ((mem_keys_iff_hasSlot hm).mp hkey)

/-- **Repeating a merge or a quarantine writes nothing**, whatever the time is by then: the second
run succeeds, reports no file, and leaves the disk as it is, so that every file keeps its bytes and
its time. Keys may go on from other keys. It is asked that the files of the run are at different
places, that the numbers in them are denoted by their own spellings, which holds of integers of 64
bits, and that no key has more segments than a reader allows, where a mark counts as one more. -/
theorem repetition_writes_nothing (d d' : Disk) :
    (∀ candidates layout o s,
      (mergeLocales (m := DiskM) candidates layout o).run d = (.ok s, d') →
      d.Tidy d' (fun w => layout.file w.1 w.2) (layout.Visits o) →
      (∀ slot, HasSlot (o.created ++ o.updated.map Update.entry) slot →
        (segmentsOf slot.key).length ≤ Doc.maxDepth) →
      ∀ clock journal,
        (mergeLocales (m := DiskM) candidates layout o).run { d' with clock, journal } =
          (.ok { s with touched := [] }, { d' with clock, journal })) ∧
    (∀ entries dir touched,
      (quarantine (m := DiskM) entries dir).run d = (.ok touched, d') →
      (d.Tidy d' (trashFile dir) fun ns => ∃ key, HasSlot (orphansOf entries) ⟨ns, key⟩) →
      (∀ slot, HasSlot (orphansOf entries) slot → (segmentsOf slot.key).length < Doc.maxDepth) →
      ∀ clock journal,
        (quarantine (m := DiskM) entries dir).run { d' with clock, journal } =
          (.ok [], { d' with clock, journal })) ∧
    ∀ q, d.RegularAt q → d.SteadyAt q := by
  refine ⟨fun candidates layout o s h htidy hkeys clock journal => ?_,
    fun entries dir touched h htidy hkeys clock journal => ?_, fun q h => h.steadyAt⟩
  · refine mergeLocales_of_settled h fun w hw => ?_
    exact (settled_of_mergeLocales h htidy hkeys w hw).later clock journal
  · refine quarantine_of_settled fun m hm => ?_
    exact (settled_of_quarantine h htidy hkeys m hm).later clock journal

/-- One key goes on from another, in a merge into files that hold numbers and in a quarantine that
is empty. -/
theorem nested_keys_written_once :
    let entry (status : Status) (key : String) : Entry :=
      ⟨"a.tsx", "home", some key, none, status, "0", ⟨"p#0"⟩, 0, 4, .epoch, none⟩
    let o : Outcome := ⟨["a", "a.b"].map (entry .extracted), [], [], [], []⟩
    let layout : Layout := ⟨⟨"."⟩, "en", ["en", "de"]⟩
    let seven : Json := .num (.int 7 (by decide))
    let d : Disk := ⟨[], [(["en"], .dir), (["de"], .dir),
      (["en", "home.json"], .file (.text (Json.obj [("a", seven)]).sortedText) 0),
      (["de", "home.json"], .file (.text (Json.obj [("a", .obj [("b", seven)])]).sortedText) 0)],
      1, [], none⟩
    let entries := ["a.b", "a"].map (entry .orphaned)
    (∃ s d', (mergeLocales (m := DiskM) [] layout o).run d = (.ok s, d') ∧
      s.touched = [⟨"./en/home.json"⟩] ∧
      d.Tidy d' (fun w => layout.file w.1 w.2) (layout.Visits o) ∧
      (mergeLocales (m := DiskM) [] layout o).run (d'.openJournal 2) =
        (.ok { s with touched := [] }, d'.openJournal 2)) ∧
    ∃ touched d',
      (quarantine (m := DiskM) entries ⟨"trash"⟩).run (.blank [] 1) = (.ok touched, d') ∧
      touched = [⟨"trash/home.json"⟩] ∧
      (quarantine (m := DiskM) entries ⟨"trash"⟩).run (d'.openJournal 2) =
        (.ok [], d'.openJournal 2) := by
  intro entry o layout seven d entries
  have hseven : seven.Canonical Number.Steady := .num (Token.number?_text _)
  refine ⟨?_, ?_⟩
  · let s : MergeSummary := ⟨[⟨"./en/home.json"⟩], 2, 0, 0⟩
    let d' : Disk := ⟨[], [(["en"], .dir), (["de"], .dir),
      (["de", "home.json"], .file (.text (Json.obj [("a", .obj [("b", seven)])]).sortedText) 0),
      (["en", "home.json"], .file
        (.text "\x7b\n  \"a\": \x7b\n    \"b\": \"\"\n  \x7d\n\x7d\n") 1)], 1,
      [["en", "home.json"]], none⟩
    have hrun : (mergeLocales (m := DiskM) [] layout o).run d = (.ok s, d') :=
      Prod.ext (by decide +kernel) (by decide +kernel)
    have hvisits : ∀ w, layout.Visits o w → w ∈ [("en", "home"), ("de", "home")] := by
      rintro ⟨locale, ns⟩ ⟨hlocale, key, e, he, hslot⟩
      obtain ⟨rfl, -⟩ := Entry.slot?_eq_some_iff.mp hslot
      have hns : ∀ e ∈ o.created ++ o.updated.map Update.entry, e.ns = "home" := by decide
      rw [hns e he]
      simpa [layout] using hlocale
    have htidy : d.Tidy d' (fun w => layout.file w.1 w.2) (layout.Visits o) := by
      refine ⟨fun w w' hw hw' => ?_, fun w q hw hq => ?_⟩
      · have hall : ∀ w ∈ [("en", "home"), ("de", "home")], ∀ w' ∈ [("en", "home"), ("de", "home")],
            d'.place? (layout.file w.1 w.2) = d'.place? (layout.file w'.1 w'.2) → w = w' := by
          decide +kernel
        exact hall w (hvisits w hw) w' (hvisits w' hw')
      · have hplaces : ∀ w ∈ [("en", "home"), ("de", "home")],
            d'.place? (layout.file w.1 w.2) = some [w.1, w.2 ++ ".json"] := by decide +kernel
        cases (hplaces w (hvisits w hw)).symm.trans hq
        rcases List.mem_cons.mp (hvisits w hw) with rfl | hw
        · exact .of_sortedText (hseven.singleton "a") rfl
        · cases List.mem_singleton.mp hw
          exact .of_sortedText ((hseven.singleton "b").singleton "a") rfl
    refine ⟨s, d', hrun, rfl, htidy, ?_⟩
    refine (repetition_writes_nothing d d').1 [] layout o s hrun htidy ?_ 2 []
    rintro slot ⟨e, he, hslot⟩
    have hkeys : ∀ e ∈ o.created ++ o.updated.map Update.entry, ∀ slot ∈ e.slot?,
        (segmentsOf slot.key).length ≤ Doc.maxDepth := by decide +kernel
    exact hkeys e he slot hslot
  · let d' : Disk := ⟨[], [(["trash"], .dir), (["trash", "home.json"], .file (.text
      "\x7b\n  \"a\": \x7b\n    \"__deprecated\": true\n  \x7d\n\x7d\n") 1)], 1,
      [["trash", "home.json"]], none⟩
    have hrun : (quarantine (m := DiskM) entries ⟨"trash"⟩).run (.blank [] 1) =
        (.ok [⟨"trash/home.json"⟩], d') := Prod.ext (by decide +kernel) (by decide +kernel)
    have horphans : ∀ e ∈ orphansOf entries, ∀ slot ∈ e.slot?,
        slot.ns = "home" ∧ (segmentsOf slot.key).length < Doc.maxDepth := by decide +kernel
    refine ⟨_, d', hrun, rfl, ?_⟩
    refine (repetition_writes_nothing (.blank [] 1) d').2.1 entries _ _ hrun ⟨?_, ?_⟩ ?_ 2 []
    · rintro ns ns' ⟨key, e, he, hslot⟩ ⟨key', e', he', hslot'⟩ -
      exact (horphans e he _ hslot).1.trans (horphans e' he' _ hslot').1.symm
    · intro ns q _ _ text modified v hfile
      rw [Disk.file?_eq_some_iff, Disk.node?] at hfile
      split at hfile <;> cases hfile
    · rintro slot ⟨e, he, hslot⟩
      exact (horphans e he slot hslot).2

/-- **An integer of more than 64 bits is written twice.** It is read as a double, and the spelling
of that one is read as the next one. -/
theorem wide_integer_written_twice :
    let entry : Entry :=
      ⟨"a.tsx", "home", some "n", none, .extracted, "0", ⟨"p#0"⟩, 0, 4, .epoch, none⟩
    let o : Outcome := ⟨[entry], [], [], [], []⟩
    let layout : Layout := ⟨⟨"."⟩, "en", ["en", "de"]⟩
    let d : Disk := ⟨[], [(["de"], .dir), (["de", "home.json"],
      .file (.text "\x7b\"n\": 1000000000000000000000000000000000000000000\x7d") 0)], 1, [], none⟩
    ∃ s d' s' d'', (mergeLocales (m := DiskM) [] layout o).run d = (.ok s, d') ∧
      d'.place? (layout.file "en" "home") ≠ d'.place? (layout.file "de" "home") ∧
      (mergeLocales (m := DiskM) [] layout o).run d' = (.ok s', d'') ∧
      s'.touched = [layout.file "de" "home"] ∧
      d''.readText (layout.file "de" "home") ≠ d'.readText (layout.file "de" "home") := by
  intro entry o layout d
  let written (number : String) : Disk := ⟨[], [(["de"], .dir), (["en"], .dir),
    (["en", "home.json"], .file (.text "\x7b\n  \"n\": \"\"\n\x7d\n") 1),
    (["de", "home.json"], .file (.text ("\x7b\n  \"n\": " ++ number ++ "\n\x7d\n")) 1)], 1,
    [["de", "home.json"], ["en", "home.json"]], none⟩
  let s : MergeSummary := ⟨[⟨"./en/home.json"⟩, ⟨"./de/home.json"⟩], 1, 0, 0⟩
  let s' : MergeSummary := ⟨[⟨"./de/home.json"⟩], 1, 0, 0⟩
  have hfirst : (mergeLocales (m := DiskM) [] layout o).run d =
      (.ok s, written "9.999999999999999e+41") :=
    Prod.ext (by decide +kernel) (by decide +kernel)
  have hsecond : (mergeLocales (m := DiskM) [] layout o).run (written "9.999999999999999e+41") =
      (.ok s', written "1e+42") :=
    Prod.ext (by decide +kernel) (by decide +kernel)
  exact ⟨s, _, s', _, hfirst, by decide +kernel, hsecond, by decide +kernel, by decide +kernel⟩

end Repetition

end KeyLedger
