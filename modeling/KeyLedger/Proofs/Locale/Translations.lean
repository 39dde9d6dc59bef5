import KeyLedger.Proofs.Locale.Merge
import KeyLedger.Proofs.Locale.Nested
import KeyLedger.Proofs.Reconcile.Log

/-!
# What a merge does to translations

A locale other than the default one holds translations, which a merge has no business to change: it
only supplies blanks for new keys. Two things get in the way. A new key that goes on from an old one
turns the translation under the old key into an object, and one with too many segments makes a file
that nobody can read. And a file is stored again whenever its namespace is visited, so that one that
is missing is made, one that cannot be read is emptied, and one that was written by other means is
written anew, though there is no new key at all.

The two results say that nothing else can happen: they give, for a file that shares its place with
no other one, the condition under which a translation is kept and the one under which the file is
left alone.

## Main results

* `translation_kept_iff` — which translations a merge keeps
* `update_leaves_alone_iff` — when a merge without new keys leaves a file alone
-/

namespace KeyLedger

section Merge

variable {candidates : List Candidate} {layout : Layout} {o : Outcome} {d d' : Disk}
  {s : MergeSummary} {locale ns : String}

/-- A locale that is listed is visited for every namespace with a key. -/
theorem visits_iff (hlocale : locale ∈ layout.locales) : layout.Visits o (locale, ns) ↔
    (∃ key, HasSlot o.created ⟨ns, key⟩) ∨
      ∃ key, HasSlot (o.updated.map Update.entry) ⟨ns, key⟩ := by
  simp [Layout.Visits, hlocale, hasSlot_append, exists_or]

/-- **Which translations a merge keeps.** The file of another locale can be read afterwards, and a
value in it that is no object is kept if and only if no new key goes on from its path, and no new
key has more segments than a reader allows. -/
theorem translation_kept_iff
    (h : (mergeLocales (m := DiskM) candidates layout o).run d = (.ok s, d'))
    (hlocale : locale ∈ layout.locales) (hother : locale ≠ layout.defaultLocale)
    (hapart : layout.Apart o d' locale ns) {text : String}
    (hread : d.readText (layout.file locale ns) = .ok text) {ms : JsonMembers}
    (hparse : Json.parse? text = some (.obj ms)) (hsteady : (Json.obj ms).Steady) :
    ∃ text', d'.readText (layout.file locale ns) = .ok text' ∧
      ∀ path v, (∀ inner, v ≠ .obj inner) → (Json.obj ms).at? path = some v →
        ((Json.parse? text').bind (Json.at? path) = some v ↔
          ∀ key, HasSlot o.created ⟨ns, key⟩ →
            ¬ OnWay path key ∧ (segmentsOf key).length ≤ Doc.maxDepth) := by
  obtain ⟨ws, hwalk, hws⟩ := exists_walk_mergeLocales h
  have hafter := hwalk.readText (fun w hw => hapart w ((hws w).mp hw)) hread
  simp only [mergeChange_of_ne hother] at hafter
  refine ⟨_, hafter, fun path v hv hat => ?_⟩
  cases hcount : ws.count (locale, ns) with
  | zero =>
    -- A namespace that is not visited has no new key.
    have hnew : ∀ key, ¬ HasSlot o.created ⟨ns, key⟩ := fun key hkey =>
      List.count_eq_zero.mp hcount ((hws _).mpr ((visits_iff hlocale).mpr (.inl ⟨key, hkey⟩)))
    rw [Function.iterate_zero_apply, hparse]
    exact iff_of_true hat fun key hkey => absurd hkey (hnew key)
  | succ n =>
    change ((Json.parse? ((LocaleData.blanked _)^[n + 1] text)).bind (Json.at? path) = some v) ↔ _
    simp only [← @KeyTexts.mem_keys_of candidates]
    by_cases hlong : ∀ key ∈ ((KeyTexts.ofEntries candidates o.created).of ns).keys,
        (segmentsOf key).length ≤ Doc.maxDepth
    · rw [LocaleData.parse?_iterate_blanked hparse hsteady hlong, Option.bind_some,
        LocaleData.at?_withBlanks_iff hv (LocaleData.ofDict_ofText hparse ▸ hat)]
      exact forall₂_congr fun key hkey => (and_iff_left (hlong key hkey)).symm
    · simp only [not_forall, Nat.not_le] at hlong
      obtain ⟨key, hkey, hlong⟩ := hlong
      rw [LocaleData.parse?_iterate_blanked_of_long hparse hsteady hkey hlong]
      exact iff_of_false (by simp) fun hall => Nat.not_le.mpr hlong (hall key hkey).2

/-- An entry with a key in the namespace `home`. -/
def homeEntry (key : String) : Entry :=
  ⟨"a.tsx", "home", some key, none, .extracted, "0", ⟨"p#0"⟩, 0, 4, .epoch, none⟩

/-- A translation under a key that counts as new, but that the file has, is kept. -/
theorem translation_kept_at_old_key :
    let o : Outcome := ⟨[homeEntry "a.b"], [], [], [], []⟩
    let layout : Layout := ⟨⟨"."⟩, "en", ["en", "de"]⟩
    let ms : JsonMembers := [("a", .obj [("b", .str "y")])]
    let text := "\x7b\n  \"a\": \x7b\n    \"b\": \"y\"\n  \x7d\n\x7d\n"
    let d : Disk := ⟨[], [(["de"], .dir), (["de", "home.json"], .file (.text text) 0)], 1, [], none⟩
    ∃ s d', (mergeLocales (m := DiskM) [] layout o).run d = (.ok s, d') ∧
      layout.Apart o d' "de" "home" ∧ d.readText (layout.file "de" "home") = .ok text ∧
      Json.parse? text = some (.obj ms) ∧ (Json.obj ms).Steady ∧
      ∃ text', d'.readText (layout.file "de" "home") = .ok text' ∧
        (Json.parse? text').bind (Json.at? ["a", "b"]) = some (.str "y") := by
  intro o layout ms text d
  let s : MergeSummary := ⟨[⟨"./en/home.json"⟩], 1, 0, 0⟩
  let base := "\x7b\n  \"a\": \x7b\n    \"b\": \"\"\n  \x7d\n\x7d\n"
  let d' : Disk := ⟨[], [(["de"], .dir), (["de", "home.json"], .file (.text text) 0),
    (["en"], .dir), (["en", "home.json"], .file (.text base) 1)], 1, [["en", "home.json"]], none⟩
  have hrun : (mergeLocales (m := DiskM) [] layout o).run d = (.ok s, d') :=
    Prod.ext (by decide +kernel) (by decide +kernel)
  have hapart : layout.Apart o d' "de" "home" := .of_forall (by decide +kernel)
  have hread : d.readText (layout.file "de" "home") = .ok text := by decide +kernel
  have hcanonical : (Json.obj ms).Canonical Number.Steady :=
    ((Json.Canonical.str "y").singleton "b").singleton "a"
  have hparse : Json.parse? text = some (.obj ms) := by
    have htext : text = (Json.obj ms).sortedText := by decide +kernel
    rw [htext, hcanonical.parse?_sortedText, if_pos (by decide)]
  obtain ⟨text', hafter, hkept⟩ := translation_kept_iff hrun (by decide) (by decide) hapart hread
    hparse hcanonical.steady
  refine ⟨s, d', hrun, hapart, hread, hparse, hcanonical.steady, text', hafter, ?_⟩
  refine (hkept ["a", "b"] (.str "y") (by simp) rfl).mpr ?_
  rintro key ⟨e', he', hslot⟩
  obtain rfl := List.mem_singleton.mp he'
  obtain ⟨-, hkey⟩ := Entry.slot?_eq_some_iff.mp hslot
  cases hkey
  have hsegments : segmentsOf "a.b" = ["a", "b"] := by decide +kernel
  rw [hsegments]
  exact ⟨fun hway => hway.2 hsegments.symm, by decide⟩

/-- A new key goes on from an old one, and the translation of the old one is lost. -/
theorem longer_key_ousts_translation :
    let o : Outcome := ⟨[homeEntry "a.z"], [], [], [], []⟩
    let layout : Layout := ⟨⟨"."⟩, "en", ["en", "de"]⟩
    let ms : JsonMembers := [("a", .str "x")]
    let text := "\x7b\n  \"a\": \"x\"\n\x7d\n"
    let d : Disk := ⟨[], [(["de"], .dir), (["de", "home.json"], .file (.text text) 0)], 1, [], none⟩
    ∃ s d', (mergeLocales (m := DiskM) [] layout o).run d = (.ok s, d') ∧
      "de" ∈ layout.locales ∧ "de" ≠ layout.defaultLocale ∧
      d.readText (layout.file "de" "home") = .ok text ∧ Json.parse? text = some (.obj ms) ∧
      (Json.obj ms).at? ["a"] = some (.str "x") ∧
      ∃ text', d'.readText (layout.file "de" "home") = .ok text' ∧
        (Json.parse? text').bind (Json.at? ["a"]) ≠ some (.str "x") := by
  intro o layout ms text d
  let s : MergeSummary := ⟨[⟨"./en/home.json"⟩, ⟨"./de/home.json"⟩], 1, 0, 0⟩
  let text' := "\x7b\n  \"a\": \x7b\n    \"z\": \"\"\n  \x7d\n\x7d\n"
  let d' : Disk := ⟨[], [(["de"], .dir), (["en"], .dir),
    (["en", "home.json"], .file (.text text') 1), (["de", "home.json"], .file (.text text') 1)], 1,
    [["de", "home.json"], ["en", "home.json"]], none⟩
  have hrun : (mergeLocales (m := DiskM) [] layout o).run d = (.ok s, d') :=
    Prod.ext (by decide +kernel) (by decide +kernel)
  have hparse : Json.parse? text = some (.obj ms) := by
    have hcanonical : (Json.obj ms).Canonical Number.Steady :=
      (Json.Canonical.str "x").singleton "a"
    have htext : text = (Json.obj ms).sortedText := by decide +kernel
    rw [htext, hcanonical.parse?_sortedText, if_pos (by decide)]
  have hspelled : ((Json.parse? text').bind (Json.at? ["a"])).map Json.compact =
      some "\x7b\"z\":\"\"\x7d" := by decide +kernel
  refine ⟨s, d', hrun, by decide, by decide, by decide +kernel, hparse, rfl, text',
    by decide +kernel, fun hkept => ?_⟩
  rw [hkept] at hspelled
  revert hspelled
  decide +kernel

/-- **When a merge without new keys leaves a file alone.** The file of another locale keeps its
bytes and its time and is not reported if and only if its namespace has no changed key either, or
the file holds the persisted form of its own data. -/
theorem update_leaves_alone_iff
    (h : (mergeLocales (m := DiskM) candidates layout o).run d = (.ok s, d'))
    (hlocale : locale ∈ layout.locales) (hother : locale ≠ layout.defaultLocale)
    (hns : ∀ key, ¬ HasSlot o.created ⟨ns, key⟩) (hapart : layout.Apart o d' locale ns)
    (hreach : d.Reaches d' (layout.file locale ns)) :
    (d'.fileAt? (layout.file locale ns) = d.fileAt? (layout.file locale ns) ∧
        layout.file locale ns ∉ s.touched) ↔
      (∀ key, ¬ HasSlot (o.updated.map Update.entry) ⟨ns, key⟩) ∨
        ∃ text, d.readText (layout.file locale ns) = .ok text ∧
          (LocaleData.ofText text).text = text := by
  obtain ⟨ws, hwalk, hws⟩ := exists_walk_mergeLocales h
  have hleft := hwalk.untouched_iff (fun w hw => hapart w ((hws w).mp hw))
    hreach
  have hkeys : ((KeyTexts.ofEntries candidates o.created).of ns).keys = [] :=
    List.eq_nil_iff_forall_not_mem.mpr fun key hkey => hns key (KeyTexts.mem_keys_of.mp hkey)
  have hvisits : (locale, ns) ∈ ws ↔ ∃ key, HasSlot (o.updated.map Update.entry) ⟨ns, key⟩ := by
    rw [hws, visits_iff hlocale]
    exact or_iff_right (not_exists.mpr hns)
  rw [hleft, hvisits, mergeChange_of_ne hother, hkeys, imp_iff_not_or, not_exists]
  rfl

/-- A key has changed, and the file of another locale, which holds what a merge would write, is left
alone. -/
theorem update_leaves_written_file :
    let o : Outcome := ⟨[], [⟨homeEntry "a", homeEntry "a"⟩], [], [], []⟩
    let layout : Layout := ⟨⟨"."⟩, "en", ["en", "de"]⟩
    let text := "\x7b\n  \"a\": \"x\"\n\x7d\n"
    let d : Disk := ⟨[], [(["de"], .dir), (["de", "home.json"], .file (.text text) 0)], 1, [], none⟩
    ∃ s d', (mergeLocales (m := DiskM) [] layout o).run d = (.ok s, d') ∧
      (∀ key, ¬ HasSlot o.created ⟨"home", key⟩) ∧ layout.Apart o d' "de" "home" ∧
      d.Reaches d' (layout.file "de" "home") ∧
      d'.fileAt? (layout.file "de" "home") = d.fileAt? (layout.file "de" "home") ∧
      layout.file "de" "home" ∉ s.touched := by
  intro o layout text d
  let s : MergeSummary := ⟨[⟨"./en/home.json"⟩], 0, 1, 0⟩
  let d' : Disk := ⟨[], [(["de"], .dir), (["de", "home.json"], .file (.text text) 0),
    (["en"], .dir), (["en", "home.json"], .file (.text "\x7b\n  \"a\": \"\"\n\x7d\n") 1)], 1,
    [["en", "home.json"]], none⟩
  have hrun : (mergeLocales (m := DiskM) [] layout o).run d = (.ok s, d') :=
    Prod.ext (by decide +kernel) (by decide +kernel)
  have hnew : ∀ key, ¬ HasSlot o.created ⟨"home", key⟩ := by simp [HasSlot, o]
  have hapart : layout.Apart o d' "de" "home" := .of_forall (by decide +kernel)
  have hreach : d.Reaches d' (layout.file "de" "home") := by
    rw [Disk.Reaches]
    decide +kernel
  refine ⟨s, d', hrun, hnew, hapart, hreach, ?_⟩
  refine (update_leaves_alone_iff hrun (by decide) (by decide) hnew hapart hreach).mpr (.inr ?_)
  exact ⟨text, by decide +kernel, by decide +kernel⟩

/-- A key has changed, and of the files of two other locales the one that cannot be read is emptied
and the one that is missing is made. -/
theorem update_empties_and_makes_files :
    let o : Outcome := ⟨[], [⟨homeEntry "a", homeEntry "a"⟩], [], [], []⟩
    let layout : Layout := ⟨⟨"."⟩, "en", ["en", "de", "fr"]⟩
    let d : Disk := ⟨[], [(["de"], .dir),
      (["de", "home.json"], .file (.text "\x7b\"a\": \"x\",\x7d") 0)], 1, [], none⟩
    ∃ s d', (mergeLocales (m := DiskM) [] layout o).run d = (.ok s, d') ∧
      (∀ key, ¬ HasSlot o.created ⟨"home", key⟩) ∧
      ∀ locale ∈ layout.locales, locale ≠ layout.defaultLocale →
        d'.fileAt? (layout.file locale "home") ≠ d.fileAt? (layout.file locale "home") ∧
        d'.readText (layout.file locale "home") = .ok "\x7b\x7d\n" ∧
        layout.file locale "home" ∈ s.touched := by
  intro o layout d
  let s : MergeSummary :=
    ⟨[⟨"./en/home.json"⟩, ⟨"./de/home.json"⟩, ⟨"./fr/home.json"⟩], 0, 1, 0⟩
  let d' : Disk := ⟨[], [(["de"], .dir), (["en"], .dir),
    (["en", "home.json"], .file (.text "\x7b\n  \"a\": \"\"\n\x7d\n") 1),
    (["de", "home.json"], .file (.text "\x7b\x7d\n") 1), (["fr"], .dir),
    (["fr", "home.json"], .file (.text "\x7b\x7d\n") 1)], 1,
    [["fr", "home.json"], ["de", "home.json"], ["en", "home.json"]], none⟩
  have hrun : (mergeLocales (m := DiskM) [] layout o).run d = (.ok s, d') :=
    Prod.ext (by decide +kernel) (by decide +kernel)
  have hnew : ∀ key, ¬ HasSlot o.created ⟨"home", key⟩ := by simp [HasSlot, o]
  exact ⟨s, d', hrun, hnew, by decide +kernel⟩

end Merge

end KeyLedger
