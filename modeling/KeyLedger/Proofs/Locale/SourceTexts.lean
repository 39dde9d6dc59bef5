import KeyLedger.Proofs.Locale.Merge
import KeyLedger.Proofs.Locale.Overwriting
import KeyLedger.Proofs.Reconcile.Precedence

/-!
# The texts of the default locale

A run may see several candidates with one key. One of them becomes the entry, another may go to an
entry elsewhere because of its text, and others are dropped. A merge is told only the candidates and
the entries, and has to find out for every new or changed entry which of the candidates it was
recorded from. It looks for one with the key and the content hash of the entry.

The search cannot fail. A new entry has the key of its candidate, and so has a changed one, since
only entries that are claimed by their key are changed, and the content hash is that of the
candidate. Nor can two entries compete for a key: no slot is taken twice in a run, and so there is
one text for each key, in whatever order the texts of new and of changed keys are put in.

## Main results

* `Log.Valid.slot?_candidate` — new and changed entries are where their candidates ask
* `exists_sourceText` — the text of an entry is that of a candidate
* `default_locale_gets_recorded_text` — what a merge writes into the default locale
-/

namespace KeyLedger

/-! ### Entries and candidates -/

/-- New and changed entries are where their candidates ask. -/
theorem Log.Valid.slot?_candidate {m : Manifest} {l : Log} {r : Record} (h : l.Valid m)
    (hr : r ∈ l) (hchanged : r.isAdded = true ∨ r.isUpdated = true) :
    r.candidate.slot? = r.slot? := by
  obtain ⟨k, step⟩ := h.step_of_mem hr
  cases step with
  | claimed asks held free => exact asks.trans (Manifest.owner?_eq_some_iff.mp held).2.1.symm
  | added unheld none_fits untaken => rfl
  | repeated asks held found => exact absurd hchanged (by simp [Record.isAdded, Record.isUpdated])
  | adopted unheld fits first => exact absurd hchanged (by simp [Record.isAdded, Record.isUpdated])
  | crowded unheld none_fits asks taken =>
    exact absurd hchanged (by simp [Record.isAdded, Record.isUpdated])

section Changed

variable {cs : List Candidate} {m : Manifest} {now : Instant} {e e' : Entry}

theorem exists_record_of_changed
    (he : e ∈ (reconcile cs m now).created ++ (reconcile cs m now).updated.map Update.entry) :
    ∃ r ∈ Log.run m cs, (r.isAdded = true ∨ r.isUpdated = true) ∧ r.entry? now = some e := by
  rw [reconcile_eq, map_entry_filter_isUpdated, List.mem_append] at he
  rcases he with he | he
  · obtain ⟨r, hr, hentry⟩ := List.mem_filterMap.mp he
    obtain ⟨hr, hadded⟩ := List.mem_filter.mp hr
    exact ⟨r, hr, .inl hadded, hentry⟩
  · obtain ⟨r, hr, hentry⟩ := List.mem_filterMap.mp he
    obtain ⟨hr, hupdated⟩ := List.mem_filter.mp hr
    exact ⟨r, hr, .inr hupdated, hentry⟩

/-- No two new or changed entries have one slot. -/
theorem eq_of_changed {s : Slot}
    (he : e ∈ (reconcile cs m now).created ++ (reconcile cs m now).updated.map Update.entry)
    (he' : e' ∈ (reconcile cs m now).created ++ (reconcile cs m now).updated.map Update.entry)
    (hs : e.slot? = some s) (hs' : e'.slot? = some s) : e = e' := by
  obtain ⟨r, hr, -, hentry⟩ := exists_record_of_changed he
  obtain ⟨r', hr', -, hentry'⟩ := exists_record_of_changed he'
  have hslot : r.slot? = some s := by rw [← r.entry?_bind_slot? now, hentry, Option.bind_some, hs]
  have hslot' : r'.slot? = some s := by
    rw [← r'.entry?_bind_slot? now, hentry', Option.bind_some, hs']
  obtain rfl := (Log.valid_run m cs).eq_of_slot hr hr' hslot hslot'
  exact Option.some.inj (hentry.symm.trans hentry')

/-- A new or changed entry was recorded from a candidate with its key. -/
theorem exists_candidate_of_changed {s : Slot}
    (he : e ∈ (reconcile cs m now).created ++ (reconcile cs m now).updated.map Update.entry)
    (hs : e.slot? = some s) :
    ∃ c ∈ cs, c.slot? = some s ∧ Digest.contentHash c.text = e.contentHash := by
  obtain ⟨r, hr, hchanged, hentry⟩ := exists_record_of_changed he
  refine ⟨r.candidate, (Log.map_candidate_run_perm m cs).mem_iff.mp (List.mem_map_of_mem hr), ?_,
    (Record.contentHash_entry? hentry).symm⟩
  rw [(Log.valid_run m cs).slot?_candidate hr hchanged, ← r.entry?_bind_slot? now, hentry,
    Option.bind_some, hs]

end Changed

/-! ### Texts -/

/-- **The text of an entry is that of a candidate** with its key and its content hash, if there is
one. -/
theorem exists_sourceText {cs : List Candidate} {e : Entry} {key : String}
    (h : ∃ c ∈ cs, c.slot? = some ⟨e.ns, key⟩ ∧ Digest.contentHash c.text = e.contentHash) :
    ∃ c ∈ cs, c.slot? = some ⟨e.ns, key⟩ ∧ Digest.contentHash c.text = e.contentHash ∧
      sourceText cs e key = c.text := by
  have hsome : ((cs.filter fun c => c.slot? == some ⟨e.ns, key⟩).find? fun c =>
      Digest.contentHash c.text == e.contentHash).isSome := by
    obtain ⟨c, hc, hslot, hhash⟩ := h
    exact List.find?_isSome.mpr ⟨c, List.mem_filter.mpr ⟨hc, beq_iff_eq.mpr hslot⟩,
      beq_iff_eq.mpr hhash⟩
  obtain ⟨c, hc⟩ := Option.isSome_iff_exists.mp hsome
  obtain ⟨hmem, hslot⟩ := List.mem_filter.mp (List.mem_of_find?_eq_some hc)
  have hhash := List.find?_some hc
  refine ⟨c, hmem, beq_iff_eq.mp hslot, by simpa using hhash, ?_⟩
  rw [sourceText, hc]
  rfl

namespace KeyTexts

variable {cs : List Candidate} {es : List Entry} {e : Entry} {ns key text : String}

theorem find?_of_add {t : KeyTexts} (h : ((add cs t e).of ns).find? key = some text) :
    (e.slot? = some ⟨ns, key⟩ ∧ text = sourceText cs e key) ∨ (t.of ns).find? key = some text := by
  rw [add] at h
  rw [Entry.slot?_eq_some_iff]
  cases hkey : e.key with
  | none =>
    rw [hkey] at h
    exact .inr h
  | some k =>
    simp only [hkey, of_alter] at h
    by_cases hns : ns = e.ns
    · rw [if_pos hns, Dict.find?_insert] at h
      by_cases hk : key = k
      · rw [if_pos hk] at h
        exact .inl ⟨⟨hns.symm, by rw [hk]⟩, by rw [hk, ← Option.some.inj h]⟩
      · rw [if_neg hk] at h
        exact .inr (hns ▸ h)
    · rw [if_neg hns] at h
      exact .inr h

/-- Every text is that of an entry with its key. -/
theorem exists_of_find? (h : ((ofEntries cs es).of ns).find? key = some text) :
    ∃ e ∈ es, e.slot? = some ⟨ns, key⟩ ∧ text = sourceText cs e key := by
  refine List.foldlRecOn (motive := fun t : KeyTexts => (t.of ns).find? key = some text →
    ∃ e ∈ es, e.slot? = some ⟨ns, key⟩ ∧ text = sourceText cs e key) es (add cs)
    (fun h => by cases h) (fun t ih e he h => ?_) h
  rcases find?_of_add h with ⟨hslot, htext⟩ | h
  · exact ⟨e, he, hslot, htext⟩
  · exact ih h

end KeyTexts

/-! ### The merge -/

section Merge

variable {cs : List Candidate} {m : Manifest} {now : Instant} {layout : Layout} {d d' : Disk}
  {s : MergeSummary} {e : Entry} {key : String}

/-- The texts that are put into the default locale are those of new or changed entries. -/
theorem exists_of_mem_texts {created updated : List Entry} {ns : String} {t : String × String}
    (ht : t ∈ ((KeyTexts.ofEntries cs created).of ns).toList ++
      ((KeyTexts.ofEntries cs updated).of ns).toList) :
    ∃ e ∈ created ++ updated, e.slot? = some ⟨ns, t.1⟩ ∧ t.2 = sourceText cs e t.1 := by
  rcases List.mem_append.mp ht with ht | ht
  · obtain ⟨e, he, hslot, htext⟩ := KeyTexts.exists_of_find? (Dict.mem_toList_iff.mp ht)
    exact ⟨e, List.mem_append_left _ he, hslot, htext⟩
  · obtain ⟨e, he, hslot, htext⟩ := KeyTexts.exists_of_find? (Dict.mem_toList_iff.mp ht)
    exact ⟨e, List.mem_append_right _ he, hslot, htext⟩

/-- Every new or changed key has a text. -/
theorem exists_text_of_hasSlot {created updated : List Entry} {ns : String}
    (h : HasSlot (created ++ updated) ⟨ns, key⟩) :
    ∃ text, (key, text) ∈ ((KeyTexts.ofEntries cs created).of ns).toList ++
      ((KeyTexts.ofEntries cs updated).of ns).toList := by
  have hmem : key ∈ ((KeyTexts.ofEntries cs created).of ns).keys ∨
      key ∈ ((KeyTexts.ofEntries cs updated).of ns).keys :=
    (hasSlot_append.mp h).imp KeyTexts.mem_keys_of.mpr KeyTexts.mem_keys_of.mpr
  rcases hmem with hmem | hmem <;> obtain ⟨⟨k, text⟩, ht, rfl⟩ := List.mem_map.mp hmem
  · exact ⟨text, List.mem_append_left _ ht⟩
  · exact ⟨text, List.mem_append_right _ ht⟩

/-- **The default locale gets the recorded texts.** Let a run be merged, and let the file of the
default locale for the namespace of a new or changed entry be at the place of no other file. Then
the file holds, under the key of the entry, the text of a candidate with that namespace and key
whose content hash is that of the entry, unless another new or changed key of the namespace goes on
from this one, or this one from it. -/
theorem default_locale_gets_recorded_text
    (h : (mergeLocales (m := DiskM) cs layout (reconcile cs m now)).run d = (.ok s, d'))
    (he : e ∈ (reconcile cs m now).created ++ (reconcile cs m now).updated.map Update.entry)
    (hkey : e.key = some key)
    (hapart : layout.Apart (reconcile cs m now) d' layout.defaultLocale e.ns)
    (hparts : ∀ key', key' ≠ key →
      HasSlot ((reconcile cs m now).created ++ (reconcile cs m now).updated.map Update.entry)
        ⟨e.ns, key'⟩ → PartWays (segmentsOf key) (segmentsOf key')) :
    ∃ data, d'.Stores (layout.file layout.defaultLocale e.ns) data ∧
      ∃ c ∈ cs, c.ns = e.ns ∧ c.keyHint = some key ∧
        Digest.contentHash c.text = e.contentHash ∧
        (Json.ofDict data).at? (segmentsOf key) = some (.str c.text) := by
  have hslot : e.slot? = some ⟨e.ns, key⟩ := Entry.slot?_eq_some_iff.mpr ⟨rfl, hkey⟩
  obtain ⟨c, hc, hcslot, hhash, hsource⟩ := exists_sourceText (exists_candidate_of_changed he hslot)
  obtain ⟨hns, hhint⟩ := Candidate.slot?_eq_some_iff.mp hcslot
  obtain ⟨ws, hwalk, hws⟩ := exists_walk_mergeLocales h
  have hvisited : (layout.defaultLocale, e.ns) ∈ ws := (hws _).mpr ⟨.inl rfl, key, e, he, hslot⟩
  obtain ⟨-, -, -, d₁, -, -, -, hread⟩ :=
    hwalk.exists_last_visit (fun w hw => hapart w ((hws w).mp hw)) hvisited
  simp only [mergeChange_defaultLocale, LocaleData.withTexts_eq_setAll] at hread
  -- a text under the key is that of an entry with its slot, which can only be this one
  have htexts : ∀ t ∈ ((KeyTexts.ofEntries cs (reconcile cs m now).created).of e.ns).toList ++
      ((KeyTexts.ofEntries cs ((reconcile cs m now).updated.map Update.entry)).of e.ns).toList,
      t = (key, c.text) ∨ PartWays (segmentsOf key) (segmentsOf t.1) := by
    intro t ht
    obtain ⟨e', he', hslot', htext⟩ := exists_of_mem_texts ht
    by_cases hsame : t.1 = key
    · rw [hsame] at hslot' htext
      obtain rfl := eq_of_changed he he' hslot hslot'
      exact .inl (Prod.ext hsame (htext.trans hsource))
    · exact .inr (hparts t.1 hsame ⟨e', he', hslot'⟩)
  refine ⟨_, ⟨hread, LocaleData.canonical_setAll (Disk.canonical_localeData d₁ _) fun x hx => ?_⟩,
    c, hc, hns, hhint, hhash, LocaleData.at?_setAll_of_mem ?_ (fun x hx => ?_) _⟩
  · obtain ⟨t, -, rfl⟩ := List.mem_map.mp hx
    exact .str t.2
  · obtain ⟨text, ht⟩ := exists_text_of_hasSlot ⟨e, he, hslot⟩
    refine List.mem_map.mpr ⟨(key, text), ht, ?_⟩
    rcases htexts _ ht with heq | hparts
    · rw [heq]
    · exact absurd List.prefix_rfl hparts.1
  · obtain ⟨t, ht, rfl⟩ := List.mem_map.mp hx
    exact (htexts t ht).imp_left fun heq => by rw [heq]

/-- Of two candidates with one key the first has the text of an entry without a key and is found to
be that one, so that the second becomes the entry of the key. -/
theorem second_text_recorded :
    let m := nextManifest [.plain "home" none "A"] .fresh .epoch
    let cs : List Candidate := [.plain "home" (some "k.x") "A", .plain "home" (some "k.x") "B",
      .plain "home" (some "k.y") "C"]
    let o := reconcile cs m .epoch
    let e := Entry.ofCandidate (.plain "home" (some "k.x") "B") .epoch
    let layout : Layout := ⟨⟨"."⟩, "en", ["en", "de"]⟩
    ∃ s d', (mergeLocales (m := DiskM) cs layout o).run (.blank [] 1) = (.ok s, d') ∧
      e ∈ o.created ++ o.updated.map Update.entry ∧ layout.Apart o d' layout.defaultLocale e.ns ∧
      ∃ data, d'.Stores (layout.file layout.defaultLocale e.ns) data ∧
        ∃ c ∈ cs, c.ns = e.ns ∧ c.keyHint = some "k.x" ∧
          Digest.contentHash c.text = e.contentHash ∧
          (Json.ofDict data).at? (segmentsOf "k.x") = some (.str c.text) := by
  intro m cs o e layout
  let s : MergeSummary := ⟨[⟨"./en/home.json"⟩, ⟨"./de/home.json"⟩], 2, 0, 0⟩
  let d' := ((mergeLocales (m := DiskM) cs layout o).run (.blank [] 1)).2
  have hrun : (mergeLocales (m := DiskM) cs layout o).run (.blank [] 1) = (.ok s, d') :=
    Prod.ext (by decide +kernel) rfl
  have hchanged : o.created ++ o.updated.map Update.entry =
      [e, Entry.ofCandidate (.plain "home" (some "k.y") "C") .epoch] := by decide +kernel
  have he : e ∈ o.created ++ o.updated.map Update.entry := hchanged ▸ List.mem_cons_self
  have hkey : e.key = some "k.x" := by decide +kernel
  have hapart : layout.Apart o d' layout.defaultLocale e.ns := by
    refine .of_forall ?_
    rw [hchanged]
    decide +kernel
  have hkeys : ∀ e ∈ o.created ++ o.updated.map Update.entry, e.key = some "k.x" ∨
      e.key = some "k.y" := by
    rw [hchanged]
    decide +kernel
  have hparts : PartWays (segmentsOf "k.x") (segmentsOf "k.y") := by
    rw [PartWays]
    decide +kernel
  refine ⟨s, d', hrun, he, hapart, default_locale_gets_recorded_text hrun he hkey hapart ?_⟩
  rintro key' hne ⟨e', he', hslot⟩
  have hkey' := (Entry.slot?_eq_some_iff.mp hslot).2
  rcases hkeys e' he' with hkey | hkey
  · exact absurd (Option.some.inj (hkey'.symm.trans hkey)) hne
  · cases hkey'.symm.trans hkey
    exact hparts

end Merge

end KeyLedger
