import KeyLedger.Proofs.Locale.Overwriting
import KeyLedger.Proofs.Locale.Quarantine
import KeyLedger.Proofs.Reconcile.Log
import Mathlib.Data.List.Nodup

/-!
# What a quarantine marks

A quarantine visits the file of each namespace in which an orphan has a key once. Where the files
are at different places, a visit therefore finds a file as it was in the beginning, and nothing
happens to it afterwards. What becomes of its data is a matter of putting in one mark after the
other: a mark stays unless a later key goes on from its own, or is on the way to it, and what stands
at a path that parts ways with all keys stays as well.

There is one thing to be careful about. A path may lead through a directory that is made only in the
course of the quarantine, and then up again from there. Such a file could not be read in the
beginning, though it was there. What its data were is what is found when its turn comes.

## Main definitions

* `Disk.dataAt` — the data of the file at a place
* `Disk.Former` — the data that a file had before, as it is found when its turn comes
* `Disk.Rewritten` — a file whose bytes are others than before
* `Marks` — data in which some keys have been marked, and nothing else has changed

## Main results

* `Walk.elsewhere` — a walk changes no file but those that it visits
* `Walk.former_of_turn` — a file that is visited once is changed from what it was before
* `Walk.touched_eq` — the files that a walk reports are those that it has rewritten
* `quarantine_marks_orphans` — what a quarantine does
-/

namespace KeyLedger

namespace Disk

variable {d d' d₁ : Disk} {p : Path} {q : Place}

/-! ### What a file was before -/

/-- The data of the file at a place; a place without a text has none. -/
def dataAt (d : Disk) (q : Place) : LocaleData :=
  match d.file? q with
  | some (.text text, _) => .ofText text
  | _ => ∅

/-- The data that a file had on `d`, before a run that leaves `d'`: it is found on `t`, when the
turn of the file comes. -/
structure Former (d t d' : Disk) (p : Path) (old : LocaleData) : Prop where
  /-- It is found when the turn comes. -/
  found : old = t.localeData p
  /-- It was at that place before; where the path leads nowhere there is none. -/
  place : old = (t.place? p).elim ∅ d.dataAt
  /-- The place is that of the file in the end. -/
  stays : ∀ q, t.place? p = some q → d'.place? p = some q
  /-- It could be read before, if the path led somewhere. -/
  readable : d.place? p ≠ none → old = d.localeData p

/-- The bytes of the file that a path leads to are others than those that were at its place, or
there was no file. -/
def Rewritten (d d' : Disk) (p : Path) : Prop :=
  (d'.fileAt? p).map Prod.fst ≠ ((d'.place? p).bind d.file?).map Prod.fst

instance (d d' : Disk) (p : Path) : Decidable (d.Rewritten d' p) := by
  unfold Rewritten; infer_instance

theorem localeData_of_locate (h : d.locate p = .ok ⟨q, false⟩) : d.localeData p = d.dataAt q := by
  rw [dataAt]
  split
  · next text modified hfile =>
    exact localeData_of_readText (readText_eq_ok_iff.mpr ⟨q, modified, h, hfile⟩)
  · next hnone =>
    rw [localeData]
    cases hread : d.readText p with
    | error e => rfl
    | ok text =>
      obtain ⟨q', modified, hlocate, hfile⟩ := readText_eq_ok_iff.mp hread
      cases h.symm.trans hlocate
      exact absurd hfile (hnone text modified)

theorem localeData_of_place?_eq_none (h : d.place? p = none) : d.localeData p = ∅ := by
  rw [localeData]
  cases hread : d.readText p with
  | error e => rfl
  | ok text =>
    obtain ⟨q, -, hlocate, -⟩ := readText_eq_ok_iff.mp hread
    cases h.symm.trans (place?_eq_some_iff.mpr ⟨false, hlocate⟩)

/-- What is found in a file that nobody has changed is what it was before. -/
theorem former_localeData {t : Disk} (hd : d.Retains t) (ht : t.Retains d')
    (hp : d'.locate p = .ok ⟨q, false⟩) (hsame : t.file? q = d.file? q) :
    d.Former t d' p (t.localeData p) := by
  have hdata : t.dataAt q = d.dataAt q := by rw [dataAt, dataAt, hsame]
  refine ⟨rfl, ?_, fun _ => ht.place?, fun hsome => ?_⟩
  · cases hplace : t.place? p with
    | none => exact localeData_of_place?_eq_none hplace
    | some q₁ =>
      obtain ⟨directory, hlocate⟩ := place?_eq_some_iff.mp hplace
      cases hp.symm.trans (ht.locate hlocate)
      exact (localeData_of_locate hlocate).trans hdata
  · obtain ⟨q', hplace⟩ := Option.ne_none_iff_exists'.mp hsome
    obtain ⟨directory, hlocate⟩ := place?_eq_some_iff.mp hplace
    cases hp.symm.trans ((hd.trans ht).locate hlocate)
    rw [localeData_of_locate (hd.locate hlocate), localeData_of_locate hlocate, hdata]

/-- Whether a file is rewritten depends on what was at its place. -/
theorem rewritten_congr (h : ∀ x, d'.place? p = some x → d₁.file? x = d.file? x) :
    d₁.Rewritten d' p ↔ d.Rewritten d' p := by
  have hbind : (d'.place? p).bind d₁.file? = (d'.place? p).bind d.file? :=
    Option.bind_congr fun x hx => h x hx
  rw [Rewritten, Rewritten, hbind]

/-- A stable write that is the last one to a file says whether the file is rewritten. -/
theorem StableWrite.rewritten_iff {text : String} {wrote : Bool}
    (h : StableWrite p text d wrote d₁ q) (hd₁ : d₁.Retains d') (hlast : d'.file? q = d₁.file? q) :
    d.Rewritten d' p ↔ wrote = true := by
  obtain ⟨modified, hholds⟩ := h.holds
  have hplace : d'.place? p = some q := hd₁.place? h.place?
  rw [Rewritten, fileAt?, hplace, Option.bind_some, Option.bind_some, hlast]
  cases wrote with
  | false => simp [h.kept rfl]
  | true =>
    refine iff_of_true (fun hsame => ?_) rfl
    rw [hholds] at hsame
    obtain ⟨⟨contents, modified'⟩, hfile, hcontents⟩ := Option.map_eq_some_iff.mp hsame.symm
    cases hcontents
    exact h.replaced rfl modified' hfile

end Disk

/-! ### Walks over different files -/

namespace Walk

variable {ω : Type} {file : ω → Path} {change : ω → LocaleData → LocaleData} {ws : List ω}
  {d d' : Disk} {touched : List Path} {w₀ : ω}

/-- **A walk changes no file but those that it visits.** -/
theorem elsewhere (h : Walk file change ws d touched d') {x : Place}
    (hx : ∀ w ∈ ws, d'.place? (file w) ≠ some x) : d'.file? x = d.file? x := by
  induction h with
  | nil => rfl
  | @cons w ws d d₁ d' wrote q rest visit others ih =>
    have hq : x ≠ q := by
      rintro rfl
      exact hx w List.mem_cons_self (others.retains.place? visit.place?)
    rw [ih fun w hw => hx w (List.mem_cons_of_mem _ hw), visit.elsewhere x hq]

/-- **A file that is visited once is changed from what it was before**, which is what is found there
when its turn comes. -/
theorem former_of_turn {before after : List ω} {t : Disk} {touched₁ touched₂ : List Path}
    (hbefore : Walk file change before d touched₁ t)
    (hlater : Walk file change (w₀ :: after) t touched₂ d')
    (hnodup : (before ++ w₀ :: after).Nodup) (hapart : Apart file (before ++ w₀ :: after) d' w₀) :
    d.Former t d' (file w₀) (t.localeData (file w₀)) ∧
      d'.readText (file w₀) = .ok (change w₀ (t.localeData (file w₀))).text := by
  classical
  obtain ⟨-, hrest, hothers⟩ := List.nodup_append.mp hnodup
  have hretains := hlater.retains
  cases hlater with
  | @cons _ _ _ t₁ _ wrote q rest visit others =>
    have hafter : Apart file after d' w₀ := fun w hw =>
      hapart w (List.mem_append_right _ (List.mem_cons_of_mem _ hw))
    have hread := others.readText hafter visit.readText
    rw [List.count_eq_zero_of_not_mem (List.nodup_cons.mp hrest).1] at hread
    refine ⟨Disk.former_localeData hbefore.retains hretains (others.retains.locate visit.target) ?_,
      hread⟩
    have hplace : d'.place? (file w₀) = some q := others.retains.place? visit.place?
    refine hbefore.elsewhere fun w hw hq => ?_
    have hne : w ≠ w₀ := hothers w hw w₀ List.mem_cons_self
    refine hapart w (List.mem_append_left _ hw) hne ?_
    rw [hplace, hretains.place? hq]

/-- **The files that a walk reports are those that it has rewritten**, if they are at different
places. -/
theorem touched_eq (h : Walk file change ws d touched d')
    (hplaces : ws.Pairwise fun w w' => d'.place? (file w) ≠ d'.place? (file w')) :
    touched = (ws.filter fun w => d.Rewritten d' (file w)).map file := by
  induction h with
  | nil => rfl
  | @cons w ws d d₁ d' wrote q rest visit others ih =>
    obtain ⟨hw, hplaces⟩ := List.pairwise_cons.mp hplaces
    have hplace : d'.place? (file w) = some q := others.retains.place? visit.place?
    have hlast : d'.file? q = d₁.file? q :=
      others.elsewhere fun w' hw' heq => hw w' hw' (hplace.trans heq.symm)
    have hothers : ∀ w' ∈ ws, d₁.Rewritten d' (file w') ↔ d.Rewritten d' (file w') := by
      refine fun w' hw' => Disk.rewritten_congr fun x hx => visit.elsewhere x ?_
      rintro rfl
      exact hw w' hw' (hplace.trans hx.symm)
    have hrest : rest = (ws.filter fun w => d.Rewritten d' (file w)).map file := by
      rw [ih hplaces]
      exact congrArg _ (List.filter_congr fun w' hw' => decide_eq_decide.mpr (hothers w' hw'))
    have hself := visit.rewritten_iff others.retains hlast
    rw [List.filter_cons, hrest]
    cases wrote with
    | false => simp [hself]
    | true => simp [hself]

end Walk

/-! ### Marks -/

/-- Some keys have been marked in data: each of them holds the mark, unless another one goes on from
it or is on the way to it, and what stands apart from all of them is as before. -/
structure Marks (keys : String → Prop) (old new : LocaleData) : Prop where
  /-- A key that parts ways with the others holds the mark. -/
  marked : ∀ key, keys key →
    (∀ key', keys key' → key' ≠ key → PartWays (segmentsOf key) (segmentsOf key')) →
    (Json.ofDict new).at? (segmentsOf key) = some deprecatedMark
  /-- What stands at a path that parts ways with all keys stays. -/
  kept : ∀ path, (∀ key, keys key → PartWays path (segmentsOf key)) →
    (Json.ofDict new).at? path = (Json.ofDict old).at? path

theorem marks_withMarks (d : LocaleData) (keys : List String) :
    Marks (· ∈ keys) d (withMarks d keys) := by
  rw [LocaleData.withMarks_eq_setAll]
  refine ⟨fun key hkey hparts => LocaleData.at?_setAll_of_mem ?_ (fun m hm => ?_) d,
    fun path hpath => LocaleData.at?_setAll_of_partWays (fun m hm => ?_) d⟩
  · exact List.mem_map_of_mem hkey
  · obtain ⟨key', hkey', rfl⟩ := List.mem_map.mp hm
    by_cases hsame : key' = key
    · exact .inl (by rw [hsame])
    · exact .inr (hparts key' hkey' hsame)
  · obtain ⟨key, hkey, rfl⟩ := List.mem_map.mp hm
    exact hpath key hkey

theorem canonical_withMarks {d : LocaleData} (h : (Json.ofDict d).Canonical fun _ => True)
    (keys : List String) : (Json.ofDict (withMarks d keys)).Canonical fun _ => True := by
  rw [LocaleData.withMarks_eq_setAll]
  refine LocaleData.canonical_setAll h fun m hm => ?_
  obtain ⟨key, -, rfl⟩ := List.mem_map.mp hm
  exact (Json.Canonical.bool true).singleton "__deprecated"

/-! ### The quarantine -/

section Quarantine

variable {entries : List Entry} {dir : Path} {d d' : Disk} {touched : List Path}

/-- **What a quarantine does.** Let the files of the namespaces in which an orphan has a key be at
different places. In each of them the keys of the orphans are marked, and nothing else has changed.
No other file changes, and the files that are reported are those whose bytes have changed, in the
order of the namespaces. -/
theorem quarantine_marks_orphans
    (h : (quarantine (m := DiskM) entries dir).run d = (.ok touched, d'))
    (hplaces : ∀ s s', HasSlot (orphansOf entries) s → HasSlot (orphansOf entries) s' →
      d'.place? (trashFile dir s.ns) = d'.place? (trashFile dir s'.ns) → s.ns = s'.ns) :
    (∀ ns, (∃ key, HasSlot (orphansOf entries) ⟨ns, key⟩) →
      ∃ old new, d.Former (trashAt entries dir d ns) d' (trashFile dir ns) old ∧
        d'.Stores (trashFile dir ns) new ∧
        Marks (fun key => HasSlot (orphansOf entries) ⟨ns, key⟩) old new) ∧
    (∀ x, (∀ s, HasSlot (orphansOf entries) s → d'.place? (trashFile dir s.ns) ≠ some x) →
      d'.file? x = d.file? x) ∧
    ∃ namespaces : List String, namespaces.Pairwise (· < ·) ∧
      (∀ ns, ns ∈ namespaces ↔ ∃ key, HasSlot (orphansOf entries) ⟨ns, key⟩) ∧
      touched = (namespaces.filter fun ns => d.Rewritten d' (trashFile dir ns)).map
        (trashFile dir) := by
  have hwalk := walk_quarantine h
  have hvisited : ∀ m ∈ (orphanKeys entries).toList,
      ∃ key, HasSlot (orphansOf entries) ⟨m.1, key⟩ :=
    fun m hm => mem_keys_orphanKeys.mp (List.mem_map_of_mem hm)
  have hapart : ∀ m ∈ (orphanKeys entries).toList, ∀ m' ∈ (orphanKeys entries).toList,
      d'.place? (trashFile dir m.1) = d'.place? (trashFile dir m'.1) → m.1 = m'.1 := by
    intro m hm m' hm' heq
    obtain ⟨key, hkey⟩ := hvisited m hm
    obtain ⟨key', hkey'⟩ := hvisited m' hm'
    exact hplaces ⟨m.1, key⟩ ⟨m'.1, key'⟩ hkey hkey' heq
  refine ⟨fun ns hns => ?_, fun x hx => ?_, (orphanKeys entries).keys, ?_,
    fun ns => mem_keys_orphanKeys, ?_⟩
  · obtain ⟨m, hm, rfl⟩ := List.mem_map.mp (mem_keys_orphanKeys.mpr hns)
    obtain ⟨before, after, _, _, hsplit, hbefore, hlater⟩ := exists_turn h hm
    have hnodup : (orphanKeys entries).toList.Nodup := List.Nodup.of_map _ (Dict.nodup_keys _)
    have hothers : Walk.Apart (fun m => trashFile dir m.1) (orphanKeys entries).toList d' m :=
      fun m' hm' hne heq => hne (Dict.eq_of_key hm' hm (hapart m' hm' m hm heq))
    obtain ⟨hformer, hread⟩ := hbefore.former_of_turn hlater (hsplit ▸ hnodup) (hsplit ▸ hothers)
    have hkeys : (fun key => HasSlot (orphansOf entries) ⟨m.1, key⟩) = (· ∈ m.2) :=
      funext fun key => propext (mem_keys_iff_hasSlot hm).symm
    rw [hkeys]
    exact ⟨_, _, hformer, ⟨hread, canonical_withMarks (Disk.canonical_localeData _ _) m.2⟩,
      marks_withMarks _ m.2⟩
  · refine hwalk.elsewhere fun m hm => ?_
    obtain ⟨key, hkey⟩ := hvisited m hm
    exact hx ⟨m.1, key⟩ hkey
  · exact List.pairwise_map.mpr (orphanKeys entries).ascending
  · have hdifferent : (orphanKeys entries).toList.Pairwise fun m m' =>
        d'.place? (trashFile dir m.1) ≠ d'.place? (trashFile dir m'.1) := by
      refine (orphanKeys entries).ascending.imp_of_mem fun {m m'} hm hm' hlt heq => ?_
      rw [hapart m hm m' hm' heq] at hlt
      exact String.lt_irrefl _ hlt
    rw [hwalk.touched_eq hdifferent, Dict.keys, List.filter_map, List.map_map]
    rfl

/-- An orphan whose key is marked already, one whose file is missing, one without a key, and an
entry that is no orphan and whose file holds no object. -/
theorem quarantine_marks_missing_key :
    let entry (status : Status) (ns : String) (key : Option String) : Entry :=
      ⟨"a.tsx", ns, key, none, status, "0", ⟨"p#0"⟩, 0, 4, .epoch, none⟩
    let entries := [entry .orphaned "shop" (some "k.x"), entry .orphaned "home" (some "a"),
      entry .orphaned "page" none, entry .extracted "page" (some "c")]
    let marked := "\x7b\n  \"a\": \x7b\n    \"__deprecated\": true\n  \x7d\n\x7d\n"
    let dir : Path := ⟨"t"⟩
    let d : Disk := ⟨[], [(["t"], .dir), (["t", "home.json"], .file (.text marked) 0),
      (["t", "page.json"], .file (.text "[]") 0)], 1, [], none⟩
    ∃ d', (quarantine (m := DiskM) entries dir).run d = (.ok [trashFile dir "shop"], d') ∧
      (∀ s s', HasSlot (orphansOf entries) s → HasSlot (orphansOf entries) s' →
        d'.place? (trashFile dir s.ns) = d'.place? (trashFile dir s'.ns) → s.ns = s'.ns) ∧
      (∃ old new, d.Former (trashAt entries dir d "shop") d' (trashFile dir "shop") old ∧
        d'.Stores (trashFile dir "shop") new ∧
        Marks (fun key => HasSlot (orphansOf entries) ⟨"shop", key⟩) old new) ∧
      d'.file? ["t", "page.json"] = d.file? ["t", "page.json"] ∧
      ¬ d.Rewritten d' (trashFile dir "home") := by
  intro entry entries marked dir d
  let d' := ((quarantine (m := DiskM) entries dir).run d).2
  have hrun : (quarantine (m := DiskM) entries dir).run d = (.ok [trashFile dir "shop"], d') :=
    Prod.ext (by decide +kernel) rfl
  have hplaces : ∀ e ∈ orphansOf entries, ∀ e' ∈ orphansOf entries,
      d'.place? (trashFile dir e.ns) = d'.place? (trashFile dir e'.ns) → e.ns = e'.ns := by
    decide +kernel
  have hslots : ∀ s, HasSlot (orphansOf entries) s → ∃ e ∈ orphansOf entries, e.ns = s.ns := by
    rintro s ⟨e, he, hslot⟩
    exact ⟨e, he, (Entry.slot?_eq_some_iff.mp hslot).1⟩
  have hapart : ∀ s s', HasSlot (orphansOf entries) s → HasSlot (orphansOf entries) s' →
      d'.place? (trashFile dir s.ns) = d'.place? (trashFile dir s'.ns) → s.ns = s'.ns := by
    intro s s' hs hs' heq
    obtain ⟨e, he, hns⟩ := hslots s hs
    obtain ⟨e', he', hns'⟩ := hslots s' hs'
    rw [← hns, ← hns'] at heq ⊢
    exact hplaces e he e' he' heq
  have helse : ∀ e ∈ orphansOf entries,
      e.key.isSome → d'.place? (trashFile dir e.ns) ≠ some ["t", "page.json"] := by decide +kernel
  obtain ⟨hmarks, hframe, -⟩ := quarantine_marks_orphans hrun hapart
  refine ⟨d', hrun, hapart, hmarks "shop" ?_, hframe _ ?_, by decide +kernel⟩
  · exact ⟨"k.x", entry .orphaned "shop" (some "k.x"), by decide +kernel, rfl⟩
  · rintro s ⟨e, he, hslot⟩
    obtain ⟨hns, hkey⟩ := Entry.slot?_eq_some_iff.mp hslot
    rw [← hns]
    exact helse e he (Option.isSome_of_eq_some hkey)

end Quarantine

end KeyLedger
