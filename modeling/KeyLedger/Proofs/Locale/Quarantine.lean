import KeyLedger.Proofs.Locale.Merge
import KeyLedger.Quarantine

/-!
# A quarantine as a walk

A quarantine that succeeds walks over one file for each namespace in which an orphan has a key, in
the order of the namespaces, and marks the keys of the orphans there. As with a merge, the slots of
the orphans say which files are visited and with which keys.

## Main definitions

* `orphansOf` — the orphans among some entries
* `trashFile` — the file of a namespace in the quarantine
* `trashAt` — the disk when the turn of a namespace comes

## Main results

* `mem_orphanKeys`, `mem_keys_orphanKeys` — the keys and the namespaces of the orphans
* `walk_quarantine` — a quarantine walks over the files of the orphans
* `exists_turn` — the turn of a namespace divides it into two walks
-/

namespace KeyLedger

/-- The orphans among some entries. -/
def orphansOf (entries : List Entry) : List Entry := entries.filter (·.status = .orphaned)

/-- The keys by namespace, with that of one more entry. -/
def addKey (acc : Dict (List String)) (e : Entry) : Dict (List String) :=
  match e.key with
  | some key => acc.alter e.ns [] (· ++ [key])
  | none => acc

variable {entries : List Entry} {ns key : String} {acc : Dict (List String)} {e : Entry}

theorem orphanKeys_eq_foldl (entries : List Entry) :
    orphanKeys entries = (orphansOf entries).foldl addKey ∅ := by
  rw [orphansOf, List.foldl_filter, orphanKeys]
  congr 1
  funext acc e
  cases hstatus : e.status with
  | orphaned => cases hkey : e.key <;> simp [addKey, hkey]
  | _ => simp

theorem mem_addKey : key ∈ ((addKey acc e).find? ns).getD [] ↔
    e.slot? = some ⟨ns, key⟩ ∨ key ∈ (acc.find? ns).getD [] := by
  rw [addKey, Entry.slot?_eq_some_iff]
  cases hkey : e.key with
  | none => simp
  | some k =>
    simp only [Dict.find?_alter]
    by_cases hns : ns = e.ns
    · subst hns
      simp [or_comm, eq_comm]
    · simp [if_neg hns, Ne.symm hns]

theorem mem_keys_addKey :
    ns ∈ (addKey acc e).keys ↔ (∃ key, e.slot? = some ⟨ns, key⟩) ∨ ns ∈ acc.keys := by
  simp only [addKey, Entry.slot?_eq_some_iff]
  cases hkey : e.key with
  | none => simp
  | some k => simp [Dict.mem_keys_alter, eq_comm]

/-- **The keys of the orphans** of a namespace. -/
theorem mem_orphanKeys : key ∈ ((orphanKeys entries).find? ns).getD [] ↔
    HasSlot (orphansOf entries) ⟨ns, key⟩ := by
  rw [orphanKeys_eq_foldl]
  exact (foldl_iff (f := addKey) (P := fun acc => key ∈ (acc.find? ns).getD [])
    (fun _ _ => mem_addKey) (orphansOf entries) ∅).trans (or_iff_left List.not_mem_nil)

/-- The namespaces in which an orphan has a key. -/
theorem mem_keys_orphanKeys :
    ns ∈ (orphanKeys entries).keys ↔ ∃ key, HasSlot (orphansOf entries) ⟨ns, key⟩ := by
  rw [orphanKeys_eq_foldl, exists_hasSlot_iff]
  exact (foldl_iff (f := addKey) (P := fun acc => ns ∈ acc.keys)
    (fun _ _ => mem_keys_addKey) (orphansOf entries) ∅).trans (or_iff_left List.not_mem_nil)

theorem mem_keys_iff_hasSlot {m : String × List String} (hm : m ∈ (orphanKeys entries).toList) :
    key ∈ m.2 ↔ HasSlot (orphansOf entries) ⟨m.1, key⟩ := by
  rw [← mem_orphanKeys, Dict.mem_toList_iff.mp hm]
  rfl

/-! ### The walk -/

/-- The file of a namespace in the quarantine. -/
def trashFile (dir : Path) (ns : String) : Path := dir.join (ns ++ ".json")

theorem quarantine_eq (entries : List Entry) (dir : Path) :
    (quarantine entries dir : ExceptT Failure DiskM (List Path)) = do
      let touched ← (orphanKeys entries).toList.mapM fun m =>
        updateLocale (trashFile dir m.1) (withMarks · m.2)
      return touched.flatten :=
  rfl

section Walk

variable {dir : Path} {d d' : Disk} {touched : List Path}

/-- What the visits of some namespaces do. -/
theorem walk_of_mapM {ms : List (String × List String)} {lists : List (List Path)}
    (h : (ms.mapM fun m => updateLocale (m := DiskM) (trashFile dir m.1) (withMarks · m.2)).run d =
      (.ok lists, d')) :
    Walk (fun m => trashFile dir m.1) (fun m => (withMarks · m.2)) ms d lists.flatten d' := by
  have hwalk : Walk (fun m => trashFile dir m.1) (fun m => (withMarks · m.2))
      (ms.flatMap fun m => [m]) d lists.flatten d' :=
    Walk.of_mapM (fun m _ _ _ _ h => Walk.of_updateLocale h) h
  rwa [← List.map_eq_flatMap, List.map_id'] at hwalk

/-- **A quarantine walks over the files of the orphans.** -/
theorem walk_quarantine (h : (quarantine (m := DiskM) entries dir).run d = (.ok touched, d')) :
    Walk (fun m => trashFile dir m.1) (fun m => (withMarks · m.2)) (orphanKeys entries).toList d
      touched d' := by
  rw [quarantine_eq, DiskM.bind_eq_ok_iff] at h
  obtain ⟨lists, d₁, hall, hpure⟩ := h
  cases hpure
  exact walk_of_mapM hall

/-- The disk of a quarantine when the turn of a namespace comes: those before it have had theirs. -/
def trashAt (entries : List Entry) (dir : Path) (d : Disk) (ns : String) : Disk :=
  ((((orphanKeys entries).toList.takeWhile fun m => m.1 ≠ ns).mapM fun m =>
    updateLocale (m := DiskM) (trashFile dir m.1) (withMarks · m.2)).run d).2

/-- **The turn of a namespace** divides a quarantine into a walk that ends there and one that begins
there. -/
theorem exists_turn (h : (quarantine (m := DiskM) entries dir).run d = (.ok touched, d'))
    {m : String × List String} (hm : m ∈ (orphanKeys entries).toList) :
    ∃ before after touched₁ touched₂, (orphanKeys entries).toList = before ++ m :: after ∧
      Walk (fun m => trashFile dir m.1) (fun m => (withMarks · m.2)) before d touched₁
        (trashAt entries dir d m.1) ∧
      Walk (fun m => trashFile dir m.1) (fun m => (withMarks · m.2)) (m :: after)
        (trashAt entries dir d m.1) touched₂ d' := by
  obtain ⟨before, after, hsplit⟩ := List.append_of_mem hm
  have hnodup : ((orphanKeys entries).toList.map Prod.fst).Nodup := Dict.nodup_keys _
  have hbefore : (orphanKeys entries).toList.takeWhile (fun n => n.1 ≠ m.1) = before := by
    rw [hsplit, List.map_append, List.nodup_append] at hnodup
    have hothers : ∀ n ∈ before, decide (n.1 ≠ m.1) = true := fun n hn =>
      decide_eq_true (hnodup.2.2 _ (List.mem_map_of_mem hn) _ List.mem_cons_self)
    rw [hsplit, List.takeWhile_append_of_pos hothers, List.takeWhile_cons_of_neg (by simp),
      List.append_nil]
  rw [quarantine_eq, DiskM.bind_eq_ok_iff, hsplit, List.mapM_append] at h
  obtain ⟨lists, d₁, hall, hpure⟩ := h
  cases hpure
  obtain ⟨lists₁, t, hfirst, hrest⟩ := DiskM.bind_eq_ok_iff.mp hall
  obtain ⟨lists₂, d₂, hsecond, hpure⟩ := DiskM.bind_eq_ok_iff.mp hrest
  cases hpure
  have hturn : trashAt entries dir d m.1 = t := by rw [trashAt, hbefore, hfirst]
  rw [hturn]
  exact ⟨before, after, _, _, hsplit, walk_of_mapM hfirst, walk_of_mapM hsecond⟩

end Walk

end KeyLedger
