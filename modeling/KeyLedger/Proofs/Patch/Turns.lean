import KeyLedger.Proofs.Patch.Outcomes

/-!
# The turn of a file

Patches are applied to one file after the other, and a result has one outcome for each file. To say
something of one file it is enough to look at its turn: the disk is then the one that the files
before it have left, and the outcome of the turn is what the result says of the file, whatever else
is in it.

No assumption is made on the other files. If they are written, they may change what the file holds
before its turn comes; `textAt` is what is found at that moment.

## Main definitions

* `editsOf` — the edits that patches propose for a file
* `ApplyResult.Reports` — what a result says of a file
* `diskAt`, `textAt` — the disk, and the text of a file, when its turn comes

## Main results

* `ApplyResult.reports_ofOutcomes` — a result says of every file what came of it
* `mapM_eq_map_turns` — the outcomes are those of the turns
* `exists_reports` — what applying patches says of a file is the outcome of its turn
* `exists_reports_of_idle` — if nothing is written, it is decided from its patches and its text
-/

namespace KeyLedger

/-! ### Edits of a file -/

/-- All edits that are proposed for a file, in the order in which they are proposed. -/
def editsOf (ps : List Patch) (file : String) : List Edit :=
  (ps.filter fun p => p.file = file).flatMap Patch.edits

theorem FilePatches.edits_eq_editsOf {ps : List Patch} {g : FilePatches} (hg : g ∈ group ps) :
    g.edits = editsOf ps g.file := by
  rw [edits, editsOf, (mem_group_iff.mp hg).2]

/-- A file that is named has its turn. -/
theorem FilePatches.exists_of_named {ps : List Patch} {file : String}
    (hfile : file ∈ ps.map Patch.file) : ∃ g ∈ group ps, g.file = file :=
  ⟨⟨file, ps.filter fun p => p.file = file⟩, mem_group_iff.mpr ⟨hfile, rfl⟩, rfl⟩

/-- Only a file that is named has edits. -/
theorem named_of_mem_editsOf {ps : List Patch} {file : String} {e : Edit}
    (he : e ∈ editsOf ps file) : file ∈ ps.map Patch.file := by
  obtain ⟨p, hp, -⟩ := List.mem_flatMap.mp he
  obtain ⟨hp, hfile⟩ := List.mem_filter.mp hp
  exact List.mem_map.mpr ⟨p, hp, of_decide_eq_true hfile⟩

theorem forward_of_mem_editsOf {ps : List Patch}
    (hforward : ∀ p ∈ ps, ∀ e ∈ p.edits, e.start ≤ e.stop) (file : String) :
    ∀ e ∈ editsOf ps file, e.start ≤ e.stop := by
  intro e he
  obtain ⟨p, hp, hpe⟩ := List.mem_flatMap.mp he
  exact hforward p (List.mem_filter.mp hp).1 e hpe

/-! ### What a result says of a file -/

/-- Of all that a result says, `o` is what it says of a file: a change that is listed and no
conflict, or a conflict that is listed and no change. -/
structure ApplyResult.Reports (r : ApplyResult) (file : String)
    (o : Except Conflict FileChange) : Prop where
  /-- The only change of the file. -/
  files : ∀ c, (c ∈ r.files ∧ c.file = file) ↔ o = .ok c
  /-- The only conflict of the file. -/
  conflicts : ∀ c, (c ∈ r.conflicts ∧ c.file = file) ↔ o = .error c

/-- **A result says of every file what came of it.** -/
theorem ApplyResult.reports_ofOutcomes {os : List (Except Conflict FileChange)}
    (hnodup : (os.map outcomeFile).Nodup) {o : Except Conflict FileChange} (ho : o ∈ os) :
    (ofOutcomes os).Reports (outcomeFile o) o := by
  have honly : ∀ o' ∈ os, outcomeFile o' = outcomeFile o → o = o' := fun o' ho' hfile =>
    List.inj_on_of_nodup_map hnodup ho ho' hfile.symm
  refine ⟨fun c => ?_, fun c => ?_⟩
  · rw [mem_files_ofOutcomes]
    constructor
    · rintro ⟨hc, hfile⟩
      exact honly _ hc hfile
    · rintro rfl
      exact ⟨ho, rfl⟩
  · rw [mem_conflicts_ofOutcomes]
    constructor
    · rintro ⟨hc, hfile⟩
      exact honly _ hc hfile
    · rintro rfl
      exact ⟨ho, rfl⟩

/-! ### The disk at a turn -/

section Turns

variable {options : ApplyOptions} {gs : List FilePatches} {d : Disk}

/-- The outcomes are about the files, in their order. -/
theorem map_outcomeFile_mapM (options : ApplyOptions) (gs : List FilePatches) (d : Disk) :
    (gs.mapM (applyFile (m := DiskM) options) d).1.map outcomeFile = gs.map FilePatches.file := by
  induction gs generalizing d with
  | nil => rfl
  | cons g gs ih =>
    rw [DiskM.mapM_cons_run, List.map_cons, List.map_cons, ih,
      (FilePatches.applied_applyFile options g d).outcomeFile]

/-- The disk when the turn of a file comes: the files that are named before it have had theirs. -/
def diskAt (options : ApplyOptions) (ps : List Patch) (d : Disk) (file : String) : Disk :=
  (((FilePatches.group ps).takeWhile fun g => g.file ≠ file).mapM
    (applyFile (m := DiskM) options) d).2

/-- What is found in a file when its turn comes. -/
def textAt (options : ApplyOptions) (ps : List Patch) (d : Disk) (file : String) :
    Except IoError String :=
  (currentText (m := DiskM) options file (diskAt options ps d file)).1

/-- The outcomes are those of the turns, if every file has one turn. -/
theorem mapM_eq_map_turns (hnodup : (gs.map FilePatches.file).Nodup) (d : Disk) :
    (gs.mapM (applyFile (m := DiskM) options) d).1 = gs.map fun g =>
      (applyFile (m := DiskM) options g
        ((gs.takeWhile fun h => h.file ≠ g.file).mapM (applyFile (m := DiskM) options) d).2).1 := by
  induction gs generalizing d with
  | nil => rfl
  | cons first gs ih =>
    obtain ⟨hfirst, hnodup⟩ := List.nodup_cons.mp hnodup
    rw [DiskM.mapM_cons_run, List.map_cons, List.takeWhile_cons_of_neg (by simp), ih hnodup]
    refine congrArg₂ List.cons rfl (List.map_congr_left fun g hg => ?_)
    have hne : first.file ≠ g.file := fun h => hfirst (h ▸ List.mem_map_of_mem hg)
    rw [List.takeWhile_cons_of_pos (by simp [hne]), DiskM.mapM_cons_run]

theorem mapM_group_eq (options : ApplyOptions) (ps : List Patch) (d : Disk) :
    ((FilePatches.group ps).mapM (applyFile (m := DiskM) options) d).1 =
      (FilePatches.group ps).map fun g =>
        (applyFile (m := DiskM) options g (diskAt options ps d g.file)).1 :=
  mapM_eq_map_turns (FilePatches.map_file_group ps ▸ nodup_distinct _) d

/-- **What applying patches says of a file is the outcome of its turn.** -/
theorem exists_reports {ps : List Patch} (hforward : ∀ p ∈ ps, ∀ e ∈ p.edits, e.start ≤ e.stop)
    (options : ApplyOptions) (d : Disk) :
    ∃ r d', (apply (m := DiskM) ps options).run d = (.ok r, d') ∧
      r.Covers (distinct (ps.map Patch.file)) ∧
      ∀ g ∈ FilePatches.group ps, ∃ o d₁,
        g.Applied options (diskAt options ps d g.file) o d₁ ∧ r.Reports g.file o := by
  have hrun := apply_run (backwardEdit?_eq_none_iff.mpr hforward) options d
  have hfiles := map_outcomeFile_mapM options (FilePatches.group ps) d
  rw [FilePatches.map_file_group] at hfiles
  refine ⟨_, _, hrun, hfiles ▸ ApplyResult.covers_ofOutcomes _, fun g hg => ?_⟩
  have hturn := FilePatches.applied_applyFile options g (diskAt options ps d g.file)
  refine ⟨_, _, hturn, ?_⟩
  have hmem : (applyFile (m := DiskM) options g (diskAt options ps d g.file)).1 ∈
      ((FilePatches.group ps).mapM (applyFile (m := DiskM) options) d).1 := by
    rw [mapM_group_eq]
    exact List.mem_map_of_mem hg
  have hreports := ApplyResult.reports_ofOutcomes (hfiles ▸ nodup_distinct _) hmem
  rwa [hturn.outcomeFile] at hreports

/-- **If nothing is written, what is said of a file is decided from its patches and its text.** No
file changes what another one holds, so that all are as they were before the first turn. -/
theorem exists_reports_of_idle {ps : List Patch}
    (hforward : ∀ p ∈ ps, ∀ e ∈ p.edits, e.start ≤ e.stop)
    (hidle : ∀ g ∈ FilePatches.group ps, g.Idle options d) :
    ∃ r, (apply (m := DiskM) ps options).run d = (.ok r, d) ∧
      r.Covers (distinct (ps.map Patch.file)) ∧
      ∀ g ∈ FilePatches.group ps,
        r.Reports g.file (g.resolve (currentText (m := DiskM) options g.file d).1) := by
  let outcome (g : FilePatches) : Except Conflict FileChange :=
    g.resolve (currentText (m := DiskM) options g.file d).1
  have hrun := apply_run_of_idle hidle (backwardEdit?_eq_none_iff.mpr hforward)
  have hfile : ∀ g, outcomeFile (outcome g) = g.file := fun g => g.outcomeFile_resolve _
  have hfiles : ((FilePatches.group ps).map outcome).map outcomeFile =
      distinct (ps.map Patch.file) := by
    rw [List.map_map, ← FilePatches.map_file_group]
    exact List.map_congr_left fun g _ => hfile g
  refine ⟨_, hrun, hfiles ▸ ApplyResult.covers_ofOutcomes _, fun g hg => ?_⟩
  have hreports := ApplyResult.reports_ofOutcomes (hfiles ▸ nodup_distinct _)
    (List.mem_map_of_mem (f := outcome) hg)
  rwa [hfile] at hreports

end Turns

end KeyLedger
