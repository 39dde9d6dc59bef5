import KeyLedger.Proofs.Dict
import KeyLedger.Proofs.Patch.Outcomes

/-!
# Planning keeps what patches come to

A plan holds one patch for each file, in the order of the paths, with all edits of the file and one
more for the imports that the file lacks. Applying it comes to the same, file by file, as applying
the patches as they were given together with these insertions.

The two walks group patches in different ways: planning in a dictionary by path, applying in the
order in which files are first named. What makes them agree is that both hand the edits of a file on
in the order in which they were proposed and then sort them in the same, stable way, and that
merging imports or sorting edits twice is the same as once.

## Main definitions

* `insertion?` — the edit that planning adds for the imports of a file
* `insertions` — these edits, as patches
* `proposes` — an edit or an import is proposed for a file

## Main results

* `PatchGroup.mem_ofPatches` — the dictionary holds what is proposed for each file
* `run_planFile` — what planning for a file does
* `plan_eq_ok` — what a plan consists of
* `plan_preserves_outcomes` — planning keeps what patches come to
-/

namespace KeyLedger

/-! ### What is proposed for a file -/

namespace PatchGroup

theorem edits_foldl_add (ps : List Patch) (g : PatchGroup) :
    (ps.foldl add g).edits = g.edits ++ ps.flatMap Patch.edits := by
  induction ps generalizing g with
  | nil => simp
  | cons p ps ih => rw [List.foldl_cons, ih]; simp [add]

theorem imports_foldl_add (ps : List Patch) (g : PatchGroup) :
    (ps.foldl add g).imports = g.imports ++ ps.flatMap Patch.imports := by
  induction ps generalizing g with
  | nil => simp
  | cons p ps ih => rw [List.foldl_cons, ih]; simp [add]

/-- The dictionary after some patches: a file that they name has all that was proposed before and
is proposed by them, and any other file what it had. -/
theorem find?_foldl_alter (ps : List Patch) (d : Dict PatchGroup) (file : String) :
    (ps.foldl (fun groups p => groups.alter p.file empty fun g => g.add p) d).find? file =
      if file ∈ ps.map Patch.file then
        some ((ps.filter fun p => p.file = file).foldl add ((d.find? file).getD empty))
      else d.find? file := by
  induction ps generalizing d with
  | nil => simp
  | cons p ps ih =>
    rw [List.foldl_cons, ih, Dict.find?_alter]
    by_cases hfile : file = p.file
    · subst hfile
      by_cases hmem : p.file ∈ ps.map Patch.file
      · rw [if_pos hmem, if_pos rfl, if_pos (by simp)]
        simp
      · have hnone : ps.filter (fun q => q.file = p.file) = [] :=
          List.filter_eq_nil_iff.mpr fun q hq hfile =>
            hmem (List.mem_map.mpr ⟨q, hq, by simpa using hfile⟩)
        rw [if_neg hmem, if_pos rfl, if_pos (by simp)]
        simp [hnone]
    · have hfilter : (p :: ps).filter (fun q => q.file = file) =
          ps.filter fun q => q.file = file :=
        List.filter_cons_of_neg (by simpa using fun h => hfile h.symm)
      have hmem : file ∈ (p :: ps).map Patch.file ↔ file ∈ ps.map Patch.file := by
        simp [hfile]
      simp only [if_neg hfile, hfilter, hmem]

/-- **The dictionary holds what is proposed for each file.** -/
theorem mem_ofPatches {ps : List Patch} {file : String} {g : PatchGroup}
    (h : (file, g) ∈ (ofPatches ps).toList) : ∃ f ∈ FilePatches.group ps,
      f.file = file ∧ g.edits = f.edits ∧ g.imports = f.imports := by
  rw [Dict.mem_toList_iff, ofPatches, find?_foldl_alter] at h
  split at h
  · next hmem =>
    cases h
    refine ⟨⟨file, ps.filter fun p => p.file = file⟩,
      FilePatches.mem_group_iff.mpr ⟨hmem, rfl⟩, rfl, ?_, ?_⟩
    · exact edits_foldl_add _ _
    · exact imports_foldl_add _ _
  · cases h

/-- Every file that is named is in the dictionary. -/
theorem keys_ofPatches_perm (ps : List Patch) :
    ((ofPatches ps).toList.map Prod.fst).Perm (distinct (ps.map Patch.file)) := by
  refine (List.perm_ext_iff_of_nodup (Dict.nodup_keys _) (nodup_distinct _)).mpr fun file => ?_
  have hfind : file ∈ (ofPatches ps).toList.map Prod.fst ↔
      ∃ g, (ofPatches ps).find? file = some g := by
    simp [← Dict.mem_toList_iff]
  have hempty : (∅ : Dict PatchGroup).find? file = none := rfl
  rw [hfind, mem_distinct, ofPatches, find?_foldl_alter]
  split
  · next hmem => simpa using hmem
  · next hmem => simpa [hempty] using hmem

end PatchGroup

/-! ### The plan -/

/-- The edit that planning adds for the imports of a file, given what reading the file gives. -/
def insertion? (current : Except IoError String) (imports : List Import) : Option Edit :=
  match current with
  | .ok text => importInsertion? text.toList imports
  | .error _ => none

theorem insertion?_nil (current : Except IoError String) : insertion? current [] = none := by
  cases current <;> rfl

/-- An insertion ends where it starts. -/
theorem stop_of_insertion? {current : Except IoError String} {imports : List Import} {e : Edit}
    (h : insertion? current imports = some e) : e.stop = e.start := by
  cases current with
  | error => cases h
  | ok text =>
    simp only [insertion?, importInsertion?] at h
    split at h
    · cases h
    · cases h
      rfl

/-- The patch of a file in a plan, given what reading the file gives. -/
def plannedPatch? (current : Except IoError String) (file : String) (g : PatchGroup) :
    Option Patch :=
  let imports := mergeImports g.imports
  let edits := g.edits ++ (insertion? current imports).toList
  if edits.isEmpty && imports.isEmpty then none
  else some { file, edits := sortEdits edits, imports, details := g.details }

theorem mergeImports_eq_nil_iff {imports : List Import} :
    mergeImports imports = [] ↔ imports = [] := by
  simp only [List.eq_nil_iff_forall_not_mem, mergeImports, mem_distinct]

section PlannedPatch

variable {c : Except IoError String} {f : String} {g : PatchGroup}

/-- Only a file for which nothing is proposed has no patch. -/
theorem plannedPatch?_eq_none_iff :
    plannedPatch? c f g = none ↔ g.edits = [] ∧ g.imports = [] := by
  simp only [plannedPatch?, ite_eq_left_iff, reduceCtorEq, imp_false, not_not, Bool.and_eq_true,
    List.isEmpty_iff, List.append_eq_nil_iff, mergeImports_eq_nil_iff]
  constructor
  · rintro ⟨⟨hedits, -⟩, himports⟩
    exact ⟨hedits, himports⟩
  · rintro ⟨hedits, himports⟩
    rw [mergeImports_eq_nil_iff.mpr himports, insertion?_nil]
    exact ⟨⟨hedits, rfl⟩, himports⟩

theorem plannedPatch?_eq_some {q : Patch} (h : plannedPatch? c f g = some q) :
    q.file = f ∧ q.imports = mergeImports g.imports ∧
      q.edits = sortEdits (g.edits ++ (insertion? c (mergeImports g.imports)).toList) ∧
      q.details = g.details := by
  simp only [plannedPatch?] at h
  split at h
  · cases h
  · cases h
    exact ⟨rfl, rfl, rfl, rfl⟩

end PlannedPatch

/-- **What planning for a file does.** The reader is called once if there are imports, and else not
at all. -/
theorem run_planFile {σ : Type} (read : String → StateM σ (Except IoError String)) (file : String)
    (g : PatchGroup) (current : Except IoError String) (s : σ) :
    (planFile read file g).run s =
      if g.imports = [] then (.ok (plannedPatch? current file g), s)
      else match read file s with
        | (.ok text, s₁) => (.ok (plannedPatch? (.ok text) file g), s₁)
        | (.error e, s₁) => (.error (.io [.read ⟨file⟩] e), s₁) := by
  unfold planFile
  extract_lets imports finish
  have hfinish : ∀ current s, (finish (insertion? current imports)).run s =
      (.ok (plannedPatch? current file g), s) := by
    intro current s
    simp only [finish, plannedPatch?]
    split <;> rfl
  have hempty : imports.isEmpty = true ↔ g.imports = [] :=
    List.isEmpty_iff.trans mergeImports_eq_nil_iff
  by_cases hnil : g.imports = []
  · have hnone : insertion? current imports = none := by
      rw [List.isEmpty_iff.mp (hempty.mpr hnil), insertion?_nil]
    rw [if_pos hnil, if_pos (hempty.mpr hnil), ← hfinish current s, hnone]
    rfl
  · rw [if_neg hnil, if_neg (mt hempty.mp hnil), run_bind_eq, run_attempt_eq]
    rcases read file s with ⟨_ | text, s₁⟩
    · rfl
    · exact hfinish (.ok text) s₁

section Plan

variable {read : String → DiskM (Except IoError String)} {d d' : Disk}

theorem planFile_eq_ok {file : String} {current : Except IoError String} {g : PatchGroup}
    {r : Option Patch} (hread : read file d = (current, d))
    (h : (planFile read file g).run d = (.ok r, d')) :
    d' = d ∧ r = plannedPatch? current file g := by
  rw [run_planFile read file g current, hread] at h
  split at h
  · cases h
    exact ⟨rfl, rfl⟩
  · rcases current with e | text <;> cases h
    exact ⟨rfl, rfl⟩

/-- Parts that leave the disk alone when they succeed. -/
theorem DiskM.mapM_eq_ok {ε α β : Type} {f : α → ExceptT ε DiskM β} {g : α → β} {l : List α}
    {bs : List β} (hf : ∀ a ∈ l, ∀ b d', (f a).run d = (.ok b, d') → d' = d ∧ b = g a)
    (h : (l.mapM f).run d = (.ok bs, d')) : d' = d ∧ bs = l.map g := by
  induction l generalizing bs d' with
  | nil =>
    cases h
    exact ⟨rfl, rfl⟩
  | cons a l ih =>
    rw [List.mapM_cons] at h
    obtain ⟨b, d₁, ha, h⟩ := DiskM.bind_eq_ok_iff.mp h
    obtain ⟨rfl, rfl⟩ := hf a List.mem_cons_self b d₁ ha
    obtain ⟨bs', d₂, hl, hpure⟩ := DiskM.bind_eq_ok_iff.mp h
    obtain ⟨rfl, rfl⟩ := ih (fun c hc => hf c (List.mem_cons_of_mem _ hc)) hl
    cases hpure
    exact ⟨rfl, rfl⟩

/-- **What a plan consists of.** -/
theorem plan_eq_ok {ps planned : List Patch} {current : String → Except IoError String}
    (hread : ∀ p ∈ ps, read p.file d = (current p.file, d))
    (h : (plan read ps).run d = (.ok planned, d')) :
    d' = d ∧ planned = (PatchGroup.ofPatches ps).toList.filterMap fun f =>
      plannedPatch? (current f.1) f.1 f.2 := by
  obtain ⟨found, d₁, hmap, hpure⟩ := DiskM.bind_eq_ok_iff.mp h
  have hfiles : ∀ f ∈ (PatchGroup.ofPatches ps).toList, ∀ r d',
      (planFile read f.1 f.2).run d = (.ok r, d') →
        d' = d ∧ r = plannedPatch? (current f.1) f.1 f.2 := by
    intro f hf r d' hrun
    obtain ⟨g, hg, hfile, -⟩ := PatchGroup.mem_ofPatches hf
    obtain ⟨p, hp, hpf⟩ := List.mem_map.mp (FilePatches.mem_group_iff.mp hg).1
    exact planFile_eq_ok (hfile ▸ hpf ▸ hread p hp) hrun
  obtain ⟨rfl, rfl⟩ := DiskM.mapM_eq_ok hfiles hmap
  cases hpure
  refine ⟨rfl, ?_⟩
  rw [List.filterMap_map]
  rfl

end Plan

/-! ### The same edits -/

theorem sortEdits_sortEdits (edits : List Edit) :
    sortEdits (sortEdits edits) = sortEdits edits :=
  sortEdits_of_ascending (sortEdits_ascending edits)

theorem mergeImports_mergeImports (imports : List Import) :
    mergeImports (mergeImports imports) = mergeImports imports :=
  distinct_eq_self (nodup_distinct imports)

/-- An edit or an import is proposed for a file. -/
def proposes (ps : List Patch) (file : String) : Bool :=
  ps.any fun p => decide (p.file = file) && !(p.edits.isEmpty && p.imports.isEmpty)

theorem proposes_iff_exists {ps : List Patch} {file : String} :
    proposes ps file = true ↔ ∃ p ∈ ps, p.file = file ∧ (p.edits ≠ [] ∨ p.imports ≠ []) := by
  simp only [proposes, List.any_eq_true, Bool.and_eq_true, decide_eq_true_eq, Bool.not_eq_true',
    Bool.and_eq_false_iff, List.isEmpty_eq_false_iff]

theorem FilePatches.proposes_iff {ps : List Patch} {g : FilePatches} (hg : g ∈ group ps) :
    proposes ps g.file = true ↔ ¬ (g.edits = [] ∧ g.imports = []) := by
  rw [edits, imports, (mem_group_iff.mp hg).2]
  simp only [proposes, List.any_eq_true, List.flatMap_eq_nil_iff, List.mem_filter,
    Bool.and_eq_true, Bool.not_eq_true', Bool.and_eq_false_iff, decide_eq_true_eq]
  constructor
  · rintro ⟨p, hp, hfile, hsome⟩ ⟨hedits, himports⟩
    simp [hedits p ⟨hp, hfile⟩, himports p ⟨hp, hfile⟩] at hsome
  · intro h
    by_contra hnone
    refine h ⟨fun p hp => ?_, fun p hp => ?_⟩ <;> by_contra hne
    · exact hnone ⟨p, hp.1, hp.2, .inl (by simpa using hne)⟩
    · exact hnone ⟨p, hp.1, hp.2, .inr (by simpa using hne)⟩

/-- The edits that planning adds, as patches of their own. -/
def insertions (read : String → Except IoError String) (ps : List Patch) : List Patch :=
  (FilePatches.group ps).filterMap fun g =>
    (insertion? (read g.file) (mergeImports g.imports)).map fun e => ⟨g.file, [e], [], ∅⟩

section Insertions

variable {read : String → Except IoError String} {ps inserted : List Patch}

theorem filter_insertions {g : FilePatches} (hg : g ∈ FilePatches.group ps) :
    (insertions read ps).filter (fun p => p.file = g.file) =
      ((insertion? (read g.file) (mergeImports g.imports)).map
        fun e => (⟨g.file, [e], [], ∅⟩ : Patch)).toList := by
  have hnodup : ((FilePatches.group ps).map FilePatches.file).Nodup :=
    FilePatches.map_file_group ps ▸ nodup_distinct _
  have hall : (insertions read ps).filter (fun p => p.file = g.file) =
      ((FilePatches.group ps).filter fun f => f.file = g.file).filterMap fun f =>
        (insertion? (read f.file) (mergeImports f.imports)).map fun e => ⟨f.file, [e], [], ∅⟩ := by
    rw [insertions, List.filter_filterMap, List.filterMap_filter]
    refine List.filterMap_congr fun f _ => ?_
    cases insertion? (read f.file) (mergeImports f.imports) <;> simp [Option.filter_some]
  rw [hall, filter_eq_singleton hnodup hg, List.filterMap_cons]
  cases insertion? (read g.file) (mergeImports g.imports) <;> rfl

theorem filter_inserted (h : inserted.Perm (insertions read ps)) {g : FilePatches}
    (hg : g ∈ FilePatches.group ps) :
    inserted.filter (fun p => p.file = g.file) =
      ((insertion? (read g.file) (mergeImports g.imports)).map
        fun e => (⟨g.file, [e], [], ∅⟩ : Patch)).toList := by
  have hperm := h.filter fun p => p.file = g.file
  rw [filter_insertions hg] at hperm
  cases hins : insertion? (read g.file) (mergeImports g.imports) with
  | none =>
    rw [hins] at hperm
    exact List.perm_nil.mp hperm
  | some e =>
    rw [hins] at hperm
    exact List.perm_singleton.mp hperm

/-- Insertions name no further files. -/
theorem map_file_inserted_subset (h : inserted.Perm (insertions read ps)) :
    inserted.map Patch.file ⊆ ps.map Patch.file := by
  intro file hfile
  obtain ⟨p, hp, rfl⟩ := List.mem_map.mp hfile
  obtain ⟨g, hg, hins⟩ := List.mem_filterMap.mp (h.mem_iff.mp hp)
  obtain ⟨e, -, rfl⟩ := Option.map_eq_some_iff.mp hins
  exact (FilePatches.mem_group_iff.mp hg).1

/-- The patches of a file together with its insertion. -/
theorem exists_group_append (h : inserted.Perm (insertions read ps)) {g : FilePatches}
    (hg : g ∈ FilePatches.group ps) : ∃ g' ∈ FilePatches.group (ps ++ inserted),
      g'.file = g.file ∧ g'.imports = g.imports ∧
        g'.edits = g.edits ++ (insertion? (read g.file) (mergeImports g.imports)).toList := by
  obtain ⟨hfile, hpatches⟩ := FilePatches.mem_group_iff.mp hg
  refine ⟨⟨g.file, (ps ++ inserted).filter fun p => p.file = g.file⟩,
    FilePatches.mem_group_iff.mpr ⟨?_, rfl⟩, rfl, ?_, ?_⟩
  · rw [List.map_append]
    exact List.mem_append_left _ hfile
  · rw [FilePatches.imports, FilePatches.imports, hpatches, List.filter_append, List.flatMap_append,
      filter_inserted h hg]
    cases insertion? (read g.file) (mergeImports g.imports) <;> simp
  · rw [FilePatches.edits, FilePatches.edits, List.filter_append, List.flatMap_append, ← hpatches,
      filter_inserted h hg]
    cases insertion? (read g.file) (mergeImports g.imports) <;> simp

end Insertions

/-! ### The same outcomes -/

/-- The outcomes of some files only. -/
theorem ApplyResult.ofOutcomes_filter (q : String → Bool) (os : List (Except Conflict FileChange)) :
    ApplyResult.ofOutcomes (os.filter fun o => q (outcomeFile o)) =
      ⟨(ApplyResult.ofOutcomes os).files.filter fun c => q c.file,
        (ApplyResult.ofOutcomes os).conflicts.filter fun c => q c.file⟩ := by
  simp only [ofOutcomes, List.filterMap_filter, List.filter_filterMap, mk.injEq]
  constructor <;> refine List.filterMap_congr fun o _ => ?_
  · cases o with
    | ok change => cases hq : q change.file <;> simp [outcomeFile, Option.filter_some, hq]
    | error conflict => simp
  · cases o with
    | ok change => simp
    | error conflict => cases hq : q conflict.file <;> simp [outcomeFile, Option.filter_some, hq]

section Planned

variable {read : String → Except IoError String} {ps planned inserted : List Patch}
  (hplanned : planned = (PatchGroup.ofPatches ps).toList.filterMap fun f =>
    plannedPatch? (read f.1) f.1 f.2)

include hplanned

/-- The patches of a plan: one for each file for which anything is proposed, by path. -/
theorem map_file_planned :
    planned.map Patch.file =
      ((PatchGroup.ofPatches ps).toList.map Prod.fst).filter (proposes ps) := by
  rw [hplanned, List.map_filterMap, List.filter_map, ← List.filterMap_eq_map, List.filterMap_filter]
  refine List.filterMap_congr fun ⟨file, pg⟩ hf => ?_
  obtain ⟨g, hg, rfl, hedits, himports⟩ := PatchGroup.mem_ofPatches hf
  have hproposes := FilePatches.proposes_iff hg
  rw [← hedits, ← himports, ← plannedPatch?_eq_none_iff (c := read g.file) (f := g.file)]
    at hproposes
  cases hplan : plannedPatch? (read g.file) g.file pg with
  | none => simp [mt hproposes.mp (not_not.mpr hplan)]
  | some q => simp [hproposes.mpr (by simp [hplan]), (plannedPatch?_eq_some hplan).1]

/-- The files that have a patch are those for which an edit or an import is proposed. -/
theorem mem_files_planned {file : String} : file ∈ planned.map Patch.file ↔
    ∃ p ∈ ps, p.file = file ∧ (p.edits ≠ [] ∨ p.imports ≠ []) := by
  rw [map_file_planned hplanned, List.mem_filter, (PatchGroup.keys_ofPatches_perm ps).mem_iff,
    mem_distinct, proposes_iff_exists, and_iff_right_iff_imp]
  rintro ⟨p, hp, rfl, -⟩
  exact List.mem_map_of_mem hp

/-- A patch of a plan has the edits and imports of its file. -/
theorem exists_of_mem_planned {q : Patch} (hq : q ∈ planned) :
    ∃ g ∈ FilePatches.group ps, g.file = q.file ∧ q.imports = mergeImports g.imports ∧
      q.edits = sortEdits
        (g.edits ++ (insertion? (read g.file) (mergeImports g.imports)).toList) := by
  rw [hplanned] at hq
  obtain ⟨⟨file, pg⟩, hf, hq⟩ := List.mem_filterMap.mp hq
  obtain ⟨g, hg, rfl, hedits, himports⟩ := PatchGroup.mem_ofPatches hf
  obtain ⟨hfile, hqimports, hqedits, -⟩ := plannedPatch?_eq_some hq
  exact ⟨g, hg, hfile.symm, by rw [hqimports, himports], by rw [hqedits, hedits, himports]⟩

theorem ascending_planned : (planned.map Patch.file).Pairwise (· < ·) := by
  rw [map_file_planned hplanned]
  exact (List.pairwise_map.mpr (PatchGroup.ofPatches ps).ascending).filter _

variable (hinserted : inserted.Perm (insertions read ps))

include hinserted

/-- A patch of a plan comes to the same as all patches of its file and its insertion. -/
theorem resolve_of_mem_planned {q : Patch} (hq : q ∈ planned) :
    ∃ g ∈ FilePatches.group (ps ++ inserted), g.file = q.file ∧ q.edits.Perm g.edits ∧
      (⟨q.file, [q]⟩ : FilePatches).resolve = g.resolve := by
  obtain ⟨g, hg, hfile, himports, hedits⟩ := exists_of_mem_planned hplanned hq
  obtain ⟨g', hg', hfile', himports', hedits'⟩ := exists_group_append hinserted hg
  refine ⟨g', hg', hfile'.trans hfile, ?_,
    FilePatches.resolve_congr (hfile'.trans hfile).symm ?_ ?_⟩
  · rw [hedits, hedits']
    exact sortEdits_perm _
  · rw [FilePatches.edits, List.flatMap_singleton, hedits, hedits', sortEdits_sortEdits]
  · rw [FilePatches.imports, List.flatMap_singleton, himports, himports', mergeImports_mergeImports]

/-- **The outcomes of a plan** are those of the patches and the insertions, but for files for which
nothing is proposed. -/
theorem outcomes_planned_perm :
    ((FilePatches.group planned).map fun g => g.resolve (read g.file)).Perm
      (((FilePatches.group (ps ++ inserted)).map fun g => g.resolve (read g.file)).filter
        fun o => proposes ps (outcomeFile o)) := by
  have hnodup := nodup_of_ascending (ascending_planned hplanned)
  have hfiles : distinct ((ps ++ inserted).map Patch.file) = distinct (ps.map Patch.file) := by
    rw [List.map_append, distinct_append_of_subset (map_file_inserted_subset hinserted)]
  let outcome (file : String) : Except Conflict FileChange :=
    (⟨file, (ps ++ inserted).filter fun p => p.file = file⟩ : FilePatches).resolve (read file)
  have hall : (FilePatches.group (ps ++ inserted)).map (fun g => g.resolve (read g.file)) =
      (distinct (ps.map Patch.file)).map outcome := by
    rw [FilePatches.group, hfiles, List.map_map]
    rfl
  have hplan : (FilePatches.group planned).map (fun g => g.resolve (read g.file)) =
      (planned.map Patch.file).map outcome := by
    rw [FilePatches.group_eq_map hnodup, List.map_map, List.map_map]
    refine List.map_congr_left fun q hq => ?_
    obtain ⟨⟨file, patches⟩, hg, rfl, -, hresolve⟩ := resolve_of_mem_planned hplanned hinserted hq
    have hpatches : patches = (ps ++ inserted).filter fun p => p.file = q.file :=
      (FilePatches.mem_group_iff.mp hg).2
    subst hpatches
    exact congrFun hresolve (read q.file)
  rw [hall, hplan, map_file_planned hplanned]
  refine (((PatchGroup.keys_ofPatches_perm ps).filter _).map outcome).trans (.of_eq ?_)
  rw [List.filter_map]
  refine congrArg (List.map outcome) (List.filter_congr fun file _ => ?_)
  rw [Function.comp_apply, FilePatches.outcomeFile_resolve]

/-- An edit of a plan ends before it starts if and only if one of the patches does. -/
theorem backwardEdit?_planned : backwardEdit? (FilePatches.group planned) = none ↔
    backwardEdit? (FilePatches.group (ps ++ inserted)) = none := by
  rw [backwardEdit?_eq_none_iff, backwardEdit?_eq_none_iff]
  constructor
  · intro h p hp e he
    rcases List.mem_append.mp hp with hp | hp
    · have hfile : p.file ∈ planned.map Patch.file :=
        (mem_files_planned hplanned).mpr ⟨p, hp, rfl, .inl (List.ne_nil_of_mem he)⟩
      obtain ⟨q, hq, hqfile⟩ := List.mem_map.mp hfile
      obtain ⟨g, hg, hgfile, hperm, -⟩ := resolve_of_mem_planned hplanned hinserted hq
      refine h q hq e (hperm.mem_iff.mpr ((FilePatches.mem_edits_of_mem_group hg).mpr ?_))
      exact ⟨p, List.mem_append_left _ hp, hqfile.symm.trans hgfile.symm, he⟩
    · obtain ⟨g, -, hins⟩ := List.mem_filterMap.mp (hinserted.mem_iff.mp hp)
      obtain ⟨e', he', rfl⟩ := Option.map_eq_some_iff.mp hins
      obtain rfl := List.mem_singleton.mp he
      exact Nat.le_of_eq (stop_of_insertion? he').symm
  · intro h q hq e he
    obtain ⟨g, hg, -, hperm, -⟩ := resolve_of_mem_planned hplanned hinserted hq
    obtain ⟨p, hp, -, hpe⟩ := (FilePatches.mem_edits_of_mem_group hg).mp (hperm.mem_iff.mp he)
    exact h p hp e hpe

end Planned

/-- **Planning keeps what patches come to.** Let a plan be made with a reader that sees the files as
they are applied, and let the insertions of the plan be patches of their own, in any order. Then
applying the plan without writing fails if and only if applying the patches and the insertions
does. If they do not fail, every file has the same outcome in both, except that files for which
nothing is proposed are missing from the plan. The outcomes of the plan are in the order of the
paths, and the others in the order in which the files are first named. -/
theorem plan_preserves_outcomes {read : String → DiskM (Except IoError String)}
    {options : ApplyOptions} {ps planned inserted : List Patch} {d d' : Disk}
    (hwrite : options.write = false)
    (hread : ∀ p ∈ ps, read p.file d = currentText (m := DiskM) options p.file d)
    (hplan : (plan read ps).run d = (.ok planned, d'))
    (hinserted : inserted.Perm
      (insertions (fun file => (currentText (m := DiskM) options file d).1) ps)) :
    d' = d ∧
    (∀ q ∈ planned, ∃ g ∈ FilePatches.group (ps ++ inserted),
      g.file = q.file ∧ q.edits.Perm g.edits) ∧
    ((∃ e₁ e₂, (apply (m := DiskM) planned options).run d = (.error e₁, d) ∧
        (apply (m := DiskM) (ps ++ inserted) options).run d = (.error e₂, d)) ∨
      ∃ r₁ r₂, (apply (m := DiskM) planned options).run d = (.ok r₁, d) ∧
        (apply (m := DiskM) (ps ++ inserted) options).run d = (.ok r₂, d) ∧
        r₁.files.Perm (r₂.files.filter fun c => proposes ps c.file) ∧
        r₁.conflicts.Perm (r₂.conflicts.filter fun c => proposes ps c.file) ∧
        (planned.map Patch.file).Pairwise (· < ·) ∧ r₁.Covers (planned.map Patch.file) ∧
        r₂.Covers (distinct (ps.map Patch.file))) := by
  let current (file : String) : Except IoError String :=
    (currentText (m := DiskM) options file d).1
  have hcurrent : ∀ p ∈ ps, read p.file d = (current p.file, d) := fun p hp =>
    (hread p hp).trans (Prod.ext rfl (FilePatches.currentText_run options p.file d))
  obtain ⟨rfl, hplanned⟩ := plan_eq_ok hcurrent hplan
  refine ⟨rfl, fun q hq => ?_, ?_⟩
  · obtain ⟨g, hg, hfile, hperm, -⟩ := resolve_of_mem_planned hplanned hinserted hq
    exact ⟨g, hg, hfile, hperm⟩
  have hbackward := backwardEdit?_planned hplanned hinserted
  cases hback : backwardEdit? (FilePatches.group planned) with
  | some b =>
    rw [hback] at hbackward
    obtain ⟨b', hback'⟩ := Option.ne_none_iff_exists'.mp (mt hbackward.mpr (by simp))
    exact .inl ⟨_, _, apply_run_of_backward hback _, apply_run_of_backward hback' _⟩
  | none =>
    have hplannedRun := apply_run_of_not_write hwrite hback d'
    have hallRun := apply_run_of_not_write hwrite (hbackward.mp hback) d'
    have houtcomes := outcomes_planned_perm hplanned hinserted
    have hsame := ApplyResult.ofOutcomes_filter (proposes ps)
      ((FilePatches.group (ps ++ inserted)).map fun g => g.resolve (current g.file))
    have hascending := ascending_planned hplanned
    refine .inr ⟨_, _, hplannedRun, hallRun, ?_, ?_, hascending, ?_, ?_⟩
    · exact (houtcomes.filterMap _).trans (.of_eq (congrArg ApplyResult.files hsame))
    · exact (houtcomes.filterMap _).trans (.of_eq (congrArg ApplyResult.conflicts hsame))
    · exact distinct_eq_self (nodup_of_ascending hascending) ▸ covers_resolve planned current
    · have hcovers := covers_resolve (ps ++ inserted) current
      rwa [List.map_append, distinct_append_of_subset (map_file_inserted_subset hinserted)]
        at hcovers

/-- A file with an edit, one that lacks an import, and one for which nothing is proposed. -/
theorem plan_preserves_outcomes_of_three :
    let options : ApplyOptions :=
      ⟨false, some (.ofList [("a.ts", "x\n"), ("b.ts", "y\n"), ("c.ts", "")]), ⟨""⟩⟩
    let ps : List Patch := [⟨"c.ts", [], [], ∅⟩, ⟨"b.ts", [⟨0, 1, "z"⟩], [], ∅⟩,
      ⟨"a.ts", [], [⟨"m", "import m"⟩], ∅⟩]
    let inserted : List Patch := [⟨"a.ts", [.insert 0 "import m\n"], [], ∅⟩]
    let d := Disk.blank [] 0
    ∃ planned r₁ r₂, (plan (currentText (m := DiskM) options) ps).run d = (.ok planned, d) ∧
      inserted.Perm (insertions (fun file => (currentText (m := DiskM) options file d).1) ps) ∧
      (apply (m := DiskM) planned options).run d = (.ok r₁, d) ∧
      (apply (m := DiskM) (ps ++ inserted) options).run d = (.ok r₂, d) ∧
      r₁.files.Perm (r₂.files.filter fun c => proposes ps c.file) ∧
      r₁.conflicts.Perm (r₂.conflicts.filter fun c => proposes ps c.file) := by
  intro options ps inserted d
  have hplan : (plan (currentText (m := DiskM) options) ps).run d = (.ok
      [⟨"a.ts", sortEdits [.insert 0 "import m\n"], [⟨"m", "import m"⟩], ∅⟩,
        ⟨"b.ts", sortEdits [⟨0, 1, "z"⟩], [], ∅⟩], d) := by
    rfl
  have hinserted : inserted.Perm
      (insertions (fun file => (currentText (m := DiskM) options file d).1) ps) :=
    .of_eq (by rfl)
  have hnone : backwardEdit? (FilePatches.group (ps ++ inserted)) = none := by rfl
  obtain ⟨-, -, ⟨e₁, e₂, -, herror⟩ | ⟨r₁, r₂, h₁, h₂, hfiles, hconflicts, -⟩⟩ :=
    plan_preserves_outcomes rfl (fun _ _ => rfl) hplan hinserted
  · rw [apply_run_of_not_write rfl hnone] at herror
    cases herror
  · exact ⟨_, r₁, r₂, hplan, hinserted, h₁, h₂, hfiles, hconflicts⟩

end KeyLedger
