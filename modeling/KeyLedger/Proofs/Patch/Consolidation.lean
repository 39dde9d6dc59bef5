import KeyLedger.Proofs.Patch.Injection
import KeyLedger.Proofs.Sorting
import Mathlib.Logic.Function.Basic

/-!
# Consolidating patches

A plan is made in one pass over the files, in the order of their paths. A file is read if it is to
have imports, and the pass ends at the first file that cannot be read. What the plan says of a file
depends on the patches of that file and on its text only, and nothing that they propose is lost.

The reader is a computation with a state of its own, about which nothing is assumed: it may count
its calls, or answer differently the next time. For a reader that keeps a record of the files that
it is asked for, the final state lists the calls below, and so they are all there are.

## Main definitions

* `Calls` — the calls of a reader, with its answers, from one state to another
* `StablySorted` — edits by their starts, those with one start in their order
* `Consolidates` — what a plan says of the files, given their texts

## Main results

* `run_planFiles` — one pass over the files, with the calls of the reader
* `pairwise_idxOf_distinct` — repetitions are dropped in the order of first occurrences
* `PatchGroup.find?_details` — of several details with one name the first is kept
* `plan_consolidates` — a plan is canonical and loses nothing
-/

namespace KeyLedger

/-! ### Calls of a reader -/

section Reading

variable {σ : Type}

/-- A reader is called for some files, one after another, and gives these answers. -/
inductive Calls (read : String → StateM σ (Except IoError String)) :
    σ → List (String × Except IoError String) → σ → Prop
  | nil (s : σ) : Calls read s [] s
  | cons {s s₁ s₂ : σ} {file : String} {answer : Except IoError String}
      {calls : List (String × Except IoError String)} :
      read file s = (answer, s₁) → Calls read s₁ calls s₂ →
        Calls read s ((file, answer) :: calls) s₂

/-- Some files are all found with their texts. -/
def found (texts : String → String) (files : List String) :
    List (String × Except IoError String) :=
  files.map fun file => (file, .ok (texts file))

/-- The files that are to have imports. -/
def filesWithImports (l : List (String × PatchGroup)) : List String :=
  (l.filter fun f => !f.2.imports.isEmpty).map Prod.fst

theorem found_update {texts : String → String} {files : List String} {file : String}
    (hfile : file ∉ files) (text : String) :
    found (Function.update texts file text) files = found texts files := by
  refine List.map_congr_left fun file' hfile' => ?_
  rw [Function.update_of_ne fun heq : file' = file => hfile (heq ▸ hfile')]

theorem filesWithImports_subset (l : List (String × PatchGroup)) :
    filesWithImports l ⊆ l.map Prod.fst :=
  List.map_subset Prod.fst (List.filter_subset_self _)

/-- Planning for one file after another. -/
def planFiles (read : String → StateM σ (Except IoError String)) (l : List (String × PatchGroup)) :
    ExceptT Failure (StateM σ) (List (Option Patch)) :=
  l.mapM fun (file, g) => planFile read file g

variable {read : String → StateM σ (Except IoError String)}

theorem run_planFiles_cons {file : String} {g : PatchGroup} {p : Option Patch} {s s₁ : σ}
    (hfile : (planFile read file g).run s = (.ok p, s₁)) (l : List (String × PatchGroup)) :
    (planFiles read ((file, g) :: l)).run s =
      (((planFiles read l).run s₁).1.map (p :: ·), ((planFiles read l).run s₁).2) := by
  rw [planFiles, List.mapM_cons, run_bind_eq, hfile, ← planFiles]
  dsimp only
  rw [run_bind_eq]
  rcases (planFiles read l).run s₁ with ⟨_ | _, s₂⟩ <;> rfl

/-- **One pass over the files.** Either all files that are to have imports are read, each once and
in order, or they are up to the first that cannot be read, and nothing is done after it. -/
theorem run_planFiles (read : String → StateM σ (Except IoError String))
    {l : List (String × PatchGroup)} (hl : (l.map Prod.fst).Nodup) (s : σ) : ∃ texts s',
      (Calls read s (found texts (filesWithImports l)) s' ∧
        (planFiles read l).run s =
          (.ok (l.map fun f => plannedPatch? (.ok (texts f.1)) f.1 f.2), s')) ∨
      ∃ before file after e, filesWithImports l = before ++ file :: after ∧
        Calls read s (found texts before ++ [(file, .error e)]) s' ∧
        (planFiles read l).run s = (.error (.io [.read ⟨file⟩] e), s') := by
  induction l generalizing s with
  | nil => exact ⟨fun _ => "", s, .inl ⟨.nil s, rfl⟩⟩
  | cons f l ih =>
    obtain ⟨file, g⟩ := f
    obtain ⟨hnew, hl⟩ := List.nodup_cons.mp hl
    by_cases himports : g.imports = []
    · have hfiles : filesWithImports ((file, g) :: l) = filesWithImports l := by
        simp [filesWithImports, himports]
      obtain ⟨texts, s', h⟩ := ih hl s
      have hfile : (planFile read file g).run s =
          (.ok (plannedPatch? (.ok (texts file)) file g), s) := by
        rw [run_planFile read file g (.ok (texts file)), if_pos himports]
      refine ⟨texts, s', ?_⟩
      rw [hfiles, run_planFiles_cons hfile]
      rcases h with ⟨hcalls, hrun⟩ | ⟨before, failed, after, e, hsplit, hcalls, hrun⟩
      · exact .inl ⟨hcalls, by rw [hrun]; rfl⟩
      · exact .inr ⟨before, failed, after, e, hsplit, hcalls, by rw [hrun]; rfl⟩
    · have hfiles : filesWithImports ((file, g) :: l) = file :: filesWithImports l := by
        simp [filesWithImports, himports]
      have hfile := run_planFile read file g (.ok "") s
      rw [if_neg himports] at hfile
      rcases hread : read file s with ⟨e | text, s₁⟩
      · rw [hread] at hfile
        refine ⟨fun _ => "", s₁, .inr ⟨[], file, filesWithImports l, e, hfiles, ?_, ?_⟩⟩
        · exact .cons hread (.nil s₁)
        · rw [planFiles, List.mapM_cons, run_bind_eq, hfile]
      · rw [hread] at hfile
        obtain ⟨texts, s', h⟩ := ih hl s₁
        -- the text of this file is of no concern to the rest, which does not name it
        have hrest : file ∉ filesWithImports l := fun h => hnew (filesWithImports_subset l h)
        refine ⟨Function.update texts file text, s', ?_⟩
        rw [hfiles, run_planFiles_cons hfile]
        rcases h with ⟨hcalls, hrun⟩ | ⟨before, failed, after, e, hsplit, hcalls, hrun⟩
        · refine .inl ⟨?_, ?_⟩
          · rw [found, List.map_cons, Function.update_self, ← found, found_update hrest]
            exact .cons hread hcalls
          · rw [hrun, List.map_cons, Function.update_self]
            refine Prod.ext (congrArg (fun ps => Except.ok (_ :: ps)) ?_) rfl
            refine List.map_congr_left fun f hf => ?_
            rw [Function.update_of_ne fun heq : f.1 = file => hnew (List.mem_map.mpr ⟨f, hf, heq⟩)]
        · refine .inr ⟨file :: before, failed, after, e, by rw [hsplit]; rfl, ?_, by rw [hrun]; rfl⟩
          have hbefore : file ∉ before := fun h =>
            hrest (hsplit ▸ List.mem_append_left _ h)
          rw [found, List.map_cons, Function.update_self, ← found, found_update hbefore]
          exact .cons hread hcalls

end Reading

/-! ### What is kept -/

/-- **Repetitions are dropped in the order of first occurrences.** -/
theorem pairwise_idxOf_distinct {α : Type} [DecidableEq α] (l : List α) :
    (distinct l).Pairwise fun a b => l.idxOf a < l.idxOf b := by
  induction l with
  | nil => exact .nil
  | cons a l ih =>
    have hlater : ∀ b ∈ (distinct l).filter (· ≠ a), (a :: l).idxOf b = l.idxOf b + 1 :=
      fun b hb => List.idxOf_cons_ne l (Ne.symm (by simpa using (List.mem_filter.mp hb).2))
    refine List.pairwise_cons.mpr ⟨fun b hb => ?_, ?_⟩
    · rw [hlater b hb, List.idxOf_cons_self]
      exact Nat.succ_pos _
    · refine (ih.filter _).imp_of_mem fun {b c} hb hc hbc => ?_
      rw [hlater b hb, hlater c hc]
      exact Nat.succ_lt_succ hbc

/-- Edits by their starts, those with one start in the order that they had. -/
structure StablySorted (edits sorted : List Edit) : Prop where
  /-- No edit is lost, duplicated or altered. -/
  perm : sorted.Perm edits
  /-- No edit starts before an earlier one. -/
  ascending : sorted.Pairwise fun a b => a.start ≤ b.start
  /-- Edits with one start stay in their order. -/
  stable : ∀ n, sorted.filter (fun e => e.start = n) = edits.filter fun e => e.start = n

theorem stablySorted_sortEdits (edits : List Edit) : StablySorted edits (sortEdits edits) := by
  refine ⟨sortEdits_perm edits, sortEdits_ascending edits, fun n => ?_⟩
  have hsame := filter_tied_mergeSort Edit.start_le_trans Edit.start_le_total edits (.insert n "")
  have htied : tied (fun a b : Edit => decide (a.start ≤ b.start)) (.insert n "") =
      fun e => decide (e.start = n) := by
    funext e
    rw [tied, ← Bool.decide_and]
    exact decide_eq_decide.mpr (show n ≤ e.start ∧ e.start ≤ n ↔ e.start = n by omega)
  rwa [htied] at hsame

namespace PatchGroup

theorem find?_ofPatches (ps : List Patch) (file : String) :
    (ofPatches ps).find? file =
      if file ∈ ps.map Patch.file then some ((ps.filter fun p => p.file = file).foldl add empty)
      else none :=
  find?_foldl_alter ps ∅ file

/-- Of several details with one name the first is kept. -/
theorem find?_details_foldl_add (ps : List Patch) (g : PatchGroup) (key : String) :
    (ps.foldl add g).details.find? key =
      (g.details.find? key).or (ps.findSome? fun p => p.details.find? key) := by
  induction ps generalizing g with
  | nil => simp
  | cons p ps ih =>
    have hstep : (g.add p).details.find? key = (g.details.find? key).or (p.details.find? key) :=
      Dict.find?_foldl_insertNew p.details.toList g.details key
    rw [List.foldl_cons, ih, hstep, Option.or_assoc, List.findSome?_cons]
    cases p.details.find? key <;> rfl

/-- **A detail is that of the first patch of the file that has one with its name.** -/
theorem find?_details {ps : List Patch} {file : String} {g : PatchGroup}
    (h : (file, g) ∈ (ofPatches ps).toList) (key : String) :
    g.details.find? key =
      (ps.filter fun p => p.file = file).findSome? fun p => p.details.find? key := by
  rw [Dict.mem_toList_iff, find?_ofPatches] at h
  split at h
  · cases h
    exact (find?_details_foldl_add _ empty key).trans Option.none_or
  · cases h

/-- The files that are read are those that are to have imports. -/
theorem mem_filesWithImports {ps : List Patch} {file : String} :
    file ∈ filesWithImports (ofPatches ps).toList ↔
      ∃ p ∈ ps, p.file = file ∧ p.imports ≠ [] := by
  rw [← importsOf_ne_nil_iff]
  constructor
  · intro h
    obtain ⟨⟨file, g⟩, hf, rfl⟩ := List.mem_map.mp h
    obtain ⟨hf, himports⟩ := List.mem_filter.mp hf
    obtain ⟨f, hgroup, rfl, -, heq⟩ := mem_ofPatches hf
    rw [← FilePatches.imports_eq_importsOf hgroup, ← heq]
    simpa using himports
  · intro h
    have hnamed : file ∈ ps.map Patch.file := by
      obtain ⟨p, hp, rfl, -⟩ := importsOf_ne_nil_iff.mp h
      exact List.mem_map_of_mem hp
    have hkey := (keys_ofPatches_perm ps).mem_iff.mpr (mem_distinct.mpr hnamed)
    obtain ⟨⟨file, g⟩, hf, rfl⟩ := List.mem_map.mp hkey
    obtain ⟨f, hgroup, rfl, -, heq⟩ := mem_ofPatches hf
    rw [← FilePatches.imports_eq_importsOf hgroup, ← heq] at h
    exact List.mem_map.mpr ⟨_, List.mem_filter.mpr ⟨hf, by simpa using h⟩, rfl⟩

end PatchGroup

/-! ### The plan -/

/-- **What a plan says of the files**, given the texts of those that are to have imports. -/
structure Consolidates (texts : String → String) (ps planned : List Patch) : Prop where
  /-- The patches are in the order of the paths, one for each file. -/
  ascending : (planned.map Patch.file).Pairwise (· < ·)
  /-- The files that have a patch are those for which an edit or an import is proposed. -/
  mem_files : ∀ file, file ∈ planned.map Patch.file ↔
    ∃ p ∈ ps, p.file = file ∧ (p.edits ≠ [] ∨ p.imports ≠ [])
  /-- The edits are those proposed, in order, and the insertion of what the file lacks. -/
  edits : ∀ q ∈ planned, ∃ inserted : Option Edit,
    inserted = importInsertion? (texts q.file).toList q.imports ∧
    (∀ e ∈ inserted, e.stop = e.start) ∧
    StablySorted (editsOf ps q.file ++ inserted.toList) q.edits
  /-- The imports are those proposed. -/
  mem_imports : ∀ q ∈ planned, ∀ i, i ∈ q.imports ↔ i ∈ importsOf ps q.file
  /-- There is each import once, in the order in which they are first proposed. -/
  imports : ∀ q ∈ planned, q.imports.Pairwise fun i j =>
    (importsOf ps q.file).idxOf i < (importsOf ps q.file).idxOf j
  /-- A detail is that of the first patch of the file that has one with its name. -/
  details : ∀ q ∈ planned, ∀ key, q.details.find? key =
    (ps.filter fun p => p.file = q.file).findSome? fun p => p.details.find? key

section Planned

variable {texts : String → String} {ps planned : List Patch}
  (hplanned : planned = (PatchGroup.ofPatches ps).toList.filterMap fun f =>
    plannedPatch? (.ok (texts f.1)) f.1 f.2)

include hplanned

/-- A patch of a plan has the details of its file. -/
theorem find?_details_planned {q : Patch} (hq : q ∈ planned) (key : String) :
    q.details.find? key =
      (ps.filter fun p => p.file = q.file).findSome? fun p => p.details.find? key := by
  rw [hplanned] at hq
  obtain ⟨⟨file, g⟩, hf, hq⟩ := List.mem_filterMap.mp hq
  obtain ⟨rfl, -, -, hdetails⟩ := plannedPatch?_eq_some hq
  rw [hdetails, PatchGroup.find?_details hf]

/-- **What is planned for files with these texts.** -/
theorem consolidates_planned : Consolidates texts ps planned := by
  let current (file : String) : Except IoError String := .ok (texts file)
  have hplanned' : planned = (PatchGroup.ofPatches ps).toList.filterMap fun f =>
    plannedPatch? (current f.1) f.1 f.2 := hplanned
  refine ⟨ascending_planned hplanned', fun file => mem_files_planned hplanned', fun q hq => ?_,
    fun q hq i => ?_, fun q hq => ?_, fun q hq => find?_details_planned hplanned hq⟩
  · obtain ⟨g, hg, hfile, himports, hedits⟩ := exists_of_mem_planned hplanned' hq
    refine ⟨insertion? (current q.file) q.imports, rfl, fun e he => stop_of_insertion? he, ?_⟩
    rw [hedits, ← himports, FilePatches.edits_eq_editsOf hg, hfile]
    exact stablySorted_sortEdits _
  · obtain ⟨g, hg, hfile, himports, -⟩ := exists_of_mem_planned hplanned' hq
    rw [himports, mergeImports, mem_distinct, FilePatches.imports_eq_importsOf hg, hfile]
  · obtain ⟨g, hg, hfile, himports, -⟩ := exists_of_mem_planned hplanned' hq
    rw [himports, mergeImports, FilePatches.imports_eq_importsOf hg, hfile]
    exact pairwise_idxOf_distinct _

end Planned

/-- **A plan is canonical and loses nothing.** The files that are to have imports are read, each
once, in the order of the paths, and what has been read up to the first failure is all that is read.
If there is none, the plan has one patch for each file for which an edit or an import is proposed,
in the order of the paths, with the edits proposed for it and the insertion of the imports that it
lacks, its imports in the order in which they are first proposed, and of several details with one
name the first. -/
theorem plan_consolidates {σ : Type} (read : String → StateM σ (Except IoError String))
    (ps : List Patch) (s : σ) :
    ∃ files : List String, files.Pairwise (· < ·) ∧
      (∀ file, file ∈ files ↔ ∃ p ∈ ps, p.file = file ∧ p.imports ≠ []) ∧
      ∃ texts s',
        (Calls read s (found texts files) s' ∧
          ∃ planned, (plan read ps).run s = (.ok planned, s') ∧ Consolidates texts ps planned) ∨
        ∃ before file after e, files = before ++ file :: after ∧
          Calls read s (found texts before ++ [(file, .error e)]) s' ∧
          (plan read ps).run s = (.error (.io [.read ⟨file⟩] e), s') := by
  have hplan : ∀ r s', (planFiles read (PatchGroup.ofPatches ps).toList).run s = (r, s') →
      (plan read ps).run s = (r.map (List.filterMap id), s') := by
    intro r s' hrun
    rw [plan, run_bind_eq, ← planFiles, hrun]
    cases r <;> rfl
  refine ⟨filesWithImports (PatchGroup.ofPatches ps).toList, ?_,
    fun file => PatchGroup.mem_filesWithImports, ?_⟩
  · exact List.pairwise_map.mpr ((PatchGroup.ofPatches ps).ascending.filter _)
  obtain ⟨texts, s', h⟩ := run_planFiles read (PatchGroup.ofPatches ps).nodup_keys s
  refine ⟨texts, s', ?_⟩
  rcases h with ⟨hcalls, hrun⟩ | ⟨before, file, after, e, hsplit, hcalls, hrun⟩
  · refine .inl ⟨hcalls, _, hplan _ _ hrun, ?_⟩
    refine consolidates_planned ?_
    rw [List.filterMap_map]
    rfl
  · exact .inr ⟨before, file, after, e, hsplit, hcalls, hplan _ _ hrun⟩

-- A reader that keeps a record of its calls and does not find the file `c`: neither the file
-- without imports nor the one after `c` is asked for, and `a` is asked for once.
example :
    let ps : List Patch := [⟨"d", [], [⟨"m", "import m"⟩], ∅⟩, ⟨"a", [], [⟨"m", "import m"⟩], ∅⟩,
      ⟨"c", [], [⟨"m", "import m"⟩], ∅⟩, ⟨"b", [⟨0, 1, "z"⟩], [], ∅⟩,
      ⟨"a", [], [⟨"n", "import n"⟩], ∅⟩]
    let read (file : String) : StateM (List String) (Except IoError String) := fun record =>
      (if file = "c" then .error .notFound else .ok "", record ++ [file])
    ((plan read ps).run []).2 = ["a", "c"] := by
  decide +kernel

end KeyLedger
