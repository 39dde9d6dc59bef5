import KeyLedger.Proofs.Patch.Header
import KeyLedger.Proofs.Patch.Planning
import KeyLedger.Proofs.Patch.Splicing

/-!
# Injecting imports

Patches that propose imports and no edits are planned and applied. The plan has one patch for each
file that is to have imports, with the insertion of those that the file lacks as its only edit, and
applying it gives every such file the text `withImports`.

An import of one line is found again by the next plan, whether it was inserted or had been there
before, and so injecting a second time does nothing.

## Main definitions

* `importsOf` — the imports that patches propose for a file
* `InjectionPlan` — what a plan for imports alone consists of
* `ApplyOptions.showing` — options under which files have the texts that changes give them

## Main results

* `run_plan` — planning succeeds if all files that are to have imports can be read
* `InjectionPlan.exists_reports` — what applying such a plan says of its files
* `injection_settles` — injecting imports of one line a second time does nothing
-/

namespace KeyLedger

open Text (occursIn)

/-! ### Imports of a file -/

/-- All imports that are proposed for a file, in the order in which they are proposed. -/
def importsOf (ps : List Patch) (file : String) : List Import :=
  (ps.filter fun p => p.file = file).flatMap Patch.imports

theorem FilePatches.imports_eq_importsOf {ps : List Patch} {g : FilePatches} (hg : g ∈ group ps) :
    g.imports = importsOf ps g.file := by
  rw [imports, importsOf, (mem_group_iff.mp hg).2]

theorem mem_importsOf {ps : List Patch} {file : String} {i : Import} :
    i ∈ importsOf ps file ↔ ∃ p ∈ ps, p.file = file ∧ i ∈ p.imports := by
  simp [importsOf, and_assoc]

theorem importsOf_ne_nil_iff {ps : List Patch} {file : String} :
    importsOf ps file ≠ [] ↔ ∃ p ∈ ps, p.file = file ∧ p.imports ≠ [] := by
  simp [importsOf, List.flatMap_eq_nil_iff]

/-! ### Plans for imports -/

section Plan

variable {read : String → DiskM (Except IoError String)} {current : String → Except IoError String}
  {ps : List Patch} {d : Disk}

/-- A file that can be read if it is to have imports has its place in the plan. -/
theorem planFile_run {file : String} {g : PatchGroup}
    (hread : g.imports ≠ [] → ∃ text, current file = .ok text ∧ read file d = (.ok text, d)) :
    (planFile read file g).run d = (.ok (plannedPatch? (current file) file g), d) := by
  rw [run_planFile read file g (current file)]
  split
  · rfl
  · next hne =>
    obtain ⟨text, hcurrent, hfile⟩ := hread hne
    rw [hfile, hcurrent]

/-- **What a plan for imports alone consists of**: one patch for each file that is to have imports,
with the insertion of those that the file lacks, if it lacks any, as its only edit. -/
structure InjectionPlan (current : String → Except IoError String) (ps planned : List Patch) :
    Prop where
  /-- No file has two patches. -/
  nodup : (planned.map Patch.file).Nodup
  /-- The files that are to have imports have a patch. -/
  mem_files : ∀ file, file ∈ planned.map Patch.file ↔ importsOf ps file ≠ []
  /-- A patch inserts what its file lacks. -/
  patches : ∀ q ∈ planned, q.imports = mergeImports (importsOf ps q.file) ∧
    ∃ text, current q.file = .ok text ∧ q.edits = (importInsertion? text.toList q.imports).toList

theorem sortEdits_toList (o : Option Edit) : sortEdits o.toList = o.toList :=
  sortEdits_of_ascending (by cases o <;> simp)

variable (current) in
/-- **Planning succeeds if all files that are to have imports can be read.** -/
theorem run_plan (hread : ∀ p ∈ ps, p.imports ≠ [] →
      ∃ text, current p.file = .ok text ∧ read p.file d = (.ok text, d)) :
    (plan read ps).run d = (.ok ((PatchGroup.ofPatches ps).toList.filterMap fun f =>
      plannedPatch? (current f.1) f.1 f.2), d) := by
  let place (f : String × PatchGroup) : Option Patch := plannedPatch? (current f.1) f.1 f.2
  have hfiles : ∀ f ∈ (PatchGroup.ofPatches ps).toList,
      (planFile read f.1 f.2).run d = (.ok (place f), d) := by
    intro f hf
    refine planFile_run fun hne => ?_
    obtain ⟨g, hg, hfile, -, himports⟩ := PatchGroup.mem_ofPatches hf
    rw [himports, FilePatches.imports_eq_importsOf hg, importsOf_ne_nil_iff] at hne
    obtain ⟨p, hp, hpfile, hpimports⟩ := hne
    exact hfile ▸ hpfile ▸ hread p hp hpimports
  have hplanned : ((PatchGroup.ofPatches ps).toList.map place).filterMap id =
      (PatchGroup.ofPatches ps).toList.filterMap place := by
    rw [List.filterMap_map]
    rfl
  rw [← hplanned]
  exact DiskM.bind_eq_ok_iff.mpr ⟨_, d, DiskM.run_mapM_of_ok hfiles, rfl⟩

/-- Planning with the texts to which the plan is to be applied. -/
theorem run_plan_currentText {options : ApplyOptions}
    (hread : ∀ p ∈ ps, p.imports ≠ [] →
      ∃ text, (currentText (m := DiskM) options p.file d).1 = .ok text) :
    (plan (currentText (m := DiskM) options) ps).run d =
      (.ok ((PatchGroup.ofPatches ps).toList.filterMap fun f =>
        plannedPatch? (currentText (m := DiskM) options f.1 d).1 f.1 f.2), d) := by
  refine run_plan (fun file => (currentText (m := DiskM) options file d).1) fun p hp hne => ?_
  obtain ⟨text, htext⟩ := hread p hp hne
  exact ⟨text, htext, Prod.ext htext (FilePatches.currentText_run options p.file d)⟩

/-- **The plan for patches that propose imports alone.** -/
theorem injectionPlan_planned (hedits : ∀ p ∈ ps, p.edits = [])
    (hread : ∀ p ∈ ps, p.imports ≠ [] → ∃ text, current p.file = .ok text) :
    InjectionPlan current ps ((PatchGroup.ofPatches ps).toList.filterMap fun f =>
      plannedPatch? (current f.1) f.1 f.2) := by
  have hmem : ∀ file, file ∈ ((PatchGroup.ofPatches ps).toList.filterMap fun f =>
      plannedPatch? (current f.1) f.1 f.2).map Patch.file ↔ importsOf ps file ≠ [] := by
    intro file
    rw [mem_files_planned rfl, importsOf_ne_nil_iff]
    refine exists_congr fun p => and_congr_right fun hp => ?_
    simp [hedits p hp]
  refine ⟨nodup_of_ascending (ascending_planned rfl), hmem, fun q hq => ?_⟩
  obtain ⟨g, hg, hfile, himports, hqedits⟩ := exists_of_mem_planned rfl hq
  obtain ⟨p, hp, hpfile, hpimports⟩ :=
    importsOf_ne_nil_iff.mp ((hmem q.file).mp (List.mem_map_of_mem hq))
  obtain ⟨text, hcurrent⟩ := hread p hp hpimports
  have hnone : g.edits = [] := by
    refine List.eq_nil_iff_forall_not_mem.mpr fun e he => ?_
    obtain ⟨p', hp', -, he'⟩ := (FilePatches.mem_edits_of_mem_group hg).mp he
    simp [hedits p' hp'] at he'
  refine ⟨by rw [himports, FilePatches.imports_eq_importsOf hg, hfile], text, hpfile ▸ hcurrent, ?_⟩
  rw [hqedits, hnone, List.nil_append, sortEdits_toList, hfile, ← hpfile, hcurrent, himports]
  rfl

/-- Planning imports alone with the texts to which the plan is to be applied. -/
theorem exists_injectionPlan {options : ApplyOptions} (hedits : ∀ p ∈ ps, p.edits = [])
    (hread : ∀ p ∈ ps, p.imports ≠ [] →
      ∃ text, (currentText (m := DiskM) options p.file d).1 = .ok text) :
    ∃ planned, (plan (currentText (m := DiskM) options) ps).run d = (.ok planned, d) ∧
      InjectionPlan (fun file => (currentText (m := DiskM) options file d).1) ps planned :=
  ⟨_, run_plan_currentText hread, injectionPlan_planned hedits hread⟩

end Plan

/-! ### Applying the insertion -/

theorem missingImports_eq_nil_iff {content : List Char} {imports : List Import} :
    missingImports content imports = [] ↔
      ∀ i ∈ imports, occursIn i.code.toList content = true := by
  simp [missingImports, List.filter_eq_nil_iff]

section Insertion

variable {content : List Char} {imports : List Import}

/-- The insertion falls between the header and the rest. -/
theorem fits_insert (content : List Char) (text : String) :
    fits content (.insert (insertPosition content) text) = true := by
  have hfits : fits (Header.before content ++ [] ++ Header.after content)
      (.insert (insertPosition content) text) = true :=
    fits_append (Header.byteLength_before content) (by rw [List.append_nil]; rfl)
  rwa [List.append_nil, Header.before_append_after] at hfits

theorem splice_insert (content : List Char) (text : String) :
    splice content (.insert (insertPosition content) text) =
      Header.before content ++ text.toList ++ Header.after content := by
  have hsplice : splice (Header.before content ++ [] ++ Header.after content)
      (.insert (insertPosition content) text) =
        Header.before content ++ text.toList ++ Header.after content :=
    splice_append (Header.byteLength_before content) (by rw [List.append_nil]; rfl)
  rwa [List.append_nil, Header.before_append_after] at hsplice

theorem applicable_importInsertion? (content : List Char) (imports : List Import) :
    Applicable content (importInsertion? content imports).toList := by
  rw [importInsertion?_eq]
  split
  · exact ⟨by simp, by simp, .nil⟩
  · refine ⟨fun e he => ?_, fun e he => ?_, List.pairwise_singleton _ _⟩
    · rw [List.mem_singleton.mp he]
      exact Nat.le_refl _
    · rw [List.mem_singleton.mp he]
      exact fits_insert content _

/-- **Applying the insertion gives a text the imports that it lacks.** -/
theorem spliceAll_importInsertion? (content : List Char) (imports : List Import) :
    spliceAll content (importInsertion? content imports).toList = withImports content imports := by
  rw [importInsertion?_eq, withImports]
  split
  · rw [List.append_nil, Header.before_append_after]
    rfl
  · exact (splice_insert content _).trans (by rw [String.toList_ofList])

end Insertion

/-- **Applying one edit alone.** -/
theorem apply_singleton {options : ApplyOptions} {d : Disk} {file text : String} {e : Edit}
    (hwrite : options.write = false)
    (htext : (currentText (m := DiskM) options file d).1 = .ok text)
    (he : Applicable text.toList [e]) :
    (apply (m := DiskM) [⟨file, [e], [], ∅⟩] options).run d =
      (.ok ⟨[⟨file, text, String.ofList (splice text.toList e), false, []⟩], []⟩, d) := by
  let p : Patch := ⟨file, [e], [], ∅⟩
  have hgroup : FilePatches.group [p] = [⟨file, [p]⟩] :=
    FilePatches.group_eq_map (List.nodup_singleton _)
  have hsorted : sortEdits (⟨file, [p]⟩ : FilePatches).edits = [e] := sortEdits_toList (some e)
  have hforward : backwardEdit? (FilePatches.group [p]) = none := by
    rw [backwardEdit?_eq_none_iff]
    exact List.forall_mem_singleton.mpr he.forward
  rw [apply_run_of_not_write hwrite hforward, hgroup, List.map_singleton, htext,
    FilePatches.resolve_of_applicable (hsorted ▸ he), hsorted]
  rfl

/-- The change that gives a file the imports that it lacks. -/
def Patch.injection (q : Patch) (text : String) : FileChange :=
  ⟨q.file, text, String.ofList (withImports text.toList q.imports), false, q.imports⟩

namespace InjectionPlan

variable {current : String → Except IoError String} {ps planned : List Patch} {q : Patch}

theorem forward (h : InjectionPlan current ps planned) (hq : q ∈ planned) :
    ∀ e ∈ q.edits, e.start ≤ e.stop := by
  obtain ⟨-, text, -, hedits⟩ := h.patches q hq
  rw [hedits]
  exact (applicable_importInsertion? text.toList q.imports).forward

/-- A patch of the plan gives its file the imports that it lacks. -/
theorem resolve_eq (h : InjectionPlan current ps planned) (hq : q ∈ planned) :
    ∃ text, current q.file = .ok text ∧
      (⟨q.file, [q]⟩ : FilePatches).resolve (.ok text) = .ok (q.injection text) ∧
      (q.edits = [] → (q.injection text).new = text) := by
  obtain ⟨himports, text, hcurrent, hedits⟩ := h.patches q hq
  have hsorted : sortEdits (⟨q.file, [q]⟩ : FilePatches).edits =
      (importInsertion? text.toList q.imports).toList := by
    rw [FilePatches.edits, List.flatMap_singleton, hedits, sortEdits_toList]
  refine ⟨text, hcurrent, ?_, fun hnone => ?_⟩
  · rw [FilePatches.resolve_of_applicable (hsorted ▸ applicable_importInsertion? _ _), hsorted,
      spliceAll_importInsertion?, FilePatches.imports, List.flatMap_singleton, Patch.injection,
      himports, mergeImports_mergeImports]
  · rw [Patch.injection, ← spliceAll_importInsertion?, ← hedits, hnone]
    exact String.ofList_toList

/-- **What applying a plan for imports says of its files**, if nothing is to be written, or nothing
is lacking: there are no conflicts, and every file gets the imports that it lacks. -/
theorem exists_reports {options : ApplyOptions} {d : Disk}
    (h : InjectionPlan (fun file => (currentText (m := DiskM) options file d).1) ps planned)
    (hidle : options.write = false ∨ ∀ q ∈ planned, q.edits = []) :
    ∃ r, (apply (m := DiskM) planned options).run d = (.ok r, d) ∧ r.conflicts = [] ∧
      r.Covers (planned.map Patch.file) ∧
      ∀ q ∈ planned, ∃ text, (currentText (m := DiskM) options q.file d).1 = .ok text ∧
        r.Reports q.file (.ok (q.injection text)) ∧
        (q.edits = [] → (q.injection text).new = text) := by
  have hgroup := FilePatches.group_eq_map h.nodup
  have hgroupIdle : ∀ g ∈ FilePatches.group planned, g.Idle options d := by
    intro g hg
    rw [hgroup] at hg
    obtain ⟨q, hq, rfl⟩ := List.mem_map.mp hg
    obtain ⟨text, hcurrent, hdecided, hsame⟩ := h.resolve_eq hq
    refine hidle.imp_right fun hnone c hc => ?_
    cases (hcurrent ▸ hc).symm.trans hdecided
    exact hsame (hnone q hq)
  obtain ⟨r, hrun, hcovers, hreports⟩ := exists_reports_of_idle (fun _ => h.forward) hgroupIdle
  rw [distinct_eq_self h.nodup] at hcovers
  have hreport : ∀ q ∈ planned, ∃ text, (currentText (m := DiskM) options q.file d).1 = .ok text ∧
      r.Reports q.file (.ok (q.injection text)) ∧
      (q.edits = [] → (q.injection text).new = text) := by
    intro q hq
    obtain ⟨text, hcurrent, hdecided, hsame⟩ := h.resolve_eq hq
    have hg : (⟨q.file, [q]⟩ : FilePatches) ∈ FilePatches.group planned :=
      hgroup ▸ List.mem_map.mpr ⟨q, hq, rfl⟩
    exact ⟨text, hcurrent, hdecided ▸ hcurrent ▸ hreports _ hg, hsame⟩
  refine ⟨r, hrun, List.eq_nil_iff_forall_not_mem.mpr fun c hc => ?_, hcovers, hreport⟩
  obtain ⟨q, hq, hfile⟩ := List.mem_map.mp (hcovers.conflicts.subset (List.mem_map_of_mem hc))
  obtain ⟨text, -, hok, -⟩ := hreport q hq
  cases (hok.conflicts c).mp ⟨hc, hfile.symm⟩

/-- No import of one line is missing from a file after it got those that it lacked. -/
theorem missingImports_injection (h : InjectionPlan current ps planned) (hq : q ∈ planned)
    (hcodes : ∀ p ∈ ps, ∀ i ∈ p.imports, '\n' ∉ i.code.toList) (text : String) :
    missingImports (q.injection text).new.toList q.imports = [] := by
  rw [Patch.injection, String.toList_ofList]
  refine missingImports_withImports fun i hi => ?_
  rw [(h.patches q hq).1, mergeImports, mem_distinct] at hi
  obtain ⟨p, hp, -, hpi⟩ := mem_importsOf.mp hi
  exact hcodes p hp i hpi

/-- **Nothing is lacking where a plan has inserted imports of one line.** If the files that one plan
has patches for are found with the imports that they lacked, another plan for them has no edits. -/
theorem edits_eq_nil {current' : String → Except IoError String} {planned' : List Patch}
    (h : InjectionPlan current ps planned) (h' : InjectionPlan current' ps planned')
    (hcodes : ∀ p ∈ ps, ∀ i ∈ p.imports, '\n' ∉ i.code.toList)
    (hfound : ∀ q ∈ planned, ∃ text, current' q.file = .ok (q.injection text).new) :
    ∀ q ∈ planned', q.edits = [] := by
  intro q' hq'
  have hfile' := (h'.mem_files q'.file).mp (List.mem_map_of_mem hq')
  obtain ⟨himports', text', hcurrent', hedits'⟩ := h'.patches q' hq'
  obtain ⟨q, hq, hfile⟩ := List.mem_map.mp ((h.mem_files q'.file).mpr hfile')
  obtain ⟨text, hcurrent⟩ := hfound q hq
  obtain rfl : text' = (q.injection text).new :=
    Except.ok.inj (hcurrent'.symm.trans (hfile ▸ hcurrent))
  have himports : q.imports = mergeImports (importsOf ps q'.file) := hfile ▸ (h.patches q hq).1
  rw [hedits', himports', ← himports, importInsertion?_eq, h.missingImports_injection hq hcodes]
  rfl

end InjectionPlan

/-! ### Injecting twice -/

/-- Options under which files have the texts that changes give them. -/
def ApplyOptions.showing (options : ApplyOptions) (changes : List FileChange) : ApplyOptions :=
  { options with
    contents := some (changes.foldl (fun texts c => texts.insert c.file c.new)
      (options.contents.getD ∅)) }

section Twice

variable {options : ApplyOptions} {ps : List Patch} {d : Disk}

/-- A file that does not change keeps its text. -/
theorem find?_foldl_insert_of_notMem {changes : List FileChange} {file : String}
    (hfile : file ∉ changes.map FileChange.file) (texts : Dict String) :
    (changes.foldl (fun texts c => texts.insert c.file c.new) texts).find? file =
      texts.find? file := by
  induction changes generalizing texts with
  | nil => rfl
  | cons c changes ih =>
    obtain ⟨hne, hfile⟩ := List.ne_and_not_mem_of_not_mem_cons hfile
    rw [List.foldl_cons, ih hfile, Dict.find?_insert, if_neg hne]

theorem find?_foldl_insert {changes : List FileChange} {c : FileChange}
    (hnodup : (changes.map FileChange.file).Nodup) (hc : c ∈ changes) (texts : Dict String) :
    (changes.foldl (fun texts c => texts.insert c.file c.new) texts).find? c.file = some c.new := by
  induction changes generalizing texts with
  | nil => simp at hc
  | cons c' changes ih =>
    obtain ⟨hnew, hnodup⟩ := List.nodup_cons.mp hnodup
    rw [List.foldl_cons]
    rcases List.mem_cons.mp hc with rfl | hc
    · rw [find?_foldl_insert_of_notMem hnew, Dict.find?_insert, if_pos rfl]
    · exact ih hnodup hc _

theorem currentText_showing {changes : List FileChange} {c : FileChange}
    (hnodup : (changes.map FileChange.file).Nodup) (hc : c ∈ changes) :
    (currentText (m := DiskM) (options.showing changes) c.file d).1 = .ok c.new := by
  have hfind : ((options.showing changes).contents >>= fun texts => texts.find? c.file) =
      some c.new := find?_foldl_insert hnodup hc _
  rw [currentText, hfind]
  rfl

/-- **Injecting imports of one line a second time does nothing.** Let patches propose imports of one
line each and no edits, and let all files that are to have imports be readable. Then planning and
applying the plan succeeds without a conflict, and every import occurs in the new text of its file.
Where the reported files have their new texts, planning the same patches again succeeds, no patch
has edits, and applying the plan, written or not, changes no text. -/
theorem injection_settles (hwrite : options.write = false) (hedits : ∀ p ∈ ps, p.edits = [])
    (hcodes : ∀ p ∈ ps, ∀ i ∈ p.imports, '\n' ∉ i.code.toList)
    (hread : ∀ p ∈ ps, p.imports ≠ [] →
      ∃ text, (currentText (m := DiskM) options p.file d).1 = .ok text) :
    ∃ planned r, (plan (currentText (m := DiskM) options) ps).run d = (.ok planned, d) ∧
      (apply (m := DiskM) planned options).run d = (.ok r, d) ∧ r.conflicts = [] ∧
      (∀ p ∈ ps, ∀ i ∈ p.imports, ∃ c ∈ r.files, c.file = p.file ∧
        occursIn i.code.toList c.new.toList = true) ∧
      (∀ c ∈ r.files,
        (currentText (m := DiskM) (options.showing r.files) c.file d).1 = .ok c.new) ∧
      ∀ (options' : ApplyOptions) (d' : Disk),
        (∀ c ∈ r.files, (currentText (m := DiskM) options' c.file d').1 = .ok c.new) →
        ∃ planned' r', (plan (currentText (m := DiskM) options') ps).run d' = (.ok planned', d') ∧
          (∀ q ∈ planned', q.edits = []) ∧
          (apply (m := DiskM) planned' options').run d' = (.ok r', d') ∧ r'.conflicts = [] ∧
          ∀ c ∈ r'.files, c.new = c.old := by
  obtain ⟨planned, hplan, hinjection⟩ := exists_injectionPlan hedits hread
  obtain ⟨r, hrun, hconflicts, hcovers, hreports⟩ := hinjection.exists_reports (.inl hwrite)
  have hplanned : ∀ p ∈ ps, p.imports ≠ [] → ∃ q ∈ planned, q.file = p.file := by
    intro p hp hne
    have himports : importsOf ps p.file ≠ [] := importsOf_ne_nil_iff.mpr ⟨p, hp, rfl, hne⟩
    exact List.mem_map.mp ((hinjection.mem_files p.file).mpr himports)
  refine ⟨planned, r, hplan, hrun, hconflicts, fun p hp i hi => ?_, fun c hc => ?_,
    fun options' d' hshown => ?_⟩
  · obtain ⟨q, hq, hfile⟩ := hplanned p hp (List.ne_nil_of_mem hi)
    obtain ⟨text, -, hreport, -⟩ := hreports q hq
    have hqi : i ∈ q.imports := by
      rw [(hinjection.patches q hq).1, mergeImports, mem_distinct, mem_importsOf]
      exact ⟨p, hp, hfile.symm, hi⟩
    have hpresent := missingImports_eq_nil_iff.mp (hinjection.missingImports_injection hq hcodes text)
    exact ⟨_, ((hreport.files _).mpr rfl).1, hfile, hpresent i hqi⟩
  · exact currentText_showing (hinjection.nodup.sublist hcovers.files) hc
  -- what the second run finds in a file is what the first run gave it
  have hfound : ∀ q ∈ planned, ∃ text,
      (currentText (m := DiskM) options' q.file d').1 = .ok (q.injection text).new := by
    intro q hq
    obtain ⟨text, -, hreport, -⟩ := hreports q hq
    exact ⟨text, hshown _ ((hreport.files _).mpr rfl).1⟩
  have hread' : ∀ p ∈ ps, p.imports ≠ [] →
      ∃ text, (currentText (m := DiskM) options' p.file d').1 = .ok text := by
    intro p hp hne
    obtain ⟨q, hq, hfile⟩ := hplanned p hp hne
    obtain ⟨text, hcurrent⟩ := hfound q hq
    exact ⟨_, hfile ▸ hcurrent⟩
  obtain ⟨planned', hplan', hinjection'⟩ := exists_injectionPlan hedits hread'
  have hnone := hinjection.edits_eq_nil hinjection' hcodes hfound
  obtain ⟨r', hrun', hconflicts', hcovers', hreports'⟩ := hinjection'.exists_reports (.inr hnone)
  refine ⟨planned', r', hplan', hnone, hrun', hconflicts', fun c hc => ?_⟩
  obtain ⟨q, hq, hfile⟩ := List.mem_map.mp (hcovers'.files.subset (List.mem_map_of_mem hc))
  obtain ⟨text, -, hreport, hsame⟩ := hreports' q hq
  cases (hreport.files c).mp ⟨hc, hfile.symm⟩
  exact hsame (hnone q hq)

/-- A file that has one of two imports, with CR LF and without a last line feed, an empty file, and a
file that is not there but is to have no imports. -/
theorem injection_settles_of_three :
    let ps : List Patch := [⟨"a", [], [⟨"x", "import x"⟩, ⟨"y", "import y"⟩], ∅⟩, ⟨"c", [], [], ∅⟩,
      ⟨"b", [], [⟨"x", "import x"⟩], ∅⟩, ⟨"a", [], [⟨"x", "import x"⟩], ∅⟩]
    let options : ApplyOptions :=
      ⟨false, some (.ofList [("a", "#!/bin/node\r\nimport y\r\nmain()"), ("b", "")]), ⟨"."⟩⟩
    (∀ p ∈ ps, p.edits = []) ∧ (∀ p ∈ ps, ∀ i ∈ p.imports, '\n' ∉ i.code.toList) ∧
      ∀ d : Disk, ∃ planned r planned' r',
        (plan (currentText (m := DiskM) options) ps).run d = (.ok planned, d) ∧
        (apply (m := DiskM) planned options).run d = (.ok r, d) ∧ r.conflicts = [] ∧
        (plan (currentText (m := DiskM) (options.showing r.files)) ps).run d = (.ok planned', d) ∧
        (∀ q ∈ planned', q.edits = []) ∧
        (apply (m := DiskM) planned' (options.showing r.files)).run d = (.ok r', d) ∧
        ∀ c ∈ r'.files, c.new = c.old := by
  intro ps options
  have hedits : ∀ p ∈ ps, p.edits = [] := by decide
  have hcodes : ∀ p ∈ ps, ∀ i ∈ p.imports, '\n' ∉ i.code.toList := by decide
  refine ⟨hedits, hcodes, fun d => ?_⟩
  have hread : ∀ p ∈ ps, p.imports ≠ [] →
      ∃ text, (currentText (m := DiskM) options p.file d).1 = .ok text := by
    intro p hp hne
    simp only [ps, List.mem_cons, List.not_mem_nil, or_false] at hp
    rcases hp with rfl | rfl | rfl | rfl
    · exact ⟨_, rfl⟩
    · exact absurd rfl hne
    · exact ⟨_, rfl⟩
    · exact ⟨_, rfl⟩
  obtain ⟨planned, r, hplan, hrun, hconflicts, -, hshown, htwice⟩ :=
    injection_settles rfl hedits hcodes hread
  obtain ⟨planned', r', hplan', hnone, hrun', -, hsame⟩ := htwice _ d hshown
  exact ⟨planned, r, planned', r', hplan, hrun, hconflicts, hplan', hnone, hrun', hsame⟩

end Twice

end KeyLedger
