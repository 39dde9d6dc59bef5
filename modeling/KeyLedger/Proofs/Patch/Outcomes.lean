import KeyLedger.Patch.Apply
import KeyLedger.Proofs.Files.Write
import Mathlib.Data.List.Nodup

/-!
# What applying patches comes to

Applying patches is a walk through the files in the order in which they are first named. For each
file it is decided from its edits and its text alone whether they can be applied, and only if they
can, and change the text, is the file written. The decision is a function, `FilePatches.resolve`,
and everything that a file can do to the disk is a write of the text that it decides on.

## Main definitions

* `FilePatches.resolve` — what the patches of a file come to, given its text
* `FilePatches.Applied` — what applying them does

## Main results

* `FilePatches.map_file_group` — every file has one group
* `backwardEdit?_eq_none_iff`, `exists_of_backwardEdit?_eq_some` — edits that end before they start
* `FilePatches.applied_applyFile` — what applying the patches of a file does
* `apply_run_of_backward`, `apply_run` — applying patches, file by file
-/

namespace KeyLedger

/-! ### Lists without repetitions -/

section Distinct

variable {α : Type} [DecidableEq α]

theorem distinct_append (l k : List α) :
    distinct (l ++ k) = distinct l ++ (distinct k).filter (· ∉ l) := by
  induction l with
  | nil => exact (List.filter_eq_self.mpr fun _ _ => by simp).symm
  | cons a l ih =>
    rw [List.cons_append, distinct, ih, distinct, List.filter_append, List.filter_filter,
      List.cons_append]
    congr 2
    refine List.filter_congr fun b _ => ?_
    simp only [List.mem_cons, not_or, Bool.decide_and]

theorem distinct_append_of_subset {l k : List α} (h : k ⊆ l) : distinct (l ++ k) = distinct l := by
  have hnone : (distinct k).filter (· ∉ l) = [] :=
    List.filter_eq_nil_iff.mpr fun a ha => by simpa using h (mem_distinct.mp ha)
  rw [distinct_append, hnone, List.append_nil]

theorem distinct_eq_self {l : List α} (h : l.Nodup) : distinct l = l := by
  induction l with
  | nil => rfl
  | cons a l ih =>
    obtain ⟨ha, hl⟩ := List.nodup_cons.mp h
    have hne : ∀ b ∈ l, b ≠ a := by
      rintro b hb rfl
      exact ha hb
    rw [distinct, ih hl, List.filter_eq_self.mpr (by simpa using hne)]

end Distinct

/-- Where a name occurs once, it picks one element. -/
theorem filter_eq_singleton {α β : Type} [DecidableEq β] {f : α → β} {l : List α}
    (h : (l.map f).Nodup) {a : α} (ha : a ∈ l) : l.filter (fun b => f b = f a) = [a] := by
  refine List.perm_singleton.mp ((List.perm_ext_iff_of_nodup ?_ (List.nodup_singleton a)).mpr ?_)
  · exact (List.Nodup.of_map _ h).filter _
  · intro b
    simp only [List.mem_filter, List.mem_singleton, decide_eq_true_eq]
    exact ⟨fun ⟨hb, hfb⟩ => List.inj_on_of_nodup_map h hb ha hfb, by rintro rfl; exact ⟨ha, rfl⟩⟩

/-! ### Edits in order -/

theorem sortEdits_perm (edits : List Edit) : (sortEdits edits).Perm edits :=
  List.mergeSort_perm edits _

theorem Edit.start_le_trans (a b c : Edit) (hab : decide (a.start ≤ b.start) = true)
    (hbc : decide (b.start ≤ c.start) = true) : decide (a.start ≤ c.start) = true :=
  decide_eq_true (Nat.le_trans (of_decide_eq_true hab) (of_decide_eq_true hbc))

theorem Edit.start_le_total (a b : Edit) :
    (decide (a.start ≤ b.start) || decide (b.start ≤ a.start)) = true := by
  simpa using Nat.le_total a.start b.start

/-- No edit starts before an earlier one. -/
theorem sortEdits_ascending (edits : List Edit) :
    (sortEdits edits).Pairwise fun a b => a.start ≤ b.start :=
  (List.pairwise_mergeSort Edit.start_le_trans Edit.start_le_total edits).imp of_decide_eq_true

/-- Edits in order stay in order. -/
theorem sortEdits_of_ascending {edits : List Edit}
    (h : edits.Pairwise fun a b => a.start ≤ b.start) : sortEdits edits = edits :=
  List.mergeSort_of_pairwise (h.imp decide_eq_true)

/-! ### Groups -/

namespace FilePatches

variable {ps : List Patch} {g : FilePatches}

/-- Every file has one group, in the order in which the files are first named. -/
theorem map_file_group (ps : List Patch) :
    (group ps).map file = distinct (ps.map Patch.file) := by
  simp [group, Function.comp_def]

theorem mem_group_iff : g ∈ group ps ↔
    g.file ∈ ps.map Patch.file ∧ g.patches = ps.filter fun p => p.file = g.file := by
  obtain ⟨file, patches⟩ := g
  simp only [group, List.mem_map, mem_distinct, mk.injEq]
  constructor
  · rintro ⟨f, hf, rfl, rfl⟩
    exact ⟨hf, rfl⟩
  · rintro ⟨hf, hpatches⟩
    exact ⟨file, hf, rfl, hpatches.symm⟩

/-- The edits of a group are those of the patches of its file. -/
theorem mem_edits_of_mem_group (hg : g ∈ group ps) {e : Edit} :
    e ∈ g.edits ↔ ∃ p ∈ ps, p.file = g.file ∧ e ∈ p.edits := by
  rw [edits, (mem_group_iff.mp hg).2]
  simp [and_assoc]

/-- The patches of one file each are their own groups. -/
theorem group_eq_map (h : (ps.map Patch.file).Nodup) :
    group ps = ps.map fun p => ⟨p.file, [p]⟩ := by
  rw [group, distinct_eq_self h, List.map_map]
  exact List.map_congr_left fun p hp => congrArg (mk p.file) (filter_eq_singleton h hp)

end FilePatches

theorem backwardEdit?_eq_none_iff {ps : List Patch} :
    backwardEdit? (FilePatches.group ps) = none ↔ ∀ p ∈ ps, ∀ e ∈ p.edits, e.start ≤ e.stop := by
  have hgroup : backwardEdit? (FilePatches.group ps) = none ↔
      ∀ g ∈ FilePatches.group ps, ∀ e ∈ g.edits, e.start ≤ e.stop := by
    simp [backwardEdit?, FilePatches.backward?]
  rw [hgroup]
  constructor
  · intro h p hp e he
    have hg : ⟨p.file, ps.filter fun q => q.file = p.file⟩ ∈ FilePatches.group ps :=
      FilePatches.mem_group_iff.mpr ⟨List.mem_map_of_mem hp, rfl⟩
    exact h _ hg e ((FilePatches.mem_edits_of_mem_group hg).mpr ⟨p, hp, rfl, he⟩)
  · intro h g hg e he
    obtain ⟨p, hp, -, hpe⟩ := (FilePatches.mem_edits_of_mem_group hg).mp he
    exact h p hp e hpe

theorem exists_of_backwardEdit?_eq_some {ps : List Patch} {file : String} {e : Edit}
    (h : backwardEdit? (FilePatches.group ps) = some (file, e)) :
    ∃ p ∈ ps, p.file = file ∧ e ∈ p.edits ∧ e.stop < e.start := by
  obtain ⟨g, hg, hback⟩ := List.exists_of_findSome?_eq_some h
  obtain ⟨e', he', hpair⟩ := Option.map_eq_some_iff.mp hback
  cases hpair
  obtain ⟨p, hp, hfile, hpe⟩ :=
    (FilePatches.mem_edits_of_mem_group hg).mp (List.mem_of_find?_eq_some he')
  exact ⟨p, hp, hfile, hpe, by simpa using List.find?_some he'⟩

/-! ### One file -/

namespace FilePatches

/-- What the patches of a file come to, given what reading the file gives: whether they conflict,
and else the text before and after. -/
def resolve (g : FilePatches) (current : Except IoError String) : Except Conflict FileChange :=
  let edits := sortEdits g.edits
  if ¬ (overlaps edits).isEmpty then .error ⟨g.file, overlaps edits, none⟩
  else
    match current with
    | .error e => .error ⟨g.file, [], some ("Failed to read file: " ++ e.message)⟩
    | .ok old =>
      match edits.find? fun e => !fits old.toList e with
      | some e => .error (misfit g.file old.toList e)
      | none =>
        .ok ⟨g.file, old, String.ofList (spliceAll old.toList edits), false, mergeImports g.imports⟩

/-- Only the sorted edits and the merged imports of a file matter. -/
theorem resolve_congr {g h : FilePatches} (hfile : g.file = h.file)
    (hedits : sortEdits g.edits = sortEdits h.edits)
    (himports : mergeImports g.imports = mergeImports h.imports) : g.resolve = h.resolve := by
  funext current
  simp only [resolve, hfile, hedits, himports]

/-- What applying the patches of a file to a disk can do. -/
inductive Applied (options : ApplyOptions) (g : FilePatches) (d : Disk) :
    Except Conflict FileChange → Disk → Prop
  /-- They cannot be applied. -/
  | conflict {c : Conflict}
      (decided : g.resolve (currentText (m := DiskM) options g.file d).1 = .error c) :
      Applied options g d (.error c) d
  /-- Files are not to be written, or the text is the same. -/
  | kept {change : FileChange}
      (decided : g.resolve (currentText (m := DiskM) options g.file d).1 = .ok change)
      (idle : options.write = false ∨ change.new = change.old) :
      Applied options g d (.ok change) d
  /-- The new text is written. -/
  | written {change : FileChange} {d' : Disk}
      (decided : g.resolve (currentText (m := DiskM) options g.file d).1 = .ok change)
      (write : options.write = true) (differs : change.new ≠ change.old)
      (run : (writeAtomic (m := DiskM) (options.root.join g.file) change.new).run d =
        (.ok (), d')) :
      Applied options g d (.ok { change with wrote := true }) d'
  /-- The new text could not be written. -/
  | failed {change : FileChange} {d' : Disk} {e : Failure}
      (decided : g.resolve (currentText (m := DiskM) options g.file d).1 = .ok change)
      (write : options.write = true) (differs : change.new ≠ change.old)
      (run : (writeAtomic (m := DiskM) (options.root.join g.file) change.new).run d =
        (.error e, d')) :
      Applied options g d (.error ⟨g.file, [], some ("Failed to write file: " ++ e.message)⟩) d'

theorem currentText_run (options : ApplyOptions) (file : String) (d : Disk) :
    (currentText (m := DiskM) options file d).2 = d := by
  unfold currentText
  cases options.contents >>= fun c => c.find? file <;> rfl

/-- **What applying the patches of a file does.** -/
theorem applied_applyFile (options : ApplyOptions) (g : FilePatches) (d : Disk) :
    Applied options g d (applyFile (m := DiskM) options g d).1
      (applyFile (m := DiskM) options g d).2 := by
  generalize hout : applyFile (m := DiskM) options g d = out
  rcases hcurrent : currentText (m := DiskM) options g.file d with ⟨current, d₁⟩
  obtain rfl : d₁ = d := by rw [← currentText_run options g.file d, hcurrent]
  by_cases hranges : (overlaps (sortEdits g.edits)).isEmpty
  · simp only [applyFile, hranges, not_true_eq_false, if_false, bind, StateT.bind, hcurrent] at hout
    cases hc : current with
    | error e =>
      rw [hc] at hout hcurrent
      cases hout
      exact .conflict (by simp [resolve, hranges, hcurrent])
    | ok old =>
      rw [hc] at hout hcurrent
      cases hfit : (sortEdits g.edits).find? fun e => !fits old.toList e with
      | some e =>
        simp only [hfit] at hout
        cases hout
        exact .conflict (by simp [resolve, hranges, hcurrent, hfit])
      | none =>
        simp only [hfit] at hout
        generalize hnew : String.ofList (spliceAll old.toList (sortEdits g.edits)) = new at hout
        have decided : g.resolve (currentText (m := DiskM) options g.file d₁).1 =
            .ok ⟨g.file, old, new, false, mergeImports g.imports⟩ := by
          simp [resolve, hranges, hcurrent, hfit, hnew]
        cases hwrote : options.write && new != old with
        | false =>
          simp only [hwrote] at hout
          cases hout
          exact .kept decided ((Bool.and_eq_false_iff.mp hwrote).imp_right bne_eq_false_iff_eq.mp)
        | true =>
          obtain ⟨write, differs⟩ := Bool.and_eq_true_iff.mp hwrote
          simp only [hwrote, if_true] at hout
          rcases hrun : (writeAtomic (m := DiskM) (options.root.join g.file) new).run d₁
            with ⟨r, d'⟩
          simp only [StateT.bind, hrun, bind] at hout
          cases r with
          | ok =>
            cases hout
            exact .written decided write (bne_iff_ne.mp differs) hrun
          | error e =>
            cases hout
            exact .failed decided write (bne_iff_ne.mp differs) hrun
  · simp only [applyFile, hranges, Bool.false_eq_true, not_false_eq_true, if_true] at hout
    cases hout
    exact .conflict (by simp [resolve, hranges])

/-- Files are not to be written, or there is nothing to write. -/
def Idle (options : ApplyOptions) (d : Disk) (g : FilePatches) : Prop :=
  options.write = false ∨
    ∀ c, g.resolve (currentText (m := DiskM) options g.file d).1 = .ok c → c.new = c.old

/-- If nothing is written, only the decision is left. -/
theorem applyFile_of_idle {options : ApplyOptions} {g : FilePatches} {d : Disk}
    (h : g.Idle options d) : applyFile (m := DiskM) options g d =
      (g.resolve (currentText (m := DiskM) options g.file d).1, d) := by
  have happlied := applied_applyFile options g d
  rcases hout : applyFile (m := DiskM) options g d with ⟨r, d'⟩
  rw [hout] at happlied
  have hbusy : ∀ {change : FileChange},
      g.resolve (currentText (m := DiskM) options g.file d).1 = .ok change →
      options.write = true → change.new ≠ change.old → False := fun decided write differs =>
    h.elim (fun hwrite => by simp [hwrite] at write) fun hsame => differs (hsame _ decided)
  cases happlied with
  | conflict decided => rw [decided]
  | kept decided => rw [decided]
  | written decided write differs => exact (hbusy decided write differs).elim
  | failed decided write differs => exact (hbusy decided write differs).elim

end FilePatches

/-! ### Outcomes taken together -/

/-- The file that an outcome is about. -/
def outcomeFile : Except Conflict FileChange → String
  | .ok change => change.file
  | .error conflict => conflict.file

theorem FilePatches.outcomeFile_resolve (g : FilePatches) (current : Except IoError String) :
    outcomeFile (g.resolve current) = g.file := by
  by_cases hranges : (overlaps (sortEdits g.edits)).isEmpty
  · cases current with
    | error e => simp [resolve, hranges, KeyLedger.outcomeFile]
    | ok old =>
      cases hfit : (sortEdits g.edits).find? fun e => !fits old.toList e <;>
        simp [resolve, hranges, hfit, misfit, KeyLedger.outcomeFile]
  · simp [resolve, hranges, KeyLedger.outcomeFile]

theorem FilePatches.Applied.outcomeFile {options : ApplyOptions} {g : FilePatches} {d d' : Disk}
    {r : Except Conflict FileChange} (h : g.Applied options d r d') :
    KeyLedger.outcomeFile r = g.file := by
  cases h with
  | conflict decided => rw [← decided, g.outcomeFile_resolve]
  | kept decided => rw [← decided, g.outcomeFile_resolve]
  | written decided => rw [← g.outcomeFile_resolve, decided]; rfl
  | failed => rfl

/-- A result has one outcome for each of a list of files, and its parts are in the order of the
list. -/
structure ApplyResult.Covers (r : ApplyResult) (names : List String) : Prop where
  /-- The changes are in order. -/
  files : (r.files.map FileChange.file).Sublist names
  /-- The conflicts are in order. -/
  conflicts : (r.conflicts.map Conflict.file).Sublist names
  /-- Together they are all that is asked for. -/
  all : (r.files.map FileChange.file ++ r.conflicts.map Conflict.file).Perm names

theorem ApplyResult.covers_ofOutcomes (os : List (Except Conflict FileChange)) :
    (ApplyResult.ofOutcomes os).Covers (os.map outcomeFile) := by
  induction os with
  | nil => exact ⟨.slnil, .slnil, .refl _⟩
  | cons o os ih =>
    obtain ⟨hfiles, hconflicts, hall⟩ := ih
    cases o with
    | ok change =>
      exact ⟨hfiles.cons_cons _, hconflicts.cons _, hall.cons _⟩
    | error conflict =>
      refine ⟨hfiles.cons _, hconflicts.cons_cons _, ?_⟩
      exact List.perm_middle.trans (hall.cons _)

namespace ApplyResult

variable {os : List (Except Conflict FileChange)}

theorem mem_files_ofOutcomes {c : FileChange} : c ∈ (ofOutcomes os).files ↔ .ok c ∈ os := by
  simp only [ofOutcomes, List.mem_filterMap]
  constructor
  · rintro ⟨o, ho, hc⟩
    cases o with
    | ok change => exact Option.some.inj hc ▸ ho
    | error conflict => cases hc
  · exact fun hc => ⟨_, hc, rfl⟩

theorem mem_conflicts_ofOutcomes {c : Conflict} :
    c ∈ (ofOutcomes os).conflicts ↔ .error c ∈ os := by
  simp only [ofOutcomes, List.mem_filterMap]
  constructor
  · rintro ⟨o, ho, hc⟩
    cases o with
    | ok change => cases hc
    | error conflict => exact Option.some.inj hc ▸ ho
  · exact fun hc => ⟨_, hc, rfl⟩

end ApplyResult

/-! ### All files -/

namespace DiskM

variable {α β : Type}

theorem mapM_cons_run (f : α → DiskM β) (a : α) (l : List α) (d : Disk) :
    (a :: l).mapM f d =
      ((f a d).1 :: (l.mapM f (f a d).2).1, (l.mapM f (f a d).2).2) := by
  rw [List.mapM_cons]
  rfl

/-- Steps that leave the disk alone. -/
theorem mapM_run {f : α → DiskM β} {g : α → β} {l : List α} {d : Disk}
    (h : ∀ a ∈ l, f a d = (g a, d)) : l.mapM f d = (l.map g, d) := by
  induction l with
  | nil => rfl
  | cons a l ih =>
    rw [mapM_cons_run, h a List.mem_cons_self, ih fun b hb => h b (List.mem_cons_of_mem _ hb)]
    rfl

/-- Steps that do not fail and leave the disk alone. -/
theorem run_mapM_of_ok {ε : Type} {f : α → ExceptT ε DiskM β} {g : α → β} {l : List α} {d : Disk}
    (h : ∀ a ∈ l, (f a).run d = (.ok (g a), d)) : (l.mapM f).run d = (.ok (l.map g), d) := by
  induction l with
  | nil => rfl
  | cons a l ih =>
    rw [List.mapM_cons]
    refine bind_eq_ok_iff.mpr ⟨g a, d, h a List.mem_cons_self, ?_⟩
    exact bind_eq_ok_iff.mpr ⟨_, d, ih fun b hb => h b (List.mem_cons_of_mem _ hb), rfl⟩

/-- Steps that cannot fail, among computations that can. -/
theorem run_mapM_liftM {ε : Type} (f : α → DiskM β) (l : List α) (d : Disk) :
    (l.mapM fun a => (liftM (f a) : ExceptT ε DiskM β)).run d =
      (.ok (l.mapM f d).1, (l.mapM f d).2) := by
  induction l generalizing d with
  | nil => rfl
  | cons a l ih =>
    rw [List.mapM_cons, run_liftM_bind, mapM_cons_run]
    exact bind_eq_ok_iff.mpr ⟨_, _, ih _, rfl⟩

end DiskM

section Apply

variable {ps : List Patch} {options : ApplyOptions}

/-- An edit that ends before it starts stops everything. -/
theorem apply_run_of_backward {file : String} {e : Edit}
    (h : backwardEdit? (FilePatches.group ps) = some (file, e)) (d : Disk) :
    (apply (m := DiskM) ps options).run d =
      (.error (.invalidEditRange file e.start e.stop), d) := by
  simp only [apply, h]
  rfl

/-- **Applying patches, file by file.** -/
theorem apply_run (h : backwardEdit? (FilePatches.group ps) = none) (options : ApplyOptions)
    (d : Disk) :
    let out := (FilePatches.group ps).mapM (applyFile (m := DiskM) options) d
    (apply (m := DiskM) ps options).run d = (.ok (.ofOutcomes out.1), out.2) := by
  simp only [apply, h]
  exact DiskM.bind_eq_ok_iff.mpr ⟨_, _, DiskM.run_mapM_liftM _ _ d, rfl⟩

/-- Applying patches when nothing is written. -/
theorem apply_run_of_idle {d : Disk} (hidle : ∀ g ∈ FilePatches.group ps, g.Idle options d)
    (h : backwardEdit? (FilePatches.group ps) = none) :
    (apply (m := DiskM) ps options).run d =
      (.ok (.ofOutcomes ((FilePatches.group ps).map fun g =>
        g.resolve (currentText (m := DiskM) options g.file d).1)), d) := by
  have hall := DiskM.mapM_run (f := applyFile (m := DiskM) options) (l := FilePatches.group ps)
    fun g hg => FilePatches.applyFile_of_idle (hidle g hg)
  have hrun := apply_run h options d
  rw [hall] at hrun
  exact hrun

/-- Applying patches without writing. -/
theorem apply_run_of_not_write (hwrite : options.write = false)
    (h : backwardEdit? (FilePatches.group ps) = none) (d : Disk) :
    (apply (m := DiskM) ps options).run d =
      (.ok (.ofOutcomes ((FilePatches.group ps).map fun g =>
        g.resolve (currentText (m := DiskM) options g.file d).1)), d) :=
  apply_run_of_idle (fun _ _ => .inl hwrite) h

/-- Every file that is named has one outcome, in the order in which the files are first named. -/
theorem covers_resolve (ps : List Patch) (current : String → Except IoError String) :
    (ApplyResult.ofOutcomes ((FilePatches.group ps).map fun g => g.resolve (current g.file))).Covers
      (distinct (ps.map Patch.file)) := by
  have hcovers := ApplyResult.covers_ofOutcomes
    ((FilePatches.group ps).map fun g => g.resolve (current g.file))
  have hfiles : (outcomeFile ∘ fun g : FilePatches => g.resolve (current g.file)) =
      FilePatches.file := funext fun g => g.outcomeFile_resolve _
  rwa [List.map_map, hfiles, FilePatches.map_file_group] at hcovers

end Apply

end KeyLedger
