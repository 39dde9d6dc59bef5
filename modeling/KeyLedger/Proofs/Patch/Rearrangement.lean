import KeyLedger.Proofs.Patch.Overlaps
import Mathlib.Data.List.Pairwise

/-!
# Rearranged patches

The edits of a file may be proposed in any order, by one patch or by many, and between patches of
other files. What applying patches without writing says of the file depends on none of that: it
depends on which edits there are and on the text of the file.

Whether edits meet does not depend on their order. If no two of them do, they start at different
offsets, so that there is only one order of starts (`sortEdits_eq_of_perm`), and everything that
comes after sorting is the same. If two of them meet, the file is in conflict, but the ranges that
are reported may differ: edits with one start are compared in the order in which they are proposed.

## Main results

* `sortEdits_eq_of_perm` — edits of which no two meet have one order of starts
* `FilePatches.resolve_eq_map` — what a file comes to depends on its imports only in that they are
  listed
* `arrangement_immaterial` — what is said of a file depends on its edits and not on their
  arrangement
-/

namespace KeyLedger

/-! ### One order of starts -/

theorem overlaps_sortEdits_eq_nil_iff {l : List Edit} (hforward : ∀ e ∈ l, e.start ≤ e.stop) :
    overlaps (sortEdits l) = [] ↔ l.Pairwise fun a b => ¬ a.Meets b := by
  rw [(inOrder_sortEdits hforward).overlaps_eq_nil_iff]
  exact (sortEdits_perm l).pairwise_iff fun {a b} hab hba => hab hba.symm

instance : Std.Symm fun a b : Edit => ¬ a.Meets b := ⟨fun _ _ hab hba => hab hba.symm⟩

/-- Of edits that do not meet, no two different ones have one start. -/
theorem eq_of_start_eq {l : List Edit} (hforward : ∀ e ∈ l, e.start ≤ e.stop)
    (hapart : l.Pairwise fun a b => ¬ a.Meets b) {a b : Edit} (ha : a ∈ l) (hb : b ∈ l)
    (hstart : a.start = b.start) : a = b := by
  by_contra hne
  have haforward := hforward a ha
  have hbforward := hforward b hb
  exact hapart.forall ha hb hne ⟨by omega, by omega⟩

/-- **Edits of which no two meet have one order of starts**, in whatever order they are proposed. -/
theorem sortEdits_eq_of_perm {l k : List Edit} (hperm : l.Perm k)
    (hforward : ∀ e ∈ l, e.start ≤ e.stop) (hapart : l.Pairwise fun a b => ¬ a.Meets b) :
    sortEdits l = sortEdits k := by
  have hsorted : (sortEdits l).Perm (sortEdits k) :=
    (sortEdits_perm l).trans (hperm.trans (sortEdits_perm k).symm)
  refine hsorted.eq_of_pairwise ?_ (sortEdits_ascending l) (sortEdits_ascending k)
  intro a b ha hb hab hba
  have ha : a ∈ l := (sortEdits_perm l).mem_iff.mp ha
  have hb : b ∈ l := hperm.mem_iff.mpr ((sortEdits_perm k).mem_iff.mp hb)
  exact eq_of_start_eq hforward hapart ha hb (by omega)

/-! ### One outcome -/

/-- **What a file comes to depends on its imports only in that they are listed.** -/
theorem FilePatches.resolve_eq_map {g h : FilePatches} (hfile : h.file = g.file)
    (hedits : sortEdits h.edits = sortEdits g.edits) (current : Except IoError String) :
    h.resolve current =
      (g.resolve current).map fun c => { c with imports := mergeImports h.imports } := by
  simp only [resolve, hfile, hedits]
  by_cases hranges : (overlaps (sortEdits g.edits)).isEmpty
  · simp only [hranges, not_true_eq_false, if_false]
    cases current with
    | error e => rfl
    | ok old =>
      cases hfit : (sortEdits g.edits).find? fun e => !fits old.toList e <;> simp only [hfit] <;> rfl
  · simp only [hranges, Bool.false_eq_true, not_false_eq_true, if_true]
    rfl

/-- A file whose outcome is what its patches come to is in conflict over its edits exactly if
neighbours overlap or touch. -/
theorem ApplyResult.Reports.exists_conflict_iff {r : ApplyResult} {g : FilePatches}
    {current : Except IoError String} (h : r.Reports g.file (g.resolve current)) :
    (∃ c ∈ r.conflicts, c.file = g.file ∧ c.error = none) ↔ overlaps (sortEdits g.edits) ≠ [] := by
  constructor
  · rintro ⟨c, hc, hfile, hnone⟩ hranges
    exact FilePatches.error_of_resolve hranges ((h.conflicts c).mp ⟨hc, hfile⟩) hnone
  · intro hranges
    have hc := (h.conflicts _).mpr (FilePatches.resolve_of_overlaps hranges current)
    exact ⟨_, hc.1, hc.2, rfl⟩

section Rearranged

variable {ps qs : List Patch} {options options' : ApplyOptions} {d d' : Disk} {file : String}

/-- **What is said of a file depends on its edits and not on their arrangement.** Let no edit of two
lists of patches end before it starts. Let both of them name a file and propose the same edits for
it, in any order, in any number of patches and between any patches of other files, and let the file
have the same text for both. Then applying them without writing succeeds, and the file is in
conflict over its edits for both or for neither. If for neither, both report it with the same text
before and after, or both report the same conflict. -/
theorem arrangement_immaterial (hps : ∀ p ∈ ps, ∀ e ∈ p.edits, e.start ≤ e.stop)
    (hqs : ∀ q ∈ qs, ∀ e ∈ q.edits, e.start ≤ e.stop)
    (hwrite : options.write = false) (hwrite' : options'.write = false)
    (hfile : file ∈ ps.map Patch.file) (hfile' : file ∈ qs.map Patch.file)
    (hedits : (editsOf ps file).Perm (editsOf qs file))
    (htext : (currentText (m := DiskM) options file d).1 =
      (currentText (m := DiskM) options' file d').1) :
    ∃ r r', (apply (m := DiskM) ps options).run d = (.ok r, d) ∧
      (apply (m := DiskM) qs options').run d' = (.ok r', d') ∧
      ((∃ c ∈ r.conflicts, c.file = file ∧ c.error = none) ↔
        ∃ c ∈ r'.conflicts, c.file = file ∧ c.error = none) ∧
      ((¬ ∃ c ∈ r.conflicts, c.file = file ∧ c.error = none) →
        (∃ c c', r.Reports file (.ok c) ∧ r'.Reports file (.ok c') ∧
          c'.old = c.old ∧ c'.new = c.new) ∨
        ∃ c, r.Reports file (.error c) ∧ r'.Reports file (.error c)) := by
  obtain ⟨g, hg, rfl⟩ := FilePatches.exists_of_named hfile
  obtain ⟨h, hh, hsame⟩ := FilePatches.exists_of_named hfile'
  obtain ⟨r, hrun, -, hreports⟩ := exists_reports_of_idle (d := d) hps fun _ _ => .inl hwrite
  obtain ⟨r', hrun', -, hreports'⟩ := exists_reports_of_idle (d := d') hqs fun _ _ => .inl hwrite'
  have hreport := hreports g hg
  have hreport' := hreports' h hh
  have hforward : ∀ e ∈ g.edits, e.start ≤ e.stop := by
    rw [FilePatches.edits_eq_editsOf hg]
    exact forward_of_mem_editsOf hps g.file
  have hforward' : ∀ e ∈ h.edits, e.start ≤ e.stop := by
    rw [FilePatches.edits_eq_editsOf hh]
    exact forward_of_mem_editsOf hqs h.file
  have hperm : g.edits.Perm h.edits := by
    rw [FilePatches.edits_eq_editsOf hg, FilePatches.edits_eq_editsOf hh, hsame]
    exact hedits
  have hconflict := hreport.exists_conflict_iff
  have hconflict' := hreport'.exists_conflict_iff
  rw [hsame] at hconflict' hreport'
  rw [← htext] at hreport'
  refine ⟨r, r', hrun, hrun', ?_, fun hnone => ?_⟩
  · rw [hconflict, hconflict', ne_eq, ne_eq, overlaps_sortEdits_eq_nil_iff hforward,
      overlaps_sortEdits_eq_nil_iff hforward', hperm.pairwise_iff]
    exact fun {a b} hab hba => hab hba.symm
  · rw [hconflict, not_not, overlaps_sortEdits_eq_nil_iff hforward] at hnone
    have hsorted := (sortEdits_eq_of_perm hperm hforward hnone).symm
    rw [FilePatches.resolve_eq_map hsame hsorted] at hreport'
    cases hdecided : g.resolve (currentText (m := DiskM) options g.file d).1 with
    | ok c =>
      rw [hdecided] at hreport hreport'
      exact .inl ⟨c, _, hreport, hreport', rfl, rfl⟩
    | error c =>
      rw [hdecided] at hreport hreport'
      exact .inr ⟨c, hreport, hreport'⟩

/-- Three edits by two patches, and the same three in another order by three patches, between
patches that are in conflict over another file. -/
theorem arrangement_immaterial_of_three :
    let ps : List Patch := [⟨"x", [⟨0, 1, "A"⟩, ⟨3, 4, "B"⟩], [], ∅⟩, ⟨"x", [⟨7, 8, "C"⟩], [], ∅⟩]
    let qs : List Patch := [⟨"y", [⟨0, 9, "-"⟩], [], ∅⟩, ⟨"x", [⟨3, 4, "B"⟩], [], ∅⟩,
      ⟨"y", [⟨4, 5, "-"⟩], [], ∅⟩, ⟨"x", [⟨7, 8, "C"⟩], [], ∅⟩, ⟨"x", [⟨0, 1, "A"⟩], [], ∅⟩]
    let options : ApplyOptions := ⟨false, some (.ofList [("x", "aéb–c")]), ⟨"."⟩⟩
    (∀ p ∈ ps, ∀ e ∈ p.edits, e.start ≤ e.stop) ∧ (∀ q ∈ qs, ∀ e ∈ q.edits, e.start ≤ e.stop) ∧
      (editsOf ps "x").Perm (editsOf qs "x") ∧
      ∀ d : Disk, ∃ r r', (apply (m := DiskM) ps options).run d = (.ok r, d) ∧
        (apply (m := DiskM) qs options).run d = (.ok r', d) ∧
        ∃ c c', r.Reports "x" (.ok c) ∧ r'.Reports "x" (.ok c') ∧
          c.new = "AéB–C" ∧ c'.new = "AéB–C" := by
  intro ps qs options
  have hps : ∀ p ∈ ps, ∀ e ∈ p.edits, e.start ≤ e.stop := by decide
  have hqs : ∀ q ∈ qs, ∀ e ∈ q.edits, e.start ≤ e.stop := by decide
  have hperm : (editsOf ps "x").Perm (editsOf qs "x") := by decide
  refine ⟨hps, hqs, hperm, fun d => ?_⟩
  obtain ⟨r, r', hrun, hrun', -, hsame⟩ := @arrangement_immaterial ps qs options options d d "x"
    hps hqs rfl rfl (by decide) (by decide) hperm rfl
  obtain ⟨r₀, hrun₀, -, hreports⟩ := @exists_reports_of_idle options d ps hps
    fun _ _ => .inl rfl
  cases hrun.symm.trans hrun₀
  have hreport : r.Reports "x" (.ok ⟨"x", "aéb–c", "AéB–C", false, []⟩) := by
    have hsorted : sortEdits (⟨"x", ps⟩ : FilePatches).edits =
        [⟨0, 1, "A"⟩, ⟨3, 4, "B"⟩, ⟨7, 8, "C"⟩] := sortEdits_of_ascending (by decide)
    have hresolve : (⟨"x", ps⟩ : FilePatches).resolve (.ok "aéb–c") =
        .ok ⟨"x", "aéb–c", "AéB–C", false, []⟩ := by
      simp only [FilePatches.resolve, hsorted]
      rfl
    exact hresolve ▸ hreports ⟨"x", ps⟩ (FilePatches.mem_group_iff.mpr ⟨by decide, rfl⟩)
  refine ⟨r, r', hrun, hrun', ?_⟩
  have hnone : ¬ ∃ c ∈ r.conflicts, c.file = "x" ∧ c.error = none := by
    rintro ⟨c, hc, hfile, -⟩
    cases (hreport.conflicts c).mp ⟨hc, hfile⟩
  rcases hsame hnone with ⟨c, c', hc, hc', -, hnew⟩ | ⟨c, hc, -⟩
  · have hchange := (hc.files _).mp ((hreport.files _).mpr rfl)
    cases hchange
    exact ⟨_, c', hc, hc', rfl, hnew⟩
  · cases (hc.files _).mp ((hreport.files _).mpr rfl)

end Rearranged

end KeyLedger
