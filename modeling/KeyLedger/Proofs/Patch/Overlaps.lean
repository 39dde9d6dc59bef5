import KeyLedger.Proofs.Patch.Turns

/-!
# Edits that meet

Two edits of a file *meet* if their ranges overlap or touch. Applying patches never compares all
edits of a file with each other: it puts them in the order of their starts and compares neighbours.
This file says what that comes to.

For the decision whether there is a conflict it is enough. If an edit meets a later one, then
whatever stands between them starts before the later one does, and so the edit meets its neighbour
too (`InOrder.next_meets`). A file is in conflict exactly if two of its edits meet.

For the report it is not. An edit that meets only edits some places before it is compared with none
of them. It starts in a range that is reported, but it may go beyond all of them.

## Main definitions

* `Edit.Meets` — two edits overlap or touch
* `Edit.Within` — an edit lies in a range
* `InOrder` — edits in the order of their starts

## Main results

* `mem_overlaps_iff` — the ranges that neighbours compete for
* `InOrder.exists_overlap` — of two edits that meet, the first lies in a range, and the second
  starts in it
* `InOrder.overlaps_eq_nil_iff` — there are no ranges if and only if no two edits meet
* `InOrder.within_overlaps_iff` — which edits lie in a range
* `conflict_iff_edits_meet` — a file is in conflict if and only if two of its edits meet
* `edit_reported_iff` — which edits lie in a range that is reported
-/

namespace KeyLedger

/-! ### Two edits -/

namespace Edit

/-- Two edits overlap or touch. -/
def Meets (a b : Edit) : Prop := a.start ≤ b.stop ∧ b.start ≤ a.stop

instance (a b : Edit) : Decidable (a.Meets b) := by unfold Meets; infer_instance

theorem Meets.symm {a b : Edit} (h : a.Meets b) : b.Meets a := ⟨h.2, h.1⟩

/-- An edit lies in a range. -/
def Within (e : Edit) (w : ByteRange) : Prop := w.start ≤ e.start ∧ e.stop ≤ w.stop

instance (e : Edit) (w : ByteRange) : Decidable (e.Within w) := by unfold Within; infer_instance

end Edit

/-- Edits at different places of a list meet, unless no two of its edits do. -/
theorem exists_meets_iff {l : List Edit} :
    (∃ (i j : Nat) (a b : Edit), i ≠ j ∧ l[i]? = some a ∧ l[j]? = some b ∧ a.Meets b) ↔
      ¬ l.Pairwise fun a b => ¬ a.Meets b := by
  rw [List.pairwise_iff_getElem]
  constructor
  · rintro ⟨i, j, a, b, hne, ha, hb, hmeets⟩ hapart
    obtain ⟨hi, rfl⟩ := List.getElem?_eq_some_iff.mp ha
    obtain ⟨hj, rfl⟩ := List.getElem?_eq_some_iff.mp hb
    rcases Nat.lt_or_gt_of_ne hne with hij | hji
    · exact hapart i j hi hj hij hmeets
    · exact hapart j i hj hi hji hmeets.symm
  · intro h
    push Not at h
    obtain ⟨i, j, hi, hj, hij, hmeets⟩ := h
    exact ⟨i, j, _, _, Nat.ne_of_lt hij, List.getElem?_eq_getElem hi, List.getElem?_eq_getElem hj,
      hmeets⟩

/-! ### Neighbours -/

/-- The ranges that neighbours compete for. -/
theorem mem_overlaps_iff {l : List Edit} {w : ByteRange} :
    w ∈ overlaps l ↔ ∃ (i : Nat) (a b : Edit), l[i]? = some a ∧ l[i + 1]? = some b ∧
      b.start ≤ a.stop ∧ w = ⟨min a.start b.start, max a.stop b.stop⟩ := by
  -- a pair of neighbours is the first pair, or a pair of the rest
  have hshift : ∀ (a b : Edit) (rest : List Edit) (P : Edit → Edit → Prop),
      (∃ (i : Nat) (x y : Edit),
        (a :: b :: rest)[i]? = some x ∧ (a :: b :: rest)[i + 1]? = some y ∧ P x y) ↔
      P a b ∨ ∃ (i : Nat) (x y : Edit),
        (b :: rest)[i]? = some x ∧ (b :: rest)[i + 1]? = some y ∧ P x y := by
    intro a b rest P
    constructor
    · rintro ⟨i, x, y, hx, hy, hP⟩
      cases i with
      | zero =>
        cases hx
        cases hy
        exact .inl hP
      | succ i => exact .inr ⟨i, x, y, hx, hy, hP⟩
    · rintro (hP | ⟨i, x, y, hx, hy, hP⟩)
      · exact ⟨0, a, b, rfl, rfl, hP⟩
      · exact ⟨i + 1, x, y, hx, hy, hP⟩
  fun_induction overlaps l with
  | case1 a b rest hab ih => simp only [List.mem_cons, ih, hshift, hab, true_and]
  | case2 a b rest hab ih => simp only [ih, hshift, hab, false_and, false_or]
  | case3 l hshort =>
    refine iff_of_false List.not_mem_nil ?_
    rintro ⟨i, a, b, -, hb, -⟩
    match l, hshort with
    | [], _ => cases hb
    | [_], _ => simp at hb
    | x :: y :: rest, hshort => exact hshort x y rest rfl

/-- Edits in the order of their starts, none of which ends before it starts. -/
structure InOrder (l : List Edit) : Prop where
  /-- No edit starts before an earlier one. -/
  ascending : l.Pairwise fun a b => a.start ≤ b.start
  /-- No edit ends before it starts. -/
  forward : ∀ e ∈ l, e.start ≤ e.stop

theorem inOrder_sortEdits {l : List Edit} (hforward : ∀ e ∈ l, e.start ≤ e.stop) :
    InOrder (sortEdits l) :=
  ⟨sortEdits_ascending l, fun e he => hforward e ((sortEdits_perm l).mem_iff.mp he)⟩

namespace InOrder

variable {l : List Edit} {i j k : Nat} {a b e : Edit}

theorem start_le (h : InOrder l) (hij : i < j) (ha : l[i]? = some a) (hb : l[j]? = some b) :
    a.start ≤ b.start := by
  obtain ⟨hi, rfl⟩ := List.getElem?_eq_some_iff.mp ha
  obtain ⟨hj, rfl⟩ := List.getElem?_eq_some_iff.mp hb
  exact List.pairwise_iff_getElem.mp h.ascending i j hi hj hij

theorem start_le_stop (h : InOrder l) (ha : l[i]? = some a) : a.start ≤ a.stop :=
  h.forward a (List.mem_of_getElem? ha)

/-- **An edit that meets a later one meets its neighbour.** -/
theorem next_meets (h : InOrder l) (hij : i < j) (hb : l[j]? = some b) (hmeets : a.Meets b) :
    ∃ c, l[i + 1]? = some c ∧ c.start ≤ a.stop := by
  rcases Nat.lt_or_eq_of_le (Nat.succ_le_of_lt hij) with hlt | rfl
  · have hj : j < l.length := (List.getElem?_eq_some_iff.mp hb).1
    have hc : l[i + 1]? = some l[i + 1] := List.getElem?_eq_getElem (by omega)
    exact ⟨_, hc, Nat.le_trans (h.start_le hlt hc hb) hmeets.2⟩
  · exact ⟨b, hb, hmeets.2⟩

/-- **Of two edits that meet, the first lies in a range, and the second starts in it.** -/
theorem exists_overlap (h : InOrder l) (hij : i < j) (ha : l[i]? = some a) (hb : l[j]? = some b)
    (hmeets : a.Meets b) :
    ∃ w ∈ overlaps l, a.Within w ∧ w.start ≤ b.start ∧ b.start ≤ w.stop := by
  obtain ⟨c, hc, hstart⟩ := h.next_meets hij hb hmeets
  refine ⟨_, mem_overlaps_iff.mpr ⟨i, a, c, ha, hc, hstart, rfl⟩, ?_⟩
  have hab := h.start_le hij ha hb
  have hba := hmeets.2
  simp only [Edit.Within]
  omega

/-- **Comparing neighbours decides whether edits meet.** -/
theorem overlaps_eq_nil_iff (h : InOrder l) :
    overlaps l = [] ↔ l.Pairwise fun a b => ¬ a.Meets b := by
  rw [← not_iff_not, ← exists_meets_iff]
  constructor
  · intro hne
    obtain ⟨w, hw⟩ := List.exists_mem_of_ne_nil _ hne
    obtain ⟨i, a, b, ha, hb, hstart, -⟩ := mem_overlaps_iff.mp hw
    have hab := h.start_le (Nat.lt_succ_self i) ha hb
    have hforward := h.start_le_stop hb
    exact ⟨i, i + 1, a, b, by omega, ha, hb, Nat.le_trans hab hforward, hstart⟩
  · rintro ⟨i, j, a, b, hne, ha, hb, hmeets⟩ hnil
    rcases Nat.lt_or_gt_of_ne hne with hij | hji
    · obtain ⟨w, hw, -⟩ := h.exists_overlap hij ha hb hmeets
      simp [hnil] at hw
    · obtain ⟨w, hw, -⟩ := h.exists_overlap hji hb ha hmeets.symm
      simp [hnil] at hw

/-- **Which edits lie in a range**: those that meet a later edit, their predecessor, or an edit that
ends no earlier than they do. -/
theorem within_overlaps_iff (h : InOrder l) (he : l[k]? = some e) :
    (∃ w ∈ overlaps l, e.Within w) ↔ ∃ (j : Nat) (b : Edit), j ≠ k ∧ l[j]? = some b ∧ e.Meets b ∧
      (k ≤ j + 1 ∨ e.stop ≤ b.stop) := by
  have hforward := h.start_le_stop he
  constructor
  · rintro ⟨w, hw, hwithin⟩
    obtain ⟨i, a, b, ha, hb, hstart, rfl⟩ := mem_overlaps_iff.mp hw
    have hfirst : min a.start b.start ≤ e.start := hwithin.1
    have hlast : e.stop ≤ max a.stop b.stop := hwithin.2
    have hab := h.start_le (Nat.lt_succ_self i) ha hb
    have haforward := h.start_le_stop ha
    have hbforward := h.start_le_stop hb
    rcases Nat.lt_trichotomy i k with hik | rfl | hki
    · -- the pair stands before the edit: the edit may be the second of the pair
      have hae := h.start_le hik ha he
      by_cases hnext : i + 1 = k
      · subst hnext
        obtain rfl : b = e := Option.some.inj (hb.symm.trans he)
        exact ⟨i, a, by omega, ha, ⟨hstart, by omega⟩, .inl (Nat.le_refl _)⟩
      · have hbe := h.start_le (by omega : i + 1 < k) hb he
        by_cases hstop : e.stop ≤ a.stop
        · exact ⟨i, a, by omega, ha, ⟨by omega, by omega⟩, .inr hstop⟩
        · have hstop' : e.stop ≤ b.stop := by omega
          exact ⟨i + 1, b, hnext, hb, ⟨by omega, by omega⟩, .inr hstop'⟩
    · obtain rfl : a = e := Option.some.inj (ha.symm.trans he)
      exact ⟨i + 1, b, by omega, hb, ⟨by omega, hstart⟩, .inl (by omega)⟩
    · -- the pair stands after the edit, so that it starts where the edit does
      have hea := h.start_le hki he ha
      exact ⟨i, a, by omega, ha, ⟨by omega, by omega⟩, .inl (by omega)⟩
  · rintro ⟨j, b, hne, hb, hmeets, hlate⟩
    rcases Nat.lt_or_gt_of_ne hne with hjk | hkj
    · by_cases hnext : j + 1 = k
      · subst hnext
        refine ⟨_, mem_overlaps_iff.mpr ⟨j, b, e, hb, he, hmeets.1, rfl⟩, ?_⟩
        exact ⟨Nat.min_le_right _ _, Nat.le_max_right _ _⟩
      · obtain ⟨w, hw, hwithin, hstart, -⟩ := h.exists_overlap hjk hb he hmeets.symm
        have hstop : e.stop ≤ b.stop := hlate.resolve_left (by omega)
        exact ⟨w, hw, hstart, Nat.le_trans hstop hwithin.2⟩
    · obtain ⟨w, hw, hwithin, -⟩ := h.exists_overlap hkj he hb hmeets
      exact ⟨w, hw, hwithin⟩

/-- An edit that meets another one starts in a range. -/
theorem exists_start_within (h : InOrder l) (he : l[k]? = some e) (hne : j ≠ k)
    (hb : l[j]? = some b) (hmeets : e.Meets b) :
    ∃ w ∈ overlaps l, w.start ≤ e.start ∧ e.start ≤ w.stop := by
  rcases Nat.lt_or_gt_of_ne hne with hjk | hkj
  · obtain ⟨w, hw, -, hstart, hstop⟩ := h.exists_overlap hjk hb he hmeets.symm
    exact ⟨w, hw, hstart, hstop⟩
  · obtain ⟨w, hw, hwithin, -⟩ := h.exists_overlap hkj he hb hmeets
    exact ⟨w, hw, hwithin.1, Nat.le_trans (h.start_le_stop he) hwithin.2⟩

end InOrder

/-! ### The conflict of a file -/

namespace FilePatches

variable {g : FilePatches} {current : Except IoError String} {c : Conflict}

theorem resolve_of_overlaps (hranges : overlaps (sortEdits g.edits) ≠ [])
    (current : Except IoError String) :
    g.resolve current = .error ⟨g.file, overlaps (sortEdits g.edits), none⟩ := by
  simp [resolve, hranges]

/-- Any other conflict has a reason. -/
theorem error_of_resolve (hranges : overlaps (sortEdits g.edits) = [])
    (h : g.resolve current = .error c) : c.error ≠ none := by
  cases current with
  | error e =>
    simp only [resolve, hranges, List.isEmpty_nil, not_true_eq_false, if_false] at h
    cases h
    exact Option.some_ne_none _
  | ok old =>
    cases hfit : (sortEdits g.edits).find? fun e => !fits old.toList e with
    | none => simp [resolve, hranges, hfit] at h
    | some e =>
      simp only [resolve, hranges, List.isEmpty_nil, not_true_eq_false, if_false, hfit] at h
      cases h
      exact Option.some_ne_none _

/-- **A conflict without a reason is one of edits that meet.** -/
theorem Applied.eq_error_iff {options : ApplyOptions} {d d' : Disk}
    {o : Except Conflict FileChange} (h : g.Applied options d o d') :
    (o = .error c ∧ c.error = none) ↔
      overlaps (sortEdits g.edits) ≠ [] ∧ c = ⟨g.file, overlaps (sortEdits g.edits), none⟩ := by
  by_cases hranges : overlaps (sortEdits g.edits) = []
  · refine iff_of_false ?_ fun hne => hne.1 hranges
    rintro ⟨rfl, hnone⟩
    cases h with
    | conflict decided => exact error_of_resolve hranges decided hnone
    | failed => cases hnone
  · have hresolve := resolve_of_overlaps hranges (currentText (m := DiskM) options g.file d).1
    have ho : o = .error ⟨g.file, overlaps (sortEdits g.edits), none⟩ := by
      cases h with
      | conflict decided => rw [← decided, hresolve]
      | kept decided => rw [hresolve] at decided; cases decided
      | written decided => rw [hresolve] at decided; cases decided
      | failed decided => rw [hresolve] at decided; cases decided
    rw [ho, Except.error.injEq]
    constructor
    · rintro ⟨rfl, -⟩
      exact ⟨hranges, rfl⟩
    · rintro ⟨-, rfl⟩
      exact ⟨rfl, rfl⟩

end FilePatches

section Conflicts

variable {ps : List Patch}

/-- The conflicts without a reason that applying patches reports, and what they report. -/
theorem exists_conflicts (hforward : ∀ p ∈ ps, ∀ e ∈ p.edits, e.start ≤ e.stop)
    (options : ApplyOptions) (d : Disk) :
    ∃ r d', (apply (m := DiskM) ps options).run d = (.ok r, d') ∧
      (∀ c, (c ∈ r.conflicts ∧ c.error = none) ↔
        overlaps (sortEdits (editsOf ps c.file)) ≠ [] ∧
          c = ⟨c.file, overlaps (sortEdits (editsOf ps c.file)), none⟩) ∧
      ∀ c ∈ r.conflicts, ∀ c' ∈ r.files, c'.file ≠ c.file := by
  obtain ⟨r, d', hrun, hcovers, hreports⟩ := exists_reports hforward options d
  have hnamed : ∀ c ∈ r.conflicts, c.file ∈ ps.map Patch.file := fun c hc =>
    mem_distinct.mp (hcovers.conflicts.subset (List.mem_map_of_mem hc))
  refine ⟨r, d', hrun, fun c => ?_, fun c hc c' hc' hfile => ?_⟩
  · by_cases hfile : c.file ∈ ps.map Patch.file
    · obtain ⟨g, hg, hgfile⟩ := FilePatches.exists_of_named hfile
      obtain ⟨o, d₁, happlied, hreport⟩ := hreports g hg
      rw [← hgfile, ← FilePatches.edits_eq_editsOf hg, ← happlied.eq_error_iff,
        ← hreport.conflicts c, and_iff_left hgfile.symm]
    · refine iff_of_false (fun hc => hfile (hnamed c hc.1)) fun hc => hfile ?_
      have hne : editsOf ps c.file ≠ [] := by
        intro hnil
        exact hc.1 (by simp [hnil, sortEdits, overlaps])
      obtain ⟨e, he⟩ := List.exists_mem_of_ne_nil _ hne
      exact named_of_mem_editsOf he
  · obtain ⟨g, hg, hgfile⟩ := FilePatches.exists_of_named (hnamed c hc)
    obtain ⟨o, d₁, -, hreport⟩ := hreports g hg
    have herror := (hreport.conflicts c).mp ⟨hc, hgfile.symm⟩
    have hok := (hreport.files c').mp ⟨hc', hfile.trans hgfile.symm⟩
    rw [herror] at hok
    cases hok

/-- **A file is in conflict if and only if two of its edits meet.** Let no edit end before it
starts. Then applying patches succeeds, and a file is reported as one whose edits compete exactly if
it has two edits, at different places of the list of its edits, that overlap or touch. No text of
such a file is reported. -/
theorem conflict_iff_edits_meet (hforward : ∀ p ∈ ps, ∀ e ∈ p.edits, e.start ≤ e.stop)
    (options : ApplyOptions) (d : Disk) (file : String) :
    ∃ r d', (apply (m := DiskM) ps options).run d = (.ok r, d') ∧
      ((∃ c ∈ r.conflicts, c.file = file ∧ c.error = none) ↔
        ∃ (i j : Nat) (a b : Edit), i ≠ j ∧ (editsOf ps file)[i]? = some a ∧
          (editsOf ps file)[j]? = some b ∧ a.start ≤ b.stop ∧ b.start ≤ a.stop) ∧
      ((∃ c ∈ r.conflicts, c.file = file ∧ c.error = none) → ∀ c ∈ r.files, c.file ≠ file) := by
  obtain ⟨r, d', hrun, hconflicts, hfiles⟩ := exists_conflicts hforward options d
  have horder := inOrder_sortEdits (forward_of_mem_editsOf hforward file)
  have hmeet : (∃ (i j : Nat) (a b : Edit), i ≠ j ∧ (editsOf ps file)[i]? = some a ∧
      (editsOf ps file)[j]? = some b ∧ a.Meets b) ↔
        overlaps (sortEdits (editsOf ps file)) ≠ [] := by
    rw [exists_meets_iff, ne_eq, horder.overlaps_eq_nil_iff,
      (sortEdits_perm (editsOf ps file)).pairwise_iff fun {a b} hab hba => hab hba.symm]
  refine ⟨r, d', hrun, Iff.trans ?_ hmeet.symm, ?_⟩
  · constructor
    · rintro ⟨c, hc, rfl, hnone⟩
      exact ((hconflicts c).mp ⟨hc, hnone⟩).1
    · intro hranges
      have hc := (hconflicts ⟨file, overlaps (sortEdits (editsOf ps file)), none⟩).mpr
        ⟨hranges, rfl⟩
      exact ⟨_, hc.1, rfl, hc.2⟩
  · rintro ⟨c, hc, rfl, -⟩
    exact hfiles c hc

/-- An edit that a later patch proposes reaches over a short one into a third; two texts are
inserted at one place; and two edits are a byte apart. -/
theorem conflicts_of_three_files :
    let ps : List Patch := [⟨"over", [⟨5, 9, "z"⟩, ⟨2, 3, "y"⟩], [], ∅⟩,
      ⟨"at", [.insert 4 "a", .insert 4 "b"], [], ∅⟩, ⟨"apart", [⟨3, 5, "b"⟩, ⟨0, 2, "a"⟩], [], ∅⟩,
      ⟨"over", [⟨0, 8, "x"⟩], [], ∅⟩]
    (∀ p ∈ ps, ∀ e ∈ p.edits, e.start ≤ e.stop) ∧
      ∀ (options : ApplyOptions) (d : Disk), ∀ file ∈ ["over", "at", "apart"],
        ∃ r d', (apply (m := DiskM) ps options).run d = (.ok r, d') ∧
          ((∃ c ∈ r.conflicts, c.file = file ∧ c.error = none) ↔ file ≠ "apart") := by
  intro ps
  have hforward : ∀ p ∈ ps, ∀ e ∈ p.edits, e.start ≤ e.stop := by decide
  have hmeet : ∀ file ∈ ["over", "at", "apart"],
      (¬ (editsOf ps file).Pairwise fun a b => ¬ a.Meets b) ↔ file ≠ "apart" := by decide
  refine ⟨hforward, fun options d file hfile => ?_⟩
  obtain ⟨r, d', hrun, hiff, -⟩ := conflict_iff_edits_meet hforward options d file
  exact ⟨r, d', hrun, (hiff.trans exists_meets_iff).trans (hmeet file hfile)⟩

/-- **Which edits lie in a range that is reported.** Let no edit end before it starts. Then applying
patches succeeds. In a file whose edits compete, an edit lies in a reported range exactly if it
meets an edit after it in the order of starts, the one right before it, or any one that ends no
earlier than it does; and every edit that meets another one starts in a reported range. -/
theorem edit_reported_iff (hforward : ∀ p ∈ ps, ∀ e ∈ p.edits, e.start ≤ e.stop)
    (options : ApplyOptions) (d : Disk) :
    ∃ r d', (apply (m := DiskM) ps options).run d = (.ok r, d') ∧
      ∀ c ∈ r.conflicts, c.error = none → ∀ (k : Nat) (e : Edit),
        (sortEdits (editsOf ps c.file))[k]? = some e →
        ((∃ w ∈ c.ranges, e.Within w) ↔
          ∃ (j : Nat) (b : Edit), j ≠ k ∧ (sortEdits (editsOf ps c.file))[j]? = some b ∧
            e.Meets b ∧ (k ≤ j + 1 ∨ e.stop ≤ b.stop)) ∧
        ((∃ (j : Nat) (b : Edit), j ≠ k ∧ (sortEdits (editsOf ps c.file))[j]? = some b ∧
            e.Meets b) →
          ∃ w ∈ c.ranges, w.start ≤ e.start ∧ e.start ≤ w.stop) := by
  obtain ⟨r, d', hrun, hconflicts, -⟩ := exists_conflicts hforward options d
  refine ⟨r, d', hrun, fun c hc hnone k e he => ?_⟩
  have horder := inOrder_sortEdits (forward_of_mem_editsOf hforward c.file)
  have hranges : c.ranges = overlaps (sortEdits (editsOf ps c.file)) :=
    congrArg Conflict.ranges ((hconflicts c).mp ⟨hc, hnone⟩).2
  rw [hranges]
  refine ⟨horder.within_overlaps_iff he, ?_⟩
  rintro ⟨j, b, hne, hb, hmeets⟩
  exact horder.exists_start_within he hne hb hmeets

/-- The last edit meets only the first, which is not its neighbour but ends after it. -/
theorem nested_edit_reported :
    let ps : List Patch := [⟨"x", [⟨0, 10, "a"⟩, ⟨2, 3, "b"⟩, ⟨5, 6, "c"⟩], [], ∅⟩]
    (∀ p ∈ ps, ∀ e ∈ p.edits, e.start ≤ e.stop) ∧
      ∀ (options : ApplyOptions) (d : Disk),
        ∃ r d', (apply (m := DiskM) ps options).run d = (.ok r, d') ∧
          ∃ c ∈ r.conflicts, c.file = "x" ∧ c.error = none ∧
            ∃ w ∈ c.ranges, (⟨5, 6, "c"⟩ : Edit).Within w := by
  intro ps
  have hforward : ∀ p ∈ ps, ∀ e ∈ p.edits, e.start ≤ e.stop := by decide
  have hsorted : sortEdits (editsOf ps "x") = editsOf ps "x" := sortEdits_of_ascending (by decide)
  refine ⟨hforward, fun options d => ?_⟩
  obtain ⟨r, d', hrun, hreported⟩ := edit_reported_iff hforward options d
  obtain ⟨r', d'', hrun', hconflicts, -⟩ := exists_conflicts hforward options d
  cases hrun.symm.trans hrun'
  have hc := (hconflicts ⟨"x", overlaps (sortEdits (editsOf ps "x")), none⟩).mpr
    ⟨by rw [hsorted]; decide, rfl⟩
  refine ⟨r, d', hrun, _, hc.1, rfl, rfl, ?_⟩
  refine (hreported _ hc.1 rfl 2 ⟨5, 6, "c"⟩ (by rw [hsorted]; rfl)).1.mpr ?_
  rw [hsorted]
  exact ⟨0, ⟨0, 10, "a"⟩, by decide⟩

/-- An edit that goes beyond the one it meets, with a short one between them, is not reported. -/
theorem long_edit_unreported :
    let ps : List Patch := [⟨"x", [⟨0, 10, "a"⟩, ⟨2, 3, "b"⟩, ⟨5, 20, "c"⟩], [], ∅⟩]
    (∀ p ∈ ps, ∀ e ∈ p.edits, e.start ≤ e.stop) ∧
      ∀ (options : ApplyOptions) (d : Disk),
        ∃ r d', (apply (m := DiskM) ps options).run d = (.ok r, d') ∧
          ∃ c ∈ r.conflicts, c.file = "x" ∧ c.error = none ∧
            ∃ (i j : Nat) (a b : Edit), i ≠ j ∧ (editsOf ps "x")[i]? = some a ∧
              (editsOf ps "x")[j]? = some b ∧ a.Meets b ∧ ¬ ∃ w ∈ c.ranges, a.Within w := by
  intro ps
  have hforward : ∀ p ∈ ps, ∀ e ∈ p.edits, e.start ≤ e.stop := by decide
  have hranges : overlaps (sortEdits (editsOf ps "x")) = [⟨0, 10⟩] := by
    rw [sortEdits_of_ascending (by decide)]
    rfl
  refine ⟨hforward, fun options d => ?_⟩
  obtain ⟨r, d', hrun, hconflicts, -⟩ := exists_conflicts hforward options d
  have hc := (hconflicts ⟨"x", overlaps (sortEdits (editsOf ps "x")), none⟩).mpr
    ⟨by rw [hranges]; decide, rfl⟩
  refine ⟨r, d', hrun, _, hc.1, rfl, rfl, 2, 0, ⟨5, 20, "c"⟩, ⟨0, 10, "a"⟩, ?_⟩
  rw [hranges]
  decide

end Conflicts

end KeyLedger
