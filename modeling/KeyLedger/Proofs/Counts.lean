import KeyLedger.Proofs.Locale.Merge
import KeyLedger.Proofs.Reconcile.Revival
import KeyLedger.Report
import Mathlib.Algebra.BigOperators.Group.List.Basic
import Mathlib.Algebra.GroupWithZero.Nat

/-!
# The counts of a report and of a merge

A report counts entries one by one: each adds to the total and to the counts of its namespace. A
merge does not count entries at all but the keys that it has put in place, and it collects these in
dictionaries, where two entries with one slot would be one key. That the two come to the same is
therefore a fact about the run they speak of. A run gives no slot to two of the entries that it
finds or makes, whatever manifest it starts from, even one in which a slot is held more than once.

## Counting by adding

The counts of a report are four numbers that are added up in step, so they are added up as one:
tallies form a commutative monoid, an entry adds one of four units, and the total is the sum of the
tallies of the namespaces as long as both grow by the same unit (`Report.Balanced.count`).

## Main definitions

* `Outcome.keyless` — the new and changed entries without a key
* `Outcome.tally` — the counts of the entries of a run that meet a condition
* `Report.Balanced` — the total is the sum of the namespaces

## Main results

* `Report.balanced_ofOutcome` — the report of a run is balanced
* `Report.of_ofOutcome` — the counts of a namespace
* `nodup_slots_observed` — no two entries found or made have one slot
* `length_keyTexts` — as many keys are put in place as there are slots
* `report_and_merge_agree` — the counts of a report and of a merge agree
-/

namespace KeyLedger

/-! ### Sums of members -/

namespace Members

variable {M : Type} [AddCommMonoid M] {k : String} {u : M} {ms : List (String × M)}

/-- What is added under a key is added to the sum. -/
theorem sum_insert_add (h : Ascending ms) :
    ((insert k ((ms.lookup k).getD 0 + u) ms).map Prod.snd).sum = (ms.map Prod.snd).sum + u := by
  induction ms with
  | nil => simp [insert]
  | cons m ms ih =>
    obtain ⟨hfirst, hrest⟩ := List.pairwise_cons.mp h
    rw [insert]
    by_cases hlt : k < m.1
    · -- the key comes before all others, so there is nothing under it
      have hnone : (m :: ms).lookup k = none := by
        rw [← Option.not_isSome_iff_eq_none, ← mem_keys_iff_lookup]
        intro hmem
        rcases List.mem_cons.mp hmem with rfl | hmem
        · exact String.lt_irrefl _ hlt
        · obtain ⟨n, hn, rfl⟩ := List.mem_map.mp hmem
          exact String.lt_asymm hlt (hfirst n hn)
      rw [if_pos hlt, hnone, Option.getD_none, zero_add, List.map_cons, List.sum_cons, add_comm]
    · by_cases heq : k = m.1
      · rw [if_neg hlt, if_pos heq, heq, List.lookup_cons_self]
        simp only [Option.getD_some, List.map_cons, List.sum_cons]
        exact add_right_comm _ _ _
      · rw [if_neg hlt, if_neg heq, List.lookup_cons, beq_eq_false_iff_ne.mpr heq]
        simp only [List.map_cons, List.sum_cons]
        rw [ih hrest, add_assoc]

end Members

theorem Dict.sum_alter_add {M : Type} [AddCommMonoid M] (d : Dict M) (k : String) (u : M) :
    ((d.alter k 0 (· + u)).toList.map Prod.snd).sum = (d.toList.map Prod.snd).sum + u :=
  Members.sum_insert_add d.ascending

/-! ### Tallies -/

attribute [ext] Tally

namespace Tally

instance : Zero Tally := ⟨zero⟩

instance : Add Tally :=
  ⟨fun s t => ⟨s.created + t.created, s.updated + t.updated, s.orphaned + t.orphaned,
    s.skipped + t.skipped⟩⟩

instance : AddCommMonoid Tally where
  add_assoc _ _ _ := Tally.ext (add_assoc _ _ _) (add_assoc _ _ _) (add_assoc _ _ _)
    (add_assoc _ _ _)
  zero_add _ := Tally.ext (zero_add _) (zero_add _) (zero_add _) (zero_add _)
  add_zero _ := rfl
  add_comm _ _ := Tally.ext (add_comm _ _) (add_comm _ _) (add_comm _ _) (add_comm _ _)
  nsmul n t := ⟨n * t.created, n * t.updated, n * t.orphaned, n * t.skipped⟩
  nsmul_zero _ := Tally.ext (Nat.zero_mul _) (Nat.zero_mul _) (Nat.zero_mul _) (Nat.zero_mul _)
  nsmul_succ _ _ := Tally.ext (Nat.succ_mul _ _) (Nat.succ_mul _ _) (Nat.succ_mul _ _)
    (Nat.succ_mul _ _)

/-- Tallies are made of units. -/
theorem add_units (a b c s : Nat) : (0 : Tally) + a • (⟨1, 0, 0, 0⟩ : Tally) +
    b • (⟨0, 1, 0, 0⟩ : Tally) + c • (⟨0, 0, 1, 0⟩ : Tally) + s • (⟨0, 0, 0, 1⟩ : Tally) =
      ⟨a, b, c, s⟩ := by
  show (⟨0 + a * 1 + b * 0 + c * 0 + s * 0, 0 + a * 0 + b * 1 + c * 0 + s * 0,
    0 + a * 0 + b * 0 + c * 1 + s * 0, 0 + a * 0 + b * 0 + c * 0 + s * 1⟩ : Tally) = _
  simp

end Tally

/-! ### Counting entries -/

namespace Report

variable {r : Report} {u : Tally} {es : List Entry} {ns : String}

/-- The total is the sum of the namespaces. -/
def Balanced (r : Report) : Prop := r.summary = (r.byNamespace.toList.map Prod.snd).sum

/-- The report with one more entry. -/
def add (u : Tally) (r : Report) (e : Entry) : Report :=
  { r with summary := r.summary + u, byNamespace := r.byNamespace.alter e.ns 0 (· + u) }

theorem Balanced.add (h : r.Balanced) (u : Tally) (e : Entry) : (r.add u e).Balanced := by
  show r.summary + u = ((r.byNamespace.alter e.ns 0 (· + u)).toList.map Prod.snd).sum
  rw [Dict.sum_alter_add, ← h]

/-- **Counting keeps a report balanced.** -/
theorem Balanced.count (h : r.Balanced) (u : Tally) (es : List Entry) :
    (r.count (· + u) es).Balanced := by
  induction es generalizing r with
  | nil => exact h
  | cons e es ih => exact ih (h.add u e)

theorem summary_count (r : Report) (u : Tally) (es : List Entry) :
    (r.count (· + u) es).summary = r.summary + es.length • u := by
  induction es generalizing r with
  | nil => rw [List.length_nil, zero_nsmul, add_zero]; rfl
  | cons e es ih =>
    show ((r.add u e).count (· + u) es).summary = _
    rw [ih, List.length_cons, succ_nsmul', ← add_assoc]
    rfl

/-- The counts of a namespace. -/
def of (r : Report) (ns : String) : Tally := (r.byNamespace.find? ns).getD 0

theorem of_add (r : Report) (u : Tally) (e : Entry) (ns : String) :
    (r.add u e).of ns = if ns = e.ns then r.of ns + u else r.of ns := by
  show ((r.byNamespace.alter e.ns 0 (· + u)).find? ns).getD 0 = _
  rw [Dict.find?_alter]
  split
  · next hns => rw [hns]; rfl
  · rfl

theorem of_count (r : Report) (u : Tally) (es : List Entry) (ns : String) :
    (r.count (· + u) es).of ns = r.of ns + es.countP (·.ns = ns) • u := by
  induction es generalizing r with
  | nil => rw [List.countP_nil, zero_nsmul, add_zero]; rfl
  | cons e es ih =>
    show ((r.add u e).count (· + u) es).of ns = _
    rw [ih, of_add, List.countP_cons]
    by_cases hns : e.ns = ns
    · simp only [hns, decide_true, if_true]
      rw [succ_nsmul', add_assoc]
    · simp only [hns, Ne.symm hns, decide_false, if_false, Bool.false_eq_true, add_zero]

theorem mem_keys_count : ns ∈ (r.count (· + u) es).byNamespace.keys ↔
    (∃ e ∈ es, ns = e.ns) ∨ ns ∈ r.byNamespace.keys :=
  foldl_iff (f := add u) (P := fun r => ns ∈ r.byNamespace.keys)
    (fun _ _ => Dict.mem_keys_alter) es r

end Report

/-! ### The report of a run -/

/-- The new and changed entries without a key. -/
def Outcome.keyless (o : Outcome) : List Entry :=
  (o.created ++ o.updated.map Update.entry).filter fun e => e.key.isNone

/-- The counts of the entries of a run that meet a condition. -/
def Outcome.tally (o : Outcome) (p : Entry → Bool) : Tally :=
  ⟨o.created.countP p, (o.updated.map Update.entry).countP p, o.orphaned.countP p,
    o.keyless.countP p⟩

namespace Report

variable (o : Outcome)

/-- Each kind of entry adds a unit of its own. -/
theorem ofOutcome_eq : ofOutcome o =
    (((blank.count (· + ⟨1, 0, 0, 0⟩) o.created).count (· + ⟨0, 1, 0, 0⟩)
      (o.updated.map Update.entry)).count (· + ⟨0, 0, 1, 0⟩) o.orphaned).count (· + ⟨0, 0, 0, 1⟩)
      o.keyless :=
  rfl

theorem balanced_ofOutcome : (ofOutcome o).Balanced := by
  have hblank : blank.Balanced := rfl
  rw [ofOutcome_eq]
  exact (((hblank.count _ _).count _ _).count _ _).count _ _

theorem summary_ofOutcome : (ofOutcome o).summary =
    ⟨o.created.length, o.updated.length, o.orphaned.length, o.keyless.length⟩ := by
  rw [ofOutcome_eq]
  simp only [summary_count, List.length_map]
  exact Tally.add_units _ _ _ _

theorem of_ofOutcome (ns : String) : (ofOutcome o).of ns = o.tally (·.ns = ns) := by
  rw [ofOutcome_eq]
  simp only [of_count]
  exact Tally.add_units _ _ _ _

/-- An entry without a key is new or changed and has been counted as such before. -/
theorem mem_keys_ofOutcome {ns : String} : ns ∈ (ofOutcome o).byNamespace.keys ↔
    ∃ e ∈ o.created ++ o.updated.map Update.entry ++ o.orphaned, e.ns = ns := by
  have hkeyless : ∀ e ∈ o.keyless, e ∈ o.created ∨ e ∈ o.updated.map Update.entry :=
    fun e he => List.mem_append.mp (List.mem_filter.mp he).1
  rw [ofOutcome_eq]
  simp only [mem_keys_count, List.mem_append]
  constructor
  · rintro (⟨e, he, rfl⟩ | ⟨e, he, rfl⟩ | ⟨e, he, rfl⟩ | ⟨e, he, rfl⟩ | hnone)
    · exact ⟨e, .inl (hkeyless e he), rfl⟩
    · exact ⟨e, .inr he, rfl⟩
    · exact ⟨e, .inl (.inr he), rfl⟩
    · exact ⟨e, .inl (.inl he), rfl⟩
    · cases hnone
  · rintro ⟨e, (he | he) | he, rfl⟩
    · exact .inr (.inr (.inr (.inl ⟨e, he, rfl⟩)))
    · exact .inr (.inr (.inl ⟨e, he, rfl⟩))
    · exact .inr (.inl ⟨e, he, rfl⟩)

end Report

/-! ### The keys of a merge -/

section Merge

variable {cs : List Candidate} {m : Manifest} {now : Instant} {es : List Entry}
  {namespaces : List String}

/-- No two entries found or made have one slot. -/
theorem nodup_slots_observed (cs : List Candidate) (m : Manifest) (now : Instant) :
    ((reconcile cs m now).observed.filterMap Entry.slot?).Nodup := by
  rw [observed_eq]
  exact (Log.slots_arranged now _).nodup_iff.mpr (Log.valid_run m cs).slots_nodup

/-- An entry has a slot or no key. -/
theorem length_slots_add_keyless (es : List Entry) :
    (es.filterMap Entry.slot?).length + (es.filter fun e => e.key.isNone).length = es.length := by
  induction es with
  | nil => rfl
  | cons e es ih =>
    cases hkey : e.key <;> simp [Entry.slot?, hkey] <;> omega

theorem Outcome.length_slots_add_keyless (o : Outcome) : (o.created.filterMap Entry.slot?).length +
    ((o.updated.map Update.entry).filterMap Entry.slot?).length + o.keyless.length =
      o.created.length + o.updated.length := by
  have hboth := KeyLedger.length_slots_add_keyless (o.created ++ o.updated.map Update.entry)
  rwa [List.filterMap_append, List.length_append, List.length_append, List.length_map] at hboth

/-- **As many keys are put in place as there are slots**, if none of these is there twice. -/
theorem length_keyTexts (hslots : (es.filterMap Entry.slot?).Nodup) (hnodup : namespaces.Nodup)
    (hall : ∀ ns key, HasSlot es ⟨ns, key⟩ → ns ∈ namespaces) :
    (namespaces.flatMap fun ns => ((KeyTexts.ofEntries cs es).of ns).toList).length =
      (es.filterMap Entry.slot?).length := by
  let slotsIn (ns : String) : List Slot :=
    ((KeyTexts.ofEntries cs es).of ns).keys.map (Slot.mk ns)
  have hlength : (namespaces.flatMap fun ns => ((KeyTexts.ofEntries cs es).of ns).toList).length =
      (namespaces.flatMap slotsIn).length := by
    simp [slotsIn, List.length_flatMap, Dict.keys]
  have hdistinct : (namespaces.flatMap slotsIn).Nodup := by
    refine List.nodup_flatMap.mpr ⟨fun ns _ => ?_, ?_⟩
    · exact (Dict.nodup_keys _).map fun a b hab => (Slot.mk.inj hab).2
    · refine hnodup.imp fun {a b} hne s ha hb => hne ?_
      obtain ⟨_, _, rfl⟩ := List.mem_map.mp ha
      obtain ⟨_, _, heq⟩ := List.mem_map.mp hb
      exact (Slot.mk.inj heq).1.symm
  have hmem : ∀ s, s ∈ namespaces.flatMap slotsIn ↔ s ∈ es.filterMap Entry.slot? := by
    rintro ⟨ns, key⟩
    rw [List.mem_flatMap, List.mem_filterMap]
    constructor
    · rintro ⟨ns', _, hs⟩
      obtain ⟨key', hkey, heq⟩ := List.mem_map.mp hs
      obtain ⟨rfl, rfl⟩ := Slot.mk.inj heq
      exact KeyTexts.mem_keys_of.mp hkey
    · intro hs
      exact ⟨ns, hall ns key hs, List.mem_map.mpr ⟨key, KeyTexts.mem_keys_of.mpr hs, rfl⟩⟩
  rw [hlength]
  exact ((List.perm_ext_iff_of_nodup hdistinct hslots).mpr hmem).length_eq

/-- What a merge counts: the slots of the new and of the changed entries, and those without one. -/
theorem counts_of_mergeLocales {layout : Layout} {d d' : Disk} {s : MergeSummary}
    (h : (mergeLocales (m := DiskM) cs layout (reconcile cs m now)).run d = (.ok s, d')) :
    s.createdKeys = ((reconcile cs m now).created.filterMap Entry.slot?).length ∧
      s.updatedKeys =
        (((reconcile cs m now).updated.map Update.entry).filterMap Entry.slot?).length ∧
      s.skipped = (reconcile cs m now).keyless.length := by
  have hslots := nodup_slots_observed cs m now
  rw [Outcome.observed, List.append_assoc, List.filterMap_append, List.filterMap_append] at hslots
  obtain ⟨hupdated, hcreated, -⟩ := List.nodup_append.mp (List.nodup_append.mp hslots).2.1
  rw [mergeLocales, DiskM.bind_eq_ok_iff] at h
  obtain ⟨lists, d₁, -, hpure⟩ := h
  obtain rfl := Except.ok.inj (congrArg Prod.fst hpure)
  refine ⟨length_keyTexts hcreated (Dict.nodup_keys _) fun ns key hslot => ?_,
    length_keyTexts hupdated (Dict.nodup_keys _) fun ns key hslot => ?_, rfl⟩
  · exact mem_namespacesOf_iff.mpr ⟨key, hasSlot_append.mpr (.inl hslot)⟩
  · exact mem_namespacesOf_iff.mpr ⟨key, hasSlot_append.mpr (.inr hslot)⟩

end Merge

/-- **The counts of a report and of a merge agree.** A report has the numbers of new, changed and
orphaned entries, and of new or changed ones without a key; in total they are the sums of those of
the namespaces, which are counted each for itself, and are those that any such entry is in. A merge
of the same run that succeeds has left out as many entries as the report says, and has a key for
each of the others. -/
theorem report_and_merge_agree (cs : List Candidate) (m : Manifest) (now : Instant) :
    let o := reconcile cs m now
    let r := Report.ofOutcome o
    let changed := o.created ++ o.updated.map Update.entry
    (r.summary.created = o.created.length ∧ r.summary.updated = o.updated.length ∧
      r.summary.orphaned = o.orphaned.length ∧
      r.summary.skipped = (changed.filter fun e => e.key.isNone).length) ∧
    (r.summary.created = (r.byNamespace.toList.map (·.2.created)).sum ∧
      r.summary.updated = (r.byNamespace.toList.map (·.2.updated)).sum ∧
      r.summary.orphaned = (r.byNamespace.toList.map (·.2.orphaned)).sum ∧
      r.summary.skipped = (r.byNamespace.toList.map (·.2.skipped)).sum) ∧
    (∀ ns, (ns ∈ r.byNamespace.keys ↔ ∃ e ∈ changed ++ o.orphaned, e.ns = ns) ∧
      (r.byNamespace.find? ns).getD .zero = o.tally (·.ns = ns)) ∧
    ∀ (layout : Layout) (d : Disk) (s : MergeSummary) (d' : Disk),
      (mergeLocales (m := DiskM) cs layout o).run d = (.ok s, d') →
        s.skipped = r.summary.skipped ∧
        s.createdKeys + s.updatedKeys + s.skipped = r.summary.created + r.summary.updated := by
  intro o r changed
  have hsummary : r.summary = ⟨o.created.length, o.updated.length, o.orphaned.length,
    o.keyless.length⟩ := Report.summary_ofOutcome o
  have hsum : ∀ f : Tally →+ Nat,
      f r.summary = (r.byNamespace.toList.map fun n => f n.2).sum := by
    intro f
    rw [Report.balanced_ofOutcome o, map_list_sum, List.map_map]
    rfl
  refine ⟨by rw [hsummary]; exact ⟨rfl, rfl, rfl, rfl⟩,
    ⟨hsum ⟨⟨Tally.created, rfl⟩, fun _ _ => rfl⟩, hsum ⟨⟨Tally.updated, rfl⟩, fun _ _ => rfl⟩,
      hsum ⟨⟨Tally.orphaned, rfl⟩, fun _ _ => rfl⟩, hsum ⟨⟨Tally.skipped, rfl⟩, fun _ _ => rfl⟩⟩,
    fun ns => ⟨Report.mem_keys_ofOutcome o, Report.of_ofOutcome o ns⟩, fun layout d s d' hrun => ?_⟩
  obtain ⟨hcreated, hupdated, hskipped⟩ := counts_of_mergeLocales hrun
  rw [hsummary, hcreated, hupdated, hskipped]
  exact ⟨rfl, o.length_slots_add_keyless⟩

/-- A manifest with two entries for one slot, of which a run finds the first with another text. One
new text has a key and another has none, and the text found comes up twice. -/
theorem report_and_merge_agree_of_shared_slot :
    let m : Manifest := ⟨1, [.ofCandidate (.plain "home" (some "k") "A") .epoch,
      .ofCandidate (.plain "home" (some "k") "B") .epoch]⟩
    let cs : List Candidate := [.plain "home" (some "k") "C", .plain "home" (some "j") "D",
      .plain "shop" none "E", .plain "home" (some "k") "C"]
    let o := reconcile cs m .epoch
    let r := Report.ofOutcome o
    let layout : Layout := ⟨⟨"."⟩, "en", ["en", "de"]⟩
    let s : MergeSummary := ⟨[⟨"./en/home.json"⟩, ⟨"./de/home.json"⟩], 1, 1, 1⟩
    ∃ d', (mergeLocales (m := DiskM) cs layout o).run (.blank [] 1) = (.ok s, d') ∧
      r.summary = ⟨2, 1, 1, 1⟩ ∧ r.byNamespace.keys = ["home", "shop"] ∧
      s.skipped = r.summary.skipped ∧
      s.createdKeys + s.updatedKeys + s.skipped = r.summary.created + r.summary.updated := by
  intro m cs o r layout s
  let d' := ((mergeLocales (m := DiskM) cs layout o).run (.blank [] 1)).2
  have hrun : (mergeLocales (m := DiskM) cs layout o).run (.blank [] 1) = (.ok s, d') :=
    Prod.ext (by decide +kernel) rfl
  have hreport : r.summary = ⟨2, 1, 1, 1⟩ ∧ r.byNamespace.keys = ["home", "shop"] := by
    decide +kernel
  exact ⟨d', hrun, hreport.1, hreport.2,
    (report_and_merge_agree cs m .epoch).2.2.2 layout _ s d' hrun⟩

end KeyLedger
