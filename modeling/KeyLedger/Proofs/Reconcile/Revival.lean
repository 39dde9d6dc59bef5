import KeyLedger.Proofs.Reconcile.Precedence

/-!
# Nothing is created while a text could be revived

A text that comes back should revive the entry that it had, and not be recorded a second time. A run
looks for such an entry at the moment at which it decides about a candidate, and what it finds then
depends on what it has decided so far. This file says the same of the run as a whole: if a text was
recorded as new, and there is an entry with the same text that nobody was found to be, then the
entry has a key, and in the namespace of the new one that key is held by another entry.

## Why the reason lasts

An entry is *barred* from a namespace if its key is taken there, or held by another entry of the
manifest. The manifest does not change in the course of a run, and no slot is given back, so an
entry that is barred at one point is barred at the end (`Log.Barred.append`). An entry that is free
at the end was free at every point. So it was barred when the run looked at it, and it still is.

## Main definitions

* `Log.Barred` — an entry that may not move to a namespace
* `Outcome.observed` — the entries that a run has found or made

## Main results

* `Log.Valid.barred_of_added` — why an entry was not adopted
* `mem_slots_observed_iff` — the slots that are taken are those of the entries found or made
* `created_only_if_barred` — nothing is created while a text could be revived
-/

namespace KeyLedger

/-! ### Entries that may not move -/

namespace Log

variable {m : Manifest} {l : Log} {c : Candidate} {e : Entry} {i : Nat}

/-- After a log, the entry with index `i` may not move to a namespace under a key, because the key
is taken there or another entry holds it. -/
def Barred (m : Manifest) (l : Log) (i : Nat) (s : Slot) : Prop :=
  s ∈ l.slots ∨ ∃ h j, m.owner? s = some (h, j) ∧ j ≠ i

/-- **What bars an entry lasts to the end.** -/
theorem Barred.append {s : Slot} (h : Barred m l i s) (k : Log) : Barred m (l ++ k) i s := by
  refine h.imp_left fun hs => ?_
  rw [slots_append]
  exact List.mem_append_left _ hs

/-- An entry with the text of a candidate that is free, but not for the candidate to adopt, has a
key that bars it. -/
theorem exists_barred (hentry : m.entries[i]? = some e)
    (hhash : e.contentHash = Digest.contentHash c.text) (hfree : i ∉ l.matched)
    (hunfit : ¬ Adoptable m l c e i) : ∃ key, e.key = some key ∧ Barred m l i ⟨c.ns, key⟩ := by
  cases hkey : e.key with
  | none => exact absurd (Adoptable.of_keyless hentry hkey hhash hfree) hunfit
  | some key =>
    refine ⟨key, rfl, ?_⟩
    by_contra hbarred
    simp only [Barred, not_or, not_exists, not_and, not_not] at hbarred
    obtain ⟨huntaken, howner⟩ := hbarred
    refine hunfit ⟨hentry, hhash, hfree, fun k hk => ?_, fun k hk => ?_⟩
    · rw [hkey] at hk
      exact Option.some.inj hk ▸ huntaken
    · rw [hkey] at hk
      exact Option.some.inj hk ▸ howner

/-- The slot of a candidate that was added bars no entry at the time. -/
theorem not_barred_of_unheld (hunheld : m.claimedBy? c = none)
    (huntaken : ∀ s, c.slot? = some s → s ∉ l.slots) {s : Slot} (hasks : c.slot? = some s) :
    ¬ Barred m l i s := by
  rintro (htaken | ⟨h, j, howner, -⟩)
  · exact huntaken s hasks htaken
  · rw [Manifest.claimedBy?_eq_none_iff.mp hunheld s hasks] at howner
    cases howner

/-- **Why an entry was not adopted.** If a candidate was added, then an entry with its text that
is free at the end has a key, another one than the candidate, and is barred from the namespace of
the candidate. -/
theorem Valid.barred_of_added (h : Valid m l) (hadded : ⟨c, .added⟩ ∈ l)
    (hentry : m.entries[i]? = some e) (hhash : e.contentHash = Digest.contentHash c.text)
    (hfree : i ∉ l.matched) :
    ∃ key, e.key = some key ∧ c.keyHint ≠ some key ∧ Barred m l i ⟨c.ns, key⟩ := by
  obtain ⟨before, after, rfl⟩ := List.append_of_mem hadded
  have hstep := h.split.2
  cases hstep with
  | added unheld none_fits untaken =>
    have hfree_then : i ∉ matched before := by
      rw [matched_append] at hfree
      exact fun hi => hfree (List.mem_append_left _ hi)
    obtain ⟨key, hkey, hbarred⟩ := exists_barred hentry hhash hfree_then (none_fits i e)
    refine ⟨key, hkey, fun hhint => ?_, hbarred.append _⟩
    have hasks : c.slot? = some ⟨c.ns, key⟩ := Candidate.slot?_eq_some_iff.mpr ⟨rfl, hhint⟩
    exact not_barred_of_unheld unheld untaken hasks hbarred

end Log

/-! ### The entries of a run -/

/-- The entries that a run has found or made. -/
def Outcome.observed (o : Outcome) : List Entry :=
  o.unchanged ++ o.updated.map Update.entry ++ o.created

section Outcome

variable {cs : List Candidate} {m : Manifest} {now : Instant}

theorem mem_created_iff {e : Entry} : e ∈ (reconcile cs m now).created ↔
    ∃ c, ⟨c, .added⟩ ∈ Log.run m cs ∧ e = Entry.ofCandidate c now := by
  simp only [reconcile_eq, List.mem_filterMap, List.mem_filter, and_assoc]
  constructor
  · rintro ⟨⟨c, f⟩, hr, hadded, hentry⟩
    cases f with
    | added => exact ⟨c, hr, (Option.some.inj hentry).symm⟩
    | claimed => cases hadded
    | adopted => cases hadded
    | dropped => cases hadded
  · rintro ⟨c, hr, rfl⟩
    exact ⟨_, hr, rfl, rfl⟩

/-- What a run has found or made, read off its log. -/
theorem observed_eq (cs : List Candidate) (m : Manifest) (now : Instant) :
    (reconcile cs m now).observed = (Log.run m cs).arranged.filterMap (Record.entry? now) := by
  simp only [Outcome.observed, reconcile_eq, Log.arranged, List.filterMap_append,
    map_entry_filter_isUpdated]

/-- The slots that are taken are those of the entries found or made. -/
theorem mem_slots_observed_iff (now : Instant) {s : Slot} :
    s ∈ (Log.run m cs).slots ↔ ∃ e ∈ (reconcile cs m now).observed, e.slot? = some s := by
  rw [observed_eq, ← (Log.slots_arranged now (Log.run m cs)).mem_iff, List.mem_filterMap]

/-- An entry that was not found is an orphan afterwards. -/
theorem mem_orphaned_of_unmatched {e : Entry} {i : Nat} (hentry : m.entries[i]? = some e)
    (hfree : i ∉ (reconcile cs m now).matched) :
    { e with status := .orphaned } ∈ (reconcile cs m now).orphaned := by
  rw [orphaned_reconcile]
  refine List.mem_map.mpr ⟨(e, i), List.mem_filter.mpr ⟨?_, by simpa using hfree⟩, rfl⟩
  exact List.mk_mem_zipIdx_iff_getElem?.mpr hentry

/-- **Nothing is created while a text could be revived.** Let a run create an entry, and let an
entry of the manifest with the same text not be found, so that it is an orphan afterwards. Then that
one has a key, another key than the new entry, and in the namespace of the new entry its key is held
by another entry of the manifest, or by an entry that the run has found or made. In particular it
is not an entry without a key. -/
theorem created_only_if_barred {e : Entry} (hcreated : e ∈ (reconcile cs m now).created)
    {b : Entry} {i : Nat} (hentry : m.entries[i]? = some b)
    (hfree : i ∉ (reconcile cs m now).matched) (hhash : b.contentHash = e.contentHash) :
    { b with status := .orphaned } ∈ (reconcile cs m now).orphaned ∧
    ∃ key, b.key = some key ∧ e.key ≠ some key ∧
      ((∃ j h, j ≠ i ∧ m.entries[j]? = some h ∧ h.ns = e.ns ∧ h.key = some key) ∨
        ∃ h ∈ (reconcile cs m now).observed, h.ns = e.ns ∧ h.key = some key) := by
  refine ⟨mem_orphaned_of_unmatched hentry hfree, ?_⟩
  obtain ⟨c, hadded, rfl⟩ := mem_created_iff.mp hcreated
  rw [mem_matched_reconcile_iff] at hfree
  obtain ⟨key, hkey, hother, hbarred⟩ :=
    (Log.valid_run m cs).barred_of_added hadded hentry hhash hfree
  refine ⟨key, hkey, hother, ?_⟩
  rcases hbarred with htaken | ⟨h, j, howner, hne⟩
  · obtain ⟨h, hobserved, hslot⟩ := (mem_slots_observed_iff now).mp htaken
    exact .inr ⟨h, hobserved, Entry.slot?_eq_some_iff.mp hslot⟩
  · obtain ⟨hh, hslot, -⟩ := Manifest.owner?_eq_some_iff.mp howner
    exact .inl ⟨j, h, hne, hh, Entry.slot?_eq_some_iff.mp hslot⟩

end Outcome

/-- A text comes back in a namespace where the key of its entry belongs to another text. -/
theorem created_beside_barred_text :
    let m := nextManifest [.plain "a" (some "k") "X", .plain "b" (some "k") "Y"] .fresh .epoch
    let o := reconcile [.plain "b" none "X"] m .epoch
    let e := Entry.ofCandidate (.plain "b" none "X") .epoch
    let b := Entry.ofCandidate (.plain "a" (some "k") "X") .epoch
    e ∈ o.created ∧ m.entries[0]? = some b ∧ 0 ∉ o.matched ∧ b.contentHash = e.contentHash ∧
      { b with status := .orphaned } ∈ o.orphaned ∧
      ∃ key, b.key = some key ∧ e.key ≠ some key ∧
        ((∃ j h, j ≠ 0 ∧ m.entries[j]? = some h ∧ h.ns = e.ns ∧ h.key = some key) ∨
          ∃ h ∈ o.observed, h.ns = e.ns ∧ h.key = some key) := by
  intro m o e b
  have hcreated : e ∈ o.created := by decide +kernel
  have hentry : m.entries[0]? = some b := by decide +kernel
  have hfree : 0 ∉ o.matched := by decide +kernel
  have hhash : b.contentHash = e.contentHash := by decide +kernel
  exact ⟨hcreated, hentry, hfree, hhash, created_only_if_barred hcreated hentry hfree hhash⟩

end KeyLedger
