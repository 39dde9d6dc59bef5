import KeyLedger.Proofs.Reconcile.Log

/-!
# Slots stay unique

A manifest is slot-unique when no two of its entries hold one slot. A run keeps it so, although it
fills the next manifest from four sources and may move an entry to another namespace in the middle:
the slots of the entries that were found or made are pairwise different, and none of them is the
slot of an orphan.

## The invariant

Two facts about a log carry the proof, and neither mentions the pass that a record belongs to. No
slot is taken twice (`Log.Valid.slots_nodup`), and a slot is taken only if the entry that held it in
the manifest, if there was one, has been found (`Log.Valid.matched_of_slot`). The second is what
keeps the orphans apart, and it also gives the first for claims: an entry that is still free has a
slot that is not taken.

## Main definitions

* `Manifest.SlotUnique` — no two entries hold one slot

## Main results

* `Log.Valid.slots_nodup`, `Log.Valid.matched_of_slot` — the invariant
* `Manifest.SlotUnique.nextManifest` — a run keeps slots unique
-/

namespace KeyLedger

namespace Manifest

/-- No two entries hold one slot. -/
def SlotUnique (m : Manifest) : Prop := (m.entries.filterMap Entry.slot?).Nodup

instance (m : Manifest) : Decidable m.SlotUnique := by unfold SlotUnique; infer_instance

theorem slotUnique_fresh : fresh.SlotUnique := List.nodup_nil

/-- Slot-uniqueness does not depend on the order of the entries. -/
theorem SlotUnique.of_perm {m n : Manifest} (hp : m.entries.Perm n.entries) (h : m.SlotUnique) :
    n.SlotUnique :=
  (hp.filterMap Entry.slot?).nodup_iff.mp h

theorem SlotUnique.eq_of_slot {m : Manifest} (h : m.SlotUnique) {i j : Nat} {a b : Entry} {s : Slot}
    (ha : m.entries[i]? = some a) (hb : m.entries[j]? = some b) (has : a.slot? = some s)
    (hbs : b.slot? = some s) : i = j := by
  have hpair := List.pairwise_iff_getElem.mp (List.pairwise_filterMap.mp h)
  obtain ⟨hi, rfl⟩ := List.getElem?_eq_some_iff.mp ha
  obtain ⟨hj, rfl⟩ := List.getElem?_eq_some_iff.mp hb
  rcases Nat.lt_trichotomy i j with hij | hij | hij
  · exact absurd rfl (hpair i j hi hj hij s has s hbs)
  · exact hij
  · exact absurd rfl (hpair j i hj hi hij s hbs s has)

/-- In a slot-unique manifest an entry that holds a slot is its owner. -/
theorem SlotUnique.owner? {m : Manifest} (h : m.SlotUnique) {i : Nat} {e : Entry} {s : Slot}
    (he : m.entries[i]? = some e) (hs : e.slot? = some s) : m.owner? s = some (e, i) := by
  refine owner?_eq_some_iff.mpr ⟨he, hs, fun j hj b hb hbs => ?_⟩
  exact absurd (h.eq_of_slot hb he hbs hs) (Nat.ne_of_lt hj)

end Manifest

namespace Log

variable {m : Manifest} {l : Log}

/-! ### The invariant -/

theorem Step.matched_of_slot {r : Record} (step : Step m l r) {s : Slot} (hs : r.slot? = some s)
    {e : Entry} {i : Nat} (ho : m.owner? s = some (e, i)) : r.index? = some i := by
  cases step with
  | claimed asks held free =>
    obtain ⟨-, hslot, -⟩ := Manifest.owner?_eq_some_iff.mp held
    obtain rfl : _ = s := Option.some.inj (hslot.symm.trans hs)
    rw [held] at ho
    cases ho
    rfl
  | repeated => cases hs
  | adopted unheld fits first =>
    obtain ⟨k, hk, rfl⟩ := Option.map_eq_some_iff.mp hs
    exact congrArg some (fits.owner k hk e i ho).symm
  | added unheld none_fits untaken =>
    rw [Manifest.claimedBy?_eq_none_iff.mp unheld s hs] at ho
    cases ho
  | crowded => cases hs

/-- A slot that is taken is held by no entry of the manifest that is still free. -/
theorem Valid.matched_of_slot (h : Valid m l) {s : Slot} (hs : s ∈ l.slots) {e : Entry} {i : Nat}
    (ho : m.owner? s = some (e, i)) : i ∈ l.matched := by
  induction h with
  | nil => cases hs
  | snoc init step ih =>
    rw [slots_append, List.mem_append] at hs
    rw [matched_append, List.mem_append]
    rcases hs with hs | hs
    · exact .inl (ih hs)
    · obtain ⟨r, hr, hrs⟩ := mem_slots_iff.mp hs
      obtain rfl := List.mem_singleton.mp hr
      exact .inr (mem_matched_iff.mpr ⟨r, hr, step.matched_of_slot hrs ho⟩)

theorem Step.slot_untaken (h : Valid m l) {r : Record} (step : Step m l r) {s : Slot}
    (hs : r.slot? = some s) : s ∉ l.slots := by
  cases step with
  | claimed asks held free =>
    obtain ⟨-, hslot, -⟩ := Manifest.owner?_eq_some_iff.mp held
    obtain rfl : _ = s := Option.some.inj (hslot.symm.trans hs)
    exact fun hmem => free (h.matched_of_slot hmem held)
  | repeated => cases hs
  | adopted unheld fits first =>
    obtain ⟨k, hk, rfl⟩ := Option.map_eq_some_iff.mp hs
    exact fits.untaken k hk
  | added unheld none_fits untaken => exact untaken s hs
  | crowded => cases hs

/-- No slot is taken twice. -/
theorem Valid.slots_nodup (h : Valid m l) : l.slots.Nodup := by
  induction h with
  | nil => exact List.nodup_nil
  | @snoc l r init step ih =>
    rw [slots_append]
    refine List.nodup_append.mpr ⟨ih, ?_, fun s hs t ht => ?_⟩
    · cases hr : r.slot? <;> simp [slots, hr]
    · obtain ⟨q, hq, hqt⟩ := mem_slots_iff.mp ht
      obtain rfl := List.mem_singleton.mp hq
      rintro rfl
      exact step.slot_untaken init hqt hs

/-! ### The next manifest -/

theorem slots_arranged (now : Instant) (l : Log) :
    ((l.arranged.filterMap (Record.entry? now)).filterMap Entry.slot?).Perm l.slots := by
  have hslots : ((l.arranged.filterMap (Record.entry? now)).filterMap Entry.slot?)
      = l.arranged.filterMap Record.slot? := by
    rw [List.filterMap_filterMap]
    exact congrArg (List.filterMap · l.arranged) (funext fun r => r.entry?_bind_slot? now)
  rw [hslots]
  refine filterMap_arranged_perm (fun r hr => ?_) l
  simp [Record.slot?, hr]

end Log

namespace Manifest

variable {m : Manifest}

theorem slots_orphans (is : List Nat) :
    (m.orphans is).filterMap Entry.slot? =
      ((m.entries.zipIdx.filter fun p => !is.contains p.2).map Prod.fst).filterMap Entry.slot? := by
  simp only [orphans, List.filterMap_map]
  rfl

theorem slots_orphans_sublist (is : List Nat) :
    ((m.orphans is).filterMap Entry.slot?).Sublist (m.entries.filterMap Entry.slot?) := by
  rw [slots_orphans]
  refine List.Sublist.filterMap _ ?_
  simpa only [List.zipIdx_map_fst] using
    (List.filter_sublist (p := fun p => !is.contains p.2) (l := m.entries.zipIdx)).map Prod.fst

theorem exists_of_mem_slots_orphans {is : List Nat} {s : Slot}
    (hs : s ∈ (m.orphans is).filterMap Entry.slot?) :
    ∃ i e, m.entries[i]? = some e ∧ e.slot? = some s ∧ i ∉ is := by
  rw [slots_orphans] at hs
  obtain ⟨e, he, hes⟩ := List.mem_filterMap.mp hs
  obtain ⟨⟨e', i⟩, hp, rfl⟩ := List.mem_map.mp he
  obtain ⟨hp, hi⟩ := List.mem_filter.mp hp
  exact ⟨i, e', List.mk_mem_zipIdx_iff_getElem?.mp hp, hes, by simpa using hi⟩

/-- **A run keeps slots unique.** -/
theorem SlotUnique.nextManifest (h : m.SlotUnique) (cs : List Candidate) (now : Instant) :
    (nextManifest cs m now).SlotUnique := by
  have hvalid := Log.valid_run m cs
  have hfound := Log.slots_arranged now (Log.run m cs)
  rw [SlotUnique, nextManifest_eq, List.filterMap_append]
  refine List.nodup_append.mpr ⟨hfound.nodup_iff.mpr hvalid.slots_nodup,
    h.sublist (slots_orphans_sublist _), fun s hs t ht => ?_⟩
  -- an orphan's slot is taken only if the orphan was found, which it was not
  rintro rfl
  obtain ⟨i, e, he, hes, hi⟩ := exists_of_mem_slots_orphans ht
  exact hi (hvalid.matched_of_slot (hfound.mem_iff.mp hs) (h.owner? he hes))

end Manifest

end KeyLedger
