import KeyLedger.Proofs.Files.Stable
import KeyLedger.Proofs.Manifest.Order
import KeyLedger.Proofs.Manifest.Reachable

/-!
# Storing a manifest

Writing and reading a manifest are two programs that never meet: one prints canonical JSON, leaving
out what an entry does not have, and the other parses any JSON, looks fields up by name and, if one
of them is amiss, takes the whole file for no manifest. That a stored manifest comes back is
therefore worth stating for the files themselves: nothing is lost but the order of the entries, and
what takes its place is their order by namespace, file and key.

The order is described here without reference to how the entries are sorted, by what it does to
them: they are all there, they ascend, and entries of one rank stand as they stood.

## Main definitions

* `Entry.rank` — what entries are ordered by
* `RankedAs` — one list has the entries of another in order

## Main results

* `Manifest.rankedAs_sorted` — the persisted order
* `stored_manifest_comes_back` — what is read after a manifest was stored
-/

namespace KeyLedger

/-! ### The persisted order -/

/-- What entries are ordered by: namespace, file and key, where no key counts as the empty one. -/
def Entry.rank (e : Entry) : String × String × String := (e.ns, e.file, e.key.getD "")

/-- A list has the entries of another, ordered by rank, and those of one rank in the order of the
other list. -/
structure RankedAs (es sorted : List Entry) : Prop where
  /-- The entries are the same. -/
  perm : sorted.Perm es
  /-- Their ranks ascend: by namespace, then by file, then by key. -/
  ascending : sorted.Pairwise fun a b =>
    a.rank.1 < b.rank.1 ∨ a.rank.1 = b.rank.1 ∧ (a.rank.2.1 < b.rank.2.1 ∨
      a.rank.2.1 = b.rank.2.1 ∧ a.rank.2.2 ≤ b.rank.2.2)
  /-- Entries of one rank keep their order. -/
  stable : ∀ rank, sorted.filter (fun e => e.rank = rank) = es.filter (fun e => e.rank = rank)

namespace Manifest

theorem tied_iff_rank_eq {a b : Entry} : tied entryLE a b = true ↔ b.rank = a.rank := by
  rw [tied_entryLE_iff, Entry.rank, Entry.rank, Prod.mk.injEq, Prod.mk.injEq]
  exact and_congr eq_comm (and_congr eq_comm eq_comm)

/-- **The persisted order** is the order by rank. -/
theorem rankedAs_sorted (m : Manifest) : RankedAs m.entries m.sorted.entries where
  perm := m.sorted_perm
  ascending :=
    (List.pairwise_mergeSort entryLE_trans entryLE_total m.entries).imp fun h => entryLE_iff.mp h
  stable rank := by
    -- a rank that no entry has picks nothing; any other is the rank of an entry, and picks its ties
    by_cases hrank : ∃ e ∈ m.entries, e.rank = rank
    · obtain ⟨e, -, rfl⟩ := hrank
      have htied : (fun b : Entry => decide (b.rank = e.rank)) = tied entryLE e := by
        funext b
        rw [Bool.eq_iff_iff, decide_eq_true_eq, tied_iff_rank_eq]
      rw [htied]
      exact filter_tied_mergeSort entryLE_trans entryLE_total m.entries e
    · have hnone : ∀ e ∈ m.entries, ¬ decide (e.rank = rank) = true := by
        intro e he hr
        exact hrank ⟨e, he, of_decide_eq_true hr⟩
      rw [List.filter_eq_nil_iff.mpr hnone, List.filter_eq_nil_iff]
      exact fun e he => hnone e (m.sorted_perm.mem_iff.mp he)

theorem sorted_sorted (m : Manifest) : m.sorted.sorted = m.sorted := by
  have hsorted := List.pairwise_mergeSort entryLE_trans entryLE_total m.entries
  rw [sorted, sorted, List.mergeSort_of_pairwise hsorted]

end Manifest

/-! ### Storing and reading -/

section Storing

variable {p : Path} {m : Manifest} {d d' : Disk} {wrote : Bool}

/-- A manifest that was stored is read with its entries in order. -/
theorem readManifest_of_writeManifest
    (h : (writeManifest (m := DiskM) p m).run d = (.ok wrote, d')) :
    readManifest (m := DiskM) p d' = (m.sorted, d') := by
  have hread := readText_of_writeStable (DiskM.during_eq_ok_iff.mp h)
  rw [readManifest_of_ok hread, Manifest.ofText?_stableText_eq, Option.getD_some]

/-- After a manifest was stored, one that is equal to it in order is there already. -/
theorem writeManifest_again {n : Manifest}
    (h : (writeManifest (m := DiskM) p m).run d = (.ok wrote, d')) (hn : n.sorted = m.sorted) :
    (writeManifest (m := DiskM) p n).run d' = (.ok false, d') := by
  have hread := readText_of_writeStable (DiskM.during_eq_ok_iff.mp h)
  rw [← Manifest.stableText_eq_iff.mpr hn] at hread
  exact DiskM.during_eq_ok_iff.mpr (Disk.writeStable_of_readText hread)

/-- **A stored manifest comes back.** After a manifest was stored, reading gives a manifest with its
version and its entries in order, and storing either of the two again finds the very bytes and
leaves the disk alone. -/
theorem stored_manifest_comes_back
    (h : (writeManifest (m := DiskM) p m).run d = (.ok wrote, d')) :
    ∃ stored, readManifest (m := DiskM) p d' = (stored, d') ∧ stored.version = m.version ∧
      RankedAs m.entries stored.entries ∧
      (writeManifest (m := DiskM) p m).run d' = (.ok false, d') ∧
      (writeManifest (m := DiskM) p stored).run d' = (.ok false, d') :=
  ⟨m.sorted, readManifest_of_writeManifest h, rfl, m.rankedAs_sorted, writeManifest_again h rfl,
    writeManifest_again h m.sorted_sorted⟩

/-- Two entries out of order, one with all that an entry may have, the largest offset and a leap
second, and the other with nothing but what it must have. -/
theorem stored_pair_comes_back :
    let leap : Instant :=
      ⟨⟨-1, 12, 31, by decide⟩, ⟨23, 59, 59, 1500000000, by decide, by decide, by decide, by decide,
        by decide⟩⟩
    let full : Entry := ⟨"b.tsx", "b", some "\"é\n", some "p", .orphaned, "0", ⟨"p#0"⟩, 0,
      18446744073709551615, leap, some "c0ffee"⟩
    let bare : Entry := ⟨"", "a", none, none, .ignored, "", ⟨""⟩, 7, 3, leap, none⟩
    let m : Manifest := ⟨4294967295, [full, bare]⟩
    ∃ d', (writeManifest (m := DiskM) ⟨"m.json"⟩ m).run (.blank [] 0) = (.ok true, d') ∧
      ∃ stored, readManifest (m := DiskM) ⟨"m.json"⟩ d' = (stored, d') ∧
        stored.version = 4294967295 ∧ RankedAs [full, bare] stored.entries ∧
        (writeManifest (m := DiskM) ⟨"m.json"⟩ m).run d' = (.ok false, d') ∧
        (writeManifest (m := DiskM) ⟨"m.json"⟩ stored).run d' = (.ok false, d') := by
  intro leap full bare m
  have hwrite : (writeManifest (m := DiskM) ⟨"m.json"⟩ m).run (.blank [] 0) = (.ok true,
      ((Disk.blank [] 0).put ["m.json"] (.file (.text m.stableText) 0)).log ["m.json"]) := by
    rw [writeManifest]
    generalize m.stableText = text
    rfl
  exact ⟨_, hwrite, stored_manifest_comes_back hwrite⟩

end Storing

end KeyLedger
