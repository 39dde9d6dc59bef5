import KeyLedger.Proofs.Manifest.Wire
import KeyLedger.Proofs.Sorting
import KeyLedger.Proofs.Time.Text

/-!
# The order of stored entries

The persisted form of a manifest lists the entries by namespace, file and key, and entries that
agree in all three, which are *tied*, in the order in which the manifest has them. What is stored is
therefore determined by the entries up to a change of order that keeps tied entries in theirs, and
nothing else is lost.

## Main results

* `Manifest.ofText?_stableText_eq` — the persisted form is read as the manifest in order
* `Manifest.stableText_eq_iff` — two manifests are stored alike if and only if they are equal in
  order
-/

namespace KeyLedger

namespace Manifest

/-! ### The order of entries -/

theorem entryLE_iff {a b : Entry} : entryLE a b = true ↔
    a.ns < b.ns ∨ a.ns = b.ns ∧ (a.file < b.file ∨ a.file = b.file ∧
      a.key.getD "" ≤ b.key.getD "") := by
  unfold entryLE
  split
  · next hns => simp only [decide_eq_true_eq, hns, false_and, or_false]
  · next hns =>
    rw [not_not] at hns
    split
    · next hfile =>
      simp only [decide_eq_true_eq, hns, hfile, String.lt_irrefl, false_or, true_and, false_and,
        or_false]
    · next hfile =>
      rw [not_not] at hfile
      simp only [decide_eq_true_eq, hns, hfile, String.lt_irrefl, false_or, true_and]

theorem entryLE_trans (a b c : Entry) (hab : entryLE a b = true) (hbc : entryLE b c = true) :
    entryLE a c = true := by
  rw [entryLE_iff] at hab hbc ⊢
  rcases hab with hab | ⟨hns, hab⟩
  · rcases hbc with hbc | ⟨hns', -⟩
    · exact .inl (String.lt_trans hab hbc)
    · exact .inl (hns' ▸ hab)
  · rcases hbc with hbc | ⟨hns', hbc⟩
    · exact .inl (hns ▸ hbc)
    · refine .inr ⟨hns.trans hns', ?_⟩
      rcases hab with hab | ⟨hfile, hab⟩
      · rcases hbc with hbc | ⟨hfile', -⟩
        · exact .inl (String.lt_trans hab hbc)
        · exact .inl (hfile' ▸ hab)
      · rcases hbc with hbc | ⟨hfile', hbc⟩
        · exact .inl (hfile ▸ hbc)
        · exact .inr ⟨hfile.trans hfile', String.le_trans hab hbc⟩

theorem entryLE_total (a b : Entry) : (entryLE a b || entryLE b a) = true := by
  rw [Bool.or_eq_true, entryLE_iff, entryLE_iff]
  rcases Std.lt_trichotomy a.ns b.ns with hns | hns | hns
  · exact .inl (.inl hns)
  · rcases Std.lt_trichotomy a.file b.file with hfile | hfile | hfile
    · exact .inl (.inr ⟨hns, .inl hfile⟩)
    · rcases String.le_total (a.key.getD "") (b.key.getD "") with hkey | hkey
      · exact .inl (.inr ⟨hns, .inr ⟨hfile, hkey⟩⟩)
      · exact .inr (.inr ⟨hns.symm, .inr ⟨hfile.symm, hkey⟩⟩)
    · exact .inr (.inr ⟨hns.symm, .inl hfile⟩)
  · exact .inr (.inl hns)

/-- Entries are tied if they agree in namespace, file and key, where no key counts as the empty
one. -/
theorem tied_entryLE_iff {a b : Entry} : tied entryLE a b = true ↔
    a.ns = b.ns ∧ a.file = b.file ∧ a.key.getD "" = b.key.getD "" := by
  rw [tied_iff, entryLE_iff, entryLE_iff]
  constructor
  · rintro ⟨hab | ⟨hns, hab⟩, hba | ⟨hns', hba⟩⟩
    · exact absurd hba (String.lt_asymm hab)
    · exact absurd (hns' ▸ hab) (String.lt_irrefl _)
    · exact absurd (hns ▸ hba) (String.lt_irrefl _)
    · refine ⟨hns, ?_⟩
      rcases hab with hab | ⟨hfile, hab⟩ <;> rcases hba with hba | ⟨hfile', hba⟩
      · exact absurd hba (String.lt_asymm hab)
      · exact absurd (hfile' ▸ hab) (String.lt_irrefl _)
      · exact absurd (hfile ▸ hba) (String.lt_irrefl _)
      · exact ⟨hfile, String.le_antisymm hab hba⟩
  · rintro ⟨hns, hfile, hkey⟩
    exact ⟨.inr ⟨hns, .inr ⟨hfile, hkey ▸ String.le_refl _⟩⟩,
      .inr ⟨hns.symm, .inr ⟨hfile.symm, hkey ▸ String.le_refl _⟩⟩⟩

theorem sorted_perm (m : Manifest) : m.sorted.entries.Perm m.entries :=
  List.mergeSort_perm m.entries _

/-! ### What is stored -/

/-- **The persisted form of a manifest is read as the manifest in order.** -/
theorem ofText?_stableText_eq (m : Manifest) : ofText? m.stableText = some m.sorted := by
  have hall : ∀ es : List Entry, es.mapM Entry.restamped? = some es := by
    intro es
    induction es with
    | nil => rfl
    | cons e es ih => simp [List.mapM_cons, Entry.restamped?, Instant.parse?_text, ih]
  rw [ofText?_stableText, hall]
  rfl

/-- **Two manifests are stored alike if and only if they are equal in order.** -/
theorem stableText_eq_iff {m n : Manifest} : m.stableText = n.stableText ↔ m.sorted = n.sorted := by
  constructor
  · intro h
    have hread := ofText?_stableText_eq m
    rw [h, ofText?_stableText_eq] at hread
    exact (Option.some.inj hread).symm
  · intro h
    rw [stableText, stableText, h]

end Manifest

end KeyLedger
