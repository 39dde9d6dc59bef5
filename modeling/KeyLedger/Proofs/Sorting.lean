import Mathlib.Data.List.Basic

/-!
# Sorting that keeps ties

A sort by a total preorder that keeps *tied* elements, of which neither has to stand before the
other, in their order. What comes of it is determined by the stretches of tied elements, and so a
part of a list is sorted as within the list.

## Main definitions

* `tied` — neither of two elements has to stand before the other

## Main results

* `filter_tied_mergeSort` — sorting keeps tied elements in their order
* `mergeSort_eq_iff` — two lists are sorted alike if and only if tied elements stand alike
* `filter_mergeSort` — a part of a list is sorted as within the list
-/

namespace KeyLedger

variable {α : Type} {le : α → α → Bool}

/-- Neither of two elements has to stand before the other. -/
def tied (le : α → α → Bool) (a b : α) : Bool := le a b && le b a

theorem tied_iff {a b : α} : tied le a b = true ↔ le a b = true ∧ le b a = true :=
  Bool.and_eq_true_iff

variable (trans : ∀ a b c, le a b = true → le b c = true → le a c = true)
  (total : ∀ a b, (le a b || le b a) = true)

include trans total

/-- Sorting keeps tied elements in their order. -/
theorem filter_tied_mergeSort (l : List α) (a : α) :
    (l.mergeSort le).filter (tied le a) = l.filter (tied le a) := by
  have hpair : (l.filter (tied le a)).Pairwise fun b c => le b c = true := by
    refine List.pairwise_of_forall_mem_list fun b hb c hc => ?_
    exact trans b a c (tied_iff.mp (List.mem_filter.mp hb).2).2
      (tied_iff.mp (List.mem_filter.mp hc).2).1
  have hsub := (List.sublist_mergeSort trans total hpair List.filter_sublist).filter (tied le a)
  rw [List.filter_filter, show (fun b => tied le a b && tied le a b) = tied le a from
    funext fun b => Bool.and_self _] at hsub
  exact (hsub.eq_of_length ((List.mergeSort_perm l le).filter _).length_eq.symm).symm

omit trans in
/-- A sorted list is determined by its stretches of tied elements. -/
theorem eq_of_filter_tied {l₁ l₂ : List α} (h₁ : l₁.Pairwise fun a b => le a b = true)
    (h₂ : l₂.Pairwise fun a b => le a b = true)
    (h : ∀ a, l₁.filter (tied le a) = l₂.filter (tied le a)) : l₁ = l₂ := by
  have hself : ∀ a, tied le a a = true := fun a => by simpa [tied] using total a a
  have hmem : ∀ {l k : List α}, (∀ a, l.filter (tied le a) = k.filter (tied le a)) →
      ∀ a, a ∈ l → a ∈ k := by
    intro l k hlk a ha
    have hfilter := List.mem_filter.mpr ⟨ha, hself a⟩
    rw [hlk] at hfilter
    exact (List.mem_filter.mp hfilter).1
  induction l₁ generalizing l₂ with
  | nil => exact (List.eq_nil_iff_forall_not_mem.mpr fun b hb =>
      List.not_mem_nil (hmem (fun a => (h a).symm) b hb)).symm
  | cons a l₁ ih =>
    cases l₂ with
    | nil => exact absurd (hmem h a List.mem_cons_self) List.not_mem_nil
    | cons b l₂ =>
      obtain ⟨ha, htail₁⟩ := List.pairwise_cons.mp h₁
      obtain ⟨hb, htail₂⟩ := List.pairwise_cons.mp h₂
      -- each head stands before the other, so they are tied and lead the same stretch
      have hab : tied le a b = true := by
        rw [tied_iff]
        constructor
        · rcases List.mem_cons.mp (hmem (fun a => (h a).symm) b List.mem_cons_self) with rfl | hb
          · exact (tied_iff.mp (hself b)).1
          · exact ha b hb
        · rcases List.mem_cons.mp (hmem h a List.mem_cons_self) with rfl | ha
          · exact (tied_iff.mp (hself a)).1
          · exact hb a ha
      have hheads := h a
      rw [List.filter_cons_of_pos (hself a), List.filter_cons_of_pos hab] at hheads
      obtain rfl := (List.cons.inj hheads).1
      refine congrArg (a :: ·) (ih htail₁ htail₂ fun c => ?_)
      have hc := h c
      rw [List.filter_cons, List.filter_cons] at hc
      split at hc
      · exact (List.cons.inj hc).2
      · exact hc

/-- **Two lists are sorted alike if and only if tied elements stand alike in them.** -/
theorem mergeSort_eq_iff {l₁ l₂ : List α} :
    l₁.mergeSort le = l₂.mergeSort le ↔ ∀ a, l₁.filter (tied le a) = l₂.filter (tied le a) := by
  constructor
  · intro h a
    rw [← filter_tied_mergeSort trans total l₁, h, filter_tied_mergeSort trans total]
  · intro h
    refine eq_of_filter_tied total (List.pairwise_mergeSort trans total l₁)
      (List.pairwise_mergeSort trans total l₂) fun a => ?_
    rw [filter_tied_mergeSort trans total, filter_tied_mergeSort trans total, h]

/-- A part of a list is sorted as within the list. -/
theorem filter_mergeSort (p : α → Bool) (l : List α) :
    (l.mergeSort le).filter p = (l.filter p).mergeSort le := by
  refine eq_of_filter_tied total ((List.pairwise_mergeSort trans total l).filter p)
    (List.pairwise_mergeSort trans total _) fun a => ?_
  rw [filter_tied_mergeSort trans total, List.filter_comm, filter_tied_mergeSort trans total,
    List.filter_comm]

end KeyLedger
