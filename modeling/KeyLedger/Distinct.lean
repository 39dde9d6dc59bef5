/-!
# Lists without repetitions

A list with every repetition dropped: each element stays where it first occurs.

## Main results

* `mem_distinct` — no element is lost
* `nodup_distinct` — none is left twice
-/

namespace KeyLedger

variable {α : Type} [DecidableEq α]

/-- The elements of a list in the order of their first occurrences. -/
def distinct : List α → List α
  | [] => []
  | a :: l => a :: (distinct l).filter (· ≠ a)

@[simp] theorem mem_distinct {a : α} {l : List α} : a ∈ distinct l ↔ a ∈ l := by
  induction l with
  | nil => rfl
  | cons b l ih =>
    by_cases h : a = b
    · simp [distinct, h]
    · simp [distinct, h, ih]

theorem nodup_distinct (l : List α) : (distinct l).Nodup := by
  induction l with
  | nil => exact List.nodup_nil
  | cons b l ih =>
    refine List.nodup_cons.2 ⟨by simp, ih.sublist List.filter_sublist⟩

end KeyLedger
