import KeyLedger.Proofs.Json.Canonical
import Mathlib.Data.List.Perm.Basic

/-!
# Values with their members in any order

The members of an object are written in the order of its fields, or sorted by key; either way it is
the same value to a reader. An arrangement puts the members of every object of a value in some order
and leaves all else as it is. A canonical value is read back from each of its arrangements.

## Main definitions

* `Json.Arranges` — a function that rearranges the members of objects

## Main results

* `Json.arranges_id`, `Json.arranges_sortKeys` — a value as it is, and its canonical form
* `Json.Arranges.toJson?_ofJson` — a canonical value is read from any arrangement of it
-/

namespace KeyLedger

namespace Json

/-- A function that rearranges the members of the objects in a value, at every level. -/
structure Arranges (f : Json → Json) : Prop where
  /-- The null value stays. -/
  null : f .null = .null
  /-- Truth values stay. -/
  bool : ∀ b, f (.bool b) = .bool b
  /-- Numbers stay. -/
  num : ∀ n, f (.num n) = .num n
  /-- Strings stay. -/
  str : ∀ s, f (.str s) = .str s
  /-- The items of an array keep their places. -/
  arr : ∀ items, f (.arr items) = .arr (items.map f)
  /-- The members of an object may change places. -/
  obj : ∀ ms : List (String × Json), ∃ ns : List (String × Json), ns.Perm ms ∧
    f (.obj ms) = .obj (ns.map fun m => (m.1, f m.2))

theorem arranges_id : Arranges id where
  null := rfl
  bool _ := rfl
  num _ := rfl
  str _ := rfl
  arr items := by rw [List.map_id]; rfl
  obj ms := ⟨ms, List.Perm.refl ms, congrArg Json.obj (List.map_id ms).symm⟩

theorem arranges_sortKeys : Arranges sortKeys where
  null := rfl
  bool _ := rfl
  num _ := rfl
  str _ := rfl
  arr items := by rw [sortKeys, sortKeysItems_eq]
  obj ms := by
    refine ⟨sortMembers ms, perm_sortMembers ms, ?_⟩
    rw [sortKeys, sortKeysMembers_eq, sortMembers, sortMembers, List.map_mergeSort]
    exact fun _ _ _ _ => rfl

variable {f : Json → Json} {ok : Number → Prop}

/-- **A canonical value is read from any arrangement of it**, if it does not nest too deeply. -/
theorem Arranges.toJson?_ofJson (hf : Arranges f) {v : Json} (hv : v.Canonical ok) {budget : Nat}
    (hdepth : v.depth ≤ budget) : Doc.toJson? budget (Doc.ofJson (f v)) = some v := by
  induction hv generalizing budget with
  | null => rw [hf.null]; rfl
  | bool b => rw [hf.bool]; rfl
  | num _ => rw [hf.num]; rfl
  | str s => rw [hf.str]; rfl
  | @arr items _ ih =>
    rw [Json.depth] at hdepth
    obtain ⟨b, rfl⟩ := Nat.exists_eq_add_of_le' (Nat.le_trans (Nat.le_add_left 1 _) hdepth)
    have hitems : ∀ v ∈ items, Doc.toJson? b (Doc.ofJson (f v)) = some v := by
      intro v hv
      exact ih v hv (depthItems_le_iff.mp (Nat.le_of_succ_le_succ hdepth) v hv)
    rw [hf.arr, Doc.ofJson, Doc.toJson?, Doc.toJsonItems?_eq hitems]
    rfl
  | @obj ms ascending _ ih =>
    rw [Json.depth] at hdepth
    obtain ⟨b, rfl⟩ := Nat.exists_eq_add_of_le' (Nat.le_trans (Nat.le_add_left 1 _) hdepth)
    obtain ⟨ns, hperm, hobj⟩ := hf.obj ms
    have hmembers : ∀ m ∈ ns, Doc.toJson? b (Doc.ofJson (f m.2)) = some m.2 := by
      intro m hm
      have hms : m ∈ ms := hperm.mem_iff.mp hm
      exact ih m hms (depthMembers_le_iff.mp (Nat.le_of_succ_le_succ hdepth) m hms)
    rw [hobj, Doc.ofJson, Doc.toJson?, Doc.toJsonMembers?_eq hmembers, Option.map_some,
      Members.ofList_of_perm hperm ascending]

end Json

end KeyLedger
