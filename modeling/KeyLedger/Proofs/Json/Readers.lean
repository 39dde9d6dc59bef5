import KeyLedger.Json.Reader
import KeyLedger.Proofs.Json.Arrangements
import Mathlib.Data.List.Perm.Lattice

/-!
# Reading records from objects in any order

A canonical object has its members sorted by key, while a record is written in the order of its
fields. To a reader of records the order makes no difference: it looks fields up by name, and what
it finds under a name in an arrangement of an object is the arrangement of what was written there.

## Main definitions

* `Fields.FoundIn` — the fields of a record are those of an object

## Main results

* `lookup_eq_of_perm` — different keys can be looked up in any order
* `Json.lookup_sortKeys` — the members of a canonical object
* `Reader.record_arranged` — the fields of a record that is read from an arrangement of an object
-/

namespace KeyLedger

/-! ### Looking up -/

section Lookup

variable {α : Type} {ms ns : List (String × α)} {k : String}

/-- Members under different keys can be looked up in any order. -/
theorem lookup_eq_of_perm (h : ms.Perm ns) (hms : (ms.map Prod.fst).Nodup) :
    ms.lookup k = ns.lookup k := by
  have hns : (ns.map Prod.fst).Nodup := (h.map Prod.fst).nodup_iff.mp hms
  refine Option.ext fun v => ?_
  rw [lookup_eq_some_of_nodup hms, lookup_eq_some_of_nodup hns, h.mem_iff]

theorem lookup_map_snd {β : Type} (f : α → β) (k : String) (ms : List (String × α)) :
    (ms.map fun m => (m.1, f m.2)).lookup k = (ms.lookup k).map f := by
  induction ms with
  | nil => rfl
  | cons m ms ih =>
    rw [List.map_cons, List.lookup_cons, List.lookup_cons]
    cases k == m.1
    · exact ih
    · rfl

theorem lookup_filter {names : List String} (hk : k ∈ names) (ms : List (String × α)) :
    (ms.filter fun m => names.contains m.1).lookup k = ms.lookup k := by
  induction ms with
  | nil => rfl
  | cons m ms ih =>
    by_cases hm : names.contains m.1 = true
    · rw [List.filter_cons, if_pos hm, List.lookup_cons, List.lookup_cons, ih]
    · have hne : (k == m.1) = false := by
        simp only [beq_eq_false_iff_ne, ne_eq]
        rintro rfl
        exact hm (by simpa using hk)
      rw [List.filter_cons, if_neg hm, List.lookup_cons, hne, ih]

end Lookup

/-- What stands under a key of a canonical object. -/
theorem Json.lookup_sortKeys {ms : List (String × Json)} (hms : (ms.map Prod.fst).Nodup)
    (k : String) :
    (sortMembers (sortKeysMembers ms)).lookup k = (ms.lookup k).map sortKeys := by
  rw [lookup_eq_of_perm (perm_sortMembers _) (keys_sortMembers_nodup hms), sortKeysMembers_eq,
    lookup_map_snd]

/-! ### Records -/

/-- The fields of a record are those of the members of an object, arranged by `f`, and may be read
as deeply as these are nested. -/
structure Fields.FoundIn (fs : Fields) (f : Json → Json) (names : List String)
    (ms : List (String × Json)) : Prop where
  /-- Under each name stands what is written there. -/
  lookup : ∀ name ∈ names, fs.given.lookup name = (ms.lookup name).map fun v => Doc.ofJson (f v)
  /-- There are enough containers left. -/
  shallow : Json.depthMembers ms ≤ fs.budget

namespace Reader

variable {α : Type}

theorem fieldsOf?_ofJsonMembers {names : List String} {ms : List (String × Json)}
    (hms : (ms.map Prod.fst).Nodup) :
    fieldsOf? names (Doc.ofJsonMembers ms) =
      some ((ms.filter fun m => names.contains m.1).map fun m => (m.1, Doc.ofJson m.2)) := by
  have hnamed : (Doc.ofJsonMembers ms).mapM (fun m => m.1.map fun k => (k, m.2)) =
      some (ms.map fun m => (m.1, Doc.ofJson m.2)) := by
    rw [Doc.ofJsonMembers_eq]
    induction ms with
    | nil => rfl
    | cons m ms ih =>
      rw [List.map_cons, List.mapM_cons, ih (List.nodup_cons.mp hms).2]
      rfl
  have hfilter : (ms.map fun m => (m.1, Doc.ofJson m.2)).filter (fun m => names.contains m.1) =
      (ms.filter fun m => names.contains m.1).map fun m => (m.1, Doc.ofJson m.2) := by
    rw [List.filter_map]
    rfl
  have hknown : (((ms.filter fun m => names.contains m.1).map fun m =>
      (m.1, Doc.ofJson m.2)).map Prod.fst).Nodup := by
    rw [List.map_map]
    exact hms.sublist (List.filter_sublist.map Prod.fst)
  rw [fieldsOf?, hnamed]
  simp only [Option.bind_eq_bind, Option.bind_some, hfilter]
  rw [if_pos hknown]

/-- **A record is read from an object field by field**, however the members are arranged: under each
of its names stands the arrangement of what was written there. -/
theorem record_arranged {f : Json → Json} (hf : Json.Arranges f) (names : List String)
    (body : Fields → Option α) {budget : Nat} {ms : List (String × Json)}
    (hms : (ms.map Prod.fst).Nodup) (hdepth : (Json.obj ms).depth ≤ budget) :
    ∃ fs : Fields, record names body budget (Doc.ofJson (f (.obj ms))) = body fs ∧
      fs.FoundIn f names ms := by
  rw [Json.depth] at hdepth
  obtain ⟨b, rfl⟩ := Nat.exists_eq_add_of_le' (Nat.le_trans (Nat.le_add_left 1 _) hdepth)
  obtain ⟨ns, hperm, hobj⟩ := hf.obj ms
  have hns : (ns.map Prod.fst).Nodup := (hperm.map Prod.fst).nodup_iff.mpr hms
  have hkeys : ((ns.map fun m => (m.1, f m.2)).map Prod.fst).Nodup := by
    rw [List.map_map]
    exact hns
  rw [hobj, Doc.ofJson, record, fieldsOf?_ofJsonMembers hkeys]
  refine ⟨_, rfl, fun name hname => ?_, Nat.le_of_succ_le_succ hdepth⟩
  rw [lookup_map_snd, lookup_filter hname, lookup_map_snd, lookup_eq_of_perm hperm hns,
    Option.map_map]
  rfl

end Reader

/-! ### Numbers and other written forms -/

theorem Number.below?_ofNat {n bound : Nat} (h : n < bound) (hbound : bound ≤ UInt64.size) :
    (Number.ofNat n).below? bound = some n := by
  have hlt : n < 18446744073709551616 := Nat.lt_of_lt_of_le h hbound
  rw [ofNat, dif_pos hlt]
  change (if 0 ≤ (n : Int) ∧ (n : Int) < bound then some (n : Int).toNat else none) = some n
  rw [if_pos ⟨by omega, by omega⟩]
  rfl

namespace Json

theorem regular_optional (s : Option String) : (Json.optional s).Regular := by
  cases s with
  | none => exact .null
  | some s => exact .str s

theorem regular_nat (n : Nat) : (Json.nat n).Regular := by
  rw [nat, Number.ofNat]
  split
  · exact .int _ _
  · exact .int _ _

theorem regular_offset (n : UInt64) : (Json.offset n).Regular :=
  .int _ _

end Json

end KeyLedger
