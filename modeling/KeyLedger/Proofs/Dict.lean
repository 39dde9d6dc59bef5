import KeyLedger.Dict

/-!
# Looking up in a dictionary

What stands under a key after a change, and when a change is none. Members in ascending key order
hold each key once, so that a member can be told by its key.

## Main results

* `Members.lookup_insert` — what stands under a key after an insertion
* `Members.insert_of_lookup` — inserting what is there changes nothing
* `Members.insert_insert`, `Members.insert_comm` — two insertions under one key, and under two
* `Members.ofList_of_ascending` — members in key order stay as they are
* `Members.ofList_of_perm` — members in any order are put in key order
* `Dict.mem_toList_iff` — the members are what is found under the keys
-/

namespace KeyLedger

theorem nodup_of_ascending {l : List String} (h : l.Pairwise (· < ·)) : l.Nodup :=
  h.imp fun {a b} (hlt : a < b) (heq : a = b) => String.lt_irrefl _ (heq ▸ hlt)

/-- Members under different keys are told by their keys. -/
theorem lookup_eq_some_of_nodup {κ α : Type} [BEq κ] [LawfulBEq κ] {ms : List (κ × α)} {k : κ}
    {v : α} (hms : (ms.map Prod.fst).Nodup) : ms.lookup k = some v ↔ (k, v) ∈ ms := by
  induction ms with
  | nil => simp
  | cons m ms ih =>
    obtain ⟨k', v'⟩ := m
    obtain ⟨hnew, hrest⟩ := List.nodup_cons.mp hms
    rw [List.lookup_cons]
    by_cases hk : k = k'
    · subst hk
      have hother : (k, v) ∉ ms := fun hmem => hnew (List.mem_map.mpr ⟨_, hmem, rfl⟩)
      simp [hother, eq_comm]
    · have hbeq : (k == k') = false := by simpa using hk
      rw [hbeq]
      simp [ih hrest, hk]

namespace Members

variable {α : Type}

theorem Ascending.nodup_keys {ms : List (String × α)} (h : Ascending ms) :
    (ms.map Prod.fst).Nodup :=
  nodup_of_ascending (List.pairwise_map.mpr h)

/-- Members in key order are determined by which members they are. -/
theorem Ascending.eq_of_perm {ms ns : List (String × α)} (hms : Ascending ms) (hns : Ascending ns)
    (h : ms.Perm ns) : ms = ns :=
  h.eq_of_pairwise (fun _ _ _ _ hab hba => absurd hba (String.lt_asymm hab)) hms hns

theorem lookup_insert (k j : String) (v : α) (ms : List (String × α)) :
    (insert k v ms).lookup j = if j = k then some v else ms.lookup j := by
  induction ms with
  | nil =>
    by_cases hj : j = k
    · simp [insert, hj]
    · have hk : (j == k) = false := by simpa using hj
      simp [insert, List.lookup_cons, hk, hj]
  | cons m ms ih =>
    by_cases hj : j = k
    · rw [if_pos hj] at ih ⊢
      rw [insert]
      split
      · simp [hj]
      · split
        · simp [hj]
        · next hne =>
          have hm : (j == m.1) = false := by simpa [hj] using hne
          rw [List.lookup_cons, hm]
          exact ih
    · rw [if_neg hj] at ih ⊢
      have hk : (j == k) = false := by simpa using hj
      rw [insert]
      split
      · rw [List.lookup_cons, hk]
      · split
        · next heq =>
          have hm : (j == m.1) = false := heq ▸ hk
          rw [List.lookup_cons, hk, List.lookup_cons, hm]
        · rw [List.lookup_cons, List.lookup_cons, ih]

theorem lookup_insertNew (k j : String) (v : α) (ms : List (String × α)) :
    (insertNew k v ms).lookup j = if j = k then some ((ms.lookup k).getD v) else ms.lookup j := by
  rw [insertNew]
  cases hk : ms.lookup k with
  | none => exact lookup_insert k j v ms
  | some w =>
    rw [if_pos Option.isSome_some]
    split
    · next hj =>
      rw [hj, hk]
      rfl
    · rfl

theorem mem_keys_iff_lookup {k : String} {ms : List (String × α)} :
    k ∈ ms.map Prod.fst ↔ (ms.lookup k).isSome := by
  induction ms with
  | nil => simp
  | cons m ms ih =>
    rw [List.map_cons, List.mem_cons, List.lookup_cons, ih]
    by_cases hk : k = m.1
    · simp [hk]
    · have hbeq : (k == m.1) = false := by simpa using hk
      simp [hk, hbeq]

theorem mem_keys_insert {k j : String} {v : α} {ms : List (String × α)} :
    j ∈ (insert k v ms).map Prod.fst ↔ j = k ∨ j ∈ ms.map Prod.fst := by
  rw [mem_keys_iff_lookup, mem_keys_iff_lookup, lookup_insert]
  by_cases hj : j = k <;> simp [hj]

theorem mem_keys_ofList {j : String} {ms : List (String × α)} :
    j ∈ (ofList ms).map Prod.fst ↔ j ∈ ms.map Prod.fst := by
  have hfold : ∀ l acc : List (String × α),
      j ∈ (l.foldl (fun acc m => insert m.1 m.2 acc) acc).map Prod.fst ↔
        j ∈ acc.map Prod.fst ∨ j ∈ l.map Prod.fst := by
    intro l
    induction l with
    | nil => simp
    | cons m l ih =>
      intro acc
      rw [List.foldl_cons, ih, mem_keys_insert, List.map_cons, List.mem_cons, or_assoc,
        or_left_comm]
  rw [ofList, hfold]
  simp

theorem mem_of_lookup {k : String} {v : α} {ms : List (String × α)} (h : ms.lookup k = some v) :
    (k, v) ∈ ms := by
  obtain ⟨l₁, l₂, rfl, -⟩ := List.lookup_eq_some_iff.mp h
  exact List.mem_append_right _ List.mem_cons_self

/-- A member that is there already can be put in its place without any change. -/
theorem insert_of_lookup {k : String} {v : α} {ms : List (String × α)} (hms : Ascending ms)
    (h : ms.lookup k = some v) : insert k v ms = ms := by
  induction ms with
  | nil => cases h
  | cons m ms ih =>
    obtain ⟨hm, hms⟩ := List.pairwise_cons.mp hms
    by_cases hk : k = m.1
    · subst hk
      obtain ⟨_, w⟩ := m
      obtain rfl : w = v := by simpa using h
      rw [insert, if_neg (String.lt_irrefl _), if_pos rfl]
    · have hbeq : (k == m.1) = false := by simpa using hk
      rw [List.lookup_cons, hbeq] at h
      have hlt : m.1 < k := hm _ (mem_of_lookup h)
      rw [insert, if_neg (String.lt_asymm hlt), if_neg hk, ih hms h]

/-- A later insertion replaces an earlier one under its key. -/
theorem insert_insert (k : String) (v w : α) (ms : List (String × α)) :
    insert k v (insert k w ms) = insert k v ms := by
  induction ms with
  | nil => simp [insert]
  | cons m ms ih =>
    by_cases hlt : k < m.1
    · simp [insert, hlt]
    · by_cases heq : k = m.1
      · simp [insert, heq]
      · simp [insert, hlt, heq, ih]

theorem insert_comm_of_lt {j k : String} (hlt : j < k) (v w : α) (ms : List (String × α)) :
    insert j v (insert k w ms) = insert k w (insert j v ms) := by
  have hgt : ¬ k < j := String.lt_asymm hlt
  have hkj : k ≠ j := fun heq => hgt (heq ▸ hlt)
  induction ms with
  | nil => simp [insert, hlt, hgt, hkj]
  | cons m ms ih =>
    -- The member in front is compared with both keys.
    by_cases hjm : j < m.1
    · by_cases hkm : k < m.1
      · simp [insert, hlt, hgt, hjm, hkm, hkj]
      · by_cases hk : k = m.1
        · simp [insert, hlt, hgt, hkj, ← hk]
        · simp [insert, hgt, hjm, hkm, hk, hkj]
    · have hmk : m.1 < k := Std.lt_of_le_of_lt (String.not_lt.mp hjm) hlt
      have hne : k ≠ m.1 := fun heq => String.lt_irrefl _ (heq ▸ hmk)
      by_cases hj : j = m.1
      · simp [insert, hgt, ← hj, hkj]
      · simp [insert, hjm, hj, String.lt_asymm hmk, hne, ih]

/-- Insertions under different keys can be done in either order. -/
theorem insert_comm {j k : String} (hjk : j ≠ k) (v w : α) (ms : List (String × α)) :
    insert j v (insert k w ms) = insert k w (insert j v ms) := by
  by_cases hlt : j < k
  · exact insert_comm_of_lt hlt v w ms
  · have hgt : k < j := Std.lt_of_le_of_ne (String.not_lt.mp hlt) hjk.symm
    exact (insert_comm_of_lt hgt w v ms).symm

theorem insert_perm {k : String} {ms : List (String × α)} (h : k ∉ ms.map Prod.fst) (v : α) :
    (insert k v ms).Perm ((k, v) :: ms) := by
  induction ms with
  | nil => exact List.Perm.refl _
  | cons m ms ih =>
    rw [List.map_cons, List.mem_cons, not_or] at h
    rw [insert]
    split
    · exact List.Perm.refl _
    · rw [if_neg h.1]
      exact ((ih h.2).cons m).trans (List.Perm.swap _ _ _)

/-- Members under different keys are only rearranged. -/
theorem ofList_perm {ms : List (String × α)} (h : (ms.map Prod.fst).Nodup) :
    (ofList ms).Perm ms := by
  have hfold : ∀ l acc : List (String × α), ((acc ++ l).map Prod.fst).Nodup →
      (l.foldl (fun acc m => insert m.1 m.2 acc) acc).Perm (acc ++ l) := by
    intro l
    induction l with
    | nil => intro acc _; simp
    | cons m l ih =>
      intro acc hacc
      have hmiddle : (acc ++ m :: l).Perm (m :: (acc ++ l)) := List.perm_middle
      have hnew : m.1 ∉ acc.map Prod.fst := by
        intro hm
        have hcons := (hmiddle.map Prod.fst).nodup_iff.mp hacc
        rw [List.map_cons, List.nodup_cons, List.map_append] at hcons
        exact hcons.1 (List.mem_append_left _ hm)
      have hinsert : (insert m.1 m.2 acc ++ l).Perm (acc ++ m :: l) :=
        ((insert_perm hnew m.2).append_right l).trans hmiddle.symm
      exact (ih _ ((hinsert.map Prod.fst).nodup_iff.mpr hacc)).trans hinsert
  exact hfold ms [] h

/-- **Members in any order are put in key order.** -/
theorem ofList_of_perm {ms ns : List (String × α)} (h : ns.Perm ms) (hms : Ascending ms) :
    ofList ns = ms := by
  have hns : (ns.map Prod.fst).Nodup := (h.map Prod.fst).nodup_iff.mpr hms.nodup_keys
  exact (ascending_ofList ns).eq_of_perm hms ((ofList_perm hns).trans h)

/-- A list that ascends is in key order already. -/
theorem ofList_of_ascending {ms : List (String × α)} (h : Ascending ms) : ofList ms = ms :=
  ofList_of_perm (List.Perm.refl ms) h

theorem mem_of_mem_ofList {ms : List (String × α)} {m : String × α} (h : m ∈ ofList ms) :
    m ∈ ms := by
  have hfold : ∀ l acc : List (String × α),
      m ∈ l.foldl (fun acc m => insert m.1 m.2 acc) acc → m ∈ acc ∨ m ∈ l := by
    intro l
    induction l with
    | nil => exact fun acc hm => .inl hm
    | cons a l ih =>
      intro acc hm
      rcases ih _ hm with hm | hm
      · rcases mem_insert hm with rfl | hm
        · exact .inr List.mem_cons_self
        · exact .inl hm
      · exact .inr (List.mem_cons_of_mem _ hm)
  exact (hfold ms [] h).resolve_left List.not_mem_nil

end Members

namespace Dict

variable {α : Type}

/-- A dictionary is told by its members. -/
theorem eq_of_toList {d e : Dict α} (h : d.toList = e.toList) : d = e := by
  cases d
  cases e
  cases h
  rfl

theorem nodup_keys (d : Dict α) : (d.toList.map Prod.fst).Nodup :=
  d.ascending.nodup_keys

theorem mem_toList_iff {d : Dict α} {k : String} {v : α} :
    (k, v) ∈ d.toList ↔ d.find? k = some v :=
  (lookup_eq_some_of_nodup d.nodup_keys).symm

/-- A member is told by its key. -/
theorem eq_of_key {d : Dict α} {m m' : String × α} (hm : m ∈ d.toList) (hm' : m' ∈ d.toList)
    (h : m.1 = m'.1) : m = m' := by
  have hfind : d.find? m.1 = some m.2 := mem_toList_iff.mp hm
  rw [h, mem_toList_iff.mp hm'] at hfind
  exact Prod.ext h (Option.some.inj hfind).symm

theorem mem_keys_insert {d : Dict α} {k j : String} {v : α} :
    j ∈ (d.insert k v).keys ↔ j = k ∨ j ∈ d.keys :=
  Members.mem_keys_insert

theorem mem_keys_alter {d : Dict α} {k j : String} {v : α} {f : α → α} :
    j ∈ (d.alter k v f).keys ↔ j = k ∨ j ∈ d.keys :=
  mem_keys_insert

theorem mem_keys_ofList {ms : List (String × α)} {j : String} :
    j ∈ (ofList ms).keys ↔ j ∈ ms.map Prod.fst :=
  Members.mem_keys_ofList

theorem find?_insert (d : Dict α) (k j : String) (v : α) :
    (d.insert k v).find? j = if j = k then some v else d.find? j :=
  Members.lookup_insert k j v d.toList

/-- Of members that are put in place one after another, the first under a key is kept, unless there
was one before. -/
theorem find?_foldl_insertNew (ms : List (String × α)) (d : Dict α) (k : String) :
    (ms.foldl (fun d m => d.insertNew m.1 m.2) d).find? k = (d.find? k).or (ms.lookup k) := by
  induction ms generalizing d with
  | nil => simp
  | cons m ms ih =>
    have hstep : (d.insertNew m.1 m.2).find? k = _ := Members.lookup_insertNew m.1 k m.2 d.toList
    rw [List.foldl_cons, ih, hstep, List.lookup_cons]
    by_cases hk : k = m.1
    · have hold : d.toList.lookup m.1 = d.find? k := by rw [hk, find?]
      rw [if_pos hk, hold, beq_iff_eq.mpr hk]
      cases d.find? k <;> rfl
    · rw [if_neg hk, beq_eq_false_iff_ne.mpr hk]
      rfl

theorem find?_alter (d : Dict α) (k j : String) (v : α) (f : α → α) :
    (d.alter k v f).find? j = if j = k then some (f ((d.find? k).getD v)) else d.find? j :=
  find?_insert d k j _

end Dict

end KeyLedger
