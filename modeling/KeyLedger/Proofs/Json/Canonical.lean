import KeyLedger.Proofs.Json.Documents

/-!
# Canonical values

A value that was read from a text has the keys of its objects in ascending order, at every level,
and nests no deeper than a reader allows. Such a value is its own canonical form, so that it is
written as it is, and the text is read as the same value again; but a value that nests too deeply is
written all the same, and then nothing can read it.

Numbers need some care, since a double need not be what its own spelling denotes. The definition
therefore leaves open what is asked of them.

## Main definitions

* `Json.Canonical` — values with ascending keys at every level

## Main results

* `Json.Canonical.sortKeys` — a canonical value is its own canonical form
* `Json.canonical_of_parse?` — what is read is canonical, and not too deep
* `Json.Canonical.parse?_sortedText` — when a canonical value is read back
-/

namespace KeyLedger

namespace Json

/-- A value whose objects have their keys in ascending order, and whose numbers are as required. -/
inductive Canonical (ok : Number → Prop) : Json → Prop
  /-- The null value. -/
  | null : Canonical ok .null
  /-- A truth value. -/
  | bool (b : Bool) : Canonical ok (.bool b)
  /-- A number. -/
  | num {n : Number} (holds : ok n) : Canonical ok (.num n)
  /-- A string. -/
  | str (s : String) : Canonical ok (.str s)
  /-- An array of such values. -/
  | arr {items : List Json} (items_canonical : ∀ v ∈ items, Canonical ok v) :
      Canonical ok (.arr items)
  /-- An object with such values. -/
  | obj {members : List (String × Json)} (ascending : Members.Ascending members)
      (values_canonical : ∀ m ∈ members, Canonical ok m.2) : Canonical ok (.obj members)

variable {ok : Number → Prop} {v : Json}

theorem canonical_obj_nil : (obj []).Canonical ok :=
  .obj List.Pairwise.nil fun _ hm => absurd hm List.not_mem_nil

theorem Canonical.singleton (h : v.Canonical ok) (k : String) :
    (Json.obj [(k, v)]).Canonical ok := by
  refine .obj (List.pairwise_singleton _ _) fun m hm => ?_
  rw [List.mem_singleton.mp hm]
  exact h

/-- A canonical value whose numbers are denoted by their own spellings. -/
theorem Canonical.steady (h : v.Canonical Number.Steady) : v.Steady := by
  induction h with
  | null => exact .null
  | bool b => exact .bool b
  | num holds => exact .num holds
  | str s => exact .str s
  | arr _ ih => exact .arr ih
  | obj ascending _ ih => exact .obj ascending.nodup_keys ih

theorem Canonical.of_steady (h : v.Canonical ok) (hv : v.Steady) : v.Canonical Number.Steady := by
  induction h with
  | null => exact .null
  | bool b => exact .bool b
  | num _ =>
    cases hv with
    | num steady => exact .num steady
  | str s => exact .str s
  | arr _ ih =>
    cases hv with
    | arr items_steady => exact .arr fun v hmem => ih v hmem (items_steady v hmem)
  | obj ascending _ ih =>
    cases hv with
    | obj _ values_steady => exact .obj ascending fun m hm => ih m hm (values_steady m hm)

theorem sortMembers_of_ascending {ms : List (String × Json)} (h : Members.Ascending ms) :
    sortMembers ms = ms := by
  refine List.mergeSort_of_pairwise (h.imp fun {a b} hab => ?_)
  exact decide_eq_true (String.lt_asymm hab)

/-- **A canonical value is its own canonical form.** -/
theorem Canonical.sortKeys (h : v.Canonical ok) : v.sortKeys = v := by
  induction h with
  | null => rfl
  | bool b => rfl
  | num holds => rfl
  | str s => rfl
  | @arr items _ ih =>
    rw [Json.sortKeys, sortKeysItems_eq, List.map_congr_left ih, List.map_id']
  | @obj members ascending _ ih =>
    have hsame : members.map (fun m => (m.1, m.2.sortKeys)) = members := by
      refine (List.map_congr_left fun m hm => ?_).trans (List.map_id' members)
      rw [ih m hm]
    rw [Json.sortKeys, sortKeysMembers_eq, hsame, sortMembers_of_ascending ascending]

end Json

/-! ### Reading -/

namespace Doc

mutual

/-- A value that is read is canonical, and nests no deeper than it may. -/
theorem canonical_of_toJson? (budget : Nat) (t : Doc) {v : Json} (h : toJson? budget t = some v) :
    v.Canonical (fun _ => True) ∧ v.depth ≤ budget := by
  match t with
  | .null =>
    cases h
    exact ⟨.null, Nat.zero_le _⟩
  | .bool b =>
    cases h
    exact ⟨.bool b, Nat.zero_le _⟩
  | .num n =>
    obtain ⟨n, -, rfl⟩ := Option.map_eq_some_iff.mp h
    exact ⟨.num trivial, Nat.zero_le _⟩
  | .str s =>
    obtain ⟨s, -, rfl⟩ := Option.map_eq_some_iff.mp h
    exact ⟨.str s, Nat.zero_le _⟩
  | .arr items =>
    match budget with
    | 0 => cases h
    | b + 1 =>
      obtain ⟨vs, hvs, rfl⟩ := Option.map_eq_some_iff.mp h
      have hall := canonical_of_toJsonItems? b items hvs
      exact ⟨.arr fun v hv => (hall v hv).1,
        Nat.succ_le_succ (Json.depthItems_le_iff.mpr fun v hv => (hall v hv).2)⟩
  | .obj members =>
    match budget with
    | 0 => cases h
    | b + 1 =>
      obtain ⟨ms, hms, rfl⟩ := Option.map_eq_some_iff.mp h
      have hall : ∀ m ∈ Members.ofList ms, m.2.Canonical (fun _ => True) ∧ m.2.depth ≤ b :=
        fun m hm => canonical_of_toJsonMembers? b members hms m (Members.mem_of_mem_ofList hm)
      exact ⟨.obj (Members.ascending_ofList ms) fun m hm => (hall m hm).1,
        Nat.succ_le_succ (Json.depthMembers_le_iff.mpr fun m hm => (hall m hm).2)⟩

/-- `canonical_of_toJson?` for the items of an array. -/
theorem canonical_of_toJsonItems? (budget : Nat) (ts : List Doc) {vs : List Json}
    (h : toJsonItems? budget ts = some vs) :
    ∀ v ∈ vs, v.Canonical (fun _ => True) ∧ v.depth ≤ budget := by
  match ts with
  | [] =>
    cases h
    exact fun _ hmem => absurd hmem List.not_mem_nil
  | t :: ts =>
    obtain ⟨x, hx, hrest⟩ := Option.bind_eq_some_iff.mp h
    obtain ⟨xs, hxs, hcons⟩ := Option.bind_eq_some_iff.mp hrest
    cases hcons
    exact List.forall_mem_cons.mpr
      ⟨canonical_of_toJson? budget t hx, canonical_of_toJsonItems? budget ts hxs⟩

/-- `canonical_of_toJson?` for the members of an object. -/
theorem canonical_of_toJsonMembers? (budget : Nat) (ts : List (Option String × Doc))
    {ms : List (String × Json)} (h : toJsonMembers? budget ts = some ms) :
    ∀ m ∈ ms, m.2.Canonical (fun _ => True) ∧ m.2.depth ≤ budget := by
  match ts with
  | [] =>
    cases h
    exact fun _ hmem => absurd hmem List.not_mem_nil
  | (k, t) :: ts =>
    obtain ⟨key, -, hrest⟩ := Option.bind_eq_some_iff.mp h
    obtain ⟨x, hx, hrest⟩ := Option.bind_eq_some_iff.mp hrest
    obtain ⟨xs, hxs, hcons⟩ := Option.bind_eq_some_iff.mp hrest
    cases hcons
    exact List.forall_mem_cons.mpr
      ⟨canonical_of_toJson? budget t hx, canonical_of_toJsonMembers? budget ts hxs⟩

end

theorem exists_of_toJsonItems? {budget : Nat} {vs ws : List Json}
    (h : toJsonItems? budget (ofJsonItems vs) = some ws) {v : Json} (hv : v ∈ vs) :
    ∃ w, toJson? budget (ofJson v) = some w := by
  induction vs generalizing ws with
  | nil => cases hv
  | cons u vs ih =>
    obtain ⟨x, hx, hrest⟩ := Option.bind_eq_some_iff.mp h
    obtain ⟨xs, hxs, -⟩ := Option.bind_eq_some_iff.mp hrest
    rcases List.mem_cons.mp hv with rfl | hv
    · exact ⟨x, hx⟩
    · exact ih hxs hv

theorem exists_of_toJsonMembers? {budget : Nat} {ms ws : List (String × Json)}
    (h : toJsonMembers? budget (ofJsonMembers ms) = some ws) {m : String × Json} (hm : m ∈ ms) :
    ∃ w, toJson? budget (ofJson m.2) = some w := by
  induction ms generalizing ws with
  | nil => cases hm
  | cons u ms ih =>
    obtain ⟨x, hx, hrest⟩ := Option.bind_eq_some_iff.mp h
    obtain ⟨xs, hxs, -⟩ := Option.bind_eq_some_iff.mp hrest
    rcases List.mem_cons.mp hm with rfl | hm
    · exact ⟨x, hx⟩
    · exact ih hxs hm

/-- Nothing is read from a document that nests deeper than it may. -/
theorem depth_le_of_toJson? {ok : Number → Prop} {v w : Json} (hv : v.Canonical ok) {budget : Nat}
    (h : toJson? budget (ofJson v) = some w) : v.depth ≤ budget := by
  induction hv generalizing budget w with
  | null => exact Nat.zero_le _
  | bool b => exact Nat.zero_le _
  | num holds => exact Nat.zero_le _
  | str s => exact Nat.zero_le _
  | @arr items _ ih =>
    match budget with
    | 0 => cases h
    | b + 1 =>
      obtain ⟨ws, hws, -⟩ := Option.map_eq_some_iff.mp h
      refine Nat.succ_le_succ (Json.depthItems_le_iff.mpr fun v hv => ?_)
      obtain ⟨w, hw⟩ := exists_of_toJsonItems? hws hv
      exact ih v hv hw
  | @obj members _ _ ih =>
    match budget with
    | 0 => cases h
    | b + 1 =>
      obtain ⟨ws, hws, -⟩ := Option.map_eq_some_iff.mp h
      refine Nat.succ_le_succ (Json.depthMembers_le_iff.mpr fun m hm => ?_)
      obtain ⟨w, hw⟩ := exists_of_toJsonMembers? hws hm
      exact ih m hm hw

end Doc

namespace Json

variable {v : Json}

/-- **What is read from a text is canonical**, and nests no deeper than a reader allows. -/
theorem canonical_of_parse? {text : String} (h : parse? text = some v) :
    v.Canonical (fun _ => True) ∧ v.depth ≤ Doc.maxDepth := by
  obtain ⟨t, -, ht⟩ := Option.bind_eq_some_iff.mp h
  exact Doc.canonical_of_toJson? Doc.maxDepth t ht

/-- **A canonical value is read back**, unless it nests too deeply. -/
theorem Canonical.parse?_sortedText (h : v.Canonical Number.Steady) :
    parse? v.sortedText = if v.depth ≤ Doc.maxDepth then some v else none := by
  by_cases hdepth : v.depth ≤ Doc.maxDepth
  · rw [if_pos hdepth, Json.parse?_sortedText h.steady hdepth, h.sortKeys]
  · rw [if_neg hdepth, parse?, Doc.parse?_sortedText h.steady, h.sortKeys]
    refine Option.eq_none_iff_forall_ne_some.mpr fun w hw => hdepth ?_
    exact Doc.depth_le_of_toJson? h hw

end Json

end KeyLedger
