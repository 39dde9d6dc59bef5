import KeyLedger.Proofs.Json.Canonical
import KeyLedger.Proofs.Text.ByteOrder
import Mathlib.Data.List.Nodup

/-!
# One text for each value

The order in which the members of an object stand is no part of the value that the object is. Two
values are the same in this sense if they are built alike and their objects have the same keys, with
the same values under them. The persisted form is a text for such a value as a whole: it is the same
whatever the order of members, it is different for values that differ in anything else, and what is
read from it is the value again.

In the text itself the keys of every object ascend, in the order of their UTF-8 bytes. A document
keeps its members as they stand in the text, so that the document of the text shows it.

## Main definitions

* `Json.Reorders` — values that differ in the order of members only
* `Doc.KeysAscend` — documents in which the keys of every object ascend

## Main results

* `Json.reorders_sortKeys` — the canonical form is the same value
* `Json.Reorders.sortKeys_eq` — values that are the same have one canonical form
* `sorted_text_canonical` — the persisted form is canonical
-/

namespace KeyLedger

namespace Json

/-- Two values that are the same but for the order in which the members of objects stand. -/
inductive Reorders : Json → Json → Prop
  /-- The null value. -/
  | null : Reorders .null .null
  /-- A truth value. -/
  | bool (b : Bool) : Reorders (.bool b) (.bool b)
  /-- A number. -/
  | num (n : Number) : Reorders (.num n) (.num n)
  /-- A string. -/
  | str (s : String) : Reorders (.str s) (.str s)
  /-- Arrays with the same items, place by place. -/
  | arr {vs ws : List Json} (length_eq : vs.length = ws.length)
      (items : ∀ (i : Nat) v w, vs[i]? = some v → ws[i]? = some w → Reorders v w) :
      Reorders (.arr vs) (.arr ws)
  /-- Objects with the same keys and with the same values under them. -/
  | obj {ms ns : List (String × Json)} (keys_perm : (ms.map Prod.fst).Perm (ns.map Prod.fst))
      (values : ∀ k v w, (k, v) ∈ ms → (k, w) ∈ ns → Reorders v w) :
      Reorders (.obj ms) (.obj ns)

variable {u v w : Json} {ms ns : List (String × Json)}

/-- A member of one of two objects has a counterpart in the other. -/
theorem exists_mem_of_keys_perm (h : (ms.map Prod.fst).Perm (ns.map Prod.fst)) {k : String}
    (hv : (k, v) ∈ ms) : ∃ w, (k, w) ∈ ns := by
  obtain ⟨⟨_, w⟩, hw, rfl⟩ := List.mem_map.mp (h.mem_iff.mp (List.mem_map_of_mem hv))
  exact ⟨w, hw⟩

/-! ### The same value -/

theorem Reorders.symm (h : Reorders v w) : Reorders w v := by
  induction h with
  | null => exact .null
  | bool b => exact .bool b
  | num n => exact .num n
  | str s => exact .str s
  | arr length_eq _ ih => exact .arr length_eq.symm fun i v w hv hw => ih i w v hw hv
  | obj keys_perm _ ih => exact .obj keys_perm.symm fun k v w hv hw => ih k w v hw hv

theorem Reorders.trans (huv : Reorders u v) (hvw : Reorders v w) : Reorders u w := by
  induction huv generalizing w with
  | null => exact hvw
  | bool b => exact hvw
  | num n => exact hvw
  | str s => exact hvw
  | @arr us vs length_eq _ ih =>
    cases hvw with
    | @arr _ ws length_eq' items =>
      refine .arr (length_eq.trans length_eq') fun i u w hu hw => ?_
      have hi : i < vs.length := length_eq ▸ (List.getElem?_eq_some_iff.mp hu).1
      have hv : vs[i]? = some vs[i] := List.getElem?_eq_getElem hi
      exact ih i u vs[i] hu hv (items i vs[i] w hv hw)
  | @obj ls ms keys_perm _ ih =>
    cases hvw with
    | @obj _ ns keys_perm' values =>
      refine .obj (keys_perm.trans keys_perm') fun k u w hu hw => ?_
      obtain ⟨v, hv⟩ := exists_mem_of_keys_perm keys_perm hu
      exact ih k u v hu hv (values k v w hv hw)

/-- Of values that are the same, either has integers for numbers and no key twice in an object, or
neither. -/
theorem Reorders.regular (h : Reorders v w) (hv : v.Regular) : w.Regular := by
  induction h with
  | null => exact hv
  | bool b => exact hv
  | num n => exact hv
  | str s => exact hv
  | @arr vs ws length_eq _ ih =>
    cases hv with
    | arr items_regular =>
      refine .arr fun w hw => ?_
      obtain ⟨i, hi, rfl⟩ := List.getElem_of_mem hw
      have hi' : i < vs.length := length_eq ▸ hi
      exact ih i vs[i] ws[i] (List.getElem?_eq_getElem hi') (List.getElem?_eq_getElem hi)
        (items_regular _ (List.getElem_mem hi'))
  | @obj ms ns keys_perm _ ih =>
    cases hv with
    | obj keys_nodup values_regular =>
      refine .obj (keys_perm.nodup_iff.mp keys_nodup) fun m hm => ?_
      obtain ⟨v, hv⟩ := exists_mem_of_keys_perm keys_perm.symm hm
      exact ih m.1 v m.2 hv hm (values_regular _ hv)

/-! ### The canonical form -/

/-- **The canonical form of a value is the same value.** -/
theorem reorders_sortKeys (hv : v.Steady) : Reorders v v.sortKeys := by
  induction hv with
  | null => exact .null
  | bool b => exact .bool b
  | num steady => exact .num _
  | str s => exact .str s
  | @arr items _ ih =>
    rw [sortKeys, sortKeysItems_eq]
    refine .arr (List.length_map _).symm fun i v w hv hw => ?_
    rw [List.getElem?_map, hv] at hw
    cases hw
    exact ih v (List.mem_of_getElem? hv)
  | @obj members keys_nodup _ ih =>
    rw [sortKeys]
    refine .obj ?_ fun k v w hv hw => ?_
    · have hkeys := (perm_sortMembers (sortKeysMembers members)).map Prod.fst
      rw [keys_sortKeysMembers] at hkeys
      exact hkeys.symm
    · obtain ⟨v', hv', heq⟩ := mem_sortMembers_sortKeysMembers hw
      rw [← lookup_eq_some_of_nodup keys_nodup] at hv'
      obtain rfl : v = v' :=
        Option.some.inj (((lookup_eq_some_of_nodup keys_nodup).mpr hv).symm.trans hv')
      rw [show w = v.sortKeys from heq]
      exact ih _ hv

/-- Members under different keys are sorted alike if they are the same up to order. -/
theorem sortMembers_eq_of_perm (h : ms.Perm ns) (hms : (ms.map Prod.fst).Nodup) :
    sortMembers ms = sortMembers ns := by
  have hns : (ns.map Prod.fst).Nodup := (h.map Prod.fst).nodup_iff.mp hms
  refine Members.Ascending.eq_of_perm (ascending_sortMembers hms) (ascending_sortMembers hns) ?_
  exact (perm_sortMembers ms).trans (h.trans (perm_sortMembers ns).symm)

/-- **Values that are the same have one canonical form.** -/
theorem Reorders.sortKeys_eq (h : Reorders v w) (hv : v.Steady) : v.sortKeys = w.sortKeys := by
  induction h with
  | null => rfl
  | bool b => rfl
  | num n => rfl
  | str s => rfl
  | @arr vs ws length_eq _ ih =>
    cases hv with
    | arr items_steady =>
      rw [sortKeys, sortKeys, sortKeysItems_eq, sortKeysItems_eq]
      refine congrArg Json.arr (List.ext_getElem (by simpa using length_eq) fun i hi hi' => ?_)
      rw [List.length_map] at hi hi'
      rw [List.getElem_map, List.getElem_map]
      exact ih i vs[i] ws[i] (List.getElem?_eq_getElem hi) (List.getElem?_eq_getElem hi')
        (items_steady _ (List.getElem_mem hi))
  | @obj ms ns keys_perm _ ih =>
    cases hv with
    | obj keys_nodup values_steady =>
      have hms : ((sortKeysMembers ms).map Prod.fst).Nodup := by
        rw [keys_sortKeysMembers]
        exact keys_nodup
      have hns : ((sortKeysMembers ns).map Prod.fst).Nodup := by
        rw [keys_sortKeysMembers]
        exact keys_perm.nodup_iff.mp keys_nodup
      have hsame : ∀ k v w, (k, v) ∈ ms → (k, w) ∈ ns → v.sortKeys = w.sortKeys :=
        fun k v w hv hw => ih k v w hv hw (values_steady _ hv)
      have hperm : (sortKeysMembers ms).Perm (sortKeysMembers ns) := by
        refine (List.perm_ext_iff_of_nodup (List.Nodup.of_map _ hms)
          (List.Nodup.of_map _ hns)).mpr fun m => ?_
        rw [sortKeysMembers_eq, sortKeysMembers_eq, List.mem_map, List.mem_map]
        constructor
        · rintro ⟨⟨k, v⟩, hv, rfl⟩
          obtain ⟨w, hw⟩ := exists_mem_of_keys_perm keys_perm hv
          exact ⟨(k, w), hw, by rw [hsame k v w hv hw]⟩
        · rintro ⟨⟨k, w⟩, hw, rfl⟩
          obtain ⟨v, hv⟩ := exists_mem_of_keys_perm keys_perm.symm hw
          exact ⟨(k, v), hv, by rw [hsame k v w hv hw]⟩
      rw [sortKeys, sortKeys, sortMembers_eq_of_perm hperm hms]

theorem Reorders.sortedText_eq (h : Reorders v w) (hv : v.Steady) :
    v.sortedText = w.sortedText := by
  rw [sortedText, sortedText, h.sortKeys_eq hv]

/-- The persisted form gives away the canonical form. -/
theorem sortKeys_eq_of_sortedText_eq (hv : v.Steady) (hw : w.Steady)
    (h : v.sortedText = w.sortedText) : v.sortKeys = w.sortKeys := by
  have hdoc : Doc.ofJson v.sortKeys = Doc.ofJson w.sortKeys := by
    have hparse := Doc.parse?_sortedText hv
    rw [h, Doc.parse?_sortedText hw] at hparse
    exact (Option.some.inj hparse).symm
  have hread := Doc.toJson?_ofJson_sortKeys hv (Nat.le_max_left v.depth w.depth)
  rw [hdoc, Doc.toJson?_ofJson_sortKeys hw (Nat.le_max_right v.depth w.depth)] at hread
  exact (Option.some.inj hread).symm

/-- The persisted form is one for values that are the same, and for no others. -/
theorem reorders_iff (hv : v.Regular) :
    Reorders v w ↔ w.Regular ∧ w.sortedText = v.sortedText := by
  constructor
  · intro h
    exact ⟨h.regular hv, (h.sortedText_eq hv.steady).symm⟩
  · rintro ⟨hw, htext⟩
    have hkeys := sortKeys_eq_of_sortedText_eq hw.steady hv.steady htext
    exact (reorders_sortKeys hv.steady).trans (hkeys ▸ (reorders_sortKeys hw.steady).symm)

end Json

/-! ### The text -/

namespace Doc

/-- A document in which the keys of every object ascend in the order of their UTF-8 bytes. -/
inductive KeysAscend : Doc → Prop
  /-- The null value. -/
  | null : KeysAscend .null
  /-- A truth value. -/
  | bool (b : Bool) : KeysAscend (.bool b)
  /-- A numeric literal. -/
  | num (n : Option Number) : KeysAscend (.num n)
  /-- A quoted string. -/
  | str (s : Option String) : KeysAscend (.str s)
  /-- An array of such documents. -/
  | arr {items : List Doc} (items_ascend : ∀ t ∈ items, KeysAscend t) : KeysAscend (.arr items)
  /-- An object with such documents, under keys that ascend. -/
  | obj {members : List (Option String × Doc)} {keys : List String}
      (keys_eq : members.map Prod.fst = keys.map some)
      (ascend : keys.Pairwise fun j k => Text.utf8 j < Text.utf8 k)
      (values_ascend : ∀ m ∈ members, KeysAscend m.2) : KeysAscend (.obj members)

theorem keysAscend_ofJson {ok : Number → Prop} {v : Json} (h : v.Canonical ok) :
    (ofJson v).KeysAscend := by
  induction h with
  | null => exact .null
  | bool b => exact .bool b
  | num _ => exact .num _
  | str s => exact .str _
  | arr _ ih =>
    rw [ofJson, ofJsonItems_eq]
    refine .arr fun t ht => ?_
    obtain ⟨v, hv, rfl⟩ := List.mem_map.mp ht
    exact ih v hv
  | @obj members ascending _ ih =>
    rw [ofJson, ofJsonMembers_eq]
    refine @KeysAscend.obj _ (members.map Prod.fst) ?_ ?_ fun m hm => ?_
    · rw [List.map_map, List.map_map]
      rfl
    · exact List.pairwise_map.mpr (ascending.imp fun hlt => Text.lt_iff_utf8_lt.mp hlt)
    · obtain ⟨n, hn, rfl⟩ := List.mem_map.mp hm
      exact ih n hn

end Doc

open Json (Reorders) in
/-- **The persisted form is canonical.** From the persisted form of a value the same value is read
again, which has the same persisted form. In the text the keys of every object ascend, byte by byte.
A value is the same if and only if it is well-formed and has the same text. -/
theorem sorted_text_canonical {v : Json} (hv : v.Regular) (hdepth : v.depth ≤ 127) :
    (∃ w, Json.parse? v.sortedText = some w ∧ Reorders v w ∧ w.sortedText = v.sortedText) ∧
    (∃ t, Doc.parse? v.sortedText = some t ∧ t.KeysAscend) ∧
    ∀ w, Reorders v w ↔ w.Regular ∧ w.sortedText = v.sortedText := by
  have hparse := Json.parse?_sortedText hv.steady hdepth
  have hsame := Json.reorders_sortKeys hv.steady
  refine ⟨⟨v.sortKeys, hparse, hsame, (hsame.sortedText_eq hv.steady).symm⟩,
    ⟨Doc.ofJson v.sortKeys, Doc.parse?_sortedText hv.steady, ?_⟩, fun w => Json.reorders_iff hv⟩
  exact Doc.keysAscend_ofJson (Json.canonical_of_parse? hparse).1

/-- Two keys whose order by UTF-16 units would be the other way round, over a string with a quote and
a control character and the least and the greatest integer. -/
theorem sorted_text_of_two_keys :
    let least : Json := .num (.int (-9223372036854775808) (by decide))
    let greatest : Json := .num (.int 18446744073709551615 (by decide))
    let v : Json := .obj [("😀", .arr [least, greatest]), ("ﬁ", .str "\"\x00")]
    let w : Json := .obj [("ﬁ", .str "\"\x00"), ("😀", .arr [least, greatest])]
    v.Regular ∧ v.depth ≤ 127 ∧ Json.Reorders v w ∧ w.sortedText = v.sortedText ∧
      (∃ u, Json.parse? v.sortedText = some u ∧ Json.Reorders v u ∧
        u.sortedText = v.sortedText) ∧
      ∃ t, Doc.parse? v.sortedText = some t ∧ t.KeysAscend := by
  intro least greatest v w
  have hitems : Json.Regular (.arr [least, greatest]) :=
    .arr (by simp [least, greatest, Json.Regular.int])
  have hv : v.Regular := .obj (by decide) (by simp [hitems, Json.Regular.str])
  have hself : ∀ {u : Json}, u.Regular → Json.Reorders u u :=
    fun hu => (Json.reorders_iff hu).mpr ⟨hu, rfl⟩
  have hvw : Json.Reorders v w := by
    refine .obj (List.Perm.swap _ _ _) fun k x y hx hy => ?_
    simp only [List.mem_cons, Prod.mk.injEq, List.not_mem_nil, or_false] at hx hy
    rcases hx with ⟨rfl, rfl⟩ | ⟨rfl, rfl⟩
    · obtain ⟨-, rfl⟩ := hy.resolve_left fun h => absurd h.1 (by decide)
      exact hself hitems
    · obtain ⟨-, rfl⟩ := hy.resolve_right fun h => absurd h.1 (by decide)
      exact hself (.str _)
  obtain ⟨hparse, hdoc, hsame⟩ := sorted_text_canonical hv (by decide)
  exact ⟨hv, by decide, hvw, ((hsame w).mp hvw).2, hparse, hdoc⟩

end KeyLedger
