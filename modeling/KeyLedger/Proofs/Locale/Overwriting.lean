import KeyLedger.Proofs.Dict
import KeyLedger.Proofs.Locale.Nested
import KeyLedger.Quarantine

/-!
# Values that overwrite each other

Putting a value under a key makes away with whatever was put under a key that goes on from it, and
with an earlier value under the key itself. Keys that part ways can be served in either order. There
is no such law for a key that goes on from one served before: it turns the value there into an
object, and the other way round nothing of it would be left.

Two laws are enough all the same to see that a sequence of values put one after the other, however
their keys are related, comes to the same if some of them are put in beforehand: data that one value
makes equal stay so whatever is put in between.

## Main definitions

* `Nested.put` — puts a value at a path
* `LocaleData.setAll` — puts in one value after the other
* `PartWays` — neither of two paths goes on from the other

## Main results

* `LocaleData.set_set_of_below` — a value replaces what is below it
* `LocaleData.set_comm_of_apart` — values under keys that part ways
* `LocaleData.setAll_setAll_of_subset` — values that are put in again later need not be put in
* `LocaleData.at?_setAll_of_mem` — a value stays if all other keys part ways with its own
* `LocaleData.at?_setAll_of_partWays` — what stands at a path stays if all keys part ways with it
-/

namespace KeyLedger

namespace Nested

/-- Puts a value at a path, replacing what is there. -/
def put (v : Json) (ks : List String) (ms : JsonMembers) : JsonMembers :=
  descend (fun k => Members.insert k v) ks ms

/-- What comes to stand under the first segment of a path, given the rest of it: the value itself if
the path ends there, and else the object in which the rest was followed. -/
def filled (v : Json) : List String → JsonMembers → Json
  | [], _ => v
  | k :: ks, ms => .obj (put v (k :: ks) ms)

variable {v w : Json} {k : String} {p q : List String} {ms ns : JsonMembers}

theorem put_cons (v : Json) (k : String) (ks : List String) (ms : JsonMembers) :
    put v (k :: ks) ms = Members.insert k (filled v ks (inner k ms)) ms := by
  cases ks <;> rfl

theorem filled_of_ne_nil (hp : p ≠ []) (v : Json) (ms : JsonMembers) :
    filled v p ms = .obj (put v p ms) := by
  cases p with
  | nil => exact absurd rfl hp
  | cons k p => rfl

theorem inner_insert_self (k : String) (ns ms : JsonMembers) :
    inner k (Members.insert k (.obj ns) ms) = ns := by
  rw [inner, Members.lookup_insert, if_pos rfl]

theorem inner_insert_of_ne {j : String} (h : k ≠ j) (v : Json) (ms : JsonMembers) :
    inner k (Members.insert j v ms) = inner k ms := by
  rw [inner, inner, Members.lookup_insert, if_neg h]

/-- **A value replaces what is below it.** -/
theorem put_put_of_below (hpq : p <+: q) (hp : p ≠ []) (v w : Json) (ms : JsonMembers) :
    put v p (put w q ms) = put v p ms := by
  induction p generalizing q ms with
  | nil => exact absurd rfl hp
  | cons k p ih =>
    cases q with
    | nil => exact absurd (List.prefix_nil.mp hpq) hp
    | cons j q =>
      obtain ⟨rfl, hrest⟩ := List.cons_prefix_cons.mp hpq
      rw [put_cons, put_cons, put_cons, Members.insert_insert]
      by_cases hend : p = []
      · subst hend
        rfl
      · have hq : q ≠ [] := fun hq => hend (List.prefix_nil.mp (hq ▸ hrest))
        rw [filled_of_ne_nil hend, filled_of_ne_nil hend, filled_of_ne_nil hq, inner_insert_self,
          ih hrest hend]

/-- **Values at paths that part ways.** -/
theorem put_comm_of_apart (hpq : ¬ p <+: q) (hqp : ¬ q <+: p) (v w : Json) (ms : JsonMembers) :
    put v p (put w q ms) = put w q (put v p ms) := by
  induction p generalizing q ms with
  | nil => exact absurd List.nil_prefix hpq
  | cons k p ih =>
    cases q with
    | nil => exact absurd List.nil_prefix hqp
    | cons j q =>
      simp only [put_cons]
      by_cases hkj : k = j
      · subst hkj
        rw [List.cons_prefix_cons, not_and] at hpq hqp
        have hp : p ≠ [] := fun hp => hpq rfl (hp ▸ List.nil_prefix)
        have hq : q ≠ [] := fun hq => hqp rfl (hq ▸ List.nil_prefix)
        simp only [filled_of_ne_nil hp, filled_of_ne_nil hq, inner_insert_self,
          Members.insert_insert]
        rw [ih (hpq rfl) (hqp rfl)]
      · rw [inner_insert_of_ne hkj, inner_insert_of_ne (Ne.symm hkj), Members.insert_comm hkj]

end Nested

namespace LocaleData

variable {d e : LocaleData} {j k : String} {v w : Json} {l l' : List (String × Json)}

theorem set_set_of_below (h : segmentsOf k <+: segmentsOf j) (v w : Json) (d : LocaleData) :
    (d.set j w).set k v = d.set k v :=
  Dict.eq_of_toList (Nested.put_put_of_below h (segmentsOf_ne_nil k) v w d.toList)

theorem set_comm_of_apart (hkj : ¬ segmentsOf k <+: segmentsOf j)
    (hjk : ¬ segmentsOf j <+: segmentsOf k) (v w : Json) (d : LocaleData) :
    (d.set j w).set k v = (d.set k v).set j w :=
  Dict.eq_of_toList (Nested.put_comm_of_apart hkj hjk v w d.toList)

theorem canonical_set {ok : Number → Prop} (h : (Json.ofDict d).Canonical ok)
    (hv : v.Canonical ok) (key : String) : (Json.ofDict (d.set key v)).Canonical ok :=
  Nested.canonical_descend (fun k _ hms => Nested.canonical_insert hms hv k) _ h

theorem depth_set_le {n : Nat} (h : (Json.ofDict d).depth ≤ n)
    (hkey : (segmentsOf k).length + v.depth ≤ n) : (Json.ofDict (d.set k v)).depth ≤ n :=
  Nested.depth_descend_le (fun k _ _ hv hms => Nested.depth_insert_le hms hv k) h hkey

/-! ### One value after the other -/

/-- Data that a value makes equal are made equal by it also after something else was put in. -/
theorem set_set_congr (h : d.set k v = e.set k v) (j : String) (w : Json) :
    (d.set j w).set k v = (e.set j w).set k v := by
  by_cases hkj : segmentsOf k <+: segmentsOf j
  · rw [set_set_of_below hkj, set_set_of_below hkj, h]
  · by_cases hjk : segmentsOf j <+: segmentsOf k
    · -- What is put in now would replace the value, so it makes the data equal by itself.
      have hset : d.set j w = e.set j w := by
        rw [← set_set_of_below hjk w v d, h, set_set_of_below hjk]
      rw [hset]
    · rw [set_comm_of_apart hkj hjk, set_comm_of_apart hkj hjk, h]

/-- Puts in one value after the other. -/
def setAll (d : LocaleData) (l : List (String × Json)) : LocaleData :=
  l.foldl (fun d m => d.set m.1 m.2) d

/-- Data that one of the values makes equal are made equal by all of them. -/
theorem setAll_congr (h : d.set k v = e.set k v) (hmem : (k, v) ∈ l) :
    setAll d l = setAll e l := by
  induction l generalizing d e with
  | nil => cases hmem
  | cons m l ih =>
    change setAll (d.set m.1 m.2) l = setAll (e.set m.1 m.2) l
    rcases List.mem_cons.mp hmem with rfl | hmem
    · rw [h]
    · exact ih (set_set_congr h m.1 m.2) hmem

/-- **Values that are put in again later need not be put in.** -/
theorem setAll_setAll_of_subset (h : l' ⊆ l) (d : LocaleData) :
    setAll (setAll d l') l = setAll d l := by
  induction l' generalizing d with
  | nil => rfl
  | cons m l' ih =>
    obtain ⟨hmem, hrest⟩ := List.cons_subset.mp h
    calc setAll (setAll (d.set m.1 m.2) l') l
        = setAll (d.set m.1 m.2) l := ih hrest _
      _ = setAll d l := setAll_congr (set_set_of_below List.prefix_rfl m.2 m.2 d) hmem

theorem setAll_setAll (d : LocaleData) (l : List (String × Json)) :
    setAll (setAll d l) l = setAll d l :=
  setAll_setAll_of_subset (List.Subset.refl l) d

/-- What each value leaves is there in the end. -/
theorem setAll_of_step {P : LocaleData → Prop} (h : P d)
    (hstep : ∀ e : LocaleData, ∀ m ∈ l, P e → P (e.set m.1 m.2)) : P (setAll d l) :=
  List.foldlRecOn (motive := P) l _ h fun e he m hm => hstep e m hm he

theorem canonical_setAll {ok : Number → Prop} (h : (Json.ofDict d).Canonical ok)
    (hl : ∀ m ∈ l, m.2.Canonical ok) : (Json.ofDict (setAll d l)).Canonical ok :=
  setAll_of_step (P := fun e => (Json.ofDict e).Canonical ok) h fun _ m hm he =>
    canonical_set he (hl m hm) m.1

theorem withTexts_eq_setAll (d : LocaleData) (texts : List (String × String)) :
    withTexts d texts = setAll d (texts.map fun t => (t.1, .str t.2)) := by
  rw [withTexts, setAll, List.foldl_map]

theorem withMarks_eq_setAll (d : LocaleData) (keys : List String) :
    withMarks d keys = setAll d (keys.map fun k => (k, deprecatedMark)) := by
  rw [withMarks, setAll, List.foldl_map]

end LocaleData

/-! ### What stands at a path -/

theorem Nested.puts_insert (v : Json) : Puts (fun k => Members.insert k v) (fun _ => v) :=
  fun k ms j => Members.lookup_insert k j v ms

/-- Neither of two paths goes on from the other. -/
def PartWays (p q : List String) : Prop := ¬ p <+: q ∧ ¬ q <+: p

namespace LocaleData

variable {d : LocaleData} {k : String} {v : Json} {path : List String} {l : List (String × Json)}

theorem at?_set_self (d : LocaleData) (k : String) (v : Json) :
    (Json.ofDict (d.set k v)).at? (segmentsOf k) = some v :=
  Nested.at?_descend_self (Nested.puts_insert v) (segmentsOf_ne_nil k) d.toList

theorem at?_set_of_partWays (h : PartWays path (segmentsOf k)) (v : Json) (d : LocaleData) :
    (Json.ofDict (d.set k v)).at? path = (Json.ofDict d).at? path :=
  Nested.at?_descend_of_apart (Nested.puts_insert v) h.1 h.2 d.toList

/-- **What stands at a path stays if all keys part ways with it.** -/
theorem at?_setAll_of_partWays (h : ∀ m ∈ l, PartWays path (segmentsOf m.1)) (d : LocaleData) :
    (Json.ofDict (setAll d l)).at? path = (Json.ofDict d).at? path :=
  setAll_of_step (P := fun e => (Json.ofDict e).at? path = (Json.ofDict d).at? path) rfl
    fun e m hm he => (at?_set_of_partWays (h m hm) m.2 e).trans he

/-- **A value stays if all other keys part ways with its own.** -/
theorem at?_setAll_of_mem (hmem : (k, v) ∈ l)
    (h : ∀ m ∈ l, m = (k, v) ∨ PartWays (segmentsOf k) (segmentsOf m.1)) (d : LocaleData) :
    (Json.ofDict (setAll d l)).at? (segmentsOf k) = some v := by
  obtain ⟨l₁, l₂, rfl⟩ := List.append_of_mem hmem
  have hsplit : setAll d (l₁ ++ (k, v) :: l₂) = setAll ((setAll d l₁).set k v) l₂ :=
    List.foldl_append
  rw [hsplit]
  refine setAll_of_step (P := fun e => (Json.ofDict e).at? (segmentsOf k) = some v)
    (at?_set_self _ k v) fun e m hm he => ?_
  rcases h m (List.mem_append_right _ (List.mem_cons_of_mem _ hm)) with rfl | hparts
  · exact at?_set_self e k v
  · exact (at?_set_of_partWays hparts m.2 e).trans he

end LocaleData

end KeyLedger
