import KeyLedger.Locale.Merge
import KeyLedger.Proofs.Json.Canonical
import Mathlib.Logic.Function.Iterate

/-!
# What stands under dotted keys

A key is looked up segment by segment, through objects only. Putting a value under a key decides
what is found there, and what is found under other keys only if the one goes on from the other: on
the way to the key there are objects afterwards, whatever was there before. Keys that part ways do
not see each other.

Blanks are supplied only where nothing is, so that they keep what stands at any path but those on
the way to a new key. There a value that is no object gives way to one. Supplying them again changes
nothing.

## Main definitions

* `Json.at?` — what stands at a path
* `Nested.Puts` — a change of one member, by what stood there

## Main results

* `Nested.at?_descend_self`, `Nested.at?_descend_of_apart`, `Nested.at?_descend_of_prefix` — what
  stands at a path after a change under a key
* `LocaleData.at?_withBlanks_iff` — which values blanks leave alone
* `LocaleData.withBlanks_of_present` — blanks that are there are not supplied again
* `LocaleData.depth_withBlanks_le_iff` — how deeply data nests once blanks are supplied
* `LocaleData.ofText_text`, `LocaleData.parse?_iterate_blanked` — what is read back
-/

namespace KeyLedger

namespace Json

/-- What stands at a path of keys, followed through objects only. -/
def at? : List String → Json → Option Json
  | [], v => some v
  | k :: ks, .obj ms => (ms.lookup k).bind (at? ks)
  | _ :: _, _ => none

variable {v w : Json} {k : String} {ks path : List String} {ms : JsonMembers}

@[simp] theorem at?_nil (v : Json) : v.at? [] = some v := rfl

@[simp] theorem at?_cons_obj (k : String) (ks : List String) (ms : JsonMembers) :
    (obj ms).at? (k :: ks) = (ms.lookup k).bind (at? ks) := rfl

/-- A path that goes on leads through an object. -/
theorem exists_of_at?_cons (h : v.at? (k :: ks) = some w) :
    ∃ ms u, v = .obj ms ∧ ms.lookup k = some u ∧ u.at? ks = some w := by
  cases v with
  | obj ms =>
    obtain ⟨u, hu, hw⟩ := Option.bind_eq_some_iff.mp h
    exact ⟨ms, u, rfl, hu, hw⟩
  | _ => cases h

theorem at?_append (p q : List String) (v : Json) :
    v.at? (p ++ q) = (v.at? p).bind (at? q) := by
  induction p generalizing v with
  | nil => rfl
  | cons k p ih =>
    cases v with
    | obj ms =>
      rw [List.cons_append, at?_cons_obj, at?_cons_obj, Option.bind_assoc]
      exact Option.bind_congr fun u _ => ih u
    | _ => rfl

/-- What stands at the end of a path is nested at least as deeply as the path is long. -/
theorem length_add_depth_le (h : v.at? path = some w) : path.length + w.depth ≤ v.depth := by
  induction path generalizing v with
  | nil =>
    cases h
    exact Nat.le_of_eq (Nat.zero_add _)
  | cons k path ih =>
    obtain ⟨ms, u, rfl, hu, hw⟩ := exists_of_at?_cons h
    have hdepth : u.depth ≤ depthMembers ms :=
      depthMembers_le_iff.mp (Nat.le_refl _) _ (Members.mem_of_lookup hu)
    have hrest := ih hw
    rw [depth, List.length_cons]
    omega

end Json

/-! ### Changing what stands under a key -/

namespace Nested

variable {f : String → JsonMembers → JsonMembers} {put : Option Json → Json}
  {k : String} {ks path : List String} {ms : JsonMembers}

/-- A change of the member under a key, by what stood there before. -/
def Puts (f : String → JsonMembers → JsonMembers) (put : Option Json → Json) : Prop :=
  ∀ k ms j, (f k ms).lookup j = if j = k then some (put (ms.lookup k)) else ms.lookup j

theorem puts_insertNew (v : Json) : Puts (fun k => Members.insertNew k v) (·.getD v) :=
  fun k ms j => Members.lookup_insertNew k j v ms

/-- Below a key one is in the object under it. -/
theorem at?_inner (k j : String) (js : List String) (ms : JsonMembers) :
    (Json.obj (inner k ms)).at? (j :: js) = (Json.obj ms).at? (k :: j :: js) := by
  rw [inner, Json.at?_cons_obj k]
  cases hk : ms.lookup k with
  | none => rfl
  | some v => cases v <;> rfl

/-- At the key stands what was put there. -/
theorem at?_descend_self (hf : Puts f put) (hks : ks ≠ []) (ms : JsonMembers) :
    (Json.obj (descend f ks ms)).at? ks = some (put ((Json.obj ms).at? ks)) := by
  fun_induction descend f ks ms with
  | case1 => exact absurd rfl hks
  | case2 leaf ms =>
    rw [Json.at?_cons_obj, hf, if_pos rfl, Json.at?_cons_obj]
    cases ms.lookup leaf <;> rfl
  | case3 k j js ms ih =>
    rw [Json.at?_cons_obj, Members.lookup_insert, if_pos rfl, Option.bind_some,
      ih (List.cons_ne_nil j js), at?_inner]

/-- At a path that parts from the way to the key stands what stood there. -/
theorem at?_descend_of_apart (hf : Puts f put) (hpath : ¬ path <+: ks) (hks : ¬ ks <+: path)
    (ms : JsonMembers) : (Json.obj (descend f ks ms)).at? path = (Json.obj ms).at? path := by
  fun_induction descend f ks ms generalizing path with
  | case1 => exact absurd List.nil_prefix hks
  | case2 leaf ms =>
    cases path with
    | nil => exact absurd List.nil_prefix hpath
    | cons i is =>
      have hne : i ≠ leaf := by
        rintro rfl
        exact hks (List.cons_prefix_cons.mpr ⟨rfl, List.nil_prefix⟩)
      rw [Json.at?_cons_obj, hf, if_neg hne, Json.at?_cons_obj]
  | case3 k j js ms ih =>
    cases path with
    | nil => exact absurd List.nil_prefix hpath
    | cons i is =>
      rw [Json.at?_cons_obj, Members.lookup_insert]
      by_cases hi : i = k
      · subst hi
        rw [List.cons_prefix_cons, not_and] at hpath hks
        rw [if_pos rfl, Option.bind_some, ih (hpath rfl) (hks rfl)]
        cases is with
        | nil => exact absurd List.nil_prefix (hpath rfl)
        | cons i' is => exact at?_inner i i' is ms
      · rw [if_neg hi, Json.at?_cons_obj]

/-- On the way to the key there are objects. -/
theorem at?_descend_of_prefix (f : String → JsonMembers → JsonMembers) (hpath : path <+: ks)
    (hne : path ≠ ks) (ms : JsonMembers) :
    ∃ ns, (Json.obj (descend f ks ms)).at? path = some (.obj ns) := by
  fun_induction descend f ks ms generalizing path with
  | case1 => exact absurd (List.prefix_nil.mp hpath) hne
  | case2 leaf ms =>
    cases path with
    | nil => exact ⟨_, rfl⟩
    | cons i is =>
      obtain ⟨rfl, his⟩ := List.cons_prefix_cons.mp hpath
      exact absurd (by rw [List.prefix_nil.mp his]) hne
  | case3 k j js ms ih =>
    cases path with
    | nil => exact ⟨_, rfl⟩
    | cons i is =>
      obtain ⟨rfl, his⟩ := List.cons_prefix_cons.mp hpath
      rw [Json.at?_cons_obj, Members.lookup_insert, if_pos rfl, Option.bind_some]
      exact ih his fun h => hne (by rw [h])

/-! ### Order and depth -/

variable {ok : Number → Prop} {v : Json}

theorem canonical_insert (h : (Json.obj ms).Canonical ok) (hv : v.Canonical ok) (k : String) :
    (Json.obj (Members.insert k v ms)).Canonical ok := by
  cases h with
  | obj ascending values_canonical =>
    refine .obj ascending.insert fun m hm => ?_
    rcases Members.mem_insert hm with rfl | hm
    · exact hv
    · exact values_canonical m hm

theorem canonical_insertNew (h : (Json.obj ms).Canonical ok) (hv : v.Canonical ok) (k : String) :
    (Json.obj (Members.insertNew k v ms)).Canonical ok := by
  rw [Members.insertNew]
  split
  · exact h
  · exact canonical_insert h hv k

theorem canonical_inner (h : (Json.obj ms).Canonical ok) (k : String) :
    (Json.obj (inner k ms)).Canonical ok := by
  cases h with
  | obj _ values_canonical =>
    rw [inner]
    split
    · next hk => exact values_canonical _ (Members.mem_of_lookup hk)
    · exact Json.canonical_obj_nil

theorem canonical_descend
    (hf : ∀ k {ms}, (Json.obj ms).Canonical ok → (Json.obj (f k ms)).Canonical ok)
    (ks : List String) (h : (Json.obj ms).Canonical ok) :
    (Json.obj (descend f ks ms)).Canonical ok := by
  fun_induction descend f ks ms with
  | case1 => exact h
  | case2 leaf ms => exact hf leaf h
  | case3 k j js ms ih => exact canonical_insert h (ih (canonical_inner h k)) k

theorem depth_insert_le {n : Nat} (h : (Json.obj ms).depth ≤ n + 1) (hv : v.depth ≤ n)
    (k : String) : (Json.obj (Members.insert k v ms)).depth ≤ n + 1 := by
  refine Nat.succ_le_succ (Json.depthMembers_le_iff.mpr fun m hm => ?_)
  rcases Members.mem_insert hm with rfl | hm
  · exact hv
  · exact Json.depthMembers_le_iff.mp (Nat.le_of_succ_le_succ h) m hm

theorem depth_insertNew_le {n : Nat} (h : (Json.obj ms).depth ≤ n + 1) (hv : v.depth ≤ n)
    (k : String) : (Json.obj (Members.insertNew k v ms)).depth ≤ n + 1 := by
  rw [Members.insertNew]
  split
  · exact h
  · exact depth_insert_le h hv k

theorem depth_inner_le {n : Nat} (h : (Json.obj ms).depth ≤ n + 1) (hn : 0 < n) (k : String) :
    (Json.obj (inner k ms)).depth ≤ n := by
  rw [inner]
  split
  · next hk =>
    exact Json.depthMembers_le_iff.mp (Nat.le_of_succ_le_succ h) _ (Members.mem_of_lookup hk)
  · exact hn

/-- What is put under a key nests as deeply as the key is long, and by its own depth `m` deeper. -/
theorem depth_descend_le {m n : Nat}
    (hf : ∀ k {ms n}, m ≤ n → (Json.obj ms).depth ≤ n + 1 → (Json.obj (f k ms)).depth ≤ n + 1)
    (h : (Json.obj ms).depth ≤ n) (hks : ks.length + m ≤ n) :
    (Json.obj (descend f ks ms)).depth ≤ n := by
  fun_induction descend f ks ms generalizing n with
  | case1 => exact h
  | case2 leaf ms =>
    rw [List.length_singleton] at hks
    obtain ⟨n, rfl⟩ := Nat.exists_eq_add_of_le' (Nat.le_of_add_right_le hks)
    exact hf leaf (by omega) h
  | case3 k j js ms ih =>
    rw [List.length_cons] at hks
    obtain ⟨n, rfl⟩ := Nat.exists_eq_add_of_le' (show 1 ≤ n by omega)
    have hrest : (j :: js).length + m ≤ n := by omega
    have hpos : 0 < n := Nat.lt_of_lt_of_le (Nat.succ_pos _) (Nat.le_of_add_right_le hrest)
    exact depth_insert_le h (ih (depth_inner_le h hpos k) hrest) k

/-- A change that does nothing at the end of the way does nothing on it. -/
theorem descend_eq_self (hf : ∀ k ms w, ms.lookup k = some w → f k ms = ms) {w : Json}
    (h : (Json.obj ms).Canonical ok) (hw : (Json.obj ms).at? ks = some w) :
    descend f ks ms = ms := by
  fun_induction descend f ks ms with
  | case1 => rfl
  | case2 leaf ms =>
    obtain ⟨_, u, heq, hu, -⟩ := Json.exists_of_at?_cons hw
    cases heq
    exact hf leaf ms u hu
  | case3 k j js ms ih =>
    obtain ⟨_, u, heq, hu, hrest⟩ := Json.exists_of_at?_cons hw
    cases heq
    obtain ⟨ns, _, rfl, -, -⟩ := Json.exists_of_at?_cons hrest
    have hinner : inner k ms = ns := by rw [inner, hu]
    rw [ih (canonical_inner h k) (hinner ▸ hrest), hinner]
    cases h with
    | obj ascending _ => exact Members.insert_of_lookup ascending hu

end Nested

/-! ### Supplying blanks -/

theorem segmentsOf_ne_nil (key : String) : segmentsOf key ≠ [] := by
  have hpieces : Text.pieces '.' key.toList ≠ [] := by
    cases key.toList with
    | nil => exact List.cons_ne_nil _ _
    | cons c cs =>
      rw [Text.pieces]
      split
      · exact List.cons_ne_nil _ _
      · split <;> exact List.cons_ne_nil _ _
  exact fun h => hpieces (List.map_eq_nil_iff.mp h)

/-- A path that is on the way to a key and ends before it. -/
def OnWay (path : List String) (key : String) : Prop :=
  path <+: segmentsOf key ∧ path ≠ segmentsOf key

namespace LocaleData

variable {d : LocaleData} {key : String} {keys path : List String} {u v w : Json}

/-- What stands at a path stays there, unless the path is on the way to the key. -/
theorem at?_ensure_of_some (hpath : ¬ OnWay path key) (hw : (Json.ofDict d).at? path = some w) :
    (Json.ofDict (d.ensure key v)).at? path = some w := by
  by_cases hpre : segmentsOf key <+: path
  · obtain ⟨rest, rfl⟩ := hpre
    rw [Json.at?_append] at hw ⊢
    obtain ⟨u, hu, hw⟩ := Option.bind_eq_some_iff.mp hw
    have hself : (Json.ofDict (d.ensure key v)).at? (segmentsOf key) = _ :=
      Nested.at?_descend_self (Nested.puts_insertNew v) (segmentsOf_ne_nil key) d.toList
    rw [hself]
    change (some (((Json.ofDict d).at? (segmentsOf key)).getD v)).bind _ = _
    rw [hu]
    exact hw
  · have hapart : ¬ path <+: segmentsOf key := by
      intro h
      exact hpath ⟨h, fun heq => hpre (heq ▸ List.prefix_rfl)⟩
    exact (Nested.at?_descend_of_apart (Nested.puts_insertNew v) hapart hpre d.toList).trans hw

/-- Objects stay objects. -/
theorem exists_obj_at?_ensure {ms : JsonMembers} (h : (Json.ofDict d).at? path = some (.obj ms)) :
    ∃ ns, (Json.ofDict (d.ensure key v)).at? path = some (.obj ns) := by
  by_cases hpath : OnWay path key
  · exact Nested.at?_descend_of_prefix _ hpath.1 hpath.2 d.toList
  · exact ⟨ms, at?_ensure_of_some hpath h⟩

theorem isSome_at?_ensure (h : ((Json.ofDict d).at? path).isSome) :
    ((Json.ofDict (d.ensure key v)).at? path).isSome := by
  by_cases hpath : OnWay path key
  · obtain ⟨ns, hns⟩ := Nested.at?_descend_of_prefix (fun k => Members.insertNew k v) hpath.1
      hpath.2 d.toList
    exact Option.isSome_of_eq_some hns
  · obtain ⟨w, hw⟩ := Option.isSome_iff_exists.mp h
    exact Option.isSome_of_eq_some (at?_ensure_of_some hpath hw)

/-- The key is there afterwards. -/
theorem isSome_at?_ensure_self (d : LocaleData) (key : String) (v : Json) :
    ((Json.ofDict (d.ensure key v)).at? (segmentsOf key)).isSome :=
  Option.isSome_of_eq_some
    (Nested.at?_descend_self (Nested.puts_insertNew v) (segmentsOf_ne_nil key) d.toList)

theorem canonical_ensure {ok : Number → Prop} (h : (Json.ofDict d).Canonical ok)
    (hv : v.Canonical ok) (key : String) : (Json.ofDict (d.ensure key v)).Canonical ok :=
  Nested.canonical_descend (fun k _ hms => Nested.canonical_insertNew hms hv k) _ h

theorem depth_ensure_le {n : Nat} (h : (Json.ofDict d).depth ≤ n) (hv : v.depth = 0)
    (hkey : (segmentsOf key).length ≤ n) : (Json.ofDict (d.ensure key v)).depth ≤ n :=
  Nested.depth_descend_le (m := 0)
    (fun k _ _ _ hms => Nested.depth_insertNew_le hms (by omega) k) h hkey

/-- A key that is there is not supplied. -/
theorem ensure_of_present {ok : Number → Prop} (h : (Json.ofDict d).Canonical ok)
    (hkey : ((Json.ofDict d).at? (segmentsOf key)).isSome) : d.ensure key v = d := by
  obtain ⟨w, hw⟩ := Option.isSome_iff_exists.mp hkey
  have hkeep : ∀ k ms w, ms.lookup k = some w → Members.insertNew k v ms = ms :=
    fun k ms w hk => if_pos (Option.isSome_of_eq_some hk)
  exact Dict.eq_of_toList (Nested.descend_eq_self hkeep h hw)

/-! ### Supplying several blanks -/

/-- What each blank leaves is there in the end. -/
theorem withBlanks_of_step {P : LocaleData → Prop} (h : P d)
    (hstep : ∀ e : LocaleData, ∀ key ∈ keys, P e → P (e.ensure key (.str ""))) :
    P (withBlanks d keys) :=
  List.foldlRecOn (motive := P) keys _ h fun e he key hkey => hstep e key hkey he

/-- What one blank brings about and each leaves is there in the end. -/
theorem withBlanks_of_mem {P : LocaleData → Prop} (hkey : key ∈ keys)
    (hput : ∀ e : LocaleData, P (e.ensure key (.str "")))
    (hstep : ∀ (e : LocaleData) (key : String), P e → P (e.ensure key (.str "")))
    (d : LocaleData) : P (withBlanks d keys) := by
  obtain ⟨before, after, rfl⟩ := List.append_of_mem hkey
  have hsplit : withBlanks d (before ++ key :: after) =
      withBlanks ((withBlanks d before).ensure key (.str "")) after := by
    rw [withBlanks, List.foldl_append, List.foldl_cons]
    rfl
  rw [hsplit]
  exact withBlanks_of_step (hput _) fun e key _ => hstep e key

/-- Where a new key passes, an object stands. -/
theorem exists_obj_at?_withBlanks (hkey : key ∈ keys) (hpath : OnWay path key) (d : LocaleData) :
    ∃ ms, (Json.ofDict (withBlanks d keys)).at? path = some (.obj ms) := by
  refine withBlanks_of_mem (P := fun e => ∃ ms, (Json.ofDict e).at? path = some (.obj ms)) hkey
    (fun e => ?_) (fun e key h => h.elim fun ms hms => exists_obj_at?_ensure hms) d
  exact Nested.at?_descend_of_prefix _ hpath.1 hpath.2 e.toList

/-- Every new key is there. -/
theorem isSome_at?_withBlanks (hkey : key ∈ keys) (d : LocaleData) :
    ((Json.ofDict (withBlanks d keys)).at? (segmentsOf key)).isSome :=
  withBlanks_of_mem (P := fun e => ((Json.ofDict e).at? (segmentsOf key)).isSome) hkey
    (fun e => isSome_at?_ensure_self e key _) (fun _ _ h => isSome_at?_ensure h) d

/-- **Blanks leave a value alone** that is no object, if and only if no new key passes it. -/
theorem at?_withBlanks_iff (hv : ∀ ms, v ≠ .obj ms) (h : (Json.ofDict d).at? path = some v) :
    (Json.ofDict (withBlanks d keys)).at? path = some v ↔ ∀ key ∈ keys, ¬ OnWay path key := by
  constructor
  · intro hkept key hkey hpath
    obtain ⟨ms, hms⟩ := exists_obj_at?_withBlanks hkey hpath d
    exact hv ms (Option.some.inj (hkept.symm.trans hms))
  · intro hfree
    exact withBlanks_of_step (P := fun e => (Json.ofDict e).at? path = some v) h
      fun e key hkey he => at?_ensure_of_some (hfree key hkey) he

theorem canonical_withBlanks {ok : Number → Prop} (h : (Json.ofDict d).Canonical ok)
    (keys : List String) : (Json.ofDict (withBlanks d keys)).Canonical ok :=
  withBlanks_of_step (P := fun e => (Json.ofDict e).Canonical ok) h
    fun _ key _ he => canonical_ensure he (.str "") key

/-- Data with new keys nests as deeply as the longest of them, if it does not already. -/
theorem depth_withBlanks_le_iff {n : Nat} (h : (Json.ofDict d).depth ≤ n) :
    (Json.ofDict (withBlanks d keys)).depth ≤ n ↔ ∀ key ∈ keys, (segmentsOf key).length ≤ n := by
  constructor
  · intro hdepth key hkey
    obtain ⟨w, hw⟩ := Option.isSome_iff_exists.mp (isSome_at?_withBlanks hkey d)
    have hlong := Json.length_add_depth_le hw
    omega
  · intro hkeys
    exact withBlanks_of_step (P := fun e => (Json.ofDict e).depth ≤ n) h
      fun e key hkey he => depth_ensure_le he rfl (hkeys key hkey)

/-- Blanks that are there are not supplied again. -/
theorem withBlanks_of_present {ok : Number → Prop} (h : (Json.ofDict d).Canonical ok)
    (hkeys : ∀ key ∈ keys, ((Json.ofDict d).at? (segmentsOf key)).isSome) :
    withBlanks d keys = d :=
  withBlanks_of_step (P := (· = d)) rfl fun e key hkey he => by
    rw [he]
    exact ensure_of_present h (hkeys key hkey)

theorem withBlanks_withBlanks {ok : Number → Prop} (h : (Json.ofDict d).Canonical ok)
    (keys : List String) : withBlanks (withBlanks d keys) keys = withBlanks d keys :=
  withBlanks_of_present (canonical_withBlanks h keys) fun _ hkey => isSome_at?_withBlanks hkey d

/-! ### Texts -/

theorem ofDict_ofText {text : String} {ms : JsonMembers} (h : Json.parse? text = some (.obj ms)) :
    Json.ofDict (ofText text) = .obj ms := by
  have hofText : ofText text = Dict.ofList ms := by rw [ofText, h]
  cases (Json.canonical_of_parse? h).1 with
  | obj ascending _ =>
    rw [hofText]
    exact congrArg Json.obj (Members.ofList_of_ascending ascending)

theorem ofText_of_parse?_eq_none {text : String} (h : Json.parse? text = none) :
    ofText text = ∅ := by
  rw [ofText, h]

/-- What is read has the keys of its objects in ascending order. -/
theorem canonical_ofText (text : String) :
    (Json.ofDict (ofText text)).Canonical fun _ => True := by
  cases hparse : Json.parse? text with
  | none =>
    rw [ofText_of_parse?_eq_none hparse]
    exact Json.canonical_obj_nil
  | some v =>
    cases v with
    | obj ms =>
      rw [ofDict_ofText hparse]
      exact (Json.canonical_of_parse? hparse).1
    | _ =>
      rw [ofText, hparse]
      exact Json.canonical_obj_nil

/-- Data that is read back from its own text. -/
theorem ofText_text (h : (Json.ofDict d).Canonical Number.Steady)
    (hdepth : (Json.ofDict d).depth ≤ Doc.maxDepth) : ofText d.text = d := by
  have hparse : Json.parse? d.text = some (.obj d.toList) := by
    rw [text, h.parse?_sortedText, if_pos hdepth]
    rfl
  exact Dict.eq_of_toList (Json.obj.inj (ofDict_ofText hparse))

/-- The text of a locale file with blanks supplied. -/
def blanked (keys : List String) (text : String) : String :=
  (withBlanks (ofText text) keys).text

variable {text : String} {ms : JsonMembers}

/-- Blanks are supplied once, however often one tries. -/
theorem parse?_iterate_blanked (hparse : Json.parse? text = some (.obj ms))
    (hsteady : (Json.obj ms).Steady)
    (hkeys : ∀ key ∈ keys, (segmentsOf key).length ≤ Doc.maxDepth) (n : Nat) :
    Json.parse? ((blanked keys)^[n + 1] text) =
      some (Json.ofDict (withBlanks (ofText text) keys)) := by
  have hcanonical : (Json.ofDict (ofText text)).Canonical Number.Steady := by
    rw [ofDict_ofText hparse]
    exact (Json.canonical_of_parse? hparse).1.of_steady hsteady
  have hdepth : (Json.ofDict (withBlanks (ofText text) keys)).depth ≤ Doc.maxDepth := by
    refine (depth_withBlanks_le_iff ?_).mpr hkeys
    rw [ofDict_ofText hparse]
    exact (Json.canonical_of_parse? hparse).2
  have hfix : blanked keys (blanked keys text) = blanked keys text := by
    rw [blanked, blanked, ofText_text (canonical_withBlanks hcanonical keys) hdepth,
      withBlanks_withBlanks hcanonical]
  rw [Function.iterate_succ_apply, Function.iterate_fixed hfix, blanked, LocaleData.text,
    (canonical_withBlanks hcanonical keys).parse?_sortedText, if_pos hdepth]

/-- A key that is too long makes a text that cannot be read. -/
theorem parse?_blanked_of_long (h : (Json.ofDict (ofText text)).Canonical Number.Steady)
    (hkey : key ∈ keys) (hlong : Doc.maxDepth < (segmentsOf key).length) :
    Json.parse? (blanked keys text) = none := by
  obtain ⟨w, hw⟩ := Option.isSome_iff_exists.mp (isSome_at?_withBlanks hkey (ofText text))
  have hdepth := Json.length_add_depth_le hw
  rw [blanked, LocaleData.text, (canonical_withBlanks h keys).parse?_sortedText, if_neg (by omega)]

theorem parse?_iterate_blanked_of_long (hparse : Json.parse? text = some (.obj ms))
    (hsteady : (Json.obj ms).Steady) (hkey : key ∈ keys)
    (hlong : Doc.maxDepth < (segmentsOf key).length) (n : Nat) :
    Json.parse? ((blanked keys)^[n + 1] text) = none := by
  induction n with
  | zero =>
    refine parse?_blanked_of_long ?_ hkey hlong
    rw [ofDict_ofText hparse]
    exact (Json.canonical_of_parse? hparse).1.of_steady hsteady
  | succ n ih =>
    rw [Function.iterate_succ_apply']
    refine parse?_blanked_of_long ?_ hkey hlong
    rw [ofText_of_parse?_eq_none ih]
    exact Json.canonical_obj_nil

end LocaleData

end KeyLedger
