import KeyLedger.Json.Printer
import KeyLedger.Proofs.Json.Readers

/-!
# Readers that get back what was written

A reader is made of the readers of the parts, and its correctness is put together in the same way.
The contract of a part is that it reads a given value from a given written form, in whatever order
the members of objects stand, as soon as it may enter as many containers as there are in it. Then a
whole text is read as well, and it does not matter in which layout it is written.

## Main definitions

* `Reader.Reads` — a reader reads a value from its written form
* `Json.Within` — values that can be read back from their texts
* `Json.texts` — the texts of a value, in all layouts

## Main results

* `Reader.reads_list`, `Reader.reads_dict`, `Reader.reads_record` — how readers are put together
* `Reader.run?_of_reads` — whole texts
-/

namespace KeyLedger

variable {α : Type} {f : Json → Json}

namespace Reader

/-- A reader reads `x` from the written form `v`, arranged by `f`, if it may enter as many
containers as are nested in it. -/
def Reads (r : Reader α) (f : Json → Json) (v : Json) (x : α) : Prop :=
  ∀ budget, v.depth ≤ budget → r budget (Doc.ofJson (f v)) = some x

/-! ### Scalars -/

section Scalars

variable (hf : Json.Arranges f)
include hf

theorem reads_string (s : String) : string.Reads f (.str s) s := by
  intro budget _
  rw [hf.str]
  rfl

theorem reads_uint64 (n : UInt64) : uint64.Reads f (.offset n) n := by
  intro budget _
  have hlt : (n.toNat : Int) < 18446744073709551616 := by
    have := n.toNat_lt
    omega
  rw [Json.offset, hf.num]
  simp [Doc.ofJson, uint64, natBelow, Number.ofUInt64, Number.below?, hlt]

theorem reads_nat {n : Nat} (h : n < UInt64.size) : (natBelow UInt64.size).Reads f (.nat n) n := by
  intro budget _
  rw [Json.nat, hf.num]
  exact Number.below?_ofNat h (Nat.le_refl _)

theorem reads_oneOf {names : List (String × α)} {name : String} {x : α}
    (h : names.lookup name = some x) : (oneOf names).Reads f (.str name) x := by
  intro budget _
  rw [hf.str, Doc.ofJson, oneOf]
  exact h

/-- A value whose objects are in key order is read whatever it is. -/
theorem reads_value {ok : Number → Prop} {v : Json} (hv : v.Canonical ok) : value.Reads f v v :=
  fun _ hdepth => hf.toJson?_ofJson hv hdepth

end Scalars

/-! ### Containers -/

theorem mapM_eq_some_self {g : α → Option α} {l : List α} (h : ∀ a ∈ l, g a = some a) :
    l.mapM g = some l := by
  induction l with
  | nil => rfl
  | cons a l ih =>
    rw [List.mapM_cons, h a List.mem_cons_self, ih fun b hb => h b (List.mem_cons_of_mem _ hb)]
    rfl

/-- What a list reads is what the reader of the items makes of each of them. -/
theorem list_arranged {β : Type} (hf : Json.Arranges f) (r : Reader α) (write : β → Json)
    (l : List β) (budget : Nat) :
    list r (budget + 1) (Doc.ofJson (f (.arr (l.map write)))) =
      l.mapM fun b => r budget (Doc.ofJson (f (write b))) := by
  rw [hf.arr, Doc.ofJson, Doc.ofJsonItems_eq, List.map_map, List.map_map, list, List.mapM_map]
  rfl

/-- **A list is read item by item.** -/
theorem reads_list (hf : Json.Arranges f) {r : Reader α} {write : α → Json} {l : List α}
    (h : ∀ a ∈ l, r.Reads f (write a) a) : (list r).Reads f (.arr (l.map write)) l := by
  intro budget hdepth
  rw [Json.depth] at hdepth
  obtain ⟨b, rfl⟩ := Nat.exists_eq_add_of_le' (Nat.le_trans (Nat.le_add_left 1 _) hdepth)
  have hitem : ∀ a ∈ l, r b (Doc.ofJson (f (write a))) = some a := by
    intro a ha
    exact h a ha b (Json.depthItems_le_iff.mp (Nat.le_of_succ_le_succ hdepth) _
      (List.mem_map_of_mem ha))
  rw [list_arranged hf]
  exact mapM_eq_some_self hitem

/-- **A dictionary is read member by member**, and gets its order back. -/
theorem reads_dict (hf : Json.Arranges f) {r : Reader α} {write : α → Json} {d : Dict α}
    (h : ∀ m ∈ d.toList, r.Reads f (write m.2) m.2) :
    (dict r).Reads f (.obj (d.toList.map fun m => (m.1, write m.2))) d := by
  intro budget hdepth
  rw [Json.depth] at hdepth
  obtain ⟨b, rfl⟩ := Nat.exists_eq_add_of_le' (Nat.le_trans (Nat.le_add_left 1 _) hdepth)
  obtain ⟨ns, hns, hobj⟩ := hf.obj (d.toList.map fun m => (m.1, write m.2))
  obtain ⟨l, rfl, hperm⟩ :
      Relation.Comp (· = List.map (fun m => (m.1, write m.2)) ·) List.Perm ns d.toList := by
    rw [List.eq_map_comp_perm]
    exact hns
  have hmember : ∀ m ∈ l, (do return (← some m.1, ← r b (Doc.ofJson (f (write m.2)))) :
      Option (String × α)) = some m := by
    intro m hm
    have hd : m ∈ d.toList := hperm.mem_iff.mp hm
    have hshallow := Json.depthMembers_le_iff.mp (Nat.le_of_succ_le_succ hdepth) _
      (List.mem_map_of_mem hd)
    rw [h m hd b hshallow]
    rfl
  have hofList : Dict.ofList l = d :=
    Dict.eq_of_toList (Members.ofList_of_perm hperm d.ascending)
  have hall : (Doc.ofJsonMembers ((l.map fun m => (m.1, write m.2)).map fun m => (m.1, f m.2))).mapM
      (fun m => (do return (← m.1, ← r b m.2) : Option (String × α))) = some l := by
    rw [Doc.ofJsonMembers_eq, List.map_map, List.map_map, List.mapM_map]
    exact mapM_eq_some_self hmember
  rw [hobj, Doc.ofJson, dict, hall, Option.bind_eq_bind, Option.bind_some, hofList]
  rfl

end Reader

/-! ### Records -/

namespace Fields

variable {fs : Fields} {names : List String} {ms : List (String × Json)} {v : Json} {r : Reader α}
  {x : α}

/-- What a record reads under the name of a field is what the reader of the field makes of it. -/
theorem FoundIn.required_eq (h : fs.FoundIn f names ms) (name : String) (hname : name ∈ names)
    (hv : ms.lookup name = some v) (r : Reader α) :
    fs.required name r = r fs.budget (Doc.ofJson (f v)) := by
  rw [Fields.required, h.lookup name hname, hv]
  rfl

theorem FoundIn.reads (h : fs.FoundIn f names ms) {name : String} (hv : ms.lookup name = some v)
    (hr : r.Reads f v x) : r fs.budget (Doc.ofJson (f v)) = some x :=
  hr _ (Json.depthMembers_le_iff.mp h.shallow _ (Members.mem_of_lookup hv))

theorem FoundIn.required (h : fs.FoundIn f names ms) (name : String) (hname : name ∈ names)
    (hv : ms.lookup name = some v) (hr : r.Reads f v x) : fs.required name r = some x := by
  rw [h.required_eq name hname hv]
  exact h.reads hv hr

/-- A field that is written although it might be left out. -/
theorem FoundIn.withDefault_of_written (h : fs.FoundIn f names ms) (name : String)
    (hname : name ∈ names) (hv : ms.lookup name = some v) (hr : r.Reads f v x) (fallback : α) :
    fs.withDefault name fallback r = some x := by
  rw [Fields.withDefault, h.lookup name hname, hv]
  exact h.reads hv hr

/-- A field that is left out where it has the value to fall back on. -/
theorem FoundIn.withDefault {fallback : α} {written : Option Json} (h : fs.FoundIn f names ms)
    (name : String) (hname : name ∈ names) (hv : ms.lookup name = written)
    (hnone : written = none → x = fallback) (hsome : ∀ v, written = some v → r.Reads f v x) :
    fs.withDefault name fallback r = some x := by
  cases written with
  | none =>
    rw [Fields.withDefault, h.lookup name hname, hv, hnone rfl]
    rfl
  | some v => exact h.withDefault_of_written name hname hv (hsome v rfl) fallback

/-- A string that is left out if there is none. -/
theorem FoundIn.optional {s : Option String} (h : fs.FoundIn f names ms) (hf : Json.Arranges f)
    (name : String) (hname : name ∈ names) (hs : ms.lookup name = s.map Json.str) :
    fs.optional name .string = some s := by
  refine h.withDefault name hname hs (fun hnone => Option.map_eq_none_iff.mp hnone) fun v hv => ?_
  obtain ⟨t, rfl, rfl⟩ := Option.map_eq_some_iff.mp hv
  intro budget _
  rw [hf.str]
  rfl

/-- A string that is written as null if there is none. -/
theorem FoundIn.optional_of_written {s : Option String} (h : fs.FoundIn f names ms)
    (hf : Json.Arranges f) (name : String) (hname : name ∈ names)
    (hs : ms.lookup name = some (Json.optional s)) : fs.optional name .string = some s := by
  refine h.withDefault_of_written name hname hs (fun budget _ => ?_) none
  cases s with
  | none => rw [Json.optional, hf.null]; rfl
  | some s => rw [Json.optional, hf.str]; rfl

end Fields

namespace Reader

variable {r : Reader α} {v : Json} {x : α}

/-- **A record is read field by field.** -/
theorem reads_record (hf : Json.Arranges f) {names : List String} {body : Fields → Option α}
    {ms : List (String × Json)} (hms : (ms.map Prod.fst).Nodup)
    (hbody : ∀ fs : Fields, fs.FoundIn f names ms → body fs = some x) :
    (record names body).Reads f (.obj ms) x := by
  intro budget hdepth
  obtain ⟨fs, hrecord, hfs⟩ := record_arranged hf names body hms hdepth
  rw [hrecord]
  exact hbody fs hfs

end Reader

/-! ### Whole texts -/

namespace Json

/-- A value whose text denotes it, and that nests at most `n` deep. -/
structure Within (n : Nat) (v : Json) : Prop where
  /-- The numbers are denoted by their own spellings, and no object has a key twice. -/
  steady : v.Steady
  /-- Containers do not nest deeper. -/
  shallow : v.depth ≤ n

variable {n : Nat}

theorem within_str (n : Nat) (s : String) : (str s).Within n := ⟨.str s, Nat.zero_le n⟩

theorem within_nat (n k : Nat) : (nat k).Within n := ⟨(regular_nat k).steady, Nat.zero_le n⟩

theorem within_offset (n : Nat) (k : UInt64) : (offset k).Within n :=
  ⟨(regular_offset k).steady, Nat.zero_le n⟩

theorem Within.arr {items : List Json} (h : ∀ v ∈ items, v.Within n) :
    (Json.arr items).Within (n + 1) :=
  ⟨.arr fun v hv => (h v hv).steady,
    Nat.succ_le_succ (depthItems_le_iff.mpr fun v hv => (h v hv).shallow)⟩

theorem Within.obj {ms : List (String × Json)} (hkeys : (ms.map Prod.fst).Nodup)
    (h : ∀ m ∈ ms, m.2.Within n) : (Json.obj ms).Within (n + 1) :=
  ⟨.obj hkeys fun m hm => (h m hm).steady,
    Nat.succ_le_succ (depthMembers_le_iff.mpr fun m hm => (h m hm).shallow)⟩

theorem within_strings (n : Nat) (ss : List String) : (strings ss).Within (n + 1) := by
  refine .arr fun v hv => ?_
  obtain ⟨s, -, rfl⟩ := List.mem_map.mp hv
  exact within_str n s

/-- The object with the members of a dictionary. -/
theorem Within.dict {write : α → Json} {d : Dict α}
    (h : ∀ m ∈ d.toList, (write m.2).Within n) :
    (Json.obj (d.toList.map fun m => (m.1, write m.2))).Within (n + 1) := by
  refine .obj ?_ fun m hm => ?_
  · rw [List.map_map]
    exact d.nodup_keys
  · obtain ⟨m₀, hm₀, rfl⟩ := List.mem_map.mp hm
    exact h m₀ hm₀

theorem Layout.blank_dense : Layout.dense.Blank :=
  ⟨fun _ _ hc => absurd hc List.not_mem_nil, fun _ hc => absurd hc List.not_mem_nil⟩

/-- The texts of a value: on one line, on several lines, and in persisted form. -/
def texts (v : Json) : List String := [v.compact, v.pretty, v.sortedText]

end Json

/-- **What is read from a written form is read from its texts.** -/
theorem Reader.run?_of_reads {r : Reader α} {v : Json} {x : α} (hv : v.Within Doc.maxDepth)
    (h : ∀ f, Json.Arranges f → r.Reads f v x) : ∀ text ∈ v.texts, r.run? text = some x := by
  have hwritten : ∀ l : Json.Layout, l.Blank →
      r.run? (String.ofList (v.write l 0)) = some x := by
    intro l hl
    have hrest : ∀ c ∈ ([] : List Char), Token.isGap c = true := by simp
    have hparse := Doc.parse?_write hl hv.steady hrest
    rw [List.append_nil] at hparse
    rw [Reader.run?, hparse]
    exact h id Json.arranges_id Doc.maxDepth hv.shallow
  simp only [Json.texts, List.forall_mem_cons, List.not_mem_nil, false_implies, implies_true,
    and_true]
  refine ⟨hwritten _ Json.Layout.blank_dense, hwritten _ Json.Layout.blank_indented, ?_⟩
  rw [Reader.run?, Doc.parse?_sortedText hv.steady]
  exact h Json.sortKeys Json.arranges_sortKeys Doc.maxDepth hv.shallow

end KeyLedger
