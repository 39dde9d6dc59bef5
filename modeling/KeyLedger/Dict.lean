/-!
# Dictionaries in key order

A dictionary lists its members in strictly ascending key order, so it holds each key once and two
dictionaries with the same members are equal. Keys are compared character by character, which is
also the order of their UTF-8 bytes.

The operations come first for plain lists of members, where they make no assumption, and then for
`Dict`, which carries the order as part of the type.

## Main definitions

* `Members.insert`, `Members.insertNew` — put a member in its place, replacing or keeping an old one
* `Members.ofList` — the members of a list in key order, the last one under a key winning
* `Dict` — members with a proof that they ascend
-/

namespace KeyLedger

namespace Members

variable {α : Type}

/-- Members whose keys strictly ascend. -/
def Ascending (ms : List (String × α)) : Prop :=
  ms.Pairwise fun a b => a.1 < b.1

instance (ms : List (String × α)) : Decidable (Ascending ms) := by
  unfold Ascending; infer_instance

/-- Puts `v` under `k` in its place, replacing what was there. -/
def insert (k : String) (v : α) : List (String × α) → List (String × α)
  | [] => [(k, v)]
  | m :: ms =>
    if k < m.1 then (k, v) :: m :: ms
    else if k = m.1 then (k, v) :: ms
    else m :: insert k v ms

/-- Puts `v` under `k` unless the key is taken. -/
def insertNew (k : String) (v : α) (ms : List (String × α)) : List (String × α) :=
  if (ms.lookup k).isSome then ms else insert k v ms

/-- The members of a list in key order; of several under one key the last is kept. -/
def ofList (ms : List (String × α)) : List (String × α) :=
  ms.foldl (fun acc m => insert m.1 m.2 acc) []

theorem mem_insert {k : String} {v : α} {ms : List (String × α)} {m : String × α}
    (h : m ∈ insert k v ms) : m = (k, v) ∨ m ∈ ms := by
  induction ms with
  | nil => simpa [insert] using h
  | cons a ms ih =>
    unfold insert at h
    split at h
    · simpa using h
    · split at h
      · rcases List.mem_cons.1 h with h | h
        · exact .inl h
        · exact .inr (List.mem_cons_of_mem _ h)
      · rcases List.mem_cons.1 h with h | h
        · exact .inr (h ▸ List.mem_cons_self)
        · exact (ih h).imp_right (List.mem_cons_of_mem _)

theorem Ascending.insert {k : String} {v : α} {ms : List (String × α)} (h : Ascending ms) :
    Ascending (insert k v ms) := by
  induction ms with
  | nil => simp [Members.insert, Ascending]
  | cons a ms ih =>
    have ⟨ha, hms⟩ := List.pairwise_cons.1 h
    unfold Members.insert
    split
    · next hk =>
      refine List.pairwise_cons.2 ⟨fun m hm => ?_, h⟩
      rcases List.mem_cons.1 hm with rfl | hm
      · exact hk
      · exact String.lt_trans hk (ha m hm)
    · split
      · next hk => exact List.pairwise_cons.2 ⟨fun m hm => hk ▸ ha m hm, hms⟩
      · next hlt hne =>
        refine List.pairwise_cons.2 ⟨fun m hm => ?_, ih hms⟩
        rcases mem_insert hm with rfl | hm
        · refine Decidable.byContradiction fun hgt => hne ?_
          exact String.le_antisymm hgt hlt
        · exact ha m hm

theorem Ascending.insertNew {k : String} {v : α} {ms : List (String × α)} (h : Ascending ms) :
    Ascending (insertNew k v ms) := by
  unfold Members.insertNew
  split
  · exact h
  · exact h.insert

theorem ascending_foldl_insert (l ms : List (String × α)) (h : Ascending ms) :
    Ascending (l.foldl (fun acc m => insert m.1 m.2 acc) ms) := by
  induction l generalizing ms with
  | nil => exact h
  | cons m l ih => exact ih _ h.insert

theorem ascending_ofList (l : List (String × α)) : Ascending (ofList l) :=
  ascending_foldl_insert l [] List.Pairwise.nil

end Members

/-- A dictionary from strings, in key order. -/
structure Dict (α : Type) where
  /-- The members. -/
  toList : List (String × α)
  /-- The keys strictly ascend. -/
  ascending : Members.Ascending toList
deriving DecidableEq

namespace Dict

variable {α β : Type}

/-- The dictionary with no members. -/
def empty : Dict α := ⟨[], List.Pairwise.nil⟩

instance : Inhabited (Dict α) := ⟨empty⟩

instance : EmptyCollection (Dict α) := ⟨empty⟩

/-- Whether there are no members. -/
def isEmpty (d : Dict α) : Bool := d.toList.isEmpty

/-- The value under a key. -/
def find? (d : Dict α) (k : String) : Option α := d.toList.lookup k

/-- The keys, ascending. -/
def keys (d : Dict α) : List String := d.toList.map Prod.fst

/-- Puts `v` under `k`, replacing what was there. -/
def insert (d : Dict α) (k : String) (v : α) : Dict α :=
  ⟨Members.insert k v d.toList, d.ascending.insert⟩

/-- Puts `v` under `k` unless the key is taken. -/
def insertNew (d : Dict α) (k : String) (v : α) : Dict α :=
  ⟨Members.insertNew k v d.toList, d.ascending.insertNew⟩

/-- The value under `k`, or `v` if there is none, changed by `f`. -/
def alter (d : Dict α) (k : String) (v : α) (f : α → α) : Dict α :=
  d.insert k (f ((d.find? k).getD v))

/-- The dictionary of a list of members; of several under one key the last is kept. -/
def ofList (ms : List (String × α)) : Dict α :=
  ⟨Members.ofList ms, Members.ascending_ofList ms⟩

end Dict

end KeyLedger
