import KeyLedger.Proofs.Manifest.Wire
import KeyLedger.Proofs.Text.Bytes
import Mathlib.Algebra.BigOperators.Group.List.Basic
import Mathlib.Algebra.GroupWithZero.Nat

/-!
# How long a stored manifest is

The text of a value is as long as its parts are together, with a few marks and gaps between them. So
it makes no difference to the length of a stored manifest in which order its entries stand, in which
order the members of an entry are written, and which of the entries has which fingerprint: a
manifest whose entries trade their fingerprints takes as much room on a disk as before.

## Main definitions

* `Json.textLength` — how many bytes the text of a value has
* `Entry.textLength` — how many bytes an entry takes in the text of a manifest

## Main results

* `Json.textLength_sortKeys` — the canonical form of a value is as long as the value
* `Entry.textLength_fingerprint` — what another fingerprint adds to an entry
* `Manifest.utf8ByteSize_stableText_congr` — manifests are as long as their entries are together
-/

namespace KeyLedger

open Text (byteLength)

namespace Json

variable {l : Layout} {depth : Nat}

/-- How many bytes the text of a value has. -/
def textLength (l : Layout) (depth : Nat) (v : Json) : Nat := byteLength (v.write l depth)

/-- How many bytes an item takes in the text of an array, with the mark that parts it from
another. -/
def itemLength (l : Layout) (depth : Nat) (v : Json) : Nat :=
  1 + byteLength (l.line depth) + v.textLength l depth

/-- How many bytes a member takes in the text of an object, with the mark that parts it from
another. -/
def memberLength (l : Layout) (depth : Nat) (m : String × Json) : Nat :=
  byteLength (quote m.1) + 1 + byteLength l.afterColon + m.2.itemLength l depth

theorem byteLength_writeItems (vs : List Json) :
    byteLength (writeItems l depth vs) = (vs.map (itemLength l depth)).sum := by
  induction vs with
  | nil => rfl
  | cons v vs ih =>
    have hcomma : ','.utf8Size = 1 := rfl
    simp only [writeItems, Text.byteLength_cons, Text.byteLength_append, List.map_cons,
      List.sum_cons, ih, itemLength, textLength, hcomma]
    omega

theorem byteLength_writeMembers (ms : List (String × Json)) :
    byteLength (writeMembers l depth ms) = (ms.map (memberLength l depth)).sum := by
  induction ms with
  | nil => rfl
  | cons m ms ih =>
    obtain ⟨k, v⟩ := m
    have hmarks : ','.utf8Size = 1 ∧ ':'.utf8Size = 1 := ⟨rfl, rfl⟩
    simp only [writeMembers, Text.byteLength_cons, Text.byteLength_append, List.map_cons,
      List.sum_cons, ih, memberLength, itemLength, textLength, hmarks]
    omega

/-- The two brackets of an array stand for the mark that the first item does not need. -/
theorem textLength_arr (v : Json) (vs : List Json) : textLength l depth (.arr (v :: vs)) =
    ((v :: vs).map (itemLength l (depth + 1))).sum + byteLength (l.line depth) + 1 := by
  have hmarks : '['.utf8Size = 1 ∧ ']'.utf8Size = 1 := ⟨rfl, rfl⟩
  simp only [textLength, write, Text.byteLength_cons, Text.byteLength_append,
    Text.byteLength_nil, byteLength_writeItems, List.map_cons, List.sum_cons, itemLength, hmarks]
  omega

theorem textLength_obj (m : String × Json) (ms : List (String × Json)) :
    textLength l depth (.obj (m :: ms)) =
      ((m :: ms).map (memberLength l (depth + 1))).sum + byteLength (l.line depth) + 1 := by
  obtain ⟨k, v⟩ := m
  have hmarks : '\x7b'.utf8Size = 1 ∧ '\x7d'.utf8Size = 1 ∧ ':'.utf8Size = 1 := ⟨rfl, rfl, rfl⟩
  simp only [textLength, write, Text.byteLength_cons, Text.byteLength_append, Text.byteLength_nil,
    byteLength_writeMembers, List.map_cons, List.sum_cons, memberLength, itemLength, hmarks]
  omega

/-- Arrays are as long as their items are together. -/
theorem textLength_arr_congr {vs ws : List Json}
    (h : (vs.map (itemLength l (depth + 1))).sum = (ws.map (itemLength l (depth + 1))).sum) :
    textLength l depth (.arr vs) = textLength l depth (.arr ws) := by
  -- an item takes a byte at least, so that one of the two is empty only if both are
  have hpos : ∀ (v : Json) (us : List Json),
      ((v :: us).map (itemLength l (depth + 1))).sum ≠ 0 := by
    intro v us
    rw [List.map_cons, List.sum_cons, itemLength]
    omega
  cases vs with
  | nil =>
    cases ws with
    | nil => rfl
    | cons w ws => exact absurd h.symm (hpos w ws)
  | cons v vs =>
    cases ws with
    | nil => exact absurd h (hpos v vs)
    | cons w ws => rw [textLength_arr, textLength_arr, h]

/-- Objects are as long as their members are together. -/
theorem textLength_obj_congr {ms ns : List (String × Json)}
    (h : (ms.map (memberLength l (depth + 1))).sum = (ns.map (memberLength l (depth + 1))).sum) :
    textLength l depth (.obj ms) = textLength l depth (.obj ns) := by
  have hpos : ∀ (m : String × Json) (us : List (String × Json)),
      ((m :: us).map (memberLength l (depth + 1))).sum ≠ 0 := by
    intro m us
    rw [List.map_cons, List.sum_cons, memberLength]
    omega
  cases ms with
  | nil =>
    cases ns with
    | nil => rfl
    | cons n ns => exact absurd h.symm (hpos n ns)
  | cons m ms =>
    cases ns with
    | nil => exact absurd h (hpos m ms)
    | cons n ns => rw [textLength_obj, textLength_obj, h]

/-- **The canonical form of a value is as long as the value.** -/
theorem textLength_sortKeys {v : Json} (hv : v.Steady) (depth : Nat) :
    v.sortKeys.textLength l depth = v.textLength l depth := by
  induction hv generalizing depth with
  | null => rfl
  | bool b => rfl
  | num steady => rfl
  | str s => rfl
  | arr _ ih =>
    rw [sortKeys, sortKeysItems_eq]
    refine textLength_arr_congr ?_
    rw [List.map_map]
    refine congrArg List.sum (List.map_congr_left fun v hv => ?_)
    rw [Function.comp_apply, itemLength, itemLength, ih v hv]
  | obj _ _ ih =>
    rw [sortKeys, sortKeysMembers_eq]
    refine textLength_obj_congr ?_
    rw [((perm_sortMembers _).map _).sum_eq, List.map_map]
    refine congrArg List.sum (List.map_congr_left fun m hm => ?_)
    rw [Function.comp_apply, memberLength, memberLength, itemLength, itemLength, ih m hm]

end Json

/-! ### Manifests -/

/-- How many bytes an entry takes in the text of a manifest. -/
def Entry.textLength (e : Entry) : Nat := e.toJson.itemLength .indented 2

/-- How many bytes a fingerprint takes in the text of a manifest, but for what is there whatever the
fingerprint is. -/
def Fingerprint.textLength (f : Fingerprint) : Nat := byteLength (Json.quote f.descriptor)

theorem Fingerprint.exists_memberLength (l : Json.Layout) (depth : Nat) :
    ∃ base, ∀ f : Fingerprint,
      Json.memberLength l depth ("fingerprint", f.toJson) = base + f.textLength := by
  refine ⟨Json.memberLength l depth ("fingerprint", .obj [("descriptor", .arr [])]) - 2,
    fun f => ?_⟩
  have hempty : Json.textLength l (depth + 1) (.arr []) = 2 := rfl
  have hfull : Json.textLength l (depth + 1) (.str f.descriptor) = f.textLength := by
    rw [Json.textLength, Json.write, textLength]
  simp only [Json.memberLength, Json.itemLength, toJson, Json.textLength_obj, List.map_cons,
    List.map_nil, List.sum_cons, List.sum_nil, hempty, hfull]
  omega

/-- **What another fingerprint adds to an entry.** -/
theorem Entry.textLength_fingerprint (e : Entry) (f : Fingerprint) :
    { e with fingerprint := f }.textLength + e.fingerprint.textLength =
      e.textLength + f.textLength := by
  obtain ⟨base, hbase⟩ := Fingerprint.exists_memberLength .indented 3
  simp only [textLength, Json.itemLength, toJson, List.cons_append, Json.textLength_obj,
    List.map_cons, List.map_append, List.sum_cons, List.sum_append, hbase]
  omega

/-- **Manifests are as long as their entries are together.** -/
theorem Manifest.utf8ByteSize_stableText_congr {m n : Manifest} (hversion : m.version = n.version)
    (h : (m.entries.map Entry.textLength).sum = (n.entries.map Entry.textLength).sum) :
    m.stableText.utf8ByteSize = n.stableText.utf8ByteSize := by
  have hsize : ∀ m : Manifest, m.stableText.utf8ByteSize =
      m.sorted.toJson.textLength .indented 0 + 1 := by
    intro m
    have hsteady := m.sorted.regular_toJson.steady
    rw [← Json.textLength_sortKeys hsteady, Json.textLength, ← Text.byteLength_toList, stableText,
      Json.sortedText, Json.pretty, String.toList_append, Text.byteLength_append,
      String.toList_ofList]
    rfl
  have hentries : ∀ m : Manifest,
      ((m.sorted.entries.map Entry.toJson).map (Json.itemLength .indented 2)).sum =
        (m.entries.map Entry.textLength).sum := by
    intro m
    rw [List.map_map]
    exact ((List.mergeSort_perm m.entries entryLE).map _).sum_eq
  have harr : Json.textLength .indented 1 (.arr (m.sorted.entries.map Entry.toJson)) =
      Json.textLength .indented 1 (.arr (n.sorted.entries.map Entry.toJson)) :=
    Json.textLength_arr_congr (by rw [hentries, hentries, h])
  have hsame : m.sorted.version = n.sorted.version := hversion
  rw [hsize, hsize, toJson, toJson]
  refine congrArg (· + 1) (Json.textLength_obj_congr ?_)
  simp only [List.map_cons, Json.memberLength, Json.itemLength, harr, hsame]

end KeyLedger
