import KeyLedger.Proofs.Locale.Overwriting
import KeyLedger.Proofs.Text.Lines

/-!
# The laws of dotted keys

A dotted key is the list of its segments, of which each may be empty, and what stands under it is
found by following the segments through objects. A value that is set is found again; a value that is
supplied is found unless something was there, be it null or an object. Keys that part ways, neither
of which goes on from the other, do not see each other: what stands under the one stays as it is, and
two values can be set in either order.

The last law asks for some care where both ways lead through a value that is no object. Whichever
key comes first makes an object of it, in which the other one then parts ways with it; the value is
gone in either order.

## Main definitions

* `LocaleData.under?` — what stands under a dotted key

## Main results

* `segmentsOf_eq_iff` — the segments of a key
* `dotted_keys_lawful` — the laws
-/

namespace KeyLedger

variable {d : LocaleData} {k k' : String}

/-- **The segments of a key** are the texts without a dot that the key puts together. -/
theorem segmentsOf_eq_iff {key : String} {ss : List String} :
    segmentsOf key = ss ↔
      ss ≠ [] ∧ (∀ s ∈ ss, '.' ∉ s.toList) ∧ ".".intercalate ss = key :=
  Text.splitAt_eq_iff

theorem PartWays.symm {p q : List String} (h : PartWays p q) : PartWays q p := ⟨h.2, h.1⟩

namespace LocaleData

/-- What stands under a dotted key, followed segment by segment through objects only. -/
def under? (d : LocaleData) (key : String) : Option Json :=
  (Json.ofDict d).at? (segmentsOf key)

theorem under?_ensure_self (d : LocaleData) (k : String) (v : Json) :
    (d.ensure k v).under? k = some ((d.under? k).getD v) :=
  Nested.at?_descend_self (Nested.puts_insertNew v) (segmentsOf_ne_nil k) d.toList

theorem under?_ensure_of_partWays (h : PartWays (segmentsOf k) (segmentsOf k')) (d : LocaleData)
    (v : Json) : (d.ensure k v).under? k' = d.under? k' :=
  Nested.at?_descend_of_apart (Nested.puts_insertNew v) h.2 h.1 d.toList

end LocaleData

/-- **The laws of dotted keys.** The segments of a key are the texts without a dot that it puts
together, and there is one list of them. What is set under a key stands there; what is supplied
stands there unless something did. Under a key that parts ways everything stays, and two values
under such keys can be set in either order. -/
theorem dotted_keys_lawful (d : LocaleData) (k k' : String) (v v' : Json) :
    (∀ ss, segmentsOf k = ss ↔
      ss ≠ [] ∧ (∀ s ∈ ss, '.' ∉ s.toList) ∧ ".".intercalate ss = k) ∧
    (d.set k v).under? k = some v ∧
    (d.ensure k v).under? k = some ((d.under? k).getD v) ∧
    (PartWays (segmentsOf k) (segmentsOf k') →
      (d.set k v).under? k' = d.under? k' ∧ (d.ensure k v).under? k' = d.under? k' ∧
      (d.set k v).set k' v' = (d.set k' v').set k v) := by
  refine ⟨fun ss => segmentsOf_eq_iff, LocaleData.at?_set_self d k v,
    LocaleData.under?_ensure_self d k v, fun h => ⟨?_, ?_, ?_⟩⟩
  · exact LocaleData.at?_set_of_partWays h.symm v d
  · exact LocaleData.under?_ensure_of_partWays h d v
  · exact LocaleData.set_comm_of_apart h.2 h.1 v' v d

/-- Two keys that lead through a text, one of them with an empty segment. -/
theorem dotted_keys_lawful_through_text :
    let d : LocaleData := Dict.ofList [("a", .str "text"), ("b", .null)]
    d.under? "a" = some (.str "text") ∧ PartWays (segmentsOf "a.b") (segmentsOf "a..b") ∧
      (d.set "a.b" .null).under? "a..b" = none ∧
      (d.ensure "a.b" .null).under? "a..b" = none ∧
      (d.ensure "b" (.str "new")).under? "b" = some .null ∧
      (d.set "a.b" .null).set "a..b" (.str "x") = (d.set "a..b" (.str "x")).set "a.b" .null := by
  intro d
  have hparts : PartWays (segmentsOf "a.b") (segmentsOf "a..b") := by
    unfold PartWays
    decide +kernel
  obtain ⟨-, -, -, hlaws⟩ := dotted_keys_lawful d "a.b" "a..b" .null (.str "x")
  obtain ⟨hset, hensure, hcomm⟩ := hlaws hparts
  obtain ⟨-, -, hsupplied, -⟩ := dotted_keys_lawful d "b" "a" (.str "new") .null
  have hnone : d.under? "a..b" = none := by rfl
  exact ⟨rfl, hparts, hset.trans hnone, hensure.trans hnone, hsupplied, hcomm⟩

end KeyLedger
