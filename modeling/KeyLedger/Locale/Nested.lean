import KeyLedger.Json.Document
import KeyLedger.Json.Printer
import KeyLedger.Text.Lines

/-!
# Locale data and dotted keys

The contents of a locale file are an object whose members nest: the key `a.b` stands for the member
`b` of the object under `a`. Following a key makes the objects on its way, and replaces by an object
whatever else is in the way. At the end of the way a value is either set, or only supplied if
nothing is there.

## Main definitions

* `LocaleData` — the contents of a locale file
* `LocaleData.set`, `LocaleData.ensure` — put a value under a dotted key
* `LocaleData.ofText`, `LocaleData.text` — the contents of a file
-/

namespace KeyLedger

/-- The members of a JSON object. -/
abbrev JsonMembers : Type := List (String × Json)

/-- The segments of a dotted key; there is always at least one. -/
def segmentsOf (key : String) : List String := Text.splitAt '.' key

namespace Nested

/-- The members of the object under a key; none if there is no object. -/
def inner (k : String) (ms : JsonMembers) : JsonMembers :=
  match ms.lookup k with
  | some (.obj inner) => inner
  | _ => []

/-- Follows the segments of a key through objects and changes the object at the end of the way by
`f`, which is given the last segment. -/
def descend (f : String → JsonMembers → JsonMembers) : List String → JsonMembers → JsonMembers
  | [], ms => ms
  | [leaf], ms => f leaf ms
  | k :: k' :: ks, ms => Members.insert k (.obj (descend f (k' :: ks) (inner k ms))) ms

theorem ascending_descend {f : String → JsonMembers → JsonMembers}
    (hf : ∀ k ms, Members.Ascending ms → Members.Ascending (f k ms)) (ks : List String)
    {ms : JsonMembers} (h : Members.Ascending ms) : Members.Ascending (descend f ks ms) := by
  match ks with
  | [] => exact h
  | [leaf] => exact hf leaf ms h
  | _ :: _ :: _ => exact h.insert

end Nested

/-- The contents of a locale file. -/
abbrev LocaleData : Type := Dict Json

namespace LocaleData

/-- Puts a value under a dotted key, replacing what is there. -/
def set (d : LocaleData) (key : String) (v : Json) : LocaleData :=
  ⟨Nested.descend (fun k => Members.insert k v) (segmentsOf key) d.toList,
    Nested.ascending_descend (fun _ _ h => h.insert) _ d.ascending⟩

/-- Puts a value under a dotted key, unless something is there. -/
def ensure (d : LocaleData) (key : String) (v : Json) : LocaleData :=
  ⟨Nested.descend (fun k => Members.insertNew k v) (segmentsOf key) d.toList,
    Nested.ascending_descend (fun _ _ h => h.insertNew) _ d.ascending⟩

/-- The data that a text holds; a text that is no object holds none. -/
def ofText (text : String) : LocaleData :=
  match Json.parse? text with
  | some (.obj ms) => Dict.ofList ms
  | _ => ∅

/-- The persisted form of the data. -/
def text (d : LocaleData) : String := (Json.ofDict d).sortedText

end LocaleData

end KeyLedger
