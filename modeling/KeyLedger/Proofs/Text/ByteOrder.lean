import Mathlib.Data.List.Basic
import Mathlib.Order.Basic

/-!
# The order of UTF-8 bytes

Strings are ordered by their characters, from the first one in which they differ, and characters by
their code points. This is the order of the UTF-8 forms byte by byte. Of two characters the one with
the higher code point has the higher byte at the first place where their forms differ, and there is
such a place, since no form goes on from another one: the first byte tells how many there are, and
the more there are the higher it is.

## Main definitions

* `utf8` — the UTF-8 form of a string
* `octets` — the bytes of a code point, as numbers

## Main results

* `octets_append_lt` — the bytes of a higher code point are higher, whatever follows
* `lt_iff_utf8_lt` — strings are ordered as their UTF-8 forms
-/

namespace KeyLedger.Text

/-- The UTF-8 form of a string. -/
def utf8 (s : String) : List UInt8 := s.toUTF8.data.toList

/-! ### One character -/

/-- The bytes of a code point, as numbers: all but the first hold six bits each. -/
def octets (n : Nat) : List Nat :=
  if n < 128 then [n]
  else if n < 2048 then [192 + n / 64, 128 + n % 64]
  else if n < 65536 then [224 + n / 4096, 128 + n / 64 % 64, 128 + n % 64]
  else [240 + n / 262144, 128 + n / 4096 % 64, 128 + n / 64 % 64, 128 + n % 64]

theorem map_toNat_utf8EncodeChar (c : Char) :
    (String.utf8EncodeChar c).map UInt8.toNat = octets c.val.toNat := by
  have hmax : c.val.toNat < 1114112 := by
    rcases c.valid with hc | ⟨-, hc⟩
    · exact Nat.lt_trans hc (by decide)
    · exact hc
  unfold String.utf8EncodeChar octets
  dsimp only
  generalize c.val.toNat = n at hmax ⊢
  split_ifs
  all_goals simp only [List.map_cons, List.map_nil, UInt8.toNat_ofNat', List.cons.injEq, and_true]
  all_goals omega

theorem octets_ne_nil (n : Nat) : octets n ≠ [] := by
  unfold octets
  split_ifs <;> exact List.cons_ne_nil _ _

/-- **The bytes of a higher code point are higher**, whatever follows. -/
theorem octets_append_lt {m n : Nat} (h : m < n) (xs ys : List Nat) :
    octets m ++ xs < octets n ++ ys := by
  unfold octets
  split_ifs
  all_goals simp only [List.cons_append, List.nil_append, List.cons_lt_cons_iff]
  all_goals omega

/-! ### Texts -/

/-- The bytes of a text, as numbers. -/
def octetsOf (cs : List Char) : List Nat := cs.flatMap fun c => octets c.val.toNat

theorem map_toNat_utf8 (s : String) : (utf8 s).map UInt8.toNat = octetsOf s.toList := by
  rw [utf8, String.toUTF8_eq_toByteArray, ← String.utf8Encode_toList, List.utf8Encode,
    List.toList_data_toByteArray, List.map_flatMap, octetsOf]
  simp only [map_toNat_utf8EncodeChar]

theorem map_toNat_lt_iff {l k : List UInt8} :
    l.map UInt8.toNat < k.map UInt8.toNat ↔ l < k := by
  induction l generalizing k with
  | nil => cases k <;> simp
  | cons a l ih =>
    cases k with
    | nil => simp
    | cons b k =>
      rw [List.map_cons, List.map_cons, List.cons_lt_cons_iff, List.cons_lt_cons_iff, ih,
        UInt8.toNat_inj, UInt8.lt_iff_toNat_lt]

theorem octetsOf_lt {cs ds : List Char} (h : cs < ds) : octetsOf cs < octetsOf ds := by
  induction cs generalizing ds with
  | nil =>
    cases ds with
    | nil => exact absurd h (List.lt_irrefl [])
    | cons d ds =>
      obtain ⟨b, bs, heq⟩ := List.exists_cons_of_ne_nil (octets_ne_nil d.val.toNat)
      rw [octetsOf, octetsOf, List.flatMap_nil, List.flatMap_cons, heq]
      exact List.nil_lt_cons _ _
  | cons c cs ih =>
    cases ds with
    | nil => exact absurd h (List.not_lt_nil _)
    | cons d ds =>
      rw [octetsOf, octetsOf, List.flatMap_cons, List.flatMap_cons]
      rcases List.cons_lt_cons_iff.mp h with hlt | ⟨rfl, hlt⟩
      · exact octets_append_lt hlt _ _
      · exact List.append_left_lt (ih hlt)

/-- **Strings are ordered as their UTF-8 forms.** -/
theorem lt_iff_utf8_lt {s t : String} : s < t ↔ utf8 s < utf8 t := by
  rw [String.lt_iff, ← map_toNat_lt_iff, map_toNat_utf8, map_toNat_utf8]
  constructor
  · exact octetsOf_lt
  · intro h
    rcases Std.lt_trichotomy s.toList t.toList with hlt | heq | hgt
    · exact hlt
    · exact absurd (heq ▸ h) (List.lt_irrefl _)
    · exact absurd h (List.lt_asymm (octetsOf_lt hgt))

end KeyLedger.Text
