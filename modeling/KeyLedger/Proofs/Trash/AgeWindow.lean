import KeyLedger.Proofs.Text.Words
import KeyLedger.Quarantine
import Mathlib.Data.Nat.Digits.Defs

/-!
# How age windows are written

An age window is a count and a unit. A count has one or more decimal digits, with as many zeros in
front as one likes; the unit is a letter; and there may be blanks before, between and after the two,
of any kind and number. This file says so with a structure, whose values are the written forms, and
shows that reading accepts these and no others, as long as the count is positive and the days fit
into 32 bits.

## Two bounds

The digits of a count are not bounded, so it may be out of range before it is multiplied, and weeks
may bring a count out of range that was not. Both come down to the same bound on the days, because a
unit is at least one day.

## Main definitions

* `AgeUnit` — days and weeks
* `AgeWindow` — the written forms
* `AgeWindow.count`, `AgeWindow.days` — what they mean

## Main results

* `parseAge?_of_text` — how a written form is read
* `exists_of_parts` — what is read as a count and a unit is a written form
* `parseAge?_eq_ok_iff` — what is read
* `age_window_iff` — which texts are age windows
-/

namespace KeyLedger

open Text (AllBlank)

/-- The units of age windows. -/
inductive AgeUnit where
  /-- A day. -/
  | day
  /-- A week. -/
  | week
deriving DecidableEq

namespace AgeUnit

/-- The letter of a unit. -/
def mark : AgeUnit → Char
  | .day => 'd'
  | .week => 'w'

/-- Some units, in days. -/
def days : AgeUnit → Nat → Nat
  | .day, count => count
  | .week, count => 7 * count

theorem daysPerUnit?_mark (u : AgeUnit) (count : Nat) :
    ∃ days, daysPerUnit? [u.mark] = some days ∧ count * days = u.days count := by
  cases u with
  | day => exact ⟨1, rfl, Nat.mul_one count⟩
  | week => exact ⟨7, rfl, Nat.mul_comm count 7⟩

theorem exists_mark {cs : List Char} {days : Nat} (h : daysPerUnit? cs = some days) :
    ∃ u : AgeUnit, cs = [u.mark] := by
  unfold daysPerUnit? at h
  split at h
  · exact ⟨.day, rfl⟩
  · exact ⟨.week, rfl⟩
  · cases h

theorem isBlank_mark (u : AgeUnit) : Text.isBlank u.mark = false := by
  cases u <;> decide

theorem isDigit_mark (u : AgeUnit) : u.mark.isDigit = false := by
  cases u <;> decide

theorem le_days (u : AgeUnit) (count : Nat) : count ≤ u.days count := by
  cases u <;> simp only [days] <;> omega

end AgeUnit

/-- A written age window: blanks, a count in decimal, blanks, a unit, and blanks. -/
structure AgeWindow where
  /-- What stands before the count. -/
  before : List Char
  /-- The digits of the count. -/
  digits : List Char
  /-- What stands between the count and the unit. -/
  gap : List Char
  /-- The unit. -/
  unit : AgeUnit
  /-- What stands after the unit. -/
  after : List Char
  /-- Nothing but blanks is before the count. -/
  before_blank : AllBlank before
  /-- There is a digit. -/
  digits_ne_nil : digits ≠ []
  /-- The digits are digits. -/
  digits_decimal : ∀ c ∈ digits, c.isDigit = true
  /-- Nothing but blanks is between the count and the unit. -/
  gap_blank : AllBlank gap
  /-- Nothing but blanks is after the unit. -/
  after_blank : AllBlank after

namespace AgeWindow

variable (w : AgeWindow)

/-- The count and the unit. -/
def core : List Char := w.digits ++ (w.gap ++ [w.unit.mark])

/-- The text of an age window. -/
def text : List Char := w.before ++ w.core ++ w.after

/-- The number that the digits stand for. -/
def count : Nat := Nat.ofDigits 10 (w.digits.reverse.map fun c => c.toNat - '0'.toNat)

/-- The days of an age window. -/
def days : Nat := w.unit.days w.count

/-! ### Reading what is written -/

theorem trim_text : Text.trim w.text = w.core := by
  refine Text.trim_between w.before_blank w.after_blank (fun c hc => ?_) (fun c hc => ?_)
  · obtain ⟨d, ds, hdigits⟩ := List.exists_cons_of_ne_nil w.digits_ne_nil
    obtain rfl : d = c := by simpa [core, hdigits] using hc
    exact Text.isBlank_of_isDigit (w.digits_decimal d (by simp [hdigits]))
  · obtain rfl : w.unit.mark = c := by simpa [core] using hc
    exact w.unit.isBlank_mark

/-- The digits end where the gap or the unit starts. -/
theorem isDigit_head {c : Char} (hc : c ∈ (w.gap ++ [w.unit.mark]).head?) : c.isDigit = false := by
  cases hgap : w.gap with
  | nil =>
    obtain rfl : w.unit.mark = c := by simpa [hgap] using hc
    exact w.unit.isDigit_mark
  | cons d ds =>
    obtain rfl : d = c := by simpa [hgap] using hc
    have hblank : Text.isBlank d = true := w.gap_blank d (by simp [hgap])
    rw [← Bool.not_eq_true]
    intro hdigit
    rw [Text.isBlank_of_isDigit hdigit] at hblank
    cases hblank

theorem takeWhile_core : w.core.takeWhile Char.isDigit = w.digits := by
  rw [core, List.takeWhile_append_of_pos w.digits_decimal]
  have hnone : (w.gap ++ [w.unit.mark]).takeWhile Char.isDigit = [] := by
    refine List.takeWhile_eq_nil_iff.mpr fun hpos => ?_
    rw [w.isDigit_head (by simp [List.head?_eq_getElem?])]
    exact Bool.false_ne_true
  rw [hnone, List.append_nil]

theorem dropWhile_core :
    (w.core.dropWhile Char.isDigit).dropWhile Text.isBlank = [w.unit.mark] := by
  have hdigits : w.core.dropWhile Char.isDigit = w.gap ++ [w.unit.mark] := by
    have hall := List.takeWhile_append_dropWhile (p := Char.isDigit) (l := w.core)
    rw [takeWhile_core, core] at hall
    exact List.append_cancel_left hall
  rw [hdigits, List.dropWhile_append_of_pos w.gap_blank, List.dropWhile_cons_of_neg]
  simp [w.unit.isBlank_mark]

end AgeWindow

/-- Digits are read from the left, and count from the right. -/
theorem ofDigitChars_eq_ofDigits (ds : List Char) :
    Nat.ofDigitChars 10 ds 0 = Nat.ofDigits 10 (ds.reverse.map fun c => c.toNat - '0'.toNat) := by
  induction ds using List.reverseRecOn with
  | nil => rfl
  | append_singleton ds c ih =>
    rw [Nat.ofDigitChars_append, Nat.ofDigitChars_cons, ih, List.reverse_append,
      List.reverse_singleton, List.singleton_append, List.map_cons, Nat.ofDigits_cons,
      Nat.add_comm]
    rfl

/-- **How a written form is read.** -/
theorem parseAge?_of_text {token : String} {w : AgeWindow} (h : w.text = token.toList) :
    parseAge? token =
      if 0 < w.count ∧ w.days < 2 ^ 32 then .ok w.days else .error (.invalidAge token) := by
  obtain ⟨days, hunit, hdays⟩ := w.unit.daysPerUnit?_mark w.count
  have hne : w.digits.isEmpty = false := by simpa using w.digits_ne_nil
  have hcount : Nat.ofDigitChars 10 w.digits 0 = w.count := ofDigitChars_eq_ofDigits w.digits
  simp only [parseAge?, ← h, w.trim_text, w.takeWhile_core, w.dropWhile_core, hunit, hcount, hne,
    hdays]
  exact if_congr (by simp [AgeWindow.days, UInt32.size]) rfl rfl

/-! ### Writing what is read -/

/-- **What is read as a count and a unit is a written form.** -/
theorem exists_of_parts {token : String} {days : Nat} (hdigits :
      (Text.trim token.toList).takeWhile Char.isDigit ≠ [])
    (hunit : daysPerUnit? (((Text.trim token.toList).dropWhile Char.isDigit).dropWhile
      Text.isBlank) = some days) : ∃ w : AgeWindow, w.text = token.toList := by
  obtain ⟨before, after, hbefore, hafter, htext⟩ := Text.exists_trim token.toList
  obtain ⟨u, hmark⟩ := AgeUnit.exists_mark hunit
  set cs := Text.trim token.toList
  have hcore : cs = cs.takeWhile Char.isDigit ++
      ((cs.dropWhile Char.isDigit).takeWhile Text.isBlank ++ [u.mark]) := by
    rw [← hmark, List.takeWhile_append_dropWhile, List.takeWhile_append_dropWhile]
  refine ⟨⟨before, cs.takeWhile Char.isDigit, (cs.dropWhile Char.isDigit).takeWhile Text.isBlank, u,
    after, hbefore, hdigits, fun c hc => List.mem_takeWhile_imp hc,
    fun c hc => List.mem_takeWhile_imp hc, hafter⟩, ?_⟩
  rw [AgeWindow.text, AgeWindow.core, ← hcore, ← htext]

theorem parseAge?_of_no_text {token : String} (h : ∀ w : AgeWindow, w.text ≠ token.toList) :
    parseAge? token = .error (.invalidAge token) := by
  rw [parseAge?]
  split
  · next days hunit =>
    refine if_neg fun hguard => ?_
    obtain ⟨w, hw⟩ := exists_of_parts (by simpa using hguard.1) hunit
    exact h w hw
  · rfl

/-! ### Age windows -/

/-- **What is read**: the written forms with a positive count whose days fit into 32 bits. -/
theorem parseAge?_eq_ok_iff {token : String} {days : Nat} : parseAge? token = .ok days ↔
    ∃ w : AgeWindow, w.text = token.toList ∧ 1 ≤ w.count ∧ days = w.days ∧ days < 2 ^ 32 := by
  constructor
  · intro hok
    by_cases hw : ∃ w : AgeWindow, w.text = token.toList
    · obtain ⟨w, hw⟩ := hw
      rw [parseAge?_of_text hw] at hok
      split at hok
      · next hguard =>
        obtain rfl := Except.ok.inj hok
        exact ⟨w, hw, hguard.1, rfl, hguard.2⟩
      · cases hok
    · rw [parseAge?_of_no_text fun w h => hw ⟨w, h⟩] at hok
      cases hok
  · rintro ⟨w, hw, hpos, rfl, hlt⟩
    rw [parseAge?_of_text hw, if_pos ⟨hpos, hlt⟩]

/-- A window has at least one day. -/
theorem one_le_of_parseAge? {token : String} {days : Nat} (h : parseAge? token = .ok days) :
    1 ≤ days := by
  obtain ⟨w, -, hpos, rfl, -⟩ := parseAge?_eq_ok_iff.mp h
  exact hpos.trans (w.unit.le_days w.count)

/-- What is not read is refused as it was given. -/
theorem parseAge?_of_not_ok {token : String} (h : ¬ ∃ days, parseAge? token = .ok days) :
    parseAge? token = .error (.invalidAge token) := by
  by_cases hw : ∃ w : AgeWindow, w.text = token.toList
  · obtain ⟨w, hw⟩ := hw
    rw [parseAge?_of_text hw] at h ⊢
    exact if_neg fun hguard => h ⟨w.days, if_pos hguard⟩
  · exact parseAge?_of_no_text fun w h => hw ⟨w, h⟩

/-- **Which texts are age windows**: the written forms with a positive count whose days fit into 32
bits. Anything else is refused as it was given. So there is at least one day, and the seconds can be
counted in 64 bits. -/
theorem age_window_iff (token : String) :
    (∀ days, parseAge? token = .ok days ↔
      ∃ w : AgeWindow, w.text = token.toList ∧ 1 ≤ w.count ∧ days = w.days ∧ days < 2 ^ 32) ∧
    ((¬ ∃ days, parseAge? token = .ok days) → parseAge? token = .error (.invalidAge token)) ∧
    ∀ days, parseAge? token = .ok days →
      1 ≤ days ∧ days < 2 ^ 32 ∧ days * 86400 < 2 ^ 64 ∧
        (UInt64.ofNat days * 86400).toNat = days * 86400 := by
  refine ⟨fun days => parseAge?_eq_ok_iff, parseAge?_of_not_ok, fun days hok => ?_⟩
  obtain ⟨-, -, -, -, hlt⟩ := parseAge?_eq_ok_iff.mp hok
  have hsmall : days * 86400 < 2 ^ 64 := by omega
  have hword : days < UInt64.size := show days < 2 ^ 64 by omega
  refine ⟨one_le_of_parseAge? hok, hlt, hsmall, ?_⟩
  rw [UInt64.toNat_mul, UInt64.toNat_ofNat_of_lt' hword]
  exact Nat.mod_eq_of_lt hsmall

/-- A count with zeros in front, an ideographic space before the unit, and blanks on both sides; the
largest count of weeks, and the next one. -/
theorem age_window_of_weeks :
    parseAge? " 003\u3000w\t" = .ok 21 ∧
      (∃ w : AgeWindow, w.text = " 003\u3000w\t".toList ∧ 1 ≤ w.count ∧ 21 = w.days ∧ 21 < 2 ^ 32) ∧
      (UInt64.ofNat 21 * 86400).toNat = 21 * 86400 ∧
      parseAge? "613566756w" = .ok 4294967292 ∧
      parseAge? "613566757w " = .error (.invalidAge "613566757w ") := by
  have hread : parseAge? " 003\u3000w\t" = .ok 21 := by decide +kernel
  have hrefused : ¬ ∃ days, parseAge? "613566757w " = .ok days := by
    rintro ⟨days, hok⟩
    have hnone : (parseAge? "613566757w ").toOption = none := by decide +kernel
    rw [hok] at hnone
    cases hnone
  exact ⟨hread, ((age_window_iff _).1 21).mp hread, ((age_window_iff _).2.2 21 hread).2.2.2,
    by decide +kernel, (age_window_iff _).2.1 hrefused⟩

end KeyLedger
