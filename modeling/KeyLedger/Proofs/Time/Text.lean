import KeyLedger.Proofs.Text.Words
import KeyLedger.Time.Text
import Mathlib.Algebra.Group.Nat.Defs

/-!
# A written instant is read back

Reading is more liberal than writing, so there is only one way round to go: what was written is read
as the instant that it was written for, whatever the year, with or without a fraction, and in a leap
second too.

## Scanning from the front

Every scan takes a part off the front of a text, and each lemma below says what it takes off the
written form of its part, for any text that may follow. Padded numbers have the width that is looked
for, so they need no condition on what follows; the digits of a signed year and of a fraction are
ended by a mark.

## Main results

* `Scan.run_number`, `Scan.run_year`, `Scan.run_fraction` — the parts
* `parse?_text` — the whole
-/

namespace KeyLedger

namespace Instant

/-! ### Padded numbers -/

theorem isDigit_of_mem_padded {w n : Nat} {c : Char} (hc : c ∈ padded w n) :
    c.isDigit = true := by
  rcases List.mem_append.mp hc with hc | hc
  · rw [List.eq_of_mem_replicate hc]
    rfl
  · exact Nat.isDigit_of_mem_toDigits (by decide) (by decide) hc

theorem ofDigitChars_padded (w n : Nat) : Nat.ofDigitChars 10 (padded w n) 0 = n := by
  rw [padded, Nat.ofDigitChars_append, Nat.ofDigitChars_replicate_zero, Nat.mul_zero,
    Nat.ofDigitChars_ten_toDigits]

theorem length_padded {w n : Nat} (hw : 0 < w) (hn : n < 10 ^ w) : (padded w n).length = w := by
  have hle : (Nat.toDigits 10 n).length ≤ w :=
    (Nat.length_toDigits_le_iff (by decide) hw).mpr hn
  rw [padded, List.length_append, List.length_replicate]
  omega

theorem padded_ne_nil (w n : Nat) : padded w n ≠ [] := by
  simp [padded, Nat.toDigits_ne_nil]

/-! ### The parts of a written form -/

namespace Scan

theorem run_bind_of {α β : Type} {x : Scan α} {f : α → Scan β} {cs rest : List Char} {a : α}
    (h : x.run cs = some (a, rest)) : (x >>= f).run cs = (f a).run rest := by
  rw [StateT.run_bind, h]
  rfl

/-- No blank stands in front. -/
def Unblanked (cs : List Char) : Prop := ∀ c ∈ cs.head?, Text.isBlank c = false

theorem run_blanks {cs : List Char} (h : Unblanked cs) : blanks.run cs = some ((), cs) := by
  have hdrop : cs.dropWhile Text.isBlank = cs := by
    cases cs with
    | nil => rfl
    | cons c cs => rw [List.dropWhile_cons, if_neg (by simpa using h c rfl)]
  change some ((), cs.dropWhile Text.isBlank) = some ((), cs)
  rw [hdrop]

theorem run_oneOf {p : Char → Bool} {c : Char} (hc : p c = true) (rest : List Char) :
    (oneOf p).run (c :: rest) = some (c, rest) := by
  simp [oneOf, hc]

theorem run_mark {c : Char} (hc : Text.isBlank c = false) (rest : List Char) :
    (mark c).run (c :: rest) = some ((), rest) := by
  have hfront : Unblanked (c :: rest) := by
    intro d hd
    obtain rfl := Option.some.inj hd
    exact hc
  rw [mark, run_bind_of (run_blanks hfront), run_bind_of (run_oneOf (by simp) rest)]
  rfl

/-- Digits are taken up to the width, or up to a character that is none. -/
theorem run_digits {ds : List Char} {w : Nat} (rest : List Char)
    (hds : ∀ c ∈ ds, c.isDigit = true) (hne : ds ≠ []) (hle : ds.length ≤ w)
    (hstop : ds.length = w ∨ ∀ c ∈ rest.head?, c.isDigit = false) :
    (digits w).run (ds ++ rest) = some (ds, rest) := by
  have htake : ((ds ++ rest).take w).takeWhile Char.isDigit = ds := by
    rw [List.take_append, List.take_of_length_le hle, List.takeWhile_append_of_pos hds]
    rcases hstop with hw | hrest
    · simp [hw]
    · cases rest with
      | nil => simp
      | cons c rest =>
        have hc : c.isDigit = false := hrest c rfl
        cases w - ds.length with
        | zero => simp
        | succ k => simp [hc]
  have hempty : ds.isEmpty = false := by simpa using hne
  simp only [digits, StateT.run_bind, StateT.run_get, Option.pure_def, Option.bind_eq_bind,
    Option.bind_some, htake, hempty, Bool.false_eq_true, if_false, StateT.run_pure, StateT.run_set,
    List.drop_left]

theorem unblanked_append {ds : List Char} (rest : List Char) (hds : ∀ c ∈ ds, c.isDigit = true)
    (hne : ds ≠ []) :
    Unblanked (ds ++ rest) := by
  intro c hc
  obtain ⟨d, ds, rfl⟩ := List.exists_cons_of_ne_nil hne
  obtain rfl := Option.some.inj hc
  exact Text.isBlank_of_isDigit (hds d List.mem_cons_self)

theorem run_number {w n : Nat} (hw : 0 < w) (hn : n < 10 ^ w) (rest : List Char) :
    (number w).run (padded w n ++ rest) = some (n, rest) := by
  have hds : ∀ c ∈ padded w n, c.isDigit = true := fun c hc => isDigit_of_mem_padded hc
  have hlength := length_padded hw hn
  have hread := run_digits rest hds (padded_ne_nil w n) (Nat.le_of_eq hlength)
    (.inl hlength)
  rw [number, run_bind_of (run_blanks (unblanked_append rest hds (padded_ne_nil w n))),
    run_bind_of hread, ofDigitChars_padded]
  rfl

/-- A year is read back, if a mark follows it. -/
theorem run_year (y : Int) (rest : List Char) :
    year.run (yearText y ++ '-' :: rest) = some (y, '-' :: rest) := by
  have hds : ∀ c ∈ padded 4 y.natAbs, c.isDigit = true := fun c hc => isDigit_of_mem_padded hc
  have hne := padded_ne_nil 4 y.natAbs
  have hvalue := ofDigitChars_padded 4 y.natAbs
  by_cases hfour : 0 ≤ y ∧ y ≤ 9999
  · have htext : yearText y = padded 4 y.natAbs := by
      rw [yearText, if_pos hfour]
      exact congrArg _ (by omega)
    have hlength : (padded 4 y.natAbs).length = 4 := length_padded (by decide) (by omega)
    have hfront := unblanked_append ('-' :: rest) hds hne
    have hread := run_digits ('-' :: rest) hds hne (Nat.le_of_eq hlength) (.inl hlength)
    rw [htext, year, run_bind_of (run_blanks hfront)]
    obtain ⟨c, cs, hcs⟩ := List.exists_cons_of_ne_nil hne
    have hc : c.isDigit = true := hds c (hcs ▸ List.mem_cons_self)
    have hplus : c ≠ '+' := by rintro rfl; cases hc
    have hminus : c ≠ '-' := by rintro rfl; cases hc
    rw [hcs] at hread hvalue ⊢
    rw [List.cons_append] at hread ⊢
    refine (run_bind_of rfl).trans ?_
    split
    · next h => exact absurd (List.cons.inj h).1 hminus
    · next h => exact absurd (List.cons.inj h).1 hplus
    · rw [run_bind_of hread, hvalue]
      exact congrArg (fun z => some (z, '-' :: rest)) (by omega)
  · have hread : (digits (padded 4 y.natAbs ++ '-' :: rest).length).run
        (padded 4 y.natAbs ++ '-' :: rest) = some (padded 4 y.natAbs, '-' :: rest) :=
      run_digits _ hds hne (by simp) (.inr (by simp))
    rw [yearText, if_neg hfour, List.cons_append, year]
    by_cases hneg : y < 0
    · rw [if_pos hneg, run_bind_of (run_blanks (by simp [Unblanked]; rfl))]
      refine (run_bind_of rfl).trans ((run_bind_of rfl).trans ?_)
      rw [run_bind_of hread, hvalue]
      exact congrArg (fun z => some (z, '-' :: rest)) (by omega)
    · rw [if_neg hneg, run_bind_of (run_blanks (by simp [Unblanked]; rfl))]
      refine (run_bind_of rfl).trans ((run_bind_of rfl).trans ?_)
      rw [run_bind_of hread, hvalue]
      exact congrArg (fun z => some (z, '-' :: rest)) (by omega)

/-- The digits of a fraction in a number of groups, as nanoseconds. -/
theorem run_fraction_padded {w k : Nat} (hw : 0 < w) (hle : w ≤ 9) (hk : k < 10 ^ w) :
    fraction.run ('.' :: padded w k ++ ['Z']) = some (k * Nat.pow 10 (9 - w), ['Z']) := by
  have hlength := length_padded hw hk
  have hread := run_digits (w := 9) ['Z'] (fun c hc => isDigit_of_mem_padded hc)
    (padded_ne_nil w k) (by omega) (.inr (by simp))
  rw [fraction, List.cons_append]
  refine (run_bind_of rfl).trans ((run_bind_of rfl).trans ?_)
  rw [run_bind_of hread]
  refine (run_bind_of rfl).trans ?_
  rw [ofDigitChars_padded, hlength]
  rfl

/-- A fraction is read back. -/
theorem run_fraction {n : Nat} (hn : n < nanosPerSecond) :
    fraction.run (fractionText n ++ ['Z']) = some (n, ['Z']) := by
  have hexact : ∀ {k w : Nat}, k * Nat.pow 10 (9 - w) = n →
      some (k * Nat.pow 10 (9 - w), ['Z']) = some (n, ['Z']) :=
    fun h => congrArg (fun k => some (k, ['Z'])) h
  rw [nanosPerSecond] at hn
  rw [fractionText]
  split
  · next hzero =>
    subst hzero
    rfl
  · split
    · refine (run_fraction_padded (by decide) (by decide) (by omega)).trans (hexact ?_)
      change n / 1000000 * 1000000 = n
      omega
    · split
      · refine (run_fraction_padded (by decide) (by decide) (by omega)).trans (hexact ?_)
        change n / 1000 * 1000 = n
        omega
      · exact (run_fraction_padded (by decide) (by decide) (by omega)).trans
          (hexact (Nat.mul_one n))

theorem run_offset : offset.run ['Z'] = some (0, []) := rfl

end Scan

end Instant

/-! ### Dates and times -/

theorem IsDate.bounds {year : Int} {month day : Nat} (h : IsDate year month day) :
    month < 100 ∧ day < 100 := by
  obtain ⟨-, -, hpos, hle⟩ := h
  unfold daysInMonth at hle
  split at hle <;> first | omega | (split at hle <;> omega)

theorem Date.of?_eq (d : Date) : Date.of? d.year d.month d.day = some d :=
  dif_pos d.valid

/-- A time of day is made up again from what is written of it, a leap second as the sixtieth. -/
theorem TimeOfDay.of?_written (t : TimeOfDay) :
    TimeOfDay.of? t.hour t.minute (if nanosPerSecond ≤ t.nano then 60 else t.second)
      (if nanosPerSecond ≤ t.nano then t.nano - nanosPerSecond else t.nano) = some t := by
  obtain ⟨hour, minute, second, nano, hhour, hminute, hsecond, hnano, hleap⟩ := t
  by_cases hl : nanosPerSecond ≤ nano
  · obtain rfl : second = 59 := hleap hl
    simp [of?, hl, hhour, hminute, hnano, Nat.sub_add_cancel hl]
  · have hne : second ≠ 60 := Nat.ne_of_lt hsecond
    simp [of?, hl, hne, hhour, hminute, hsecond, hnano]

theorem Instant.ofLocal?_zero (date : Date) (time : TimeOfDay) :
    Instant.ofLocal? date time 0 = some ⟨date, time⟩ := by
  obtain ⟨hour, minute, second, nano, hhour, hminute, hsecond, hnano, hleap⟩ := time
  have hlow : ¬ (hour : Int) * 60 + minute - 0 < 0 := by omega
  have hhigh : (hour : Int) * 60 + minute - 0 < Instant.minutesPerDay := by
    rw [minutesPerDay]
    omega
  have hminutes : ((hour : Int) * 60 + minute - 0).toNat = hour * 60 + minute := by omega
  have hhours : (hour * 60 + minute) / 60 % 24 = hour := by omega
  have hrest : (hour * 60 + minute) % 60 = minute := by omega
  simp only [ofLocal?, hlow, hhigh, if_false, if_true, hminutes, TimeOfDay.atMinute, hhours, hrest]

/-! ### The whole -/

/-- **A written instant is read back.** -/
theorem Instant.parse?_text (t : Instant) : Instant.parse? t.text = some t := by
  obtain ⟨date, time⟩ := t
  obtain ⟨hmonth, hday⟩ := date.valid.bounds
  have hhour := time.hour_lt
  have hminute := time.minute_lt
  have hwritten := time.of?_written
  have hsecond : (if nanosPerSecond ≤ time.nano then 60 else time.second) < 10 ^ 2 := by
    have := time.second_lt
    split <;> omega
  have hnano : (if nanosPerSecond ≤ time.nano then time.nano - nanosPerSecond else time.nano) <
      nanosPerSecond := by
    have := time.nano_lt
    split <;> omega
  have hscan : Scan.instant.run (Instant.chars ⟨date, time⟩) = some (⟨date, time⟩, []) := by
    simp only [Instant.chars, List.append_assoc, List.cons_append]
    rw [Scan.instant, Scan.run_bind_of (Scan.run_year _ _),
      Scan.run_bind_of (Scan.run_mark rfl _),
      Scan.run_bind_of (Scan.run_number (by decide) hmonth _),
      Scan.run_bind_of (Scan.run_mark rfl _),
      Scan.run_bind_of (Scan.run_number (by decide) hday _),
      Scan.run_bind_of (Scan.run_oneOf rfl _),
      Scan.run_bind_of (Scan.run_number (by decide) (by omega) _),
      Scan.run_bind_of (Scan.run_mark rfl _),
      Scan.run_bind_of (Scan.run_number (by decide) (by omega) _),
      Scan.run_bind_of (Scan.run_mark rfl _),
      Scan.run_bind_of (Scan.run_number (by decide) hsecond _),
      Scan.run_bind_of (Scan.run_fraction hnano),
      Scan.run_bind_of Scan.run_offset]
    simp [Date.of?_eq, hwritten, Instant.ofLocal?_zero]
  rw [parse?, text, String.toList_ofList, hscan]
  rfl

end KeyLedger
