import KeyLedger.Time.Date

/-!
# Instants

An instant is a date and a time of day in UTC, to the nanosecond. A leap second is held as a
fraction of a second above one, which only the last second of a minute may have; on the timeline it
therefore falls together with the second that follows.

## Main definitions

* `Instant` — instants
* `Instant.ofLocal?` — the instant of a local time at an offset from UTC
* `Instant.nanoseconds` — the position on the timeline
* `Instant.ofUnix?` — the instant at a position
-/

namespace KeyLedger

/-- Nanoseconds per second. -/
def nanosPerSecond : Nat := 1000000000

/-- A time of day. -/
structure TimeOfDay where
  /-- The hour. -/
  hour : Nat
  /-- The minute. -/
  minute : Nat
  /-- The second. -/
  second : Nat
  /-- The fraction of the second, a second or more of it in a leap second. -/
  nano : Nat
  /-- There are twenty-four hours. -/
  hour_lt : hour < 24
  /-- There are sixty minutes. -/
  minute_lt : minute < 60
  /-- There are sixty seconds. -/
  second_lt : second < 60
  /-- A leap second lasts one second. -/
  nano_lt : nano < 2 * nanosPerSecond
  /-- Only the last second of a minute is followed by a leap second. -/
  leap : nanosPerSecond ≤ nano → second = 59
deriving DecidableEq

/-- The time of day with the given parts; the sixtieth second is a leap second. -/
def TimeOfDay.of? (hour minute second nano : Nat) : Option TimeOfDay :=
  let (s, n) := if second = 60 then (59, nano + nanosPerSecond) else (second, nano)
  if h : hour < 24 ∧ minute < 60 ∧ s < 60 ∧ n < 2 * nanosPerSecond ∧
      (nanosPerSecond ≤ n → s = 59) then
    some ⟨hour, minute, s, n, h.1, h.2.1, h.2.2.1, h.2.2.2.1, h.2.2.2.2⟩
  else none

/-- The same second of another minute of the day. -/
def TimeOfDay.atMinute (t : TimeOfDay) (minutes : Nat) : TimeOfDay :=
  { t with
    hour := minutes / 60 % 24
    minute := minutes % 60
    hour_lt := Nat.mod_lt _ (by decide)
    minute_lt := Nat.mod_lt _ (by decide) }

/-- An instant in UTC. -/
structure Instant where
  /-- The date. -/
  date : Date
  /-- The time of day. -/
  time : TimeOfDay
deriving DecidableEq

namespace Instant

/-- The minutes of a day. -/
def minutesPerDay : Nat := 1440

/-- The instant at which clocks that are `offset` minutes ahead of UTC show the given date and
time, unless it lies outside the range of dates. The offset is less than a day. -/
def ofLocal? (date : Date) (time : TimeOfDay) (offset : Int) : Option Instant :=
  let minutes : Int := time.hour * 60 + time.minute - offset
  if minutes < 0 then
    date.previous?.map fun d => ⟨d, time.atMinute (minutes + minutesPerDay).toNat⟩
  else if minutes < minutesPerDay then some ⟨date, time.atMinute minutes.toNat⟩
  else date.next?.map fun d => ⟨d, time.atMinute (minutes - minutesPerDay).toNat⟩

/-! ### The timeline -/

/-- The seconds of a day. -/
def secondsPerDay : Nat := 86400

/-- Nanoseconds since 1970-01-01. -/
def nanoseconds (t : Instant) : Int :=
  let ofDay := t.time.hour * 3600 + t.time.minute * 60 + t.time.second
  (t.date.dayNumber * secondsPerDay + ofDay) * nanosPerSecond + t.time.nano

/-- The instant that many seconds and nanoseconds after 1970-01-01. -/
def ofUnix? (seconds : Int) (nano : Nat) : Option Instant := do
  let day := Int.fdiv seconds secondsPerDay
  let ofDay := (seconds - day * secondsPerDay).toNat
  let date ← Date.ofDayNumber? day
  let time ← TimeOfDay.of? (ofDay / 3600) (ofDay / 60 % 60) (ofDay % 60) nano
  return ⟨date, time⟩

end Instant

end KeyLedger
