import Mathlib.Data.List.Range
import Mathlib.Tactic.IntervalCases

/-!
# The real time clock

`rtc_time_to_seconds` and `get_time_since_epoch` of `src/drivers/rtc.c`, and the Gregorian calendar.
The leap day is counted from the start of its year by a division, and again from March on by the
table of months.

* `Rtc.timeSinceEpoch_eq_iff` : **the time since 1970 is right** exactly outside of leap years.
-/

namespace DripOS

open List

/-- `rtc_time_t`, without the day of the week. -/
structure RtcTime where
  seconds : ℤ
  minutes : ℤ
  hours : ℤ
  dayOfMonth : ℤ
  month : ℤ
  year : ℤ
  century : ℤ

namespace Rtc

/-- `months_start`. -/
def monthsStart (time : RtcTime) : ℤ :=
  let leap := if time.year.tmod 4 = 0 then 1 else 0
  match time.month with
  | 2 => 31
  | 3 => 59 + leap
  | 4 => 90 + leap
  | 5 => 120 + leap
  | 6 => 151 + leap
  | 7 => 181 + leap
  | 8 => 212 + leap
  | 9 => 243 + leap
  | 10 => 273 + leap
  | 11 => 304 + leap
  | 12 => 334 + leap
  | _ => 0

/-- `rtc_time_to_seconds`, in 64-bit arithmetic. -/
def rtcTimeToSeconds (time : RtcTime) : ℤ :=
  let dayOfYear := time.dayOfMonth - 1 + monthsStart time
  let year := (time.year + time.century * 100) % 2 ^ 64
  let daysInYears := year * 365 + year / 4
  (time.seconds + time.minutes * 60 + time.hours * 60 * 60 + dayOfYear * 24 * 60 * 60 +
    daysInYears * 24 * 60 * 60) % 2 ^ 64

/-- `epoch_time`. -/
def epochTime : RtcTime := ⟨0, 0, 0, 1, 1, 70, 19⟩

/-- `get_time_since_epoch`, when `read_rtc` returns `time`. -/
def timeSinceEpoch (time : RtcTime) : ℤ :=
  (rtcTimeToSeconds time - rtcTimeToSeconds epochTime) % 2 ^ 64

/-! ### The calendar -/

/-- The leap years of the Gregorian calendar. -/
def LeapYear (y : ℕ) : Prop := y % 4 = 0 ∧ (y % 100 ≠ 0 ∨ y % 400 = 0)

instance decidableLeapYear (y : ℕ) : Decidable (LeapYear y) := inferInstanceAs (Decidable (_ ∧ _))

/-- The days of a year. -/
def yearLength (y : ℕ) : ℕ := if LeapYear y then 366 else 365

/-- The days of a month. -/
def monthLength (y m : ℕ) : ℕ :=
  match m with
  | 2 => if LeapYear y then 29 else 28
  | 4 | 6 | 9 | 11 => 30
  | _ => 31

/-- A date and a time from 1970 to 2099. -/
structure CivilTime where
  year : ℕ
  month : ℕ
  day : ℕ
  hours : ℕ
  minutes : ℕ
  seconds : ℕ
  year_mem : 1970 ≤ year ∧ year ≤ 2099
  month_mem : 1 ≤ month ∧ month ≤ 12
  day_mem : 1 ≤ day ∧ day ≤ monthLength year month
  hours_lt : hours < 24
  minutes_lt : minutes < 60
  seconds_lt : seconds < 60

namespace CivilTime

variable (c : CivilTime)

/-- The seconds since the beginning of 1970. -/
def secondsSince : ℕ :=
  let days := ((List.range' 1970 (c.year - 1970)).map yearLength).sum +
    ((List.range' 1 (c.month - 1)).map (monthLength c.year)).sum + (c.day - 1)
  ((days * 24 + c.hours) * 60 + c.minutes) * 60 + c.seconds

/-- The time as the clock has it. -/
def toRtc : RtcTime :=
  ⟨c.seconds, c.minutes, c.hours, c.day, c.month, (c.year % 100 : ℕ), (c.year / 100 : ℕ)⟩

end CivilTime

theorem leapYear_iff {y : ℕ} (h : 1970 ≤ y ∧ y ≤ 2099) : LeapYear y ↔ y % 4 = 0 := by
  unfold LeapYear
  omega

theorem sum_yearLength (n : ℕ) (hn : n ≤ 129) :
    ((List.range' 1970 n).map yearLength).sum + 492 = n * 365 + (1969 + n) / 4 := by
  induction n with
  | zero => rfl
  | succ n ih =>
    rw [range'_1_concat, map_append, map_singleton, sum_append,
      sum_singleton, yearLength, if_congr (leapYear_iff (by omega)) rfl rfl]
    split_ifs with hl <;> omega

/-- The table of months is right. -/
theorem monthsStart_toRtc (c : CivilTime) :
    monthsStart c.toRtc = ((List.range' 1 (c.month - 1)).map (monthLength c.year)).sum := by
  obtain ⟨hlo, hhi⟩ := c.month_mem
  have hleap : (c.toRtc.year.tmod 4 = 0) ↔ LeapYear c.year := by
    rw [leapYear_iff c.year_mem]
    show ((c.year % 100 : ℕ) : ℤ).tmod 4 = 0 ↔ _
    rw [Int.tmod_eq_emod_of_nonneg (Int.natCast_nonneg _)]
    omega
  have hmonth : c.toRtc.month = c.month := rfl
  unfold monthsStart
  simp only [hleap, hmonth]
  generalize c.month = m at *
  generalize c.year = y at *
  by_cases hl : LeapYear y <;> interval_cases m <;> simp [monthLength, hl, List.range']

/-- All of a leap year is one day ahead. -/
theorem timeSinceEpoch_toRtc (c : CivilTime) : timeSinceEpoch c.toRtc =
    c.secondsSince + if LeapYear c.year then 24 * 60 * 60 else 0 := by
  obtain ⟨hlo, hhi⟩ := c.year_mem
  obtain ⟨hday, hday'⟩ := c.day_mem
  have hyears := sum_yearLength (c.year - 1970) (by omega)
  have hmonths : ((List.range' 1 (c.month - 1)).map (monthLength c.year)).sum ≤ 366 := by
    have hle : monthsStart c.toRtc ≤ 366 := by
      simp only [monthsStart]
      split_ifs <;> split <;> omega
    rw [monthsStart_toRtc] at hle
    exact_mod_cast hle
  have hlength : monthLength c.year c.month ≤ 31 := by
    unfold monthLength
    split <;> (try split) <;> omega
  have hh := c.hours_lt
  have hm := c.minutes_lt
  have hs := c.seconds_lt
  have hepoch : rtcTimeToSeconds epochTime = 62168428800 := by decide +kernel
  rw [timeSinceEpoch, hepoch, rtcTimeToSeconds, monthsStart_toRtc, CivilTime.secondsSince,
    if_congr (leapYear_iff c.year_mem) rfl rfl]
  have hyear : ((c.year % 100 : ℕ) : ℤ) + (c.year / 100 : ℕ) * 100 = c.year := by omega
  have hsmall : (c.year : ℤ) % 2 ^ 64 = c.year := by omega
  simp only [CivilTime.toRtc, hyear]
  generalize ((List.range' 1 (c.month - 1)).map (monthLength c.year)).sum = months at *
  generalize ((List.range' 1970 (c.year - 1970)).map yearLength).sum = years at *
  rw [Int.emod_sub_emod, Int.emod_eq_of_lt (by omega) (by omega)]
  split_ifs with hl <;> omega

/-- **The seconds since 1970 are right** exactly when the year is not a leap year. -/
theorem timeSinceEpoch_eq_iff (c : CivilTime) :
    timeSinceEpoch c.toRtc = c.secondsSince ↔ ¬ LeapYear c.year := by
  rw [timeSinceEpoch_toRtc]
  split_ifs with hl <;> simp [hl]

/-- The last day of 2020. -/
def lastOf2020 : CivilTime :=
  ⟨2020, 12, 31, 0, 0, 0, by decide, by decide, by decide, by decide, by decide, by decide⟩

/-- The first day of 2021. -/
def firstOf2021 : CivilTime :=
  ⟨2021, 1, 1, 0, 0, 0, by decide, by decide, by decide, by decide, by decide, by decide⟩

/-- The last day of 2020 has the value of the next day. -/
theorem timeSinceEpoch_lastOf2020 :
    timeSinceEpoch lastOf2020.toRtc = 1609459200 ∧ lastOf2020.secondsSince = 1609372800 ∧
      timeSinceEpoch firstOf2021.toRtc = 1609459200 ∧ firstOf2021.secondsSince = 1609459200 := by
  decide +kernel

end Rtc

end DripOS
