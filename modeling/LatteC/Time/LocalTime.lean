import LatteC.Foundation.Gregorian
import Mathlib.Tactic.IntervalCases

/-!
# Civil time

`nolocks_localtime` of `src/time/localtime.c`. It takes whole years off the days since 1970, and then whole
months off what is left. What remains of the days at each point, with the days before the year and the month, is
what there was at the start; this is the invariant of both loops.

The year is an `int` while it is counted up, and an `int` wraps. A `time_t` does not overflow: the number of
seconds that is split up is small if its year is an `int`.
-/

namespace LatteC

open Gregorian

/-- `struct tm`, without the members that are not set. -/
structure Tm where
  tmSec : ℤ
  tmMin : ℤ
  tmHour : ℤ
  tmMday : ℤ
  tmMon : ℤ
  tmYear : ℤ
  tmWday : ℤ
  tmYday : ℤ
  tmIsdst : ℤ
deriving DecidableEq

/-- A number as an `int`. -/
def asInt (n : ℤ) : ℤ := n.bmod (2 ^ 32)

/-- `_is_leap_year`. -/
def isLeapYear (year : ℤ) : ℤ :=
  if year.tmod 4 ≠ 0 then 0
  else if year.tmod 100 ≠ 0 then 1
  else if year.tmod 400 ≠ 0 then 0
  else 1

/-- The loop that finds the year, with the number of rounds it may take. -/
def localtimeYear : ℕ → ℤ → ℤ → Option (ℤ × ℤ)
  | 0, _, _ => none
  | fuel + 1, days, year =>
    let daysThisYear := 365 + isLeapYear year
    if days < daysThisYear then some (days, year)
    else localtimeYear fuel (days - daysThisYear) (asInt (year + 1))

/-- The lengths of the months. -/
def mdays (year : ℤ) : List ℤ :=
  [31, 28, 31, 30, 31, 30, 31, 31, 30, 31, 30, 31].modify 1 fun n ↦ n + isLeapYear year

/-- The loop that finds the month, with the number of rounds it may take. -/
def localtimeMonth (mdays : List ℤ) : ℕ → ℤ → ℕ → Option (ℤ × ℕ)
  | 0, _, _ => none
  | fuel + 1, days, mon =>
    mdays[mon]?.bind fun n ↦ if n ≤ days then localtimeMonth mdays fuel (days - n) (mon + 1) else some (days, mon)

/-- `nolocks_localtime`. -/
def nolocksLocaltime (t tz dst : ℤ) : Option Tm := do
  let t := t - tz
  let t := t + asInt (3600 * dst)
  let days := t.tdiv (3600 * 24)
  let seconds := t.tmod (3600 * 24)
  let (yday, year) ← localtimeYear (days.toNat + 1) days 1970
  let (mday, mon) ← localtimeMonth (mdays year) 13 yday 0
  return {
    tmSec := asInt ((seconds.tmod 3600).tmod 60)
    tmMin := asInt ((seconds.tmod 3600).tdiv 60)
    tmHour := asInt (seconds.tdiv 3600)
    tmMday := asInt (mday + 1)
    tmMon := asInt mon
    tmYear := asInt (year - 1900)
    tmWday := asInt ((days + 4).tmod 7)
    tmYday := asInt yday
    tmIsdst := dst }

/-! ## The loops -/

theorem asInt_of_lt {n : ℤ} (h₀ : -2 ^ 31 ≤ n) (h : n < 2 ^ 31) : asInt n = n := by
  rw [asInt, Int.bmod_def]
  push_cast
  split_ifs
  · omega
  · omega

/-- The test for a leap year, for a year that is not negative. -/
theorem isLeapYear_eq {year : ℤ} (h : 0 ≤ year) : 365 + isLeapYear year = yearDays year := by
  rw [isLeapYear, Int.tmod_eq_emod_of_nonneg h, Int.tmod_eq_emod_of_nonneg h, Int.tmod_eq_emod_of_nonneg h,
    yearDays]
  by_cases hleap : IsLeap year
  · rw [if_pos hleap]
    rw [IsLeap] at hleap
    split_ifs
    all_goals omega
  · rw [if_neg hleap]
    rw [IsLeap] at hleap
    split_ifs
    all_goals omega

/-- The years: what is left is less than a year, and as many days are passed as the years have. -/
theorem localtimeYear_spec {days year : ℤ} (hdays : 0 ≤ days) (hyear : 0 ≤ year)
    (hlast : daysBeforeYear year + days < daysBeforeYear (2 ^ 31)) {fuel : ℕ} (hfuel : days.toNat < fuel) :
    ∃ days' year', localtimeYear fuel days year = some (days', year') ∧ 0 ≤ days' ∧ days' < yearDays year' ∧
      0 ≤ year' ∧ year' < 2 ^ 31 ∧ daysBeforeYear year' + days' = daysBeforeYear year + days := by
  induction fuel generalizing days year with
  | zero => exact absurd hfuel (Nat.not_lt_zero _)
  | succ fuel ih =>
    have hlen := le_yearDays year
    have hbound : year < 2 ^ 31 := daysBeforeYear_mono.reflect_lt (by omega)
    rw [localtimeYear, isLeapYear_eq hyear]
    by_cases hlt : days < yearDays year
    · exact ⟨days, year, if_pos hlt, hdays, hlt, hyear, hbound, rfl⟩
    · have hsucc := daysBeforeYear_succ year
      have hnext : year + 1 < 2 ^ 31 := daysBeforeYear_mono.reflect_lt (by omega)
      obtain ⟨days', year', hloop, hnonneg, hlt', hyear', hbound', hsum⟩ :=
        @ih (days - yearDays year) (year + 1) (by omega) (by omega) (by omega) (by omega)
      refine ⟨days', year', ?_, hnonneg, hlt', hyear', hbound', by omega⟩
      simp only [if_neg hlt]
      rw [asInt_of_lt (by omega) hnext]
      exact hloop

theorem getElem?_mdays {year : ℤ} (h : 0 ≤ year) {mon : ℕ} (hmon : mon < 12) :
    (mdays year)[mon]? = some (monthDays year mon) := by
  have hleap := isLeapYear_eq h
  rw [yearDays] at hleap
  interval_cases mon
  case «1» =>
    show some (28 + isLeapYear year) = some (if IsLeap year then 29 else 28)
    split_ifs at hleap ⊢
    · exact congrArg some (by omega)
    · exact congrArg some (by omega)
  all_goals rfl

/-- The months: what is left is less than a month, and as many days are passed as the months have. -/
theorem localtimeMonth_spec {year days : ℤ} (hyear : 0 ≤ year) (hdays : 0 ≤ days) {mon : ℕ}
    (hlast : daysBeforeMonth year mon + days < yearDays year) {fuel : ℕ} (hfuel : 12 < mon + fuel) :
    ∃ days' mon', localtimeMonth (mdays year) fuel days mon = some (days', mon') ∧ 0 ≤ days' ∧
      days' < monthDays year mon' ∧ mon' < 12 ∧
      daysBeforeMonth year mon' + days' = daysBeforeMonth year mon + days := by
  have htwelve := daysBeforeMonth_twelve year
  have hmon : mon < 12 := (daysBeforeMonth_mono year).reflect_lt (by omega)
  induction fuel generalizing days mon with
  | zero => exact absurd hfuel (by omega)
  | succ fuel ih =>
    rw [localtimeMonth, getElem?_mdays hyear hmon, Option.bind_some]
    by_cases hle : monthDays year mon ≤ days
    · have hsum : daysBeforeMonth year (mon + 1) = daysBeforeMonth year mon + monthDays year mon := rfl
      have hnext : mon + 1 < 12 := (daysBeforeMonth_mono year).reflect_lt (by omega)
      obtain ⟨days', mon', hloop, hnonneg, hlt, hmon', hsum'⟩ :=
        @ih (days - monthDays year mon) (by omega) (mon + 1) (by omega) (by omega) hnext
      exact ⟨days', mon', by rw [if_pos hle]; exact hloop, hnonneg, hlt, hmon', by omega⟩
    · exact ⟨days, mon, if_neg hle, hdays, not_le.mp hle, hmon, rfl⟩

/-! ## Dates and times -/

/-- The date and the day of the year of a number of days. -/
theorem localtimeDate {days : ℤ} (hdays : 0 ≤ days) (hlast : days < daysBeforeYear (2 ^ 31)) :
    ∃ d : Date, localtimeYear (days.toNat + 1) days 1970 = some (d.yearDay, d.year) ∧
      localtimeMonth (mdays d.year) 13 d.yearDay 0 = some (d.day - 1, d.month) ∧
      d.toDays = days ∧ 0 ≤ d.year ∧ d.year < 2 ^ 31 := by
  have hepoch : daysBeforeYear 1970 = 0 := by decide
  obtain ⟨yday, year, hyear, hyday, hlt, hnonneg, hbound, hsum⟩ :=
    localtimeYear_spec hdays (by decide : (0 : ℤ) ≤ 1970) (by omega) (Nat.lt_succ_self _)
  have hjanuary : daysBeforeMonth year 0 = 0 := rfl
  obtain ⟨mday, mon, hmon, hmday, hmdayLt, hmonLt, hsum'⟩ :=
    localtimeMonth_spec hnonneg hyday (by omega : daysBeforeMonth year 0 + yday < yearDays year)
      (by decide : 12 < 0 + 13)
  have hone : 1 ≤ mday + 1 := by omega
  have hyearDay : Date.yearDay ⟨year, mon, mday + 1, hmonLt, hone, hmdayLt⟩ = yday := by
    show daysBeforeMonth year mon + (mday + 1 - 1) = yday
    omega
  refine ⟨⟨year, mon, mday + 1, hmonLt, hone, hmdayLt⟩, ?_, ?_, ?_, hnonneg, hbound⟩
  · rw [hyearDay]
    exact hyear
  · rw [hyearDay, add_sub_cancel_right]
    exact hmon
  · rw [Date.toDays, hyearDay]
    exact hsum.trans (by omega)

/-- What `tm` is filled with; every member is in the range of an `int`. -/
theorem nolocksLocaltime_eq {t tz dst : ℤ} (hdst : dst = 0 ∨ dst = 1) {T : ℤ} (hT : t - tz + 3600 * dst = T)
    (hnonneg : 0 ≤ T) (hyear : T < 86400 * daysBeforeYear (2 ^ 31)) :
    ∃ d : Date, d.toDays = T / 86400 ∧ nolocksLocaltime t tz dst =
      some ⟨T % 86400 % 3600 % 60, T % 86400 % 3600 / 60, T % 86400 / 3600, d.day, d.month, d.year - 1900,
        d.weekday, d.yearDay, dst⟩ := by
  have hshift : asInt (3600 * dst) = 3600 * dst := asInt_of_lt (by omega) (by omega)
  have hdays₀ : 0 ≤ T / 86400 := by omega
  have hseconds₀ : 0 ≤ T % 86400 := by omega
  have hminutes₀ : 0 ≤ T % 86400 % 3600 := by omega
  have hdays : T.tdiv (3600 * 24) = T / 86400 := Int.tdiv_eq_ediv_of_nonneg hnonneg
  have hseconds : T.tmod (3600 * 24) = T % 86400 := Int.tmod_eq_emod_of_nonneg hnonneg
  obtain ⟨d, hyears, hmonths, htoDays, hnonnegYear, hbound⟩ := localtimeDate hdays₀ (by omega)
  have hday := d.one_le_day
  have hdayLe := d.day_le.trans (monthDays_le _ _)
  have hmonth := d.month_lt
  have hyearDay := d.yearDay_nonneg
  have hyearDayLt := d.yearDay_lt.trans_le (yearDays_le _)
  have hweekday : d.weekday = (T / 86400 + 4) % 7 := by rw [d.weekday_eq, htoDays]
  refine ⟨d, htoDays, ?_⟩
  rw [nolocksLocaltime]
  simp only [hshift, hT, hdays, hseconds, Option.bind_eq_bind, hyears, hmonths, Option.bind_some]
  rw [Int.tmod_eq_emod_of_nonneg hseconds₀, Int.tmod_eq_emod_of_nonneg hminutes₀,
    Int.tdiv_eq_ediv_of_nonneg hminutes₀, Int.tdiv_eq_ediv_of_nonneg hseconds₀,
    Int.tmod_eq_emod_of_nonneg (by omega : 0 ≤ T / 86400 + 4), ← hweekday, sub_add_cancel]
  -- no conversion changes anything
  have hsec : asInt (T % 86400 % 3600 % 60) = T % 86400 % 3600 % 60 := asInt_of_lt (by omega) (by omega)
  have hmin : asInt (T % 86400 % 3600 / 60) = T % 86400 % 3600 / 60 := asInt_of_lt (by omega) (by omega)
  have hhour : asInt (T % 86400 / 3600) = T % 86400 / 3600 := asInt_of_lt (by omega) (by omega)
  have hmday : asInt d.day = d.day := asInt_of_lt (by omega) (by omega)
  have hmon : asInt d.month = d.month := asInt_of_lt (by omega) (by omega)
  have hyear' : asInt (d.year - 1900) = d.year - 1900 := asInt_of_lt (by omega) (by omega)
  have hwday : asInt d.weekday = d.weekday := asInt_of_lt (by omega) (by omega)
  have hyday : asInt d.yearDay = d.yearDay := asInt_of_lt (by omega) (by omega)
  rw [hsec, hmin, hhour, hmday, hmon, hyear', hwday, hyday]
  rfl

/-- **Civil time.** For every time of which the year is an `int`, `tm` is the date that comes as many days after
1 January 1970 as there are in that time, with the seconds of the day as hours, minutes and seconds, the day of
the week and the day of the year. -/
theorem nolocksLocaltime_civil {t tz dst : ℤ} (hdst : dst = 0 ∨ dst = 1) (hnonneg : 0 ≤ t - tz + 3600 * dst)
    (hyear : t - tz + 3600 * dst < 86400 * daysBeforeYear (2 ^ 31)) :
    ∃ tm, ∃ d : Date, nolocksLocaltime t tz dst = some tm ∧
      d = Date.next^[((t - tz + 3600 * dst) / 86400).toNat] Date.epoch ∧
      (tm.tmYear + 1900 = d.year ∧ tm.tmMon = d.month ∧ tm.tmMday = d.day) ∧
      (0 ≤ tm.tmHour ∧ tm.tmHour < 24) ∧ (0 ≤ tm.tmMin ∧ tm.tmMin < 60) ∧ (0 ≤ tm.tmSec ∧ tm.tmSec < 60) ∧
      86400 * d.toDays + 3600 * tm.tmHour + 60 * tm.tmMin + tm.tmSec = t - tz + 3600 * dst ∧
      tm.tmWday = d.weekday ∧ tm.tmYday = d.yearDay ∧ tm.tmIsdst = dst := by
  obtain ⟨d, htoDays, hlocaltime⟩ := nolocksLocaltime_eq hdst rfl hnonneg hyear
  refine ⟨_, d, hlocaltime, Date.eq_iterate ?_, ⟨sub_add_cancel _ _, rfl, rfl⟩, ?_, ?_, ?_, ?_, rfl, rfl, rfl⟩
  · rw [htoDays, Int.toNat_of_nonneg (Int.ediv_nonneg hnonneg (by decide))]
  all_goals simp only
  · omega
  · omega
  · omega
  · omega

/-- An hour into 29 February 2000, a Tuesday. -/
theorem nolocksLocaltime_civil_leap :
    ∃ tm, ∃ d : Date, nolocksLocaltime 951786000 0 0 = some tm ∧
      (tm.tmYear + 1900 = d.year ∧ tm.tmMon = d.month ∧ tm.tmMday = d.day) ∧
      86400 * d.toDays + 3600 * tm.tmHour + 60 * tm.tmMin + tm.tmSec = 951786000 := by
  obtain ⟨tm, d, hlocaltime, -, hdate, -, -, -, hseconds, -⟩ :=
    @nolocksLocaltime_civil 951786000 0 0 (Or.inl rfl) (by decide) (by decide)
  exact ⟨tm, d, hlocaltime, hdate, hseconds⟩

example : nolocksLocaltime 951789600 3600 0 = some ⟨0, 0, 1, 29, 1, 100, 2, 59, 0⟩ := by decide +kernel

end LatteC
