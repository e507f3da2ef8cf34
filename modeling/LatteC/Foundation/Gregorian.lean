import Mathlib.Algebra.Order.SuccPred
import Mathlib.Algebra.Order.Ring.Int
import Mathlib.Order.Iterate
import Mathlib.Data.Int.ConditionallyCompleteOrder
import Mathlib.Data.Int.SuccPred

/-!
# The proleptic Gregorian calendar

Dates with the day after a date, and the number of days since 1 January 1970. That number goes up by one from
each day to the next and determines the date, so the date of a number is the one that so many steps lead to.

Months count from 0, days from 1, the days of a year and of a week from 0, and a week starts on Sunday.
-/

namespace Gregorian

/-- The leap years. -/
def IsLeap (y : ℤ) : Prop := y % 4 = 0 ∧ (y % 100 ≠ 0 ∨ y % 400 = 0)

instance : DecidablePred IsLeap := fun y ↦ inferInstanceAs (Decidable (y % 4 = 0 ∧ (y % 100 ≠ 0 ∨ y % 400 = 0)))

/-- The length of a year. -/
def yearDays (y : ℤ) : ℤ := if IsLeap y then 366 else 365

/-- The length of a month. -/
def monthDays (y : ℤ) (m : ℕ) : ℤ :=
  if m = 1 then if IsLeap y then 29 else 28
  else if m = 3 ∨ m = 5 ∨ m = 8 ∨ m = 10 then 30
  else 31

/-- The days of a year before a month. -/
def daysBeforeMonth (y : ℤ) : ℕ → ℤ
  | 0 => 0
  | m + 1 => daysBeforeMonth y m + monthDays y m

/-- The days from 1 January 1970 to 1 January of a year. -/
def daysBeforeYear (y : ℤ) : ℤ := 365 * (y - 1970) + ((y - 1) / 4 - (y - 1) / 100 + (y - 1) / 400) - 477

/-! ## Years and months -/

theorem le_yearDays (y : ℤ) : 365 ≤ yearDays y := by
  rw [yearDays]
  split_ifs
  · decide
  · exact le_rfl

theorem yearDays_le (y : ℤ) : yearDays y ≤ 366 := by
  rw [yearDays]
  split_ifs
  · exact le_rfl
  · decide

theorem le_monthDays (y : ℤ) (m : ℕ) : 28 ≤ monthDays y m := by
  rw [monthDays]
  split_ifs <;> decide

theorem monthDays_le (y : ℤ) (m : ℕ) : monthDays y m ≤ 31 := by
  rw [monthDays]
  split_ifs <;> decide

theorem daysBeforeYear_succ (y : ℤ) : daysBeforeYear (y + 1) = daysBeforeYear y + yearDays y := by
  rw [daysBeforeYear, daysBeforeYear, yearDays]
  split_ifs with hleap
  · rw [IsLeap] at hleap
    omega
  · rw [IsLeap] at hleap
    omega

theorem daysBeforeYear_mono : Monotone daysBeforeYear := by
  refine monotone_int_of_le_succ fun y ↦ ?_
  have hyear := le_yearDays y
  rw [daysBeforeYear_succ]
  omega

theorem daysBeforeMonth_mono (y : ℤ) : Monotone (daysBeforeMonth y) := by
  refine monotone_nat_of_le_succ fun m ↦ ?_
  have hmonth := le_monthDays y m
  rw [daysBeforeMonth]
  omega

/-- The months of a year make up the year. -/
theorem daysBeforeMonth_twelve (y : ℤ) : daysBeforeMonth y 12 = yearDays y := by
  by_cases hleap : IsLeap y
  · simp [daysBeforeMonth, monthDays, yearDays, hleap]
  · simp [daysBeforeMonth, monthDays, yearDays, hleap]

/-! ## Dates -/

/-- A date. -/
@[ext] structure Date where
  year : ℤ
  month : ℕ
  day : ℤ
  month_lt : month < 12
  one_le_day : 1 ≤ day
  day_le : day ≤ monthDays year month

namespace Date

theorem january_lt : 0 < 12 := Nat.succ_pos 11

theorem one_le_monthDays (y : ℤ) (m : ℕ) : 1 ≤ monthDays y m := le_trans (by decide) (le_monthDays y m)

theorem one_le_succ (d : Date) : 1 ≤ d.day + 1 := d.one_le_day.trans (Int.le_add_one le_rfl)

theorem succ_lt {m : ℕ} (h : m < 11) : m + 1 < 12 := Nat.succ_lt_succ h

/-- The day after. -/
def next (d : Date) : Date :=
  if hday : d.day < monthDays d.year d.month then
    ⟨d.year, d.month, d.day + 1, d.month_lt, d.one_le_succ, hday⟩
  else if hmonth : d.month < 11 then
    ⟨d.year, d.month + 1, 1, succ_lt hmonth, le_rfl, one_le_monthDays d.year (d.month + 1)⟩
  else ⟨d.year + 1, 0, 1, january_lt, le_rfl, one_le_monthDays (d.year + 1) 0⟩

/-- 1 January 1970. -/
def epoch : Date := ⟨1970, 0, 1, january_lt, le_rfl, one_le_monthDays 1970 0⟩

/-- The day of the year. -/
def yearDay (d : Date) : ℤ := daysBeforeMonth d.year d.month + (d.day - 1)

/-- The number of days since 1 January 1970. -/
def toDays (d : Date) : ℤ := daysBeforeYear d.year + d.yearDay

theorem toDays_epoch : epoch.toDays = 0 := by decide

theorem toDays_next (d : Date) : d.next.toDays = d.toDays + 1 := by
  have hle := d.day_le
  have hlt := d.month_lt
  rw [next]
  split_ifs with hday hmonth
  · simp only [toDays, yearDay]
    omega
  · simp only [toDays, yearDay, daysBeforeMonth]
    omega
  · -- the last day of a year
    have hyear := daysBeforeMonth_twelve d.year
    have hdecember : d.month = 11 := by omega
    rw [daysBeforeMonth, ← hdecember] at hyear
    simp only [toDays, yearDay, daysBeforeMonth, daysBeforeYear_succ]
    omega

/-- So many days after 1 January 1970. -/
theorem toDays_iterate (n : ℕ) : (next^[n] epoch).toDays = n := by
  induction n with
  | zero => exact toDays_epoch
  | succ n ih =>
    rw [Function.iterate_succ_apply', toDays_next, ih]
    push_cast
    rfl

/-! ## The number determines the date -/

theorem yearDay_nonneg (d : Date) : 0 ≤ d.yearDay := by
  have hmonth : daysBeforeMonth d.year 0 ≤ daysBeforeMonth d.year d.month :=
    daysBeforeMonth_mono _ (Nat.zero_le _)
  have hday := d.one_le_day
  rw [daysBeforeMonth] at hmonth
  rw [yearDay]
  omega

theorem yearDay_lt_month (d : Date) : d.yearDay < daysBeforeMonth d.year (d.month + 1) := by
  have hday := d.day_le
  rw [yearDay, daysBeforeMonth]
  omega

theorem yearDay_lt (d : Date) : d.yearDay < yearDays d.year := by
  have hmonth : daysBeforeMonth d.year (d.month + 1) ≤ daysBeforeMonth d.year 12 :=
    daysBeforeMonth_mono _ d.month_lt
  rw [daysBeforeMonth_twelve] at hmonth
  exact d.yearDay_lt_month.trans_le hmonth

/-- The day of a later year is later. -/
theorem toDays_lt_of_year_lt {d e : Date} (h : d.year < e.year) : d.toDays < e.toDays := by
  have hyear : daysBeforeYear (d.year + 1) ≤ daysBeforeYear e.year := daysBeforeYear_mono h
  have hd := d.yearDay_lt
  have he := e.yearDay_nonneg
  rw [daysBeforeYear_succ] at hyear
  rw [toDays, toDays]
  omega

/-- In a year the day of a later month is later. -/
theorem yearDay_lt_of_month_lt {d e : Date} (hyear : d.year = e.year) (h : d.month < e.month) :
    d.yearDay < e.yearDay := by
  have hmonth : daysBeforeMonth d.year (d.month + 1) ≤ daysBeforeMonth d.year e.month := daysBeforeMonth_mono _ h
  have hd := d.yearDay_lt_month
  have he := e.one_le_day
  rw [yearDay.eq_def e, ← hyear]
  omega

theorem toDays_injective : Function.Injective toDays := by
  intro d e h
  have hyear : d.year = e.year := by
    by_contra hne
    obtain hlt | hlt := lt_or_gt_of_ne hne
    · exact (toDays_lt_of_year_lt hlt).ne h
    · exact (toDays_lt_of_year_lt hlt).ne h.symm
  rw [toDays, toDays, hyear] at h
  have hday : d.yearDay = e.yearDay := add_left_cancel h
  have hmonth : d.month = e.month := by
    by_contra hne
    obtain hlt | hlt := lt_or_gt_of_ne hne
    · exact (yearDay_lt_of_month_lt hyear hlt).ne hday
    · exact (yearDay_lt_of_month_lt hyear.symm hlt).ne hday.symm
  rw [yearDay, yearDay, hyear, hmonth] at hday
  exact Date.ext hyear hmonth (sub_left_injective (add_left_cancel hday))

/-- The date of a number of days. -/
theorem eq_iterate {d : Date} {n : ℕ} (h : d.toDays = n) : d = next^[n] epoch :=
  toDays_injective (h.trans (toDays_iterate n).symm)

/-! ## Days of the week -/

/-- The day of the week of 1 January of a year. -/
def newYearWeekday (y : ℤ) : ℤ := (1 + 5 * ((y - 1) % 4) + 4 * ((y - 1) % 100) + 6 * ((y - 1) % 400)) % 7

/-- The day of the week. -/
def weekday (d : Date) : ℤ := (newYearWeekday d.year + d.yearDay) % 7

/-- 1 January 1970 was a Thursday. -/
theorem weekday_eq (d : Date) : d.weekday = (d.toDays + 4) % 7 := by
  rw [weekday, newYearWeekday, toDays, daysBeforeYear]
  omega

/-- The days of the week go round. -/
theorem weekday_next (d : Date) : d.next.weekday = (d.weekday + 1) % 7 := by
  rw [weekday_eq, weekday_eq, toDays_next]
  omega

end Date

end Gregorian
