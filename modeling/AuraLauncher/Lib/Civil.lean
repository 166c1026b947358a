import Mathlib.Data.Int.Order.Basic
import Mathlib.Logic.Function.Iterate
import Mathlib.Tactic.Common
import Mathlib.Tactic.IntervalCases
import Mathlib.Tactic.NormNum

/-!
# Dates of the proleptic Gregorian calendar

A date carries the proof that it is one. The calendar is the rule for the day after a date; every
other fact is proved from it. Days are numbered from 1 March of the year 0, so that the leap day is
the last of its year: the months then start at `(153 * m + 2) / 5` and the years of an era of 400
years at `365 * y + y / 4 - y / 100`.

* `Date`, `Date.next` — the dates, and the day after each.
* `Date.number`, `Date.number_next` — the number of a date; the next date has the next number.
* `Date.epoch`, `Date.dayAfter`, `Date.number_dayAfter` — days counted from 1 January 1970.
* `Date.number_ediv_era`, `Date.number_emod_era`, `Date.yearOfEra_eq`, `Date.marchMonth_eq` — the
  date read back from its number, digit by digit.
-/

namespace AuraLauncher.Lib

/-- The years with a 29 February. -/
def IsLeap (year : ℤ) : Prop := year % 4 = 0 ∧ (year % 100 ≠ 0 ∨ year % 400 = 0)

instance (year : ℤ) : Decidable (IsLeap year) := inferInstanceAs (Decidable (_ ∧ _))

/-- The number of days of a month. -/
def monthLength (year month : ℤ) : ℤ :=
  if month = 2 then if IsLeap year then 29 else 28
  else if month = 4 ∨ month = 6 ∨ month = 9 ∨ month = 11 then 30
  else 31

theorem monthLength_pos (year month : ℤ) : 1 ≤ monthLength year month := by
  unfold monthLength
  split_ifs <;> omega

/-- A day of the calendar. -/
@[ext]
structure Date where
  year : ℤ
  month : ℤ
  day : ℤ
  /-- January is the first month. -/
  month_mem : 1 ≤ month ∧ month ≤ 12
  day_mem : 1 ≤ day ∧ day ≤ monthLength year month

namespace Date

/-- The day after a date. -/
def next (d : Date) : Date :=
  if hday : d.day < monthLength d.year d.month then
    { year := d.year
      month := d.month
      day := d.day + 1
      month_mem := d.month_mem
      day_mem := ⟨by have := d.day_mem; omega, hday⟩ }
  else if hmonth : d.month < 12 then
    { year := d.year
      month := d.month + 1
      day := 1
      month_mem := ⟨by have := d.month_mem; omega, hmonth⟩
      day_mem := ⟨le_rfl, monthLength_pos _ _⟩ }
  else
    { year := d.year + 1
      month := 1
      day := 1
      month_mem := ⟨le_rfl, by decide⟩
      day_mem := ⟨le_rfl, monthLength_pos _ _⟩ }

/-- 1 January 1970. -/
def epoch : Date := ⟨1970, 1, 1, by decide, by decide⟩

/-- The date some days after 1 January 1970, counted day by day. -/
def dayAfter (days : ℕ) : Date := next^[days] epoch

/-! ## The number of a date -/

variable (d : Date)

/-- The year that starts with March. -/
def marchYear : ℤ := if d.month ≤ 2 then d.year - 1 else d.year

/-- The months since March. -/
def marchMonth : ℤ := if d.month ≤ 2 then d.month + 9 else d.month - 3

/-- The days since 1 March. -/
def dayOfYear : ℤ := (153 * d.marchMonth + 2) / 5 + (d.day - 1)

/-- The days since 1 March of the year 0. -/
def number : ℤ :=
  365 * d.marchYear + d.marchYear / 4 - d.marchYear / 100 + d.marchYear / 400 + d.dayOfYear

/-- The days before 1 March of a year. -/
def yearStart (y : ℤ) : ℤ := 365 * y + y / 4 - y / 100 + y / 400

theorem number_eq : d.number = yearStart d.marchYear + d.dayOfYear := rfl

/-- A year that ends with February has 366 days when this is a leap year's. -/
theorem yearStart_succ (y : ℤ) :
    yearStart (y + 1) = yearStart y + 365 + if IsLeap (y + 1) then 1 else 0 := by
  unfold yearStart
  split_ifs with hleap
  · obtain ⟨hfour, hcentury⟩ := hleap
    omega
  · unfold IsLeap at hleap
    omega

theorem monthLength_february (year : ℤ) :
    monthLength year 2 = 28 + if IsLeap year then 1 else 0 := by
  unfold monthLength
  rw [if_pos rfl]
  split_ifs <;> rfl

/-- The other months end where the next one starts. -/
theorem monthLength_of_ne_two (year : ℤ) {month : ℤ} (h : 1 ≤ month ∧ month ≤ 12)
    (hne : month ≠ 2) (m : ℤ) (hm : m = if month ≤ 2 then month + 9 else month - 3) :
    (153 * m + 2) / 5 + monthLength year month = (153 * (m + 1) + 2) / 5 := by
  obtain ⟨hlow, hhigh⟩ := h
  subst hm
  interval_cases month
  all_goals first | rfl | exact absurd rfl hne

/-- The last day of February is the last of its year, and only in a leap year the 366th. -/
theorem dayOfYear_mem : 0 ≤ d.dayOfYear ∧ d.dayOfYear ≤ 365 ∧
    (d.dayOfYear = 365 → IsLeap (d.marchYear + 1)) := by
  have hmonth := d.month_mem
  have hday := d.day_mem
  have hm : d.marchMonth = if d.month ≤ 2 then d.month + 9 else d.month - 3 := rfl
  unfold dayOfYear
  by_cases htwo : d.month = 2
  · have hyear : d.marchYear + 1 = d.year := by
      unfold marchYear
      split_ifs <;> omega
    rw [htwo, monthLength_february] at hday
    rw [hyear, hm, htwo]
    by_cases hleap : IsLeap d.year
    · rw [if_pos hleap] at hday
      exact ⟨by omega, by omega, fun _ => hleap⟩
    · rw [if_neg hleap] at hday
      exact ⟨by omega, by omega, fun h => by omega⟩
  · -- a month before February ends by the 337th day
    have hend := monthLength_of_ne_two d.year hmonth htwo _ hm
    have hbound : 0 ≤ d.marchMonth ∧ d.marchMonth ≤ 10 := by
      rw [hm]
      split_ifs <;> omega
    refine ⟨by omega, by omega, fun h => ?_⟩
    omega

/-- The next date has the next number. -/
theorem number_next : d.next.number = d.number + 1 := by
  have hmonth := d.month_mem
  have hday := d.day_mem
  have hm : d.marchMonth = if d.month ≤ 2 then d.month + 9 else d.month - 3 := rfl
  unfold next
  split_ifs with hless hyear
  · -- a day of the same month
    simp only [number, dayOfYear, marchYear, marchMonth]
    omega
  · have hlast : d.day = monthLength d.year d.month := by omega
    by_cases htwo : d.month = 2
    · -- 1 March
      have hlength := yearStart_succ (d.year - 1)
      rw [htwo, monthLength_february] at hlast
      rw [sub_add_cancel] at hlength
      simp only [number_eq, dayOfYear, marchYear, marchMonth, htwo]
      norm_num
      omega
    · have hend := monthLength_of_ne_two d.year hmonth htwo _ hm
      have hnext : d.marchMonth + 1 =
          if d.month + 1 ≤ 2 then d.month + 1 + 9 else d.month + 1 - 3 := by
        rw [hm]
        split_ifs <;> omega
      have hsame : (if d.month + 1 ≤ 2 then d.year - 1 else d.year) = d.marchYear := by
        unfold marchYear
        split_ifs <;> omega
      simp only [number_eq, dayOfYear]
      rw [marchYear, marchMonth, hsame, ← hnext]
      omega
  · -- 1 January
    have htwelve : d.month = 12 := by omega
    have hlast : d.day = monthLength d.year d.month := by omega
    have hend := monthLength_of_ne_two d.year hmonth (by omega) _ hm
    simp only [number_eq, dayOfYear, marchYear, marchMonth, htwelve] at hend hlast ⊢
    norm_num
    omega

theorem number_dayAfter (days : ℕ) : (dayAfter days).number = 719468 + days := by
  induction days with
  | zero => rfl
  | succ days ih =>
      unfold dayAfter at ih ⊢
      rw [Function.iterate_succ_apply', number_next, ih]
      push_cast
      rw [add_assoc]

/-! ## The date of a number -/

/-- The year within its era of 400. -/
def yearOfEra : ℤ := d.marchYear % 400

theorem yearOfEra_mem : 0 ≤ d.yearOfEra ∧ d.yearOfEra < 400 :=
  ⟨Int.emod_nonneg _ (by decide), Int.emod_lt_of_pos _ (by decide)⟩

/-- The day within its era. -/
def dayOfEra : ℤ :=
  365 * d.yearOfEra + d.yearOfEra / 4 - d.yearOfEra / 100 + d.dayOfYear

/-- The year from the year of the era. -/
theorem yearOfEra_add : d.yearOfEra + d.marchYear / 400 * 400 = d.marchYear := by
  unfold yearOfEra
  omega

/-- The day of the year from the day of the era. -/
theorem dayOfEra_sub :
    d.dayOfEra - (365 * d.yearOfEra + d.yearOfEra / 4 - d.yearOfEra / 100) = d.dayOfYear := by
  unfold dayOfEra
  omega

/-- The day of the month from the day of the year. -/
theorem dayOfYear_sub : d.dayOfYear - (153 * d.marchMonth + 2) / 5 + 1 = d.day := by
  unfold dayOfYear
  omega

/-- The 366th day of a year of an era stands before 1 March of a leap year. -/
theorem isLeap_of_dayOfYear (h : d.dayOfYear = 365) : IsLeap (d.yearOfEra + 1) := by
  have hleap := d.dayOfYear_mem.2.2 h
  unfold IsLeap yearOfEra at *
  omega

theorem dayOfEra_mem : 0 ≤ d.dayOfEra ∧ d.dayOfEra < 146097 := by
  have hyear := d.yearOfEra_mem
  have hday := d.dayOfYear_mem
  unfold dayOfEra
  omega

theorem number_eq_era : d.number = 146097 * (d.marchYear / 400) + d.dayOfEra := by
  unfold number dayOfEra yearOfEra
  omega

theorem number_ediv_era : d.number / 146097 = d.marchYear / 400 := by
  have hday := d.dayOfEra_mem
  have hnumber := d.number_eq_era
  omega

theorem number_emod_era : d.number % 146097 = d.dayOfEra := by
  have hday := d.dayOfEra_mem
  have hnumber := d.number_eq_era
  omega

/-- **The year of an era from the day.** The days of an era without its leap days are 365 to the
year: one in 1460 is a leap day of four years, less one in 36524 of a century, and the last day of
the era is one more. -/
theorem yearOfEra_eq :
    (d.dayOfEra - d.dayOfEra / 1460 + d.dayOfEra / 36524 - d.dayOfEra / 146096) / 365 =
      d.yearOfEra := by
  have hyear := d.yearOfEra_mem
  obtain ⟨hday, hday', -⟩ := d.dayOfYear_mem
  have hleap := d.isLeap_of_dayOfYear
  have hera : d.dayOfEra =
      365 * d.yearOfEra + d.yearOfEra / 4 - d.yearOfEra / 100 + d.dayOfYear := rfl
  unfold IsLeap at hleap
  generalize d.dayOfEra = doe at *
  generalize d.dayOfYear = doy at *
  -- centuries, groups of four years and years
  obtain ⟨c, q, r, hc, hq, hr, hsum⟩ : ∃ c q r : ℤ, (0 ≤ c ∧ c ≤ 3) ∧ (0 ≤ q ∧ q ≤ 24) ∧
      (0 ≤ r ∧ r ≤ 3) ∧ d.yearOfEra = 100 * c + 4 * q + r :=
    ⟨d.yearOfEra / 100, d.yearOfEra % 100 / 4, d.yearOfEra % 4, by omega, by omega, by omega,
      by omega⟩
  generalize d.yearOfEra = yoe at *
  subst hsum
  have hlast : doy = 365 → r = 3 ∧ (q = 24 → c = 3) := by
    intro h
    have hfour := hleap h
    omega
  have hdigits : doe = 36524 * c + 1461 * q + 365 * r + doy := by omega
  clear hleap hera hyear
  have hcentury : doe / 36524 - doe / 146096 = c := by
    have hwithin : doe = 146096 ∧ c = 3 ∨ 36524 * c ≤ doe ∧ doe < 36524 * (c + 1) := by omega
    rcases hwithin with ⟨rfl, rfl⟩ | ⟨hle, hlt⟩
    · rfl
    · have hdiv : doe / 36524 = c := by omega
      have hera : doe / 146096 = 0 := by omega
      rw [hdiv, hera, sub_zero]
  have hfours : doe / 1460 = 25 * c + q + (24 * c + q + 365 * r + doy) / 1460 := by omega
  omega

/-- The month from the day of the year. -/
theorem marchMonth_eq : (5 * d.dayOfYear + 2) / 153 = d.marchMonth := by
  have hmonth := d.month_mem
  have hday := d.day_mem
  have hm : d.marchMonth = if d.month ≤ 2 then d.month + 9 else d.month - 3 := rfl
  have hbound : 0 ≤ d.marchMonth ∧ d.marchMonth ≤ 11 := by
    rw [hm]
    split_ifs <;> omega
  have hyear := d.dayOfYear_mem
  unfold dayOfYear at hyear ⊢
  by_cases htwo : d.month = 2
  · rw [htwo] at hm
    norm_num at hm
    omega
  · have hend := monthLength_of_ne_two d.year hmonth htwo _ hm
    omega

end Date

end AuraLauncher.Lib
