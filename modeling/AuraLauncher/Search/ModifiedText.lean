import AuraLauncher.Lib.Civil
import Mathlib.Data.String.Basic

/-!
# The text of a modification time

`launcher-core/src/lib.rs`, `format_modified`: the milliseconds since 1970 of a file as a date and a
time of day. The arithmetic is that of an `i64`; here every result is checked, and a result that
does not fit gives `none`, as the arithmetic of a debug build panics. A truncated quotient of a
number that fits by a positive one fits, so the divisions are not checked.

* `civilFromDays`, `formatModified` — the code.
* `civilFromDays_dayAfter` — the date of a day is the date counted from 1 January 1970.
* `formatModified_eq` — the text of every timestamp.
* `formatModified_zero` — the first instant of 1970 has no text.
-/

namespace AuraLauncher.Search

open AuraLauncher.Lib

/-- A result of `i64` arithmetic, if it fits. -/
def checkedI64 (n : ℤ) : Option ℤ := if -2 ^ 63 ≤ n ∧ n < 2 ^ 63 then some n else none

/-- The year, month and day of a day since 1 January 1970. Source: `lib.rs`, `format_modified`, from
`let z` to the second `let y`. -/
def civilFromDays (days : ℤ) : Option (ℤ × ℤ × ℤ) := do
  let z ← checkedI64 (days + 719468)
  let era := z / 146097
  let doe := z % 146097
  let withoutFours ← checkedI64 (doe - doe.tdiv 1460)
  let withCenturies ← checkedI64 (withoutFours + doe.tdiv 36524)
  let withoutEra ← checkedI64 (withCenturies - doe.tdiv 146096)
  let yoe := withoutEra.tdiv 365
  let eraYears ← checkedI64 (era * 400)
  let y ← checkedI64 (yoe + eraYears)
  let yearDays ← checkedI64 (365 * yoe)
  let fourDays ← checkedI64 (yearDays + yoe.tdiv 4)
  let daysBefore ← checkedI64 (fourDays - yoe.tdiv 100)
  let doy ← checkedI64 (doe - daysBefore)
  let fiveDays ← checkedI64 (5 * doy)
  let scaled ← checkedI64 (fiveDays + 2)
  let mp := scaled.tdiv 153
  let monthDays ← checkedI64 (153 * mp)
  let monthDays ← checkedI64 (monthDays + 2)
  let dayBefore ← checkedI64 (doy - monthDays.tdiv 5)
  let d ← checkedI64 (dayBefore + 1)
  let m ← if mp < 10 then checkedI64 (mp + 3) else checkedI64 (mp - 9)
  let y ← if m ≤ 2 then checkedI64 (y + 1) else some y
  return (y, m, d)

/-- A number with zeros in front up to a width. Source: the `:04` and `:02` of `format!`. -/
def zeroPadded (width : ℕ) (n : ℤ) : String :=
  let sign := if n < 0 then ['-'] else []
  let digits := Nat.toDigits 10 n.natAbs
  String.ofList (sign ++ List.replicate (width - sign.length - digits.length) '0' ++ digits)

/-- Source: `lib.rs`, `format_modified`; `none` is an overflow. -/
def formatModified (ms : Int64) : Option String :=
  if ms.toInt ≤ 0 then some ""
  else do
    let secs := ms.toInt.tdiv 1000
    let days := secs / 86400
    let (y, m, d) ← civilFromDays days
    let secOfDay := secs % 86400
    let hh := secOfDay.tdiv 3600
    let mm := (secOfDay.tmod 3600).tdiv 60
    let ss := secOfDay.tmod 60
    return zeroPadded 4 y ++ "-" ++ zeroPadded 2 m ++ "-" ++ zeroPadded 2 d ++ " " ++
      zeroPadded 2 hh ++ ":" ++ zeroPadded 2 mm ++ ":" ++ zeroPadded 2 ss

example : formatModified 1767225600000 = some "2026-01-01 00:00:00" := by decide

/-- The text of a date and a second of the day. -/
def instantText (date : Date) (second : ℕ) : String :=
  zeroPadded 4 date.year ++ "-" ++ zeroPadded 2 date.month ++ "-" ++ zeroPadded 2 date.day ++ " " ++
    zeroPadded 2 (second / 3600) ++ ":" ++ zeroPadded 2 (second % 3600 / 60) ++ ":" ++
    zeroPadded 2 (second % 60)

/-! ## The date of a day -/

theorem checkedI64_of_abs_le {n : ℤ} (h : -2 ^ 62 ≤ n ∧ n ≤ 2 ^ 62) : checkedI64 n = some n :=
  if_pos ⟨by omega, by omega⟩

/-- A computation goes on with a result that fits. -/
theorem checkedI64_bind {β : Type} {n : ℤ} (h : -2 ^ 62 ≤ n ∧ n ≤ 2 ^ 62) (f : ℤ → Option β) :
    (checkedI64 n >>= f) = f n := by
  rw [checkedI64_of_abs_le h]
  rfl

/-- A date is read back from its number, without overflow. -/
theorem civilFromDays_number (date : Date) (hlow : 719468 ≤ date.number)
    (hhigh : date.number ≤ 2 ^ 50) :
    civilFromDays (date.number - 719468) = some (date.year, date.month, date.day) := by
  obtain ⟨hera, hera'⟩ := date.dayOfEra_mem
  obtain ⟨hyoe, hyoe'⟩ := date.yearOfEra_mem
  obtain ⟨hdoy, hdoy', -⟩ := date.dayOfYear_mem
  have hsum := date.number_eq_era
  have hyears := date.yearOfEra_add
  have hdays := date.dayOfEra_sub
  have hday := date.dayOfYear_sub
  have hmp := date.marchMonth_eq
  have hmonth := date.month_mem
  have hm : date.marchMonth = if date.month ≤ 2 then date.month + 9 else date.month - 3 := rfl
  have hy : date.marchYear = if date.month ≤ 2 then date.year - 1 else date.year := rfl
  have htdiv : ∀ n k : ℤ, 0 ≤ n → n.tdiv k = n / k := fun n k hn => Int.tdiv_eq_ediv_of_nonneg hn
  unfold civilFromDays
  dsimp only
  rw [checkedI64_bind (by omega), sub_add_cancel, date.number_ediv_era, date.number_emod_era]
  -- the year
  simp only [htdiv _ _ hera]
  rw [checkedI64_bind (by omega), checkedI64_bind (by omega), checkedI64_bind (by omega),
    htdiv _ _ (by omega), date.yearOfEra_eq, checkedI64_bind (by omega),
    checkedI64_bind (by omega), hyears]
  -- the day of the year and the month
  rw [htdiv _ _ hyoe, htdiv _ _ hyoe, checkedI64_bind (by omega), checkedI64_bind (by omega),
    checkedI64_bind (by omega), hdays, checkedI64_bind (by omega), checkedI64_bind (by omega),
    checkedI64_bind (by omega), htdiv _ _ (by omega), hmp]
  -- the day
  rw [checkedI64_bind (by omega), checkedI64_bind (by omega), htdiv _ 5 (by omega),
    checkedI64_bind (by omega), checkedI64_bind (by omega)]
  rw [hday, hy, hm]
  by_cases htwo : date.month ≤ 2
  · have hten : ¬date.month + 9 < 10 := by omega
    rw [if_pos htwo, if_pos htwo, if_neg hten, checkedI64_bind (by omega), add_sub_cancel_right,
      if_pos htwo, checkedI64_bind (by omega), sub_add_cancel]
    rfl
  · have hten : date.month - 3 < 10 := by omega
    rw [if_neg htwo, if_neg htwo, if_pos hten, checkedI64_bind (by omega), sub_add_cancel,
      if_neg htwo]
    rfl

/-- **The date of a day.** It is the date that is reached by counting the days. -/
theorem civilFromDays_dayAfter {days : ℕ} (h : days ≤ 2 ^ 49) :
    civilFromDays days =
      some ((Date.dayAfter days).year, (Date.dayAfter days).month, (Date.dayAfter days).day) := by
  have hnumber := Date.number_dayAfter days
  have hdays : (days : ℤ) = (Date.dayAfter days).number - 719468 := by omega
  rw [hdays]
  exact civilFromDays_number _ (by omega) (by omega)

/-! ## The text -/

/-- **The text of a timestamp.** A positive timestamp gives, without overflow, the date that is
reached by counting the days since 1 January 1970, and the time of day; the others give nothing. -/
theorem formatModified_eq (ms : Int64) :
    formatModified ms =
      some (if 0 < ms.toInt then
        instantText (Date.dayAfter (ms.toInt.toNat / 86400000)) (ms.toInt.toNat / 1000 % 86400)
      else "") := by
  unfold formatModified
  by_cases hms : 0 < ms.toInt
  · have hlt := ms.toInt_lt
    obtain ⟨n, hn⟩ := Int.eq_ofNat_of_zero_le hms.le
    have hbound : n / 86400000 ≤ 2 ^ 49 := by omega
    have hdays : ((n : ℤ).tdiv 1000) / 86400 = ((n / 86400000 : ℕ) : ℤ) := by
      rw [Int.tdiv_eq_ediv_of_nonneg (Int.natCast_nonneg n)]
      omega
    have hsecond : ((n : ℤ).tdiv 1000) % 86400 = ((n / 1000 % 86400 : ℕ) : ℤ) := by
      rw [Int.tdiv_eq_ediv_of_nonneg (Int.natCast_nonneg n)]
      omega
    rw [if_neg (not_le.mpr hms), if_pos hms, hn]
    dsimp only
    rw [hdays, hsecond, civilFromDays_dayAfter hbound]
    rfl
  · rw [if_pos (not_lt.mp hms), if_neg hms]

/-- The first instant of 1970 has no text. -/
theorem formatModified_zero :
    ¬ ∀ ms : Int64, 0 ≤ ms.toInt →
      formatModified ms = some
        (instantText (Date.dayAfter (ms.toInt.toNat / 86400000))
          (ms.toInt.toNat / 1000 % 86400)) := by
  intro h
  have hzero := h 0 (by decide)
  revert hzero
  decide

end AuraLauncher.Search
