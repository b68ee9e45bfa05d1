import Mathlib.Tactic.IntervalCases
import Mathlib.Tactic.Linarith
import Firebird.Evl.Calendar

/-! # Calendar dates

The dates that exist in the Gregorian calendar, and the number of days to each of them. `ndate`
yields these dates, and `nday` yields these numbers.
-/

namespace Firebird.Evl

open Wrap

def Leap (year : ℤ) : Prop := year % 4 = 0 ∧ (year % 100 ≠ 0 ∨ year % 400 = 0)

instance (year : ℤ) : Decidable (Leap year) := inferInstanceAs (Decidable (_ ∧ _))

def monthLength (year month : ℤ) : ℤ :=
  if month = 2 then if Leap year then 29 else 28
  else if month = 4 ∨ month = 6 ∨ month = 9 ∨ month = 11 then 30
  else 31

/-- A date from 0001-01-01 to 9999-12-31 -/
structure CivilDate where
  year : ℤ
  month : ℤ
  day : ℤ
  year_range : MIN_YEAR ≤ year ∧ year ≤ MAX_YEAR
  month_range : 1 ≤ month ∧ month ≤ 12
  day_range : 1 ≤ day ∧ day ≤ monthLength year month

/-- The days of a year before its month `n + 1` -/
def daysBefore (year : ℤ) : ℕ → ℤ
  | 0 => 0
  | n + 1 => daysBefore year n + monthLength year (n + 1)

/-- The number of the date, counted from 17 November 1858 -/
def CivilDate.dayNumber (d : CivilDate) : ℤ :=
  365 * (d.year - 1) + (d.year - 1) / 4 - (d.year - 1) / 100 + (d.year - 1) / 400 +
    daysBefore d.year (d.month - 1).toNat + d.day - 678576

def CivilDate.tm (d : CivilDate) : Tm := ⟨d.day, d.month - 1, d.year - 1900⟩

example : CivilDate.dayNumber ⟨1858, 11, 17, ⟨by decide, by decide⟩, ⟨by decide, by decide⟩,
    ⟨by decide, by decide⟩⟩ = 0 := by decide

/-! ## The number of a date -/

/-- `nday` without the conversions to 16 and to 32 bits -/
theorem nday_eq {day month year year' month' : ℤ} (hday : 1 ≤ day ∧ day ≤ 31)
    (hmonth : 1 ≤ month ∧ month ≤ 12) (hyear : 1 ≤ year ∧ year ≤ 9999)
    (hyear' : year' = if month > 2 then year else year - 1)
    (hmonth' : month' = if month > 2 then month - 3 else month + 9) :
    nday ⟨day, month - 1, year - 1900⟩ =
      146097 * (year' / 100) / 4 + 1461 * (year' - 100 * (year' / 100)) / 4 +
        (153 * month' + 2) / 5 + day + 1721119 - 2400001 := by
  have hbounds : 0 ≤ year' ∧ year' ≤ 9999 ∧ 0 ≤ month' ∧ month' ≤ 11 := by
    split at hyear' <;> split at hmonth' <;> omega
  unfold nday
  dsimp only
  rw [toInt16_of_lt (x := day) (by omega) (by omega),
    toInt16_of_lt (x := month - 1 + 1) (by omega) (by omega),
    toInt16_of_lt (x := year - 1900 + 1900) (by omega) (by omega)]
  have hm : month - 1 + 1 = month := by omega
  have hy : year - 1900 + 1900 = year := by omega
  rw [hm, hy, toInt16_of_lt (x := year - 1) (by omega) (by omega),
    toInt16_of_lt (x := month - 3) (by omega) (by omega),
    toInt16_of_lt (x := month + 9) (by omega) (by omega), ← hyear', ← hmonth']
  have hc : year'.tdiv 100 = year' / 100 := Int.tdiv_eq_ediv_of_nonneg hbounds.1
  rw [hc, Int.tdiv_eq_ediv_of_nonneg (by omega), Int.tdiv_eq_ediv_of_nonneg (by omega),
    Int.tdiv_eq_ediv_of_nonneg (by omega), toInt32_of_lt (by omega) (by omega)]

theorem monthLength_le (year month : ℤ) : monthLength year month ≤ 31 := by
  unfold monthLength
  split_ifs <;> omega

/-- The days of January and February, and those of the months that follow -/
theorem daysBefore_eq (year : ℤ) {month : ℤ} (hmonth : 1 ≤ month ∧ month ≤ 12) :
    daysBefore year (month - 1).toNat =
      if month > 2 then (153 * (month - 3) + 2) / 5 + 59 + (if Leap year then 1 else 0)
      else 31 * (month - 1) := by
  obtain ⟨h1, h12⟩ := hmonth
  have hlen : monthLength year 2 = 28 + if Leap year then 1 else 0 := by
    rw [monthLength, if_pos rfl]
    split_ifs <;> rfl
  interval_cases month <;> simp [daysBefore, hlen] <;> simp [monthLength] <;> omega

/-- The days of the years since 1 March of year 0, by centuries -/
theorem days_of_years (y : ℤ) :
    146097 * (y / 100) / 4 + 1461 * (y - 100 * (y / 100)) / 4 =
      365 * y + y / 4 - y / 100 + y / 400 := by
  have hcentury : 146097 * (y / 100) / 4 = 36524 * (y / 100) + y / 400 := by omega
  have hyear : 1461 * (y - 100 * (y / 100)) / 4 = 365 * (y - 100 * (y / 100)) + y / 4 -
      25 * (y / 100) := by omega
  omega

/-- The last day of February counts for the year before that begins in March. -/
theorem leap_days (y : ℤ) :
    y / 4 - y / 100 + y / 400 =
      (y - 1) / 4 - (y - 1) / 100 + (y - 1) / 400 + if Leap y then 1 else 0 := by
  unfold Leap
  split_ifs <;> omega

theorem nday_tm (d : CivilDate) : nday d.tm = d.dayNumber := by
  obtain ⟨year, month, day, hyear, hmonth, hday⟩ := d
  have hlen := monthLength_le year month
  have hyear' : 1 ≤ year ∧ year ≤ 9999 := hyear
  unfold CivilDate.tm CivilDate.dayNumber
  dsimp only
  rw [nday_eq ⟨hday.1, hday.2.trans hlen⟩ hmonth hyear' rfl rfl, daysBefore_eq year hmonth]
  clear hlen hday hyear
  by_cases h2 : month > 2
  · have hleap := leap_days year
    rw [if_pos h2, if_pos h2, if_pos h2, days_of_years]
    omega
  · rw [if_neg h2, if_neg h2, if_neg h2, days_of_years]
    omega

/-! ## The dates that are decoded -/

/-- The year that begins in March has a 366th day where it ends in a leap year. -/
theorem Parts.Of.leap {p : Parts} {n d e : ℤ} (h : p.Of (4 * n - 1) d e) (he : 366 ≤ e) :
    Leap (100 * p.century + p.year + 1) := by
  have hday : 4 * d = 1461 * p.year + 1457 := by
    have hyear := h.year.2
    have hfirst := h.dayOfYear.1
    clear h
    omega
  rcases h.ranges.1 with ⟨hy, hy'⟩
  have hcentury := h.century.2
  have hrest := h.dayOfCentury.1
  clear h he
  have hfour : p.year % 4 = 3 := by
    clear hcentury hrest
    omega
  have hfour' : (100 * p.century + p.year + 1) % 4 = 0 := by
    clear hcentury hrest hday
    omega
  refine ⟨hfour', ?_⟩
  by_cases hlast : p.year = 99
  · -- the last year of a century, which is then the fourth one
    right
    rw [hlast] at hday ⊢
    have hn : p.century + 1 = 4 * (n - 36524 * (p.century + 1)) := by linarith
    have hthird : p.century % 4 = 3 := by
      clear hcentury hrest hday hfour hfour'
      generalize n - 36524 * (p.century + 1) = q at hn
      omega
    clear hcentury hrest hday hfour hfour' hn
    omega
  · left
    clear hcentury hrest hday hfour hfour'
    omega

/-- The last day of a month -/
theorem Parts.Of.day_le {p : Parts} {n d e : ℤ} (h : p.Of (4 * n - 1) d e) :
    p.tm.mday ≤ monthLength (p.tm.year + 1900) (p.tm.mon + 1) := by
  obtain ⟨-, ⟨hm, hm'⟩, -⟩ := h.ranges
  have hleap := h.leap
  have hlast : e ≤ 366 := by
    have hyear := h.year.2
    have hday := h.dayOfYear.1
    clear h hleap
    omega
  obtain ⟨-, -, -, -, h5, h6⟩ := h
  obtain ⟨century, year, month, day⟩ := p
  dsimp only at *
  unfold Parts.tm monthLength
  by_cases hmonth : month < 10
  · rw [if_pos hmonth]
    dsimp only
    rw [if_neg (by omega)]
    interval_cases month <;> simp <;> omega
  · rw [if_neg hmonth]
    dsimp only
    have hyear : 100 * century + year + 1 - 1900 + 1900 = 100 * century + year + 1 := by omega
    rw [hyear]
    by_cases hfeb : month = 11
    · subst hfeb
      rw [if_pos (by omega)]
      by_cases h29 : 366 ≤ e
      · rw [if_pos (hleap h29)]
        omega
      · split_ifs <;> omega
    · rw [if_neg (by omega), if_neg (by omega)]
      omega

/-- A day is decoded to a date where that has a year of a date. -/
theorem exists_ndate {x : ℤ} (h : ¬(ndate x).OutOfYears) : ∃ d : CivilDate, ndate x = d.tm := by
  have hyear : MIN_YEAR ≤ (ndate x).year + 1900 ∧ (ndate x).year + 1900 ≤ MAX_YEAR := by
    rw [Tm.OutOfYears, not_or, not_lt, not_lt] at h
    exact h
  have hmod : ∃ y, quarters x = 4 * y - 1 := by
    have hx : quarters x = (4 * (x + 678882) - 1 + 2147483648) % 4294967296 - 2147483648 :=
      toInt32_eq _
    exact ⟨(quarters x + 1) / 4, by omega⟩
  obtain ⟨y, hy⟩ := hmod
  have hpos : 0 ≤ quarters x := by
    by_contra hneg
    have hzero := year_parts_neg (not_le.mp hneg)
    rw [ndate_eq, MIN_YEAR] at hyear
    omega
  obtain ⟨d, e, hof⟩ := parts_of hpos
  rw [hy] at hof
  have hle := hof.day_le
  obtain ⟨-, ⟨hm, hm'⟩, hd, -⟩ := hof.ranges
  rw [ndate_eq, hy] at hyear ⊢
  refine ⟨⟨_, _, _, hyear, ?_, ⟨?_, hle⟩⟩, ?_⟩
  · unfold Parts.tm
    split_ifs <;> dsimp only <;> omega
  · unfold Parts.tm
    split_ifs <;> exact hd
  · unfold CivilDate.tm
    dsimp only
    rw [Int.add_sub_cancel, Int.add_sub_cancel]

end Firebird.Evl
