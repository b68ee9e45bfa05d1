import Firebird.Lib.Truncated
import Firebird.Lib.Wrap

/-! # Day numbers and dates (`ndate` and `nday` in `jrd/gds.cpp`)

A day number counts from 17 November 1858. `ndate` decodes it in 32-bit arithmetic that wraps
around, and `nday` is its inverse from 0001-01-01 to 9999-12-31.
-/

namespace Firebird.Evl

open Wrap

/-! ## The calendar -/

/-- The fields of `struct tm` that make up the date -/
structure Tm where
  mday : ℤ
  mon : ℤ
  year : ℤ
deriving DecidableEq

/-- Convert a numeric day to day, month and year. -/
def ndate (nday : ℤ) : Tm :=
  let nday := toInt32 (nday - (1721119 - 2400001))
  let century := (toInt32 (4 * nday - 1)).tdiv 146097
  let nday := toInt32 (4 * nday - 1 - 146097 * century)
  let day := nday.tdiv 4
  let nday := (4 * day + 3).tdiv 1461
  let day := 4 * day + 3 - 1461 * nday
  let day := (day + 4).tdiv 4
  let month := (5 * day - 3).tdiv 153
  let day := 5 * day - 3 - 153 * month
  let day := (day + 5).tdiv 5
  let year := 100 * century + nday
  if month < 10 then ⟨day, month + 3 - 1, year - 1900⟩
  else ⟨day, month - 9 - 1, year + 1 - 1900⟩

/-- Convert a calendar date to a numeric day. -/
def nday (times : Tm) : ℤ :=
  let day := toInt16 times.mday
  let month := toInt16 (times.mon + 1)
  let year := toInt16 (times.year + 1900)
  let year' := if month > 2 then year else toInt16 (year - 1)
  let month := if month > 2 then toInt16 (month - 3) else toInt16 (month + 9)
  let c := year'.tdiv 100
  let ya := year' - 100 * c
  toInt32 ((146097 * c).tdiv 4 + (1461 * ya).tdiv 4 + (153 * month + 2).tdiv 5 + day + 1721119
    - 2400001)

def MIN_YEAR : ℤ := 1

def MAX_YEAR : ℤ := 9999

/-- The test of the year that date arithmetic makes -/
def Tm.OutOfYears (times : Tm) : Prop := times.year + 1900 < MIN_YEAR ∨ times.year + 1900 > MAX_YEAR

instance (times : Tm) : Decidable times.OutOfYears := inferInstanceAs (Decidable (_ ∨ _))

/-- 0001-01-01 -/
def MIN_DATE : ℤ := nday ⟨1, 0, 1 - 1900⟩

/-- 9999-12-31 -/
def MAX_DATE : ℤ := nday ⟨31, 11, 9999 - 1900⟩

/-- The day is between 0001-01-01 and 9999-12-31. -/
def ValidDate (x : ℤ) : Prop := MIN_DATE ≤ x ∧ x ≤ MAX_DATE

/-- The order of dates by year, month and day -/
def Tm.Before (t u : Tm) : Prop :=
  t.year < u.year ∨ t.year = u.year ∧ (t.mon < u.mon ∨ t.mon = u.mon ∧ t.mday < u.mday)

theorem MIN_DATE_eq : MIN_DATE = -678575 := by decide

theorem MAX_DATE_eq : MAX_DATE = 2973483 := by decide

/-! ## The parts of a day number -/

/-- The parts of a day in a calendar that begins on 1 March of year 0 -/
structure Parts where
  century : ℤ
  year : ℤ
  month : ℤ
  day : ℤ

def Parts.tm (p : Parts) : Tm :=
  if p.month < 10 then ⟨p.day, p.month + 3 - 1, 100 * p.century + p.year - 1900⟩
  else ⟨p.day, p.month - 9 - 1, 100 * p.century + p.year + 1 - 1900⟩

/-- The divisions of `ndate`, of four times the day less one -/
def parts (n : ℤ) : Parts :=
  let century := n.tdiv 146097
  let day := (n - 146097 * century).tdiv 4
  let year := (4 * day + 3).tdiv 1461
  let day := (4 * day + 3 - 1461 * year + 4).tdiv 4
  let month := (5 * day - 3).tdiv 153
  ⟨century, year, month, (5 * day - 3 - 153 * month + 5).tdiv 5⟩

/-- The number that `ndate` divides: its 30 high bits are those of the day. -/
def quarters (x : ℤ) : ℤ := toInt32 (4 * (x + 678882) - 1)

theorem ndate_eq (x : ℤ) : ndate x = (parts (quarters x)).tm := by
  have hn : toInt32 (4 * toInt32 (x - (1721119 - 2400001)) - 1) = quarters x := by
    rw [quarters, toInt32_eq, toInt32_eq, toInt32_eq]
    omega
  have hrem : toInt32 (4 * toInt32 (x - (1721119 - 2400001)) - 1 -
      146097 * (quarters x).tdiv 146097) = quarters x - 146097 * (quarters x).tdiv 146097 := by
    have hbounds := Truncated.bounds (quarters x) (d := 146097) (by omega)
    rw [← hn] at hbounds ⊢
    rw [toInt32_eq] at hbounds ⊢
    rw [toInt32_eq (4 * _ - 1)]
    omega
  unfold ndate
  dsimp only
  rw [hn, hrem]
  rfl

/-- `p` are the parts of the number `n`, with day `d` of the century and day `e` of the year. -/
structure Parts.Of (p : Parts) (n d e : ℤ) : Prop where
  century : 146097 * p.century ≤ n ∧ n < 146097 * p.century + 146097
  dayOfCentury : 4 * d ≤ n - 146097 * p.century ∧ n - 146097 * p.century < 4 * d + 4
  year : 1461 * p.year ≤ 4 * d + 3 ∧ 4 * d + 3 < 1461 * p.year + 1461
  dayOfYear : 4 * e ≤ 4 * d + 3 - 1461 * p.year + 4 ∧ 4 * d + 3 - 1461 * p.year + 4 < 4 * e + 4
  month : 153 * p.month ≤ 5 * e - 3 ∧ 5 * e - 3 < 153 * p.month + 153
  day : 5 * p.day ≤ 5 * e - 3 - 153 * p.month + 5 ∧ 5 * e - 3 - 153 * p.month + 5 < 5 * p.day + 5

/-- A division of a number that is not negative -/
theorem exists_tdiv {x d : ℤ} (hx : 0 ≤ x) (hd : 0 < d) :
    ∃ q, x.tdiv d = q ∧ d * q ≤ x ∧ x < d * q + d :=
  ⟨_, rfl, (Truncated.bounds x hd).1 hx⟩

theorem parts_of {n : ℤ} (hn : 0 ≤ n) : ∃ d e, (parts n).Of n d e := by
  obtain ⟨century, hcentury, h1⟩ := exists_tdiv (d := 146097) hn (by omega)
  obtain ⟨d, hd, h2⟩ := exists_tdiv (x := n - 146097 * century) (d := 4) (by omega) (by omega)
  obtain ⟨year, hyear, h3⟩ := exists_tdiv (x := 4 * d + 3) (d := 1461) (by omega) (by omega)
  obtain ⟨e, he, h4⟩ :=
    exists_tdiv (x := 4 * d + 3 - 1461 * year + 4) (d := 4) (by omega) (by omega)
  obtain ⟨month, hmonth, h5⟩ := exists_tdiv (x := 5 * e - 3) (d := 153) (by omega) (by omega)
  obtain ⟨day, hday, h6⟩ := exists_tdiv (x := 5 * e - 3 - 153 * month + 5) (d := 5)
    (by omega) (by omega)
  have hparts : parts n = ⟨century, year, month, day⟩ := by
    unfold parts
    dsimp only
    rw [hcentury, hd, hyear, he, hmonth, hday]
  rw [hparts]
  exact ⟨d, e, h1, h2, h3, h4, h5, h6⟩

namespace Parts.Of

variable {p q : Parts} {n n' d d' e e' : ℤ}

/-- The parts are in the ranges of the calendar. -/
theorem ranges (h : p.Of n d e) :
    (0 ≤ p.year ∧ p.year < 100) ∧ (0 ≤ p.month ∧ p.month < 12) ∧ (1 ≤ p.day ∧ p.day ≤ 31) := by
  obtain ⟨h1, h2, h3, h4, h5, h6⟩ := h
  refine ⟨⟨by omega, by omega⟩, ⟨by omega, by omega⟩, by omega, by omega⟩

/-! ### Order -/

theorem century_lt (h : p.Of n d e) (h' : q.Of n' d' e') (hlt : n + 4 ≤ n') :
    p.century < q.century ∨ p.century = q.century ∧ d < d' := by
  have := h.century
  have := h'.century
  have := h.dayOfCentury
  have := h'.dayOfCentury
  omega

theorem year_lt (h : p.Of n d e) (h' : q.Of n' d' e') (hlt : d < d') :
    p.year < q.year ∨ p.year = q.year ∧ e < e' := by
  have := h.year
  have := h'.year
  have := h.dayOfYear
  have := h'.dayOfYear
  omega

theorem month_lt (h : p.Of n d e) (h' : q.Of n' d' e') (hlt : e < e') :
    p.month < q.month ∨ p.month = q.month ∧ p.day < q.day := by
  have := h.month
  have := h'.month
  have := h.day
  have := h'.day
  omega

/-- A later day has a later date. -/
theorem before (h : p.Of n d e) (h' : q.Of n' d' e') (hlt : n + 4 ≤ n') :
    p.tm.Before q.tm := by
  have hp := h.ranges
  have hq := h'.ranges
  -- the parts are in the order of the days, and the dates in that of the parts
  have hparts : p.century < q.century ∨ p.century = q.century ∧ (p.year < q.year ∨
      p.year = q.year ∧ (p.month < q.month ∨ p.month = q.month ∧ p.day < q.day)) := by
    refine (h.century_lt h' hlt).imp_right fun ⟨hc, hd⟩ => ⟨hc, ?_⟩
    exact (h.year_lt h' hd).imp_right fun ⟨hy, he⟩ => ⟨hy, h.month_lt h' he⟩
  unfold Parts.tm Tm.Before
  by_cases hpm : p.month < 10 <;> by_cases hqm : q.month < 10
  · rw [if_pos hpm, if_pos hqm]
    dsimp only
    omega
  · rw [if_pos hpm, if_neg hqm]
    dsimp only
    omega
  · rw [if_neg hpm, if_pos hqm]
    dsimp only
    omega
  · rw [if_neg hpm, if_neg hqm]
    dsimp only
    omega

/-! ### The way back -/

/-- The day of the parts -/
theorem sum_eq (h : p.Of (4 * n - 1) d e) :
    146097 * p.century / 4 + 1461 * p.year / 4 + (153 * p.month + 2) / 5 + p.day = n := by
  obtain ⟨h1, h2, h3, h4, h5, h6⟩ := h
  have hcentury : 146097 * p.century / 4 + d = n - 1 := by omega
  have hyear : 1461 * p.year / 4 + (e - 1) = d := by omega
  have hmonth : (153 * p.month + 2) / 5 + (p.day - 1) = e - 1 := by omega
  omega

theorem nday_tm (h : p.Of (4 * n - 1) d e) (hlo : 0 ≤ p.century) (hhi : p.century ≤ 100) :
    nday p.tm = n - 678882 := by
  obtain ⟨⟨hy, hy'⟩, ⟨hm, hm'⟩, hd, hd'⟩ := h.ranges
  have hsum := h.sum_eq
  -- `nday` goes back to the year that begins in March
  have hback : ∀ year, year = 100 * p.century + p.year →
      (146097 * year.tdiv 100).tdiv 4 + (1461 * (year - 100 * year.tdiv 100)).tdiv 4 +
        (153 * p.month + 2).tdiv 5 + p.day + 1721119 - 2400001 = n - 678882 := by
    rintro year rfl
    have hc : (100 * p.century + p.year).tdiv 100 = p.century := by
      rw [Int.tdiv_eq_ediv_of_nonneg (by omega)]
      omega
    rw [hc, Int.tdiv_eq_ediv_of_nonneg (by omega), Int.tdiv_eq_ediv_of_nonneg (by omega),
      Int.tdiv_eq_ediv_of_nonneg (by omega)]
    have hyear : 100 * p.century + p.year - 100 * p.century = p.year := by omega
    rw [hyear]
    omega
  have hrange : toInt32 (n - 678882) = n - 678882 := toInt32_of_lt (by omega) (by omega)
  unfold nday Parts.tm
  by_cases hmonth : p.month < 10
  · rw [if_pos hmonth]
    dsimp only
    rw [toInt16_of_lt (x := p.month + 3 - 1 + 1) (by omega) (by omega), if_pos (by omega),
      if_pos (by omega), toInt16_of_lt (x := p.month + 3 - 1 + 1 - 3) (by omega) (by omega),
      toInt16_of_lt (x := 100 * p.century + p.year - 1900 + 1900) (by omega) (by omega),
      toInt16_of_lt (by omega) (by omega)]
    have h3 : p.month + 3 - 1 + 1 - 3 = p.month := by omega
    rw [h3, hback _ (by omega), hrange]
  · rw [if_neg hmonth]
    dsimp only
    rw [toInt16_of_lt (x := p.month - 9 - 1 + 1) (by omega) (by omega), if_neg (by omega),
      if_neg (by omega), toInt16_of_lt (x := p.month - 9 - 1 + 1 + 9) (by omega) (by omega),
      toInt16_of_lt (x := 100 * p.century + p.year + 1 - 1900 + 1900) (by omega) (by omega),
      toInt16_of_lt (x := 100 * p.century + p.year + 1 - 1900 + 1900 - 1) (by omega) (by omega),
      toInt16_of_lt (by omega) (by omega)]
    have h9 : p.month - 9 - 1 + 1 + 9 = p.month := by omega
    rw [h9, hback _ (by omega), hrange]

end Parts.Of

/-! ## The dates of the calendar -/

theorem quarters_of_lt {x : ℤ} (h : -678882 < x) (h' : x ≤ 500000000) :
    quarters x = 4 * (x + 678882) - 1 :=
  toInt32_of_lt (by omega) (by omega)

/-- A day has the year of a date exactly where it is between the dates. -/
theorem Parts.Of.year_tm {p : Parts} {n d e : ℤ} (h : p.Of (4 * n - 1) d e) :
    (1 ≤ p.tm.year + 1900 ∧ p.tm.year + 1900 ≤ 9999) ↔ (307 ≤ n ∧ n ≤ 3652365) := by
  obtain ⟨⟨hy, hy'⟩, ⟨hm, hm'⟩, hd, hd'⟩ := h.ranges
  have hsum := h.sum_eq
  clear h
  unfold Parts.tm
  by_cases hmonth : p.month < 10
  · rw [if_pos hmonth]
    dsimp only
    have hlo : 1 ≤ 100 * p.century + p.year - 1900 + 1900 ↔ 307 ≤ n := by omega
    have hlast : 100 * p.century + p.year - 1900 + 1900 ≤ 9999 ↔ p.century ≤ 99 := by omega
    have hhi : p.century ≤ 99 ↔ n ≤ 3652365 := by omega
    rw [hlo, hlast, hhi]
  · rw [if_neg hmonth]
    dsimp only
    have hfirst : 1 ≤ 100 * p.century + p.year + 1 - 1900 + 1900 ↔ 0 ≤ p.century := by omega
    have hlo : 0 ≤ p.century ↔ 307 ≤ n := by omega
    have hhi : 100 * p.century + p.year + 1 - 1900 + 1900 ≤ 9999 ↔ n ≤ 3652365 := by omega
    rw [hfirst, hlo, hhi]

/-- What is decoded from a negative number has no year. -/
theorem year_parts_neg {n : ℤ} (hn : n < 0) : (parts n).tm.year + 1900 ≤ 0 := by
  -- a negative number is divided towards zero, which bounds each part from above
  have hcentury := (Truncated.bounds n (d := 146097) (by omega)).2 hn.le
  unfold parts
  dsimp only
  generalize n.tdiv 146097 = century at hcentury ⊢
  have hd := (Truncated.bounds (n - 146097 * century) (d := 4) (by omega)).2 (by omega)
  generalize (n - 146097 * century).tdiv 4 = d at hd ⊢
  have hyear := Truncated.bounds (4 * d + 3) (d := 1461) (by omega)
  generalize (4 * d + 3).tdiv 1461 = year at hyear ⊢
  have hyear0 : year ≤ 0 := by omega
  have hrem : 4 * d + 3 - 1461 * year + 4 ≤ 7 := by omega
  have he := Truncated.bounds (4 * d + 3 - 1461 * year + 4) (d := 4) (by omega)
  generalize (4 * d + 3 - 1461 * year + 4).tdiv 4 = e at he ⊢
  have he1 : e ≤ 1 := by omega
  have hmonth := Truncated.bounds (5 * e - 3) (d := 153) (by omega)
  generalize (5 * e - 3).tdiv 153 = month at hmonth ⊢
  have hsmall : month < 10 := by
    clear hcentury hd hyear he
    omega
  rw [Parts.tm, if_pos hsmall]
  dsimp only
  clear hd hyear he hmonth
  omega

/-- A decoded day has a year of a date exactly where it is a day of a date but for a multiple of
`2 ^ 30`. -/
theorem not_outOfYears_iff (x : ℤ) :
    ¬(ndate x).OutOfYears ↔ ∃ v, ValidDate v ∧ (2 ^ 30 : ℤ) ∣ x - v := by
  have h30 : (2 ^ 30 : ℤ) = 1073741824 := rfl
  -- what is decoded is the day but for a multiple of `2 ^ 30`
  have hmod : ∃ y, quarters x = 4 * y - 1 ∧ -536870912 < y ∧ y ≤ 536870912 ∧
      (2 ^ 30 : ℤ) ∣ x + 678882 - y := by
    have hx : quarters x = (4 * (x + 678882) - 1 + 2147483648) % 4294967296 - 2147483648 :=
      toInt32_eq _
    rw [h30]
    exact ⟨(quarters x + 1) / 4, by omega, by omega, by omega, by omega⟩
  obtain ⟨y, hy, hlo, hhi, hdvd⟩ := hmod
  rw [h30] at hdvd ⊢
  unfold Tm.OutOfYears MIN_YEAR MAX_YEAR ValidDate
  rw [ndate_eq, hy, MIN_DATE_eq, MAX_DATE_eq, not_or, not_lt, not_lt]
  by_cases hpos : 1 ≤ y
  · obtain ⟨d, e, hof⟩ := parts_of (n := 4 * y - 1) (by omega)
    rw [hof.year_tm]
    constructor
    · intro h
      exact ⟨y - 678882, by omega, by omega⟩
    · rintro ⟨v, hv, hdvd'⟩
      omega
  · have hneg := year_parts_neg (n := 4 * y - 1) (by omega)
    refine iff_of_false (by omega) ?_
    rintro ⟨v, hv, hdvd'⟩
    omega

/-- A date is decoded from its day. -/
theorem nday_ndate {x : ℤ} (hx : ValidDate x) : nday (ndate x) = x := by
  rw [ValidDate, MIN_DATE_eq, MAX_DATE_eq] at hx
  rw [ndate_eq, quarters_of_lt (by omega) (by omega)]
  obtain ⟨d, e, hof⟩ := parts_of (n := 4 * (x + 678882) - 1) (by omega)
  have hcentury := hof.century
  rw [hof.nday_tm (by omega) (by omega)]
  omega

/-- Later days have later dates. -/
theorem ndate_before {x y : ℤ} (hx : ValidDate x) (hy : ValidDate y) (hlt : x < y) :
    (ndate x).Before (ndate y) := by
  rw [ValidDate, MIN_DATE_eq, MAX_DATE_eq] at hx hy
  rw [ndate_eq, ndate_eq, quarters_of_lt (by omega) (by omega),
    quarters_of_lt (by omega) (by omega)]
  obtain ⟨d, e, hof⟩ := parts_of (n := 4 * (x + 678882) - 1) (by omega)
  obtain ⟨d', e', hof'⟩ := parts_of (n := 4 * (y + 678882) - 1) (by omega)
  exact hof.before hof' (by omega)

end Firebird.Evl
