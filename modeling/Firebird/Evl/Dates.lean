import Firebird.Evl.Arithmetic
import Firebird.Evl.Calendar

/-! # Date and timestamp arithmetic (`add_sql_date` and `add_timestamp` in `jrd/evl.cpp`)

A sum is computed in 64 bits. Its day is cut to 32 bits, and the year of that day is tested.
-/

namespace Firebird.Evl

open Wrap

/-- The errors of date arithmetic, under `gds_expression_eval_err` -/
inductive DateError where
  | expressionEvalErr
  /-- `isc_date_range_exceeded` -/
  | dateRangeExceeded
deriving DecidableEq

def NodType.IsSubtract (type : NodType) : Prop := type = .subtract ∨ type = .subtract2

instance (type : NodType) : Decidable type.IsSubtract := inferInstanceAs (Decidable (_ ∨ _))

/-! ## Dates -/

/-- An operand of `add_sql_date`, a number as `MOV_get_int64` returns it -/
inductive DateOperand where
  | sqlDate (date : ℤ)
  | numeric (n : ℤ)

def DateOperand.isDate : DateOperand → Bool
  | .sqlDate _ => true
  | .numeric _ => false

/-- The count of days -/
def DateOperand.days : DateOperand → ℤ
  | .sqlDate date => date
  | .numeric n => n

inductive DateResult where
  | int64 (n : ℤ)
  | sqlDate (date : ℤ)
deriving DecidableEq

def add_sql_date (desc : DateOperand) (node : NodType) (value : DateOperand) :
    Except DateError DateResult :=
  let d1 := value.days
  let d2 := desc.days
  if node.IsSubtract ∧ value.isDate ∧ desc.isDate then
    .ok (.int64 (toInt64 (d1 - d2)))
  else
    let d2 := toInt64 (if node.IsSubtract then d1 - d2 else d1 + d2)
    let new_date := toInt32 d2
    if (ndate new_date).OutOfYears then .error .dateRangeExceeded
    else .ok (.sqlDate (toInt32 d2))

/-! ## Timestamps -/

/-- `GDS_TIMESTAMP` -/
structure Timestamp where
  date : ℤ
  time : ℤ
deriving DecidableEq

/-- An operand of `add_timestamp` -/
inductive TimestampOperand (δ : Type) where
  | sqlDate (date : ℤ)
  | sqlTime (time : ℤ)
  | timestamp (t : Timestamp)
  | numeric (d : δ)

def SECONDS_PER_DAY : ℤ := 24 * 60 * 60

def ISC_TIME_SECONDS_PRECISION : ℤ := 10000

def ISC_TICKS_PER_DAY : ℤ := SECONDS_PER_DAY * ISC_TIME_SECONDS_PRECISION

def get_timestamp_to_isc_ticks (t : Timestamp) : ℤ :=
  toInt64 (t.date * ISC_TICKS_PER_DAY + t.time)

/-- The part of `add_timestamp` that adds two numbers of ticks, and splits their sum -/
def add_ticks (node : NodType) (d1 d2 : ℤ) : Except DateError Timestamp :=
  let d2 := toInt64 (if node.IsSubtract then d1 - d2 else d1 + d2)
  let timestamp_date := toInt32 (d2.tdiv ISC_TICKS_PER_DAY)
  let timestamp_time := toUInt32 (d2.tmod ISC_TICKS_PER_DAY)
  if (ndate timestamp_date).OutOfYears then .error .dateRangeExceeded
  -- make sure that the time is not negative
  else if toInt32 timestamp_time < 0 then
    .ok ⟨toInt32 (timestamp_date - 1), toUInt32 (toInt32 timestamp_time + ISC_TICKS_PER_DAY)⟩
  else .ok ⟨timestamp_date, timestamp_time⟩

/-- The subtraction of a timestamp, which gives a number, is left out. -/
def add_timestamp {δ : Type} (get_day_fraction : TimestampOperand δ → ℤ)
    (desc : TimestampOperand δ) (node : NodType) (value : TimestampOperand δ) :
    Except DateError Timestamp :=
  match value, desc with
  | .sqlDate date, .sqlTime time | .sqlTime time, .sqlDate date =>
    if node.IsSubtract then .error .expressionEvalErr else .ok ⟨date, time⟩
  | .sqlDate _, _ | _, .sqlDate _ | .timestamp _, .timestamp _ => .error .expressionEvalErr
  | .timestamp t, d => add_ticks node (get_timestamp_to_isc_ticks t) (get_day_fraction d)
  | d, .timestamp t => add_ticks node (get_day_fraction d) (get_timestamp_to_isc_ticks t)
  | _, _ => .error .expressionEvalErr

/-! ## The sum of a date and a number -/

/-- The operands of `d + n`, `n + d` or `d - n` for a date `d`, and the exact sum -/
inductive DateSum : DateOperand → NodType → DateOperand → ℤ → Prop where
  | add {d n : ℤ} {node : NodType} (hd : ValidDate d) (hnode : ¬node.IsSubtract) :
      DateSum (.sqlDate d) node (.numeric n) (d + n)
  | addLeft {d n : ℤ} {node : NodType} (hd : ValidDate d) (hnode : ¬node.IsSubtract) :
      DateSum (.numeric n) node (.sqlDate d) (n + d)
  | subtract {d n : ℤ} {node : NodType} (hd : ValidDate d) (hnode : node.IsSubtract) :
      DateSum (.sqlDate d) node (.numeric n) (d - n)

/-- A sum is a date or an error. -/
def DateExact (s : ℤ) (r : Except DateError DateResult) : Prop :=
  (ValidDate s → r = .ok (.sqlDate s)) ∧ (¬ValidDate s → ∃ e, r = .error e)

/-- The day is none between the dates, but differs by a multiple of `2 ^ 30` from one that is. -/
def Folds (s : ℤ) : Prop := ¬ValidDate s ∧ ∃ v, ValidDate v ∧ (2 ^ 30 : ℤ) ∣ s - v

/-- A test that lets pass what is valid, and what folds to it -/
theorem exact_iff_of_test {ρ : Type} (good : Except DateError ρ → Prop) {valid passes : Prop}
    {r : Except DateError ρ} {x : ρ} {e : DateError} (hpass : passes → r = .ok x)
    (hfail : ¬passes → r = .error e) (hvalid : valid → passes) (hgood : valid → good (.ok x)) :
    ((valid → good r) ∧ (¬valid → ∃ e, r = .error e)) ↔ ¬(¬valid ∧ passes) := by
  by_cases h : passes
  · rw [hpass h]
    by_cases hv : valid
    · exact iff_of_true ⟨hgood, fun hno => absurd hv hno⟩ fun hfold => hfold.1 hv
    · -- what is returned should be an error
      refine iff_of_false (fun hr => ?_) fun hno => hno ⟨hv, h⟩
      obtain ⟨e, he⟩ := hr.2 hv
      cases he
  · rw [hfail h]
    exact iff_of_true ⟨fun hv => absurd (hvalid hv) h, fun _ => ⟨e, rfl⟩⟩ fun hfold => h hfold.2

theorem ValidDate.bounds {x : ℤ} (h : ValidDate x) : -678575 ≤ x ∧ x ≤ 2973483 := by
  rwa [ValidDate, MIN_DATE_eq, MAX_DATE_eq] at h

theorem toInt64_of_inRange {x : ℤ} (h : InRange x) : toInt64 x = x := by
  obtain ⟨hlo, hhi⟩ := h
  exact toInt64_of_lt (by omega) (by omega)

/-- The cut to 32 bits does not change what is decoded. -/
theorem not_outOfYears_toInt32_iff (s : ℤ) :
    ¬(ndate (toInt32 s)).OutOfYears ↔ ∃ v, ValidDate v ∧ (2 ^ 30 : ℤ) ∣ s - v := by
  have h30 : (2 ^ 30 : ℤ) = 1073741824 := rfl
  have hdvd : ∀ v, (2 ^ 30 : ℤ) ∣ toInt32 s - v ↔ (2 ^ 30 : ℤ) ∣ s - v := by
    intro v
    rw [toInt32_eq, h30]
    omega
  rw [not_outOfYears_iff]
  simp only [hdvd]

/-- The sum is tested by the year of its day, and stored in 32 bits. -/
theorem DateSum.add_sql_date_eq {value desc : DateOperand} {node : NodType} {s : ℤ}
    (h : DateSum value node desc s) (hs : InRange s) :
    add_sql_date desc node value =
      if (ndate (toInt32 s)).OutOfYears then .error .dateRangeExceeded
      else .ok (.sqlDate (toInt32 s)) := by
  have hs' := toInt64_of_inRange hs
  cases h with
  | add hd hnode =>
    unfold add_sql_date
    rw [if_neg (fun h => hnode h.1), if_neg hnode]
    dsimp only [DateOperand.days]
    rw [hs']
  | addLeft hd hnode =>
    unfold add_sql_date
    rw [if_neg (fun h => hnode h.1), if_neg hnode]
    dsimp only [DateOperand.days]
    rw [hs']
  | subtract hd hnode =>
    unfold add_sql_date
    rw [if_neg (fun h => by cases h.2.2), if_pos hnode]
    dsimp only [DateOperand.days]
    rw [hs']

theorem DateSum.exact_iff {value desc : DateOperand} {node : NodType} {s : ℤ}
    (h : DateSum value node desc s) (hs : InRange s) :
    DateExact s (add_sql_date desc node value) ↔ ¬Folds s := by
  rw [h.add_sql_date_eq hs]
  unfold DateExact Folds
  rw [← not_outOfYears_toInt32_iff]
  apply exact_iff_of_test fun r : Except DateError DateResult => r = .ok (.sqlDate s)
  · exact fun htest => if_neg htest
  · exact fun htest => if_pos (not_not.mp htest)
  · intro hvalid
    exact (not_outOfYears_toInt32_iff s).mpr ⟨s, hvalid, by rw [Int.sub_self]; exact dvd_zero _⟩
  · intro hvalid
    have hrange := hvalid.bounds
    rw [toInt32_of_lt (by omega) (by omega)]

/-- Date arithmetic is exact, or an error, but where the day folds back to a date. The days of
dates are decoded to their dates. -/
theorem add_sql_date_exact_iff {value desc : DateOperand} {node : NodType} {s : ℤ}
    (h : DateSum value node desc s) (hs : InRange s) :
    (DateExact s (add_sql_date desc node value) ↔ ¬Folds s) ∧
      (∀ x, ValidDate x → nday (ndate x) = x) ∧
      (∀ x y, ValidDate x → ValidDate y → x < y → (ndate x).Before (ndate y)) :=
  ⟨h.exact_iff hs, fun _ hx => nday_ndate hx, fun _ _ hx hy hlt => ndate_before hx hy hlt⟩

instance (x : ℤ) : Decidable (ValidDate x) := inferInstanceAs (Decidable (_ ∧ _))

instance (x : ℤ) : Decidable (InRange x) := inferInstanceAs (Decidable (_ ∧ _))

/-- The day after 31 December 9999 -/
theorem add_sql_date_exact_last :
    (DateExact 2973484 (add_sql_date (.numeric 1) .add2 (.sqlDate 2973483)) ↔ ¬Folds 2973484) ∧
      (∀ x, ValidDate x → nday (ndate x) = x) ∧
      (∀ x y, ValidDate x → ValidDate y → x < y → (ndate x).Before (ndate y)) :=
  add_sql_date_exact_iff (.add (d := 2973483) (n := 1) (by decide) (by decide)) (by decide)

/-- `2 ^ 32` days later it is the same day. -/
theorem add_sql_date_folds :
    DateSum (.sqlDate 0) .add2 (.numeric 4294967296) 4294967296 ∧
      add_sql_date (.numeric 4294967296) .add2 (.sqlDate 0) = .ok (.sqlDate 0) ∧
      ¬DateExact 4294967296 (add_sql_date (.numeric 4294967296) .add2 (.sqlDate 0)) := by
  have hrun : add_sql_date (.numeric 4294967296) .add2 (.sqlDate 0) = .ok (.sqlDate 0) := by
    rfl
  refine ⟨.add (d := 0) (n := 4294967296) (by decide) (by decide), hrun, ?_⟩
  rw [hrun]
  intro h
  obtain ⟨e, he⟩ := h.2 (by decide)
  cases he

/-! ## The sum of a timestamp and a part of days -/

theorem ISC_TICKS_PER_DAY_eq : ISC_TICKS_PER_DAY = 864000000 := rfl

/-- The timestamp has a date and a time of day. -/
def Timestamp.Valid (t : Timestamp) : Prop :=
  ValidDate t.date ∧ 0 ≤ t.time ∧ t.time < ISC_TICKS_PER_DAY

/-- The exact number of ticks -/
def Timestamp.ticks (t : Timestamp) : ℤ := t.date * ISC_TICKS_PER_DAY + t.time

/-- The operands of `t + k`, `k + t` or `t - k` for a timestamp `t` and a number `k` of ticks, and
the exact sum -/
inductive TimestampSum {δ : Type} (get_day_fraction : TimestampOperand δ → ℤ) :
    TimestampOperand δ → NodType → TimestampOperand δ → ℤ → Prop where
  | add {t : Timestamp} {d : δ} {node : NodType} (ht : t.Valid)
      (hk : |get_day_fraction (.numeric d)| < 2 ^ 61) (hnode : ¬node.IsSubtract) :
      TimestampSum get_day_fraction (.timestamp t) node (.numeric d)
        (t.ticks + get_day_fraction (.numeric d))
  | addLeft {t : Timestamp} {d : δ} {node : NodType} (ht : t.Valid)
      (hk : |get_day_fraction (.numeric d)| < 2 ^ 61) (hnode : ¬node.IsSubtract) :
      TimestampSum get_day_fraction (.numeric d) node (.timestamp t)
        (get_day_fraction (.numeric d) + t.ticks)
  | subtract {t : Timestamp} {d : δ} {node : NodType} (ht : t.Valid)
      (hk : |get_day_fraction (.numeric d)| < 2 ^ 61) (hnode : node.IsSubtract) :
      TimestampSum get_day_fraction (.timestamp t) node (.numeric d)
        (t.ticks - get_day_fraction (.numeric d))

/-- The instant is on a day between the dates. -/
def InDates (s : ℤ) : Prop :=
  MIN_DATE * ISC_TICKS_PER_DAY ≤ s ∧ s < (MAX_DATE + 1) * ISC_TICKS_PER_DAY

/-- A sum is a date and a time of day, or an error. -/
def TimestampExact (s : ℤ) (r : Except DateError Timestamp) : Prop :=
  (InDates s → ∃ t, r = .ok t ∧ 0 ≤ t.time ∧ t.time < ISC_TICKS_PER_DAY ∧ t.ticks = s) ∧
    (¬InDates s → ∃ e, r = .error e)

/-- The instant is not between the dates, but its day, rounded toward day 0, differs by a multiple
of `2 ^ 30` from one that is. -/
def TimestampFolds (s : ℤ) : Prop :=
  ¬InDates s ∧ ∃ v, ValidDate v ∧ (2 ^ 30 : ℤ) ∣ s.tdiv ISC_TICKS_PER_DAY - v

theorem inDates_iff (s : ℤ) : InDates s ↔ ValidDate (s / ISC_TICKS_PER_DAY) := by
  unfold InDates ValidDate
  rw [MIN_DATE_eq, MAX_DATE_eq, ISC_TICKS_PER_DAY_eq]
  omega

theorem Timestamp.Valid.ticks_eq {t : Timestamp} (h : t.Valid) :
    get_timestamp_to_isc_ticks t = t.ticks ∧ |t.ticks| < 2 ^ 61 := by
  obtain ⟨hd, ht, ht'⟩ := h
  have hd' := hd.bounds
  have hticks : |t.ticks| < 2 ^ 61 := by
    rw [Timestamp.ticks, abs_lt]
    rw [ISC_TICKS_PER_DAY_eq] at ht' ⊢
    omega
  refine ⟨toInt64_of_inRange ?_, hticks⟩
  rw [abs_lt] at hticks
  unfold Timestamp.ticks at hticks
  rw [InRange]
  omega

/-- Truncated division by the ticks of a day, against the day of the instant -/
theorem tdiv_ticks (s : ℤ) :
    (0 ≤ s.tmod ISC_TICKS_PER_DAY ∧ s.tdiv ISC_TICKS_PER_DAY = s / ISC_TICKS_PER_DAY ∧
        s.tmod ISC_TICKS_PER_DAY = s % ISC_TICKS_PER_DAY) ∨
      (s.tmod ISC_TICKS_PER_DAY < 0 ∧ s < 0 ∧
        s.tdiv ISC_TICKS_PER_DAY = s / ISC_TICKS_PER_DAY + 1 ∧
        s.tmod ISC_TICKS_PER_DAY = s % ISC_TICKS_PER_DAY - ISC_TICKS_PER_DAY) := by
  have hsum := Int.mul_tdiv_add_tmod s ISC_TICKS_PER_DAY
  have hbounds := Truncated.bounds s (d := ISC_TICKS_PER_DAY) (by decide)
  rw [ISC_TICKS_PER_DAY_eq] at hsum hbounds ⊢
  omega

/-- What is stored is the day of the instant in 32 bits, and the time of the day. -/
theorem add_ticks_eq {node : NodType} {d1 d2 s : ℤ}
    (hsum : s = if node.IsSubtract then d1 - d2 else d1 + d2) (hs : InRange s) :
    add_ticks node d1 d2 =
      if (ndate (toInt32 (s.tdiv ISC_TICKS_PER_DAY))).OutOfYears then .error .dateRangeExceeded
      else .ok ⟨toInt32 (s / ISC_TICKS_PER_DAY), s % ISC_TICKS_PER_DAY⟩ := by
  unfold add_ticks
  rw [← hsum, toInt64_of_inRange hs]
  dsimp only
  have hmod := Int.emod_nonneg s (b := ISC_TICKS_PER_DAY) (by decide)
  have hmod' := Int.emod_lt_of_pos s (b := ISC_TICKS_PER_DAY) (by decide)
  congr 1
  rcases tdiv_ticks s with ⟨hnonneg, hq, hr⟩ | ⟨hneg, -, hq, hr⟩
  · -- the time is that of the division
    rw [hq, hr]
    rw [ISC_TICKS_PER_DAY_eq] at hmod' ⊢
    have htime : toUInt32 (s % 864000000) = s % 864000000 := by
      rw [toUInt32]
      omega
    rw [htime, toInt32_of_lt (by omega) (by omega), if_neg (by omega)]
  · -- the time is repaired
    rw [hq, hr]
    rw [ISC_TICKS_PER_DAY_eq] at hmod' ⊢
    have htime : toInt32 (toUInt32 (s % 864000000 - 864000000)) = s % 864000000 - 864000000 := by
      rw [toUInt32, toInt32_eq]
      omega
    have hdate : toInt32 (toInt32 (s / 864000000 + 1) - 1) = toInt32 (s / 864000000) := by
      rw [toInt32_eq, toInt32_eq, toInt32_eq]
      omega
    have hrepair : toUInt32 (s % 864000000 - 864000000 + 864000000) = s % 864000000 := by
      rw [toUInt32]
      omega
    rw [htime, if_pos (by omega), hdate, hrepair]

section

variable {δ : Type} {get_day_fraction : TimestampOperand δ → ℤ} {value desc : TimestampOperand δ}
  {node : NodType} {s : ℤ}

theorem TimestampSum.add_timestamp_eq (h : TimestampSum get_day_fraction value node desc s) :
    add_timestamp get_day_fraction desc node value =
      if (ndate (toInt32 (s.tdiv ISC_TICKS_PER_DAY))).OutOfYears then .error .dateRangeExceeded
      else .ok ⟨toInt32 (s / ISC_TICKS_PER_DAY), s % ISC_TICKS_PER_DAY⟩ := by
  cases h with
  | @add t d node ht hk hnode =>
    obtain ⟨hticks, hsmall⟩ := ht.ticks_eq
    rw [abs_lt] at hk hsmall
    change add_ticks node (get_timestamp_to_isc_ticks t) (get_day_fraction (.numeric d)) = _
    rw [hticks]
    exact add_ticks_eq (if_neg hnode).symm ⟨by omega, by omega⟩
  | @addLeft t d node ht hk hnode =>
    obtain ⟨hticks, hsmall⟩ := ht.ticks_eq
    rw [abs_lt] at hk hsmall
    change add_ticks node (get_day_fraction (.numeric d)) (get_timestamp_to_isc_ticks t) = _
    rw [hticks]
    exact add_ticks_eq (if_neg hnode).symm ⟨by omega, by omega⟩
  | @subtract t d node ht hk hnode =>
    obtain ⟨hticks, hsmall⟩ := ht.ticks_eq
    rw [abs_lt] at hk hsmall
    change add_ticks node (get_timestamp_to_isc_ticks t) (get_day_fraction (.numeric d)) = _
    rw [hticks]
    exact add_ticks_eq (if_pos hnode).symm ⟨by omega, by omega⟩

/-- The rounded day of an instant between the dates is between them too. -/
theorem validDate_tdiv {s : ℤ} (h : InDates s) : ValidDate (s.tdiv ISC_TICKS_PER_DAY) := by
  have hvalid := (inDates_iff s).mp h
  rcases tdiv_ticks s with ⟨-, hq, -⟩ | ⟨-, hneg, hq, -⟩
  · rwa [hq]
  · have hbounds := hvalid.bounds
    rw [hq, ValidDate, MIN_DATE_eq, MAX_DATE_eq]
    rw [ISC_TICKS_PER_DAY_eq] at hbounds ⊢
    omega

/-- Timestamp arithmetic is exact, or an error, but where the day that is tested is not that of the
instant. -/
theorem add_timestamp_exact_iff (h : TimestampSum get_day_fraction value node desc s) :
    TimestampExact s (add_timestamp get_day_fraction desc node value) ↔ ¬TimestampFolds s := by
  rw [h.add_timestamp_eq]
  unfold TimestampExact TimestampFolds
  rw [← not_outOfYears_toInt32_iff]
  -- the test is of the rounded day
  apply exact_iff_of_test fun r : Except DateError Timestamp =>
    ∃ t, r = .ok t ∧ 0 ≤ t.time ∧ t.time < ISC_TICKS_PER_DAY ∧ t.ticks = s
  · exact fun htest => if_neg htest
  · exact fun htest => if_pos (not_not.mp htest)
  · intro hvalid
    exact (not_outOfYears_toInt32_iff _).mpr
      ⟨_, validDate_tdiv hvalid, by rw [Int.sub_self]; exact dvd_zero _⟩
  · intro hvalid
    have hbounds := ((inDates_iff s).mp hvalid).bounds
    rw [toInt32_of_lt (by omega) (by omega)]
    refine ⟨_, rfl, ?_, ?_, ?_⟩
    · exact Int.emod_nonneg s (by decide)
    · exact Int.emod_lt_of_pos s (by decide)
    · exact Int.ediv_mul_add_emod s ISC_TICKS_PER_DAY

end

/-- A number of whole days -/
def wholeDays : TimestampOperand ℤ → ℤ
  | .numeric days => days * ISC_TICKS_PER_DAY
  | _ => 0

/-- One day after the first date -/
theorem add_timestamp_exact_day :
    TimestampExact ((⟨-678575, 0⟩ : Timestamp).ticks + wholeDays (.numeric 1))
        (add_timestamp wholeDays (.numeric 1) .add2 (.timestamp ⟨-678575, 0⟩)) ↔
      ¬TimestampFolds ((⟨-678575, 0⟩ : Timestamp).ticks + wholeDays (.numeric 1)) :=
  add_timestamp_exact_iff (.add (t := ⟨-678575, 0⟩) (d := (1 : ℤ))
    (by unfold Timestamp.Valid; decide) (by decide) (by decide))

/-- One tick before the first date is stored as 31 December of year 0. -/
theorem add_timestamp_before_first :
    TimestampSum (fun _ : TimestampOperand Unit => 1) (.timestamp ⟨-678575, 0⟩) .subtract2
        (.numeric ()) ((⟨-678575, 0⟩ : Timestamp).ticks - 1) ∧
      add_timestamp (fun _ : TimestampOperand Unit => 1) (.numeric ()) .subtract2
        (.timestamp ⟨-678575, 0⟩) = .ok ⟨-678576, 863999999⟩ ∧
      ¬TimestampExact ((⟨-678575, 0⟩ : Timestamp).ticks - 1)
        (add_timestamp (fun _ : TimestampOperand Unit => 1) (.numeric ()) .subtract2
          (.timestamp ⟨-678575, 0⟩)) := by
  have hrun : add_timestamp (fun _ : TimestampOperand Unit => 1) (.numeric ()) .subtract2
      (.timestamp ⟨-678575, 0⟩) = .ok ⟨-678576, 863999999⟩ := by
    rfl
  refine ⟨.subtract (by unfold Timestamp.Valid; decide) (by decide) (by decide), hrun, ?_⟩
  rw [hrun]
  intro h
  obtain ⟨e, he⟩ := h.2 (by unfold InDates; decide)
  cases he

end Firebird.Evl
