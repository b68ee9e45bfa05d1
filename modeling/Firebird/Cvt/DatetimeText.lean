import Firebird.Cvt.Datetime

/-! # Dates and times as text (`datetime_to_text` in `jrd/cvt.cpp`)

What is printed for a date, a time or a timestamp is read back by `string_to_datetime`.
-/

namespace Firebird.Cvt

open Wrap Evl

/-- The types of dates and times -/
inductive DateType where
  | sql_date
  | sql_time
  | timestamp
deriving DecidableEq

/-- What a string is parsed for when it is assigned to the type -/
def DateType.expect : DateType → ExpectDatetime
  | .sql_date => .expect_sql_date
  | .sql_time => .expect_sql_time
  | .timestamp => .expect_timestamp

/-- A number printed with `%d` of a precision, and of a width that is not larger -/
def printed (precision : ℕ) (n : ℤ) : List Char :=
  (if n < 0 then ['-'] else []) ++
    (List.replicate (precision - (decimal n.natAbs).length) '0' ++ decimal n.natAbs)

/-- The value as a timestamp for manipulation -/
def DateType.stamp (dtype : DateType) (value : Timestamp) : Timestamp :=
  match dtype with
  | .sql_time => ⟨0, value.timestamp_time⟩
  | .sql_date => ⟨value.timestamp_date, 0⟩
  | .timestamp => value

/-- The textual date. Prior to BLR version 5 timestamps are converted to the dd-Mon-yyyy format. -/
def dateText (dtype : DateType) (version4 : Bool) (times : Times) : List Char :=
  if dtype = .sql_time then []
  else if dtype = .sql_date ∨ ¬version4 then
    printed 4 (times.date.year + 1900) ++ '-' :: printed 2 (times.date.mon + 1) ++
      '-' :: printed 2 times.date.mday
  else
    printed 1 times.date.mday ++ '-' :: (months.getD times.date.mon.toNat []).take 3 ++
      '-' :: printed 1 (times.date.year + 1900)

/-- The time part -/
def timeText (dtype : DateType) (version4 : Bool) (times : Times) (timestamp_time : ℤ) :
    List Char :=
  let fraction := printed 4 (timestamp_time % ISC_TIME_SECONDS_PRECISION)
  if dtype = .sql_date then []
  else if dtype = .sql_time ∨ ¬version4 then
    printed 2 times.hour ++ ':' :: printed 2 times.min ++ ':' :: printed 2 times.sec ++
      '.' :: fraction
  else if times.hour ≠ 0 ∨ times.min ≠ 0 ∨ times.sec ≠ 0 ∨ timestamp_time ≠ 0 then
    ' ' :: printed 1 times.hour ++ ':' :: printed 2 times.min ++ ':' :: printed 2 times.sec ++
      '.' :: fraction
  else []

/-- The text that is moved to the destination -/
def datetime_to_text (dtype : DateType) (version4 : Bool) (value : Timestamp) : List Char :=
  let date := dtype.stamp value
  let times := isc_decode_timestamp date
  dateText dtype version4 times ++ (if dtype = .timestamp ∧ ¬version4 then [' '] else []) ++
    timeText dtype version4 times date.timestamp_time

example : datetime_to_text .timestamp false ⟨0, 37200000⟩ = "1858-11-17 01:02:00.0000".toList := by
  have hdate : (ndate 0).year = -42 ∧ (ndate 0).mon = 10 ∧ (ndate 0).mday = 17 := by decide
  simp [datetime_to_text, dateText, timeText, isc_decode_timestamp, DateType.stamp, printed,
    decimal, digitChar, hdate, ISC_TIME_SECONDS_PRECISION]

/-! ## Fields of the text -/

/-- `ds` are the `w` digits of the number `n`. -/
structure Field (w n : ℕ) (ds : List Char) : Prop where
  digits : ∀ c ∈ ds, DIGIT c
  length : ds.length = w
  number : number ds = n

theorem field_printed {w n : ℕ} (hw : 0 < w) (hn : n < 10 ^ w) : Field w n (printed w n) := by
  have hlen := length_decimal_le hw hn
  have heq : printed w n = List.replicate (w - (decimal n).length) '0' ++ decimal n := by
    rw [printed, if_neg (by omega), Int.natAbs_natCast]
    rfl
  rw [heq]
  constructor
  · intro c hc
    rcases List.mem_append.mp hc with hc | hc
    · rw [List.eq_of_mem_replicate hc]
      decide
    · exact digit_of_mem_decimal n c hc
  · rw [List.length_append, List.length_replicate]
    omega
  · rw [number_replicate_zero, number_decimal]

/-- The group of digits that a field is read as -/
def Field.group {w n : ℕ} {ds : List Char} (h : Field w n ds) : Group := .digits ds h.digits

section

variable {expect : ExpectDatetime} {now : Times} {w n i k : ℕ} {ds : List Char}

theorem Field.exists_cons (h : Field w n ds) (hw : 0 < w) :
    ∃ c t, ds = c :: t ∧ DIGIT c := by
  cases ds with
  | nil => exact absurd h.length (by rw [List.length_nil]; omega)
  | cons c t => exact ⟨c, t, rfl, h.digits c List.mem_cons_self⟩

theorem upper7_of_digit {c : Char} (h : DIGIT c) : UPPER7 c = c := by
  have hlt := h.toNat
  rw [UPPER7, if_neg]
  rintro ⟨ha, -⟩
  rw [Char.le_def, UInt32.le_iff_toNat_le] at ha
  change 97 ≤ c.toNat at ha
  omega

/-- Blanks before a field are skipped up to the field. -/
theorem skipBlanks_field (h : Field w n ds) (hw : 0 < w) (rest : List Char) :
    skipBlanks (ds ++ rest) = ds ++ rest := by
  obtain ⟨c, t, rfl, hc⟩ := h.exists_cons hw
  rw [List.cons_append]
  apply List.dropWhile_cons_of_neg
  rw [decide_eq_true_iff, not_or]
  exact ⟨hc.ne (by decide), hc.ne (by decide)⟩

theorem digits_congr {ds ds' : List Char} (h : ds = ds') (hds : ∀ c ∈ ds, DIGIT c)
    (hds' : ∀ c ∈ ds', DIGIT c) : Group.digits ds hds = Group.digits ds' hds' := by
  subst h
  rfl

/-- A field is read as a group of digits. -/
theorem readGroup_field (h : Field w n ds) (hw : 0 < w) (english : Bool) {rest : List Char}
    (hrest : ∀ c t, rest = c :: t → ¬DIGIT c) :
    readGroup expect now english i (ds ++ rest) = .ok (h.group, rest) := by
  have hall : ∀ c ∈ ds, decide (DIGIT c) = true := fun c hc => decide_eq_true (h.digits c hc)
  have htake : (ds ++ rest).takeWhile (fun c => decide (DIGIT c)) = ds := by
    rw [List.takeWhile_append_of_pos hall]
    cases rest with
    | nil => exact List.append_nil ds
    | cons c rest =>
      have hc : ¬decide (DIGIT c) = true := by simpa using hrest c rest rfl
      rw [List.takeWhile_cons_of_neg (p := fun c => decide (DIGIT c)) hc, List.append_nil]
  have hdrop : (ds ++ rest).dropWhile (fun c => decide (DIGIT c)) = rest := by
    rw [List.dropWhile_append_of_pos hall]
    cases rest with
    | nil => rfl
    | cons c rest =>
      have hc : ¬decide (DIGIT c) = true := by simpa using hrest c rest rfl
      rw [List.dropWhile_cons_of_neg (p := fun c => decide (DIGIT c)) hc]
  have hgroup := digits_congr htake digit_of_mem_takeWhile h.digits
  obtain ⟨c, t, rfl, hc⟩ := h.exists_cons hw
  rw [List.cons_append] at hgroup hdrop ⊢
  rw [readGroup, upper7_of_digit hc, if_pos hc, hdrop, hgroup]
  rfl

/-- A group at a separator, in front of what follows -/
def Scanned.cons (r : Scanned) (i : ℕ) (g : Group) (period : Bool) : Scanned :=
  { r with
    groups := Function.update r.groups i (some g)
    dot_separator_seen := period || r.dot_separator_seen }

/-- A field with a separator is read, and the loop goes on behind the separator. -/
theorem scanFrom_separator (h : Field w n ds) (hw : 0 < w) (english : Bool) {c : Char}
    (hc : c = '-' ∨ c = ':' ∨ c = '.') (rest : List Char) :
    scanFrom expect now (k + 1) i english (ds ++ c :: rest) =
      (scanFrom expect now k (i + 1) english rest).bind fun r =>
        .ok (r.cons i h.group (c = '.' ∧ i ≤ 1)) := by
  have hdigit : ¬DIGIT c := by rcases hc with rfl | rfl | rfl <;> decide
  have hread : readGroup expect now english i (ds ++ c :: rest) = .ok (h.group, c :: rest) := by
    apply readGroup_field h hw
    rintro _ _ ⟨⟩
    exact hdigit
  have hskip : skipBlanks (c :: rest) = c :: rest := by
    rcases hc with rfl | rfl | rfl <;> exact List.dropWhile_cons_of_neg (by decide)
  have hne : ds ++ c :: rest ≠ [] := List.append_ne_nil_of_right_ne_nil _ (List.cons_ne_nil _ _)
  have hsep : c = '/' ∨ c = '-' ∨ c = ',' ∨ c = ':' ∨ c = '.' := by
    rcases hc with rfl | rfl | rfl <;> decide
  rw [scanFrom]
  dsimp only
  rw [skipBlanks_field h hw, if_neg hne, hread, Outcome.ok_bind]
  dsimp only
  rw [hskip]
  dsimp only
  rw [if_pos hsep, Field.group, Group.isMonth, Bool.or_false]
  congr 1
  funext r
  rw [Scanned.cons, Bool.decide_or, Bool.decide_coe]

/-- A field is read, and the loop goes on at the field behind the blank. -/
theorem scanFrom_blank (h : Field w n ds) (hw : 0 < w) (english : Bool) {w' n' : ℕ}
    {ds' : List Char} (h' : Field w' n' ds') (hw' : 0 < w') (rest : List Char) :
    scanFrom expect now (k + 1) i english (ds ++ ' ' :: (ds' ++ rest)) =
      (scanFrom expect now k (i + 1) english (ds' ++ rest)).bind fun r =>
        .ok (r.cons i h.group false) := by
  have hne : ds ++ ' ' :: (ds' ++ rest) ≠ [] :=
    List.append_ne_nil_of_right_ne_nil _ (List.cons_ne_nil _ _)
  have hskip : skipBlanks (' ' :: (ds' ++ rest)) = ds' ++ rest := by
    have htail := skipBlanks_field h' hw' rest
    rw [skipBlanks, List.dropWhile_cons_of_pos (by decide)]
    exact htail
  have hdigit : ¬DIGIT ' ' := by decide
  have hread : readGroup expect now english i (ds ++ ' ' :: (ds' ++ rest)) =
      .ok (h.group, ' ' :: (ds' ++ rest)) := by
    apply readGroup_field h hw
    rintro _ _ ⟨⟩
    exact hdigit
  rw [scanFrom]
  dsimp only
  rw [skipBlanks_field h hw, if_neg hne, hread, Outcome.ok_bind]
  dsimp only
  rw [hskip]
  obtain ⟨c, t, rfl, hc⟩ := h'.exists_cons hw'
  have hsep : ¬(c = '/' ∨ c = '-' ∨ c = ',' ∨ c = ':' ∨ c = '.') := by
    rintro (rfl | rfl | rfl | rfl | rfl) <;> revert hc <;> decide
  rw [List.cons_append]
  dsimp only
  rw [if_neg hsep, Field.group, Group.isMonth, Bool.or_false]
  congr 1
  funext r
  have hdot : c ≠ '.' := fun hdot => hsep (.inr (.inr (.inr (.inr hdot))))
  rw [Scanned.cons, Bool.decide_or, Bool.decide_coe, decide_eq_false (fun h => hdot h.1)]

/-- The last field with blanks behind it -/
theorem scanFrom_last (h : Field w n ds) (hw : 0 < w) (english : Bool) (m : ℕ) :
    scanFrom expect now (k + 1) i english (ds ++ List.replicate m ' ') =
      .ok ((Scanned.mk (fun _ => none) i false).cons i h.group false) := by
  have hne : ds ++ List.replicate m ' ' ≠ [] := by
    obtain ⟨c, t, rfl, -⟩ := h.exists_cons hw
    exact List.cons_ne_nil _ _
  have hdigit : ∀ c t, List.replicate m ' ' = c :: t → ¬DIGIT c := by
    intro c t ht
    have hc : c ∈ List.replicate m ' ' := by
      rw [ht]
      exact List.mem_cons_self
    rw [List.eq_of_mem_replicate hc]
    decide
  have hskip : skipBlanks (List.replicate m ' ') = [] := by
    rw [skipBlanks, List.dropWhile_eq_nil_iff]
    intro c hc
    rw [List.eq_of_mem_replicate hc]
    decide
  rw [scanFrom]
  dsimp only
  rw [skipBlanks_field h hw, if_neg hne, readGroup_field h hw english hdigit, Outcome.ok_bind]
  dsimp only
  rw [hskip]
  rfl

/-! ## The text that is read -/

theorem Field.value_eq {r : Scanned} (h : Field w n ds) (hr : r.groups i = some h.group) :
    r.value i = n ∧ r.count i = w := by
  unfold Scanned.value Scanned.count
  rw [hr]
  exact ⟨h.number, congrArg Nat.cast h.length⟩

/-- A field of at most four digits is a component. -/
theorem Field.component_eq {r : Scanned} (h : Field w n ds) (hw : w ≤ 4)
    (hr : r.groups i = some h.group) : r.components i = n ∧ r.description i = w := by
  obtain ⟨hvalue, hcount⟩ := h.value_eq hr
  have hlt := number_lt h.digits
  have hpow : 10 ^ w ≤ 10 ^ 4 := Nat.pow_le_pow_right (by omega) hw
  rw [h.number, h.length] at hlt
  rw [components_eq_value (by omega), description_eq_count (by omega), hvalue, hcount]
  exact ⟨rfl, rfl⟩

/-- The value of components that have been decoded from the time `t` of a day -/
theorem encodeComponents_time {r : Scanned} {tm : Tm} {t : ℤ} (ht : 0 ≤ t) (ht' : t < 864000000)
    (hi : expect.start_component < r.i) (hi' : ¬(expect = .expect_sql_date ∧ r.i > 2))
    (hdate : datePart expect now r = .ok tm)
    (hvalid : expect ≠ .expect_sql_time → ¬tm.OutOfYears ∧ ndate (nday tm) = tm)
    (hhour : r.components 3 = t / 600000 / 60) (hmin : r.components 4 = t / 600000 % 60)
    (hsec : r.components 5 = t / 10000 % 60) (hcount : r.description 6 ≤ 4)
    (hfraction : scaleFraction (4 - r.description 6).toNat (r.components 6) = t % 10000) :
    encodeComponents expect now r = .ok ⟨nday tm, t⟩ := by
  rw [encodeComponents_ok_iff, hfraction, hhour, hmin, hsec]
  have hsum : ((t / 600000 / 60 * 60 + t / 600000 % 60) * 60 + t / 10000 % 60) * 10000 =
      t - t % 10000 := by omega
  rw [hsum]
  have hstamp : toUInt32 (t - t % 10000) = t - t % 10000 := by
    unfold toUInt32
    omega
  have hwhole : toUInt32 (t - t % 10000 + t % 10000) = t := by
    unfold toUInt32
    omega
  refine ⟨⟨hi, hi'⟩, ⟨by omega, by omega, by omega, hcount⟩, tm, hdate, ?_, ?_⟩
  · intro hexpect
    obtain ⟨hyears, hsame⟩ := hvalid hexpect
    refine ⟨hyears, ?_⟩
    unfold isc_decode_timestamp isc_encode_timestamp ISC_TIME_SECONDS_PRECISION
    dsimp only
    rw [hsum, hstamp, hsame, Times.mk.injEq]
    exact ⟨rfl, by omega, by omega, by omega⟩
  · rw [hstamp, hwhole]

/-- The date of three fields -/
theorem datePart_fields {r : Scanned} {y m d : ℕ} {ys ms ds : List Char} (hy : Field 4 y ys)
    (hm : Field 2 m ms) (hd : Field 2 d ds) (hexpect : expect ≠ .expect_sql_time)
    (h0 : r.groups 0 = some hy.group) (h1 : r.groups 1 = some hm.group)
    (h2 : r.groups 2 = some hd.group) :
    datePart expect now r = .ok ⟨d, m - 1, y - 1900⟩ := by
  obtain ⟨hyear, hyears⟩ := hy.component_eq (by omega) h0
  obtain ⟨hmonth, hmonths⟩ := hm.component_eq (by omega) h1
  obtain ⟨hday, hdays⟩ := hd.component_eq (by omega) h2
  have horder : order r.description r.dot_separator_seen = ⟨0, 1, 2⟩ := by
    rw [order, if_pos (by rw [hyears]; decide)]
  have hallowed : ¬Forbidden r.description ⟨0, 1, 2⟩ := by
    unfold Forbidden
    dsimp only
    rw [hyears, hmonths, hdays]
    decide
  unfold datePart
  rw [if_pos hexpect, horder]
  dsimp only
  rw [if_neg hallowed, hday, hmonth, hyear, hyears]
  rfl

@[simp] theorem cons_groups_self (r : Scanned) (i : ℕ) (g : Group) (period : Bool) :
    (r.cons i g period).groups i = some g := Function.update_self ..

@[simp] theorem cons_groups_of_ne (r : Scanned) {i j : ℕ} (h : j ≠ i) (g : Group) (period : Bool) :
    (r.cons i g period).groups j = r.groups j := Function.update_of_ne h ..

/-- What is read of the time `t` of a day -/
structure ReadsTime (r : Scanned) (t : ℤ) : Prop where
  i : r.i = 6
  hour : r.components 3 = t / 600000 / 60
  min : r.components 4 = t / 600000 % 60
  sec : r.components 5 = t / 10000 % 60
  count : r.description 6 = 4
  fraction : r.components 6 = t % 10000

/-- The components in front of the time do not change it. -/
theorem ReadsTime.cons {r : Scanned} {t : ℤ} (h : ReadsTime r t) {i : ℕ} (hi : i < 3) (g : Group)
    (period : Bool) : ReadsTime (r.cons i g period) t := by
  have hgroup : ∀ j, 3 ≤ j → (r.cons i g period).groups j = r.groups j :=
    fun j hj => cons_groups_of_ne r (by omega) g period
  constructor
  · exact h.i
  · rw [Scanned.components, hgroup 3 (by omega)]
    exact h.hour
  · rw [Scanned.components, hgroup 4 (by omega)]
    exact h.min
  · rw [Scanned.components, hgroup 5 (by omega)]
    exact h.sec
  · rw [Scanned.description, hgroup 6 (by omega)]
    exact h.count
  · rw [Scanned.components, hgroup 6 (by omega)]
    exact h.fraction

theorem ReadsTime.encode {r : Scanned} {tm : Tm} {t : ℤ} (h : ReadsTime r t) (ht : 0 ≤ t)
    (ht' : t < 864000000) (hexpect : expect ≠ .expect_sql_date)
    (hdate : datePart expect now r = .ok tm)
    (hvalid : expect ≠ .expect_sql_time → ¬tm.OutOfYears ∧ ndate (nday tm) = tm) :
    encodeComponents expect now r = .ok ⟨nday tm, t⟩ := by
  have hi : expect.start_component < r.i := by
    rw [h.i]
    cases expect <;> decide
  refine encodeComponents_time ht ht' hi (fun h => hexpect h.1) hdate hvalid h.hour h.min h.sec
    (by rw [h.count]) ?_
  rw [h.count, h.fraction]
  rfl

/-- The time of a day as text -/
def clockText (t : ℤ) : List Char :=
  printed 2 (t / 600000 / 60) ++ ':' :: printed 2 (t / 600000 % 60) ++
    ':' :: printed 2 (t / 10000 % 60) ++ '.' :: printed 4 (t % 10000)

theorem field_of_lt {w : ℕ} {x : ℤ} (hw : 0 < w) (h0 : 0 ≤ x) (h : x < 10 ^ w) :
    ∃ n : ℕ, x = n ∧ Field w n (printed w x) := by
  obtain ⟨n, rfl⟩ := Int.eq_ofNat_of_zero_le h0
  exact ⟨n, rfl, field_printed hw (by exact_mod_cast h)⟩

variable (expect now) in
theorem scanFrom_clock {t : ℤ} (ht : 0 ≤ t) (ht' : t < 864000000) (m : ℕ) :
    ∃ r, scanFrom expect now 4 3 false (clockText t ++ List.replicate m ' ') = .ok r ∧
      ReadsTime r t := by
  obtain ⟨h, hh, hhour⟩ := field_of_lt (w := 2) (x := t / 600000 / 60) (by omega) (by omega)
    (by omega)
  obtain ⟨mi, hmi, hmin⟩ := field_of_lt (w := 2) (x := t / 600000 % 60) (by omega) (by omega)
    (by omega)
  obtain ⟨s, hs, hsec⟩ := field_of_lt (w := 2) (x := t / 10000 % 60) (by omega) (by omega)
    (by omega)
  obtain ⟨f, hf, hfraction⟩ := field_of_lt (w := 4) (x := t % 10000) (by omega) (by omega)
    (by omega)
  unfold clockText
  generalize printed 2 (t / 600000 / 60) = hours at hhour ⊢
  generalize printed 2 (t / 600000 % 60) = mins at hmin ⊢
  generalize printed 2 (t / 10000 % 60) = secs at hsec ⊢
  generalize printed 4 (t % 10000) = fracs at hfraction ⊢
  have htext : hours ++ ':' :: mins ++ ':' :: secs ++ '.' :: fracs ++ List.replicate m ' ' =
      hours ++ ':' :: (mins ++ ':' :: (secs ++ '.' :: (fracs ++ List.replicate m ' '))) := by
    simp
  rw [htext, scanFrom_separator hhour (by omega) false (.inr (.inl rfl)),
    scanFrom_separator hmin (by omega) false (.inr (.inl rfl)),
    scanFrom_separator hsec (by omega) false (.inr (.inr rfl)),
    scanFrom_last hfraction (by omega)]
  refine ⟨_, rfl, rfl, ?_, ?_, ?_, ?_, ?_⟩
  · rw [hh]
    exact (hhour.component_eq (by omega) (by simp)).1
  · rw [hmi]
    exact (hmin.component_eq (by omega) (by simp)).1
  · rw [hs]
    exact (hsec.component_eq (by omega) (by simp)).1
  · exact (hfraction.component_eq (by omega) (by simp)).2
  · rw [hf]
    exact (hfraction.component_eq (by omega) (by simp)).1

/-- The fields of a date -/
theorem CivilDate.fields (d : CivilDate) :
    ∃ y m n : ℕ, d.year = y ∧ d.month = m ∧ d.day = n ∧ Field 4 y (printed 4 d.year) ∧
      Field 2 m (printed 2 d.month) ∧ Field 2 n (printed 2 d.day) := by
  have hlen := monthLength_le d.year d.month
  obtain ⟨hy, hy'⟩ := d.year_range
  obtain ⟨hm, hm'⟩ := d.month_range
  obtain ⟨hd, hd'⟩ := d.day_range
  unfold MIN_YEAR at hy
  unfold MAX_YEAR at hy'
  obtain ⟨y, hyear, hys⟩ := field_of_lt (w := 4) (x := d.year) (by omega) (by omega) (by omega)
  obtain ⟨m, hmonth, hms⟩ := field_of_lt (w := 2) (x := d.month) (by omega) (by omega) (by omega)
  obtain ⟨n, hday, hds⟩ := field_of_lt (w := 2) (x := d.day) (by omega) (by omega) (by omega)
  exact ⟨y, m, n, hyear, hmonth, hday, hys, hms, hds⟩

/-- A date as text -/
def calendarText (d : CivilDate) : List Char :=
  printed 4 d.year ++ '-' :: printed 2 d.month ++ '-' :: printed 2 d.day

/-- A date in front of what is read -/
def Scanned.withDate (r : Scanned) (year month day : Group) : Scanned :=
  ((r.cons 2 day false).cons 1 month false).cons 0 year false

variable (expect now) in
/-- A text with a date is read as the date and what is read behind it. -/
theorem datePart_calendar (d : CivilDate) (hexpect : expect ≠ .expect_sql_time) :
    ∃ ys ms ds : Group,
      (∀ m, scanFrom expect now 7 0 false (calendarText d ++ List.replicate m ' ') =
        .ok ((Scanned.mk (fun _ => none) 2 false).withDate ys ms ds)) ∧
      (∀ {w n : ℕ} {t rest : List Char}, Field w n t → 0 < w →
        scanFrom expect now 7 0 false (calendarText d ++ ' ' :: (t ++ rest)) =
          (scanFrom expect now 4 3 false (t ++ rest)).bind fun (r : Scanned) =>
            .ok (r.withDate ys ms ds)) ∧
      ∀ r : Scanned, datePart expect now (r.withDate ys ms ds) = .ok d.tm := by
  obtain ⟨y, m, n, hyear, hmonth, hday, hy, hm, hd⟩ := CivilDate.fields d
  unfold calendarText
  have htm : d.tm = ⟨n, m - 1, y - 1900⟩ := by rw [CivilDate.tm, hyear, hmonth, hday]
  generalize printed 4 d.year = ys at hy ⊢
  generalize printed 2 d.month = ms at hm ⊢
  generalize printed 2 d.day = ds at hd ⊢
  refine ⟨hy.group, hm.group, hd.group, ?_, ?_, ?_⟩
  · intro k
    have htext : ys ++ '-' :: ms ++ '-' :: ds ++ List.replicate k ' ' =
        ys ++ '-' :: (ms ++ '-' :: (ds ++ List.replicate k ' ')) := by
      simp
    rw [htext, scanFrom_separator hy (by omega) false (.inl rfl),
      scanFrom_separator hm (by omega) false (.inl rfl), scanFrom_last hd (by omega)]
    rfl
  · intro w k t rest ht hw
    have htext : ys ++ '-' :: ms ++ '-' :: ds ++ ' ' :: (t ++ rest) =
        ys ++ '-' :: (ms ++ '-' :: (ds ++ ' ' :: (t ++ rest))) := by
      simp
    rw [htext, scanFrom_separator hy (by omega) false (.inl rfl),
      scanFrom_separator hm (by omega) false (.inl rfl), scanFrom_blank hd (by omega) false ht hw]
    cases scanFrom expect now 4 3 false (t ++ rest) <;> rfl
  · intro r
    rw [htm]
    unfold Scanned.withDate
    exact datePart_fields hy hm hd hexpect (by simp) (by simp) (by simp)

end

/-! ## The round trip -/

/-- The value is in the range of the type. -/
def DateType.Valid (dtype : DateType) (value : Timestamp) : Prop :=
  (dtype ≠ .sql_time → ValidDate value.timestamp_date) ∧
    (dtype ≠ .sql_date → 0 ≤ value.timestamp_time ∧ value.timestamp_time < 864000000)

theorem exists_of_validDate {x : ℤ} (hx : ValidDate x) :
    ∃ d : CivilDate, ndate x = d.tm ∧ nday d.tm = x ∧ ¬d.tm.OutOfYears := by
  have hyears : ¬(ndate x).OutOfYears :=
    (not_outOfYears_iff x).mpr ⟨x, hx, by rw [Int.sub_self]; exact dvd_zero _⟩
  obtain ⟨d, hd⟩ := exists_ndate hyears
  refine ⟨d, hd, ?_, ?_⟩
  · rw [← hd]
    exact nday_ndate hx
  · rw [← hd]
    exact hyears

theorem dateText_eq {dtype : DateType} {d : CivilDate} {times : Times}
    (hdtype : dtype ≠ .sql_time) (h : times.date = d.tm) :
    dateText dtype false times = calendarText d := by
  have hyear : d.year - 1900 + 1900 = d.year := by omega
  have hmonth : d.month - 1 + 1 = d.month := by omega
  rw [dateText, if_neg hdtype, if_pos (.inr Bool.false_ne_true), h, CivilDate.tm, calendarText]
  dsimp only
  rw [hyear, hmonth]

theorem timeText_eq {dtype : DateType} (hdtype : dtype ≠ .sql_date) (x t : ℤ) :
    timeText dtype false (isc_decode_timestamp ⟨x, t⟩) t = clockText t := by
  rw [timeText, if_neg hdtype, if_pos (.inr Bool.false_ne_true)]
  rfl

/-- What has been parsed and encoded is returned. -/
theorem string_to_datetime_ok {expect : ExpectDatetime} {now : Times} {s : List Char} {r : Scanned}
    {date : Timestamp} (hscan : scanDatetime expect now s = .ok r)
    (h : encodeComponents expect now r = .ok date) :
    string_to_datetime expect now s = .ok date := by
  rw [string_to_datetime, hscan]
  exact h

/-- What is printed for a date, a time or a timestamp in range is read as that value, also with
blanks behind it. -/
theorem string_to_datetime_text (dtype : DateType) (now : Times) {value : Timestamp}
    (h : dtype.Valid value) (k : ℕ) :
    ∃ date, string_to_datetime dtype.expect now
        (datetime_to_text dtype false value ++ List.replicate k ' ') = .ok date ∧
      (dtype ≠ .sql_time → date.timestamp_date = value.timestamp_date) ∧
        (dtype ≠ .sql_date → date.timestamp_time = value.timestamp_time) := by
  obtain ⟨hdate, htime⟩ := h
  obtain ⟨x, t⟩ := value
  cases dtype with
  | sql_date =>
    obtain ⟨d, hd, hx, hyears⟩ := exists_of_validDate (hdate (by decide))
    dsimp only at hd hx
    obtain ⟨ys, ms, ds, hscan, -, hpart⟩ :=
      datePart_calendar .expect_sql_date now d (by decide)
    have htext : datetime_to_text .sql_date false ⟨x, t⟩ = calendarText d := by
      unfold datetime_to_text DateType.stamp
      dsimp only
      rw [dateText_eq (by decide) hd, timeText, if_pos rfl, if_neg (fun h => by cases h.1)]
      simp
    refine ⟨⟨x, 0⟩, ?_, fun _ => rfl, fun h => absurd rfl h⟩
    rw [htext]
    refine string_to_datetime_ok (hscan k) ?_
    rw [← hx]
    have hi : ((Scanned.mk (fun _ => none) 2 false).withDate ys ms ds).i = 2 := rfl
    have hcount : ((Scanned.mk (fun _ => none) 2 false).withDate ys ms ds).description 6 = 0 := rfl
    have hzero : ((Scanned.mk (fun _ => none) 2 false).withDate ys ms ds).components 6 = 0 := rfl
    refine encodeComponents_time le_rfl (by decide) (by rw [hi]; decide) ?_ (hpart _) ?_ rfl rfl rfl
      (by rw [hcount]; decide) ?_
    · rw [hi]
      exact fun h => absurd h.2 (by decide)
    · rw [hx, hd]
      exact fun _ => ⟨hyears, rfl⟩
    · rw [hcount, hzero]
      decide
  | sql_time =>
    obtain ⟨ht, ht'⟩ := htime (by decide)
    obtain ⟨r, hscan, hreads⟩ :=
      scanFrom_clock .expect_sql_time now ht ht' k
    have htext : datetime_to_text .sql_time false ⟨x, t⟩ = clockText t := by
      unfold datetime_to_text DateType.stamp
      dsimp only
      rw [timeText_eq (by decide), dateText, if_pos rfl, if_neg (fun h => by cases h.1)]
      rfl
    refine ⟨⟨nday ⟨1, 0, 0⟩, t⟩, ?_, fun h => absurd rfl h, fun _ => rfl⟩
    rw [htext]
    refine string_to_datetime_ok hscan ?_
    exact hreads.encode ht ht' (by decide) rfl (fun h => absurd rfl h)
  | timestamp =>
    obtain ⟨d, hd, hx, hyears⟩ := exists_of_validDate (hdate (by decide))
    obtain ⟨ht, ht'⟩ := htime (by decide)
    dsimp only at hd hx ht ht'
    obtain ⟨r, hclock, hreads⟩ :=
      scanFrom_clock .expect_timestamp now ht ht' k
    obtain ⟨ys, ms, ds, -, hscan, hpart⟩ :=
      datePart_calendar .expect_timestamp now d (by decide)
    have htext : datetime_to_text .timestamp false ⟨x, t⟩ = calendarText d ++ ' ' :: clockText t := by
      unfold datetime_to_text DateType.stamp
      dsimp only
      rw [dateText_eq (by decide) hd, timeText_eq (by decide), if_pos ⟨rfl, Bool.false_ne_true⟩]
      simp
    obtain ⟨n, -, hhour⟩ := field_of_lt (w := 2) (x := t / 600000 / 60) (by omega) (by omega)
      (by omega)
    obtain ⟨rest, hrest⟩ : ∃ rest, clockText t ++ List.replicate k ' ' =
        printed 2 (t / 600000 / 60) ++ rest :=
      ⟨_, by rw [clockText, List.append_assoc, List.append_assoc, List.append_assoc]⟩
    refine ⟨⟨x, t⟩, ?_, fun _ => rfl, fun _ => rfl⟩
    have hparsed : scanDatetime .expect_timestamp now
        (calendarText d ++ ' ' :: clockText t ++ List.replicate k ' ') =
          .ok (r.withDate ys ms ds) := by
      change scanFrom .expect_timestamp now 7 0 false _ = _
      rw [List.append_assoc, List.cons_append, hrest, hscan hhour (by omega), ← hrest, hclock]
      rfl
    rw [htext]
    refine string_to_datetime_ok hparsed ?_
    have hreads' : ReadsTime (r.withDate ys ms ds) t :=
      ((hreads.cons (by omega) ds false).cons (by omega) ms false).cons (by omega) ys false
    have hvalid : ¬d.tm.OutOfYears ∧ ndate (nday d.tm) = d.tm := by
      rw [hx, hd]
      exact ⟨hyears, rfl⟩
    rw [← hx]
    exact hreads'.encode ht ht' (by decide) (hpart r) (fun _ => hvalid)

/-- Strings that are accepted stand for the date and time that is returned exactly where hours,
minutes and seconds fit a `USHORT`, and the numbers of the other digits an `SSHORT`. What is printed
for a value in range is read as that value. -/
theorem datetime_parsed_iff (expect : ExpectDatetime) (now : Times) (s : List Char) :
    (∀ (r : Scanned) (date : Timestamp),
      scanDatetime expect now s = .ok r → string_to_datetime expect now s = .ok date →
        (Denotes expect now r date ↔ Fit expect r)) ∧
      ∀ (dtype : DateType) (value : Timestamp) (k : ℕ), dtype.Valid value →
        ∃ date, string_to_datetime dtype.expect now
            (datetime_to_text dtype false value ++ List.replicate k ' ') = .ok date ∧
          (dtype ≠ .sql_time → date.timestamp_date = value.timestamp_date) ∧
            (dtype ≠ .sql_date → date.timestamp_time = value.timestamp_time) := by
  constructor
  · intro r date hscan h
    rw [string_to_datetime, hscan] at h
    exact ⟨fun hdenotes => hdenotes.fit, denotes_of_fit hscan h⟩
  · intro dtype value k h
    exact string_to_datetime_text dtype now h k

/-- The first second of the calendar, and the hour of a time -/
theorem datetime_parsed_first :
    (∃ date, string_to_datetime .expect_timestamp ⟨⟨1, 0, 104⟩, 0, 0, 0⟩
        (datetime_to_text .timestamp false ⟨-678575, 10000⟩ ++ List.replicate 3 ' ') = .ok date ∧
      date.timestamp_date = -678575) ∧
      ∃ r, scanDatetime .expect_sql_time ⟨⟨1, 0, 104⟩, 0, 0, 0⟩ "01:02".toList = .ok r ∧
        (Denotes .expect_sql_time ⟨⟨1, 0, 104⟩, 0, 0, 0⟩ r ⟨15020, 37200000⟩ ↔
          Fit .expect_sql_time r) := by
  constructor
  · have hvalid : DateType.timestamp.Valid ⟨-678575, 10000⟩ :=
      ⟨fun _ => ⟨by decide, by decide⟩, fun _ => ⟨by decide, by decide⟩⟩
    obtain ⟨date, h, hdate, -⟩ :=
      (datetime_parsed_iff .expect_timestamp ⟨⟨1, 0, 104⟩, 0, 0, 0⟩ []).2 .timestamp
        ⟨-678575, 10000⟩ 3 hvalid
    exact ⟨date, h, hdate (by decide)⟩
  · have hrun : string_to_datetime .expect_sql_time ⟨⟨1, 0, 104⟩, 0, 0, 0⟩ "01:02".toList =
        .ok ⟨15020, 37200000⟩ := by decide
    have hparsed : (scanDatetime .expect_sql_time ⟨⟨1, 0, 104⟩, 0, 0, 0⟩
        "01:02".toList).toOption.isSome = true := by decide
    cases hscan : scanDatetime .expect_sql_time ⟨⟨1, 0, 104⟩, 0, 0, 0⟩ "01:02".toList with
    | error e =>
      rw [hscan] at hparsed
      cases hparsed
    | ok r => exact ⟨r, rfl, (datetime_parsed_iff _ _ _).1 r _ hscan hrun⟩

/-- The time "65536:00" is accepted as midnight. -/
theorem datetime_parsed_wraps :
    ∃ r date, scanDatetime .expect_sql_time ⟨⟨1, 0, 104⟩, 0, 0, 0⟩ "65536:00".toList = .ok r ∧
      string_to_datetime .expect_sql_time ⟨⟨1, 0, 104⟩, 0, 0, 0⟩ "65536:00".toList = .ok date ∧
        date.timestamp_time = 0 ∧
          ¬Denotes .expect_sql_time ⟨⟨1, 0, 104⟩, 0, 0, 0⟩ r date := by
  have hrun : string_to_datetime .expect_sql_time ⟨⟨1, 0, 104⟩, 0, 0, 0⟩ "65536:00".toList =
      .ok ⟨15020, 0⟩ := by decide
  have hgroups : (scanDatetime .expect_sql_time ⟨⟨1, 0, 104⟩, 0, 0, 0⟩
      "65536:00".toList).toOption.elim 0 (fun r => r.value 3) = 65536 := by decide
  cases hscan : scanDatetime .expect_sql_time ⟨⟨1, 0, 104⟩, 0, 0, 0⟩ "65536:00".toList with
  | error e =>
    rw [hscan] at hgroups
    have hnone : (0 : ℕ) = 65536 := hgroups
    omega
  | ok r =>
    rw [hscan] at hgroups
    have hvalue : r.value 3 = 65536 := hgroups
    refine ⟨r, _, rfl, hrun, rfl, fun h => ?_⟩
    have hhour := h.hour
    omega

end Firebird.Cvt
