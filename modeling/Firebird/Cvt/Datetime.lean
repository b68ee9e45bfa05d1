import Mathlib.Data.List.TakeWhile
import Firebird.Cvt.Numeral
import Firebird.Evl.Gregorian
import Firebird.Lib.Outcome

/-! # Dates and times from strings (`string_to_datetime` in `jrd/cvt.cpp`)

Up to seven components are read: year, month and day in any order, hours, minutes, seconds and
ten-thousandths. Numbers and the counts of their digits are kept in 16 bits. The order of the date
is guessed, and the date is validated by decoding what it is encoded to.
-/

namespace Firebird.Cvt

open Wrap Evl

/-- `EXPECT_DATETIME` -/
inductive ExpectDatetime where
  | expect_timestamp
  | expect_sql_date
  | expect_sql_time
deriving DecidableEq

/-- `GDS_TIMESTAMP` -/
structure Timestamp where
  timestamp_date : ℤ
  timestamp_time : ℤ
deriving DecidableEq

/-- `struct tm` -/
structure Times where
  date : Tm
  hour : ℤ
  min : ℤ
  sec : ℤ
deriving DecidableEq

def ISC_TIME_SECONDS_PRECISION : ℤ := 10000

def isc_encode_timestamp (times : Times) : Timestamp where
  timestamp_date := nday times.date
  timestamp_time :=
    toUInt32 (((times.hour * 60 + times.min) * 60 + times.sec) * ISC_TIME_SECONDS_PRECISION)

def isc_decode_timestamp (date : Timestamp) : Times :=
  let minutes := date.timestamp_time / (ISC_TIME_SECONDS_PRECISION * 60)
  { date := ndate date.timestamp_date
    hour := minutes / 60
    min := minutes % 60
    sec := date.timestamp_time / ISC_TIME_SECONDS_PRECISION % 60 }

inductive DatetimeError where
  /-- `conversion_error` -/
  | conversion
  /-- `isc_date_range_exceeded` -/
  | dateRangeExceeded
deriving DecidableEq

/-- What ends the loop over the components from within -/
inductive Exit where
  | error (e : DatetimeError)
  /-- A special word is recognized -/
  | special (date : Timestamp)
deriving DecidableEq

/-! ## Components -/

def months : List (List Char) :=
  ["JANUARY", "FEBRUARY", "MARCH", "APRIL", "MAY", "JUNE", "JULY", "AUGUST", "SEPTEMBER", "OCTOBER",
    "NOVEMBER", "DECEMBER"].map String.toList

/-- The first month that begins with the word -/
def findMonth (temp : List Char) : Option (Fin months.length) :=
  months.findFinIdx? (temp.isPrefixOf ·)

theorem digit_of_mem_takeWhile {p : List Char} : ∀ c ∈ p.takeWhile (DIGIT ·), DIGIT c := by
  intro c hc
  have h := List.mem_takeWhile_imp hc
  exact of_decide_eq_true h

/-- A component of the string: a group of digits, or an English month -/
inductive Group where
  | digits (ds : List Char) (h : ∀ c ∈ ds, DIGIT c)
  | month (m : Fin months.length)

/-- The number in a `USHORT` -/
def Group.n : Group → ℤ
  | .digits ds _ => ds.foldl (fun n c => (n * 10 + digit c) % 65536) 0
  | .month m => m + 1

/-- The number of digits, counted in a `USHORT` and stored in an `SSHORT`, or `ENGLISH_MONTH` -/
def Group.description : Group → ℤ
  | .digits ds _ => toInt16 (ds.foldl (fun precision _ => (precision + 1) % 65536) 0)
  | .month _ => -1

def UPPER7 (c : Char) : Char := if 'a' ≤ c ∧ c ≤ 'z' then Char.ofNat (c.toNat - 32) else c

def LETTER7 (c : Char) : Prop := 'A' ≤ c ∧ c ≤ 'Z'

instance (c : Char) : Decidable (LETTER7 c) := inferInstanceAs (Decidable (_ ∧ _))

/-- It's either a magic word or a non-date string. `p` is what follows the word. -/
def specialWord (expect : ExpectDatetime) (now : Times) (temp p : List Char) : Exit :=
  if ¬(p.drop 1).all (fun c => c = ' ' ∨ c = '\t' ∨ c = '\x00') then .error .conversion
  else if temp = "NOW".toList then .special (isc_encode_timestamp now)
  else if expect = .expect_sql_time then .error .conversion
  else
    let date := isc_encode_timestamp ⟨now.date, 0, 0, 0⟩
    if temp = "TODAY".toList then .special date
    else if temp = "TOMORROW".toList then
      .special { date with timestamp_date := date.timestamp_date + 1 }
    else if temp = "YESTERDAY".toList then
      .special { date with timestamp_date := date.timestamp_date - 1 }
    else .error .conversion

/-- The component `i`, and what follows it -/
def readGroup (expect : ExpectDatetime) (now : Times) (english : Bool) (i : ℕ) (p : List Char) :
    Except Exit (Group × List Char) :=
  match p with
  | [] => .error (.error .conversion)
  | c :: _ =>
    if DIGIT (UPPER7 c) then
      .ok (.digits (p.takeWhile (DIGIT ·)) digit_of_mem_takeWhile, p.dropWhile (DIGIT ·))
    else if LETTER7 (UPPER7 c) ∧ ¬english then
      -- the word has at most the length of `YESTERDAY` and one more
      let word := (p.takeWhile (fun c => LETTER7 (UPPER7 c))).take 10
      let temp := word.map UPPER7
      let p := p.drop word.length
      if temp.length < 3 then .error (.error .conversion)
      else
        -- month names are only allowed in first 2 positions
        match if i < 2 then findMonth temp else none with
        | some m => .ok (.month m, p)
        | none => .error (specialWord expect now temp p)
    else .error (.error .conversion)

/-- What has been parsed: the components, the index at which the loop has ended, and whether a
period is seen in either of the first two separation points -/
structure Scanned where
  groups : ℕ → Option Group
  i : ℕ
  dot_separator_seen : Bool

def skipBlanks (p : List Char) : List Char := p.dropWhile (fun c => c = ' ' ∨ c = '\t')

def Group.isMonth : Group → Bool
  | .digits _ _ => false
  | .month _ => true

/-- The loop over the components, from `i` on for `k` more -/
def scanFrom (expect : ExpectDatetime) (now : Times) :
    ℕ → ℕ → Bool → List Char → Except Exit Scanned
  | 0, i, _, _ => .ok ⟨fun _ => none, i, false⟩
  | k + 1, i, english, p =>
    let p := skipBlanks p
    if p = [] then .ok ⟨fun _ => none, i, false⟩
    else
      (readGroup expect now english i p).bind fun (g, p) =>
        match skipBlanks p with
        | [] => .ok ⟨Function.update (fun _ => none) i (some g), i, false⟩
        | c :: p =>
          -- grab a separator character
          let separator := c = '/' ∨ c = '-' ∨ c = ',' ∨ c = ':' ∨ c = '.'
          (scanFrom expect now k (i + 1) (english || g.isMonth)
            (if separator then p else c :: p)).bind fun r =>
              .ok
                { r with
                  groups := Function.update r.groups i (some g)
                  dot_separator_seen := c = '.' ∧ i ≤ 1 ∨ r.dot_separator_seen }

def ExpectDatetime.start_component : ExpectDatetime → ℕ
  | .expect_sql_time => 3
  | _ => 0

def scanDatetime (expect : ExpectDatetime) (now : Times) (string : List Char) :
    Except Exit Scanned :=
  scanFrom expect now (7 - expect.start_component) expect.start_component false string

def Scanned.components (r : Scanned) (i : ℕ) : ℤ := (r.groups i).elim 0 Group.n

def Scanned.description (r : Scanned) (i : ℕ) : ℤ := (r.groups i).elim 0 Group.description

/-! ## Dates -/

/-- The positions of year, month and day -/
structure Order where
  position_year : ℕ
  position_month : ℕ
  position_day : ℕ

/-- Figure out what format the user typed the date in. -/
def order (description : ℕ → ℤ) (dot_separator_seen : Bool) : Order :=
  if description 0 ≥ 3 then ⟨0, 1, 2⟩
  else if description 0 = -1 then ⟨2, 0, 1⟩
  else if description 1 = -1 then ⟨2, 1, 0⟩
  else if dot_separator_seen then ⟨2, 1, 0⟩
  else ⟨2, 0, 1⟩

/-- Years with more than 4 digits, months or days with more than 2 digits, and months or days being
missing are forbidden. -/
def Forbidden (description : ℕ → ℤ) (o : Order) : Prop :=
  description o.position_year > 4 ∨ description o.position_month > 2 ∨
    description o.position_month = 0 ∨ description o.position_day > 2 ∨
      description o.position_day ≤ 0

instance (description : ℕ → ℤ) (o : Order) : Decidable (Forbidden description o) :=
  inferInstanceAs (Decidable (_ ∨ _))

/-- Handle defaulting of year and conversion of 2-digit years. -/
def fullYear (now : Times) (description year : ℤ) : ℤ :=
  if description = 0 then now.date.year + 1900
  else if description ≤ 2 then
    if year < (now.date.year - 50).tmod 100 then year + 2000 else year + 1900
  else year

/-- The date portion of the components -/
def datePart (expect : ExpectDatetime) (now : Times) (r : Scanned) : Except DatetimeError Tm :=
  if expect ≠ .expect_sql_time then
    let o := order r.description r.dot_separator_seen
    if Forbidden r.description o then .error .conversion
    else
      .ok ⟨r.components o.position_day, r.components o.position_month - 1,
        fullYear now (r.description o.position_year) (r.components o.position_year) - 1900⟩
  else .ok ⟨1, 0, 0⟩

/-- The fraction of seconds, multiplied by 10 in a `USHORT` -/
def scaleFraction : ℕ → ℤ → ℤ
  | 0, components => components
  | k + 1, components => scaleFraction k (components * 10 % 65536)

/-- The value of the components -/
def encodeComponents (expect : ExpectDatetime) (now : Times) (r : Scanned) :
    Except DatetimeError Timestamp :=
  -- user must provide at least 2 components
  if (r.i : ℤ) - expect.start_component < 1 then .error .conversion
  -- dates cannot have a time portion
  else if expect = .expect_sql_date ∧ r.i > 2 then .error .conversion
  else
    (datePart expect now r).bind fun date =>
      let times : Times := ⟨date, r.components 3, r.components 4, r.components 5⟩
      if times.hour > 23 ∨ times.min > 59 ∨ times.sec > 59 ∨ r.description 6 > 4 then
        .error .conversion
      else
        let date := isc_encode_timestamp times
        if expect ≠ .expect_sql_time ∧ times.date.OutOfYears then .error .dateRangeExceeded
        else if expect ≠ .expect_sql_time ∧ isc_decode_timestamp date ≠ times then
          .error .conversion
        else
          .ok { date with
            timestamp_time := toUInt32 (date.timestamp_time +
              scaleFraction (4 - r.description 6).toNat (r.components 6)) }

/-- Convert an arbitrary string to a date and/or time. `now` is the current time. -/
def string_to_datetime (expect : ExpectDatetime) (now : Times) (string : List Char) :
    Except DatetimeError Timestamp :=
  match scanDatetime expect now string with
  | .ok r => encodeComponents expect now r
  | .error (.special date) => .ok date
  | .error (.error e) => .error e

example : string_to_datetime .expect_timestamp ⟨⟨1, 0, 104⟩, 0, 0, 0⟩ "17 nov 1858 1:2".toList =
    .ok ⟨0, 37200000⟩ := by decide

example : string_to_datetime .expect_sql_date ⟨⟨1, 0, 104⟩, 0, 0, 0⟩ "29.2.3".toList =
    .error .conversion := by decide

/-! ## What the components stand for -/

/-- The number of a component -/
def Group.value : Group → ℕ
  | .digits ds _ => number ds
  | .month m => m + 1

/-- The number of digits of a component, where an English month has -1 -/
def Group.count : Group → ℤ
  | .digits ds _ => ds.length
  | .month _ => -1

def Scanned.value (r : Scanned) (i : ℕ) : ℕ := (r.groups i).elim 0 Group.value

def Scanned.count (r : Scanned) (i : ℕ) : ℤ := (r.groups i).elim 0 Group.count

/-- The components stand for the date and time. The order of the date and the century of the year
are those that the numbers of digits ask for. -/
structure Denotes (expect : ExpectDatetime) (now : Times) (r : Scanned) (date : Timestamp) :
    Prop where
  hour : r.value 3 ≤ 23
  min : r.value 4 ≤ 59
  sec : r.value 5 ≤ 59
  fraction : r.count 6 ≤ 4
  time : date.timestamp_time = ((r.value 3 * 60 + r.value 4) * 60 + r.value 5 : ℤ) * 10000 +
    r.value 6 * 10 ^ (4 - r.count 6).toNat
  date : expect ≠ .expect_sql_time → ∀ o, o = order r.count r.dot_separator_seen →
    ¬Forbidden r.count o ∧ ∃ d : CivilDate,
      d.year = fullYear now (r.count o.position_year) (r.value o.position_year) ∧
        d.month = r.value o.position_month ∧ d.day = r.value o.position_day ∧
          date.timestamp_date = d.dayNumber

/-- Hours, minutes and seconds fit a `USHORT`, and the numbers of digits of the other components an
`SSHORT`. -/
structure Fit (expect : ExpectDatetime) (r : Scanned) : Prop where
  time : ∀ i, 3 ≤ i → i < 6 → r.value i < 65536
  fraction : r.count 6 < 32768
  date : expect ≠ .expect_sql_time → ∀ i < 3, r.count i < 32768

theorem Group.n_eq (g : Group) : g.n = g.value % 65536 := by
  cases g with
  | digits ds h =>
    unfold Group.n Group.value
    dsimp only
    clear h
    induction ds using List.reverseRecOn with
    | nil => rfl
    | append_singleton ds c ih =>
      rw [List.foldl_append, List.foldl_cons, List.foldl_nil, ih, number_snoc]
      push_cast
      omega
  | month m =>
    have hlt : m.val < 12 := m.isLt
    unfold Group.n Group.value
    push_cast
    omega

theorem Group.description_eq (g : Group) : g.description = toInt16 g.count := by
  cases g with
  | digits ds h =>
    have hcount : ds.foldl (fun (precision : ℤ) _ => (precision + 1) % 65536) 0 =
        (ds.length : ℤ) % 65536 := by
      clear h
      induction ds using List.reverseRecOn with
      | nil => rfl
      | append_singleton ds c ih =>
        rw [List.foldl_append, List.foldl_cons, List.foldl_nil, ih, List.length_append,
          List.length_singleton]
        push_cast
        omega
    unfold Group.description Group.count
    dsimp only
    rw [hcount, toInt16_eq, toInt16_eq]
    omega
  | month m => rfl

theorem number_lt {ds : List Char} (h : ∀ c ∈ ds, DIGIT c) : number ds < 10 ^ ds.length := by
  have hlt := Nat.ofDigits_lt_base_pow_length (b := 10) (l := (ds.map digit).reverse) (by omega)
  rw [List.length_reverse, List.length_map] at hlt
  apply hlt
  intro d hd
  obtain ⟨c, hc, rfl⟩ := List.mem_map.mp (List.mem_reverse.mp hd)
  exact (h c hc).toNat.2

section

variable {expect : ExpectDatetime} {now : Times} {r : Scanned}

theorem components_eq (r : Scanned) (i : ℕ) : r.components i = r.value i % 65536 := by
  unfold Scanned.components Scanned.value
  cases r.groups i with
  | none => rfl
  | some g => exact g.n_eq

theorem description_eq (r : Scanned) (i : ℕ) : r.description i = toInt16 (r.count i) := by
  unfold Scanned.description Scanned.count
  cases r.groups i with
  | none => rfl
  | some g => exact g.description_eq

theorem neg_one_le_count (r : Scanned) (i : ℕ) : -1 ≤ r.count i := by
  unfold Scanned.count
  cases r.groups i with
  | none => exact Int.neg_nonpos_of_nonneg Int.one_nonneg
  | some g =>
    cases g with
    | digits ds h => exact (Int.neg_nonpos_of_nonneg Int.one_nonneg).trans (Int.natCast_nonneg _)
    | month m => exact le_rfl

/-- A component of few digits is a small number. -/
theorem value_lt {k : ℕ} {i : ℕ} (hk : 2 ≤ k) (h : r.count i ≤ k) : r.value i < 10 ^ k := by
  have hpos : 10 ^ 2 ≤ 10 ^ k := Nat.pow_le_pow_right (by omega) hk
  unfold Scanned.count at h
  unfold Scanned.value
  cases hg : r.groups i with
  | none => exact Nat.lt_of_lt_of_le (by decide) hpos
  | some g =>
    rw [hg] at h
    cases g with
    | digits ds hds =>
      have hlen : (ds.length : ℤ) ≤ k := h
      exact (number_lt hds).trans_le (Nat.pow_le_pow_right (by omega) (by omega))
    | month m =>
      have hlt : m.val < 12 := m.isLt
      change m.val + 1 < 10 ^ k
      omega

/-- What the loop does with one component -/
theorem scanFrom_cases {k i : ℕ} {english : Bool} {p : List Char}
    (h : scanFrom expect now (k + 1) i english p = .ok r) :
    r.groups = (fun _ => none) ∨
      ∃ g q, readGroup expect now english i (skipBlanks p) = .ok (g, q) ∧
        (r.groups = Function.update (fun _ => none) i (some g) ∨
          ∃ english' p' r', scanFrom expect now k (i + 1) english' p' = .ok r' ∧
            r.groups = Function.update r'.groups i (some g)) := by
  rw [scanFrom] at h
  dsimp only at h
  by_cases hp : skipBlanks p = []
  · rw [if_pos hp] at h
    left
    rw [← Except.ok.inj h]
  · rw [if_neg hp] at h
    right
    obtain ⟨⟨g, q⟩, hread, h⟩ := Outcome.of_bind_eq_ok h
    refine ⟨g, q, hread, ?_⟩
    dsimp only at h
    split at h
    · left
      rw [← Except.ok.inj h]
    · right
      obtain ⟨r', hrest, h⟩ := Outcome.of_bind_eq_ok h
      refine ⟨_, _, r', hrest, ?_⟩
      rw [← Except.ok.inj h]

theorem lt_two_of_readGroup {english : Bool} {i : ℕ} {p q : List Char} {m : Fin months.length}
    (h : readGroup expect now english i p = .ok (.month m, q)) : i < 2 := by
  by_contra hi
  unfold readGroup at h
  split at h
  · cases h
  · split at h
    · cases h
    · split at h
      · dsimp only at h
        split at h <;> cases h
      · cases h

/-- English months are only read in the first two positions. -/
theorem lt_two_of_month {k i : ℕ} {english : Bool} {p : List Char}
    (h : scanFrom expect now k i english p = .ok r) {j : ℕ} {m : Fin months.length}
    (hj : r.groups j = some (.month m)) : j < 2 := by
  induction k generalizing i english p r with
  | zero =>
    obtain rfl := Except.ok.inj h
    cases hj
  | succ k ih =>
    rcases scanFrom_cases h with hr | ⟨g, q, hread, hr⟩
    · rw [hr] at hj
      cases hj
    · -- the component `i` is the one that is read, the others come from the rest of the loop
      have hupdate : ∀ {f : ℕ → Option Group}, Function.update f i (some g) j = some (.month m) →
          f j = some (.month m) ∨ j < 2 := by
        intro f hf
        by_cases hji : j = i
        · subst hji
          rw [Function.update_self] at hf
          obtain rfl := Option.some.inj hf
          exact .inr (lt_two_of_readGroup hread)
        · rw [Function.update_of_ne hji] at hf
          exact .inl hf
      rcases hr with hr | ⟨english', p', r', hrest, hr⟩
      · rw [hr] at hj
        rcases hupdate hj with hj | hj
        · cases hj
        · exact hj
      · rw [hr] at hj
        rcases hupdate hj with hj | hj
        · exact ih hrest hj
        · exact hj

/-! ## Soundness -/

theorem scaleFraction_eq {k : ℕ} {c : ℤ} (hc : 0 ≤ c) (h : c * 10 ^ k < 65536) :
    scaleFraction k c = c * 10 ^ k := by
  induction k generalizing c with
  | zero => exact (Int.mul_one c).symm
  | succ k ih =>
    have hpos : (1 : ℤ) ≤ 10 ^ k := one_le_pow₀ (by omega)
    have hmul : c * 10 ^ (k + 1) = c * 10 * 10 ^ k := by rw [pow_succ', Int.mul_assoc]
    rw [hmul] at h ⊢
    have hlt : c * 10 < 65536 := lt_of_le_of_lt (le_mul_of_one_le_right (by omega) hpos) h
    rw [scaleFraction, Int.emod_eq_of_lt (by omega) hlt, ih (by omega) h]

/-- The positions of the date are the first three. -/
theorem order_lt (description : ℕ → ℤ) (dot : Bool) :
    (order description dot).position_year < 3 ∧ (order description dot).position_month < 3 ∧
      (order description dot).position_day < 3 := by
  unfold order
  split_ifs <;> decide

/-- Each of the first three components has its position. -/
theorem order_cases (description : ℕ → ℤ) (dot : Bool) {i : ℕ} (hi : i < 3) :
    i = (order description dot).position_year ∨ i = (order description dot).position_month ∨
      i = (order description dot).position_day := by
  unfold order
  split_ifs <;> dsimp only <;> omega

theorem order_congr {f g : ℕ → ℤ} (h : ∀ i < 3, f i = g i) (dot : Bool) : order f dot = order g dot := by
  unfold order
  rw [h 0 (by omega), h 1 (by omega)]

/-- What `encodeComponents` checks and returns -/
theorem encodeComponents_ok_iff (expect : ExpectDatetime) (now : Times) (r : Scanned)
    (date : Timestamp) :
    encodeComponents expect now r = .ok date ↔
      (expect.start_component < r.i ∧ ¬(expect = .expect_sql_date ∧ r.i > 2)) ∧
      (r.components 3 ≤ 23 ∧ r.components 4 ≤ 59 ∧ r.components 5 ≤ 59 ∧ r.description 6 ≤ 4) ∧
      ∃ tm, datePart expect now r = .ok tm ∧
        (expect ≠ .expect_sql_time → ¬tm.OutOfYears ∧
          isc_decode_timestamp (isc_encode_timestamp
            ⟨tm, r.components 3, r.components 4, r.components 5⟩) =
              ⟨tm, r.components 3, r.components 4, r.components 5⟩) ∧
        date = ⟨nday tm, toUInt32 (toUInt32 (((r.components 3 * 60 + r.components 4) * 60 +
          r.components 5) * 10000) + scaleFraction (4 - r.description 6).toNat (r.components 6))⟩ := by
  unfold encodeComponents
  constructor
  · intro h
    split at h
    · cases h
    · split at h
      · cases h
      · rename_i hi hlong
        obtain ⟨tm, hdate, h⟩ := Outcome.of_bind_eq_ok h
        dsimp only at h
        split at h
        · cases h
        · rename_i hrange
          split at h
          · cases h
          · rename_i hyears
            split at h
            · cases h
            · rename_i hsame
              refine ⟨⟨by omega, hlong⟩, ⟨by omega, by omega, by omega, by omega⟩, tm, hdate, ?_,
                (Except.ok.inj h).symm⟩
              intro hexpect
              exact ⟨fun hout => hyears ⟨hexpect, hout⟩,
                by_contra fun hne => hsame ⟨hexpect, hne⟩⟩
  · rintro ⟨⟨hi, hlong⟩, ⟨hhour, hmin, hsec, hfraction⟩, tm, hdate, hvalid, rfl⟩
    rw [if_neg (by omega), if_neg hlong, hdate, Outcome.ok_bind]
    dsimp only
    rw [if_neg (by omega), if_neg (fun h => (hvalid h.1).1 h.2),
      if_neg (fun h => h.2 (hvalid h.1).2)]
    rfl

theorem description_eq_count {i : ℕ} (h : r.count i < 32768) : r.description i = r.count i := by
  have hle := neg_one_le_count r i
  rw [description_eq, toInt16_of_lt (by omega) (by omega)]

theorem components_eq_value {i : ℕ} (h : r.value i < 65536) : r.components i = r.value i := by
  rw [components_eq]
  omega

/-- The fraction of seconds has as many digits as its component, and is not a month. -/
theorem fraction_lt {s : List Char} (hscan : scanDatetime expect now s = .ok r) :
    0 ≤ r.count 6 ∧ r.value 6 < 10 ^ (r.count 6).toNat := by
  unfold Scanned.count Scanned.value
  cases hg : r.groups 6 with
  | none => exact ⟨le_rfl, Nat.one_pos⟩
  | some g =>
    cases g with
    | digits ds hds => exact ⟨Int.natCast_nonneg _, number_lt hds⟩
    | month m => exact absurd (lt_two_of_month hscan hg) (by omega)

/-- The date of the components, where their numbers of digits are counted correctly -/
theorem datePart_ok {tm : Tm} (hexpect : expect ≠ .expect_sql_time)
    (hfit : ∀ i < 3, r.count i < 32768) (h : datePart expect now r = .ok tm) {o : Order}
    (ho : o = order r.count r.dot_separator_seen) :
    ¬Forbidden r.count o ∧ tm = ⟨r.value o.position_day, r.value o.position_month - 1,
      fullYear now (r.count o.position_year) (r.value o.position_year) - 1900⟩ := by
  have hcount : ∀ i < 3, r.description i = r.count i := fun i hi => description_eq_count (hfit i hi)
  obtain ⟨hy, hm, hd⟩ := order_lt r.count r.dot_separator_seen
  rw [← ho] at hy hm hd
  unfold datePart at h
  rw [if_pos hexpect, order_congr hcount, ← ho] at h
  dsimp only at h
  have hsame : Forbidden r.description o ↔ Forbidden r.count o := by
    unfold Forbidden
    rw [hcount _ hy, hcount _ hm, hcount _ hd]
  by_cases hallowed : Forbidden r.count o
  · rw [if_pos (hsame.mpr hallowed)] at h
    cases h
  · rw [if_neg (mt hsame.mp hallowed)] at h
    have hvalue : ∀ {i k : ℕ}, 2 ≤ k → k ≤ 4 → r.count i ≤ k → r.components i = r.value i := by
      intro i k hk hk' hi
      have hlt := value_lt hk hi
      have hpow : 10 ^ k ≤ 10 ^ 4 := Nat.pow_le_pow_right (by omega) hk'
      exact components_eq_value (by omega)
    refine ⟨hallowed, ?_⟩
    unfold Forbidden at hallowed
    rw [← Except.ok.inj h, hcount _ hy, hvalue (k := 2) le_rfl (by omega) (by omega),
      hvalue (k := 2) le_rfl (by omega) (by omega), hvalue (k := 4) (by omega) le_rfl (by omega)]

theorem denotes_of_fit {date : Timestamp} {s : List Char}
    (hscan : scanDatetime expect now s = .ok r) (h : encodeComponents expect now r = .ok date)
    (hfit : Fit expect r) : Denotes expect now r date := by
  obtain ⟨-, ⟨hhour, hmin, hsec, hfraction⟩, tm, hdate, hvalid, rfl⟩ :=
    (encodeComponents_ok_iff expect now r date).mp h
  rw [components_eq_value (hfit.time 3 (by omega) (by omega))] at hhour
  rw [components_eq_value (hfit.time 4 (by omega) (by omega))] at hmin
  rw [components_eq_value (hfit.time 5 (by omega) (by omega))] at hsec
  rw [description_eq_count hfit.fraction] at hfraction
  refine ⟨by omega, by omega, by omega, hfraction, ?_, ?_⟩
  · -- the fraction of seconds is less than a second
    obtain ⟨hnonneg, hlt⟩ := fraction_lt hscan
    have hsmall : r.value 6 * 10 ^ (4 - r.count 6).toNat < 10000 := by
      have hmul := Nat.mul_lt_mul_of_pos_right hlt (Nat.pow_pos (n := (4 - r.count 6).toNat)
        (show 0 < 10 by omega))
      rw [← pow_add] at hmul
      have hsum : (r.count 6).toNat + (4 - r.count 6).toNat = 4 := by omega
      rw [hsum] at hmul
      exact hmul
    have hsmall' : (r.value 6 : ℤ) * 10 ^ (4 - r.count 6).toNat < 10000 := by exact_mod_cast hsmall
    have hvalue : r.components 6 = r.value 6 := by
      have hlt' := value_lt (k := 4) (by omega) hfraction
      exact components_eq_value (by omega)
    have hpos : (0 : ℤ) ≤ r.value 6 * 10 ^ (4 - r.count 6).toNat := by positivity
    dsimp only
    rw [components_eq_value (hfit.time 3 (by omega) (by omega)),
      components_eq_value (hfit.time 4 (by omega) (by omega)),
      components_eq_value (hfit.time 5 (by omega) (by omega)), description_eq_count hfit.fraction,
      hvalue, scaleFraction_eq (Int.natCast_nonneg _) (by omega)]
    unfold toUInt32
    omega
  · intro hexpect o ho
    obtain ⟨hallowed, htm⟩ := datePart_ok hexpect (hfit.date hexpect) hdate ho
    obtain ⟨hyears, hdecode⟩ := hvalid hexpect
    have hsame : ndate (nday tm) = tm := congrArg Times.date hdecode
    rw [← hsame] at hyears
    obtain ⟨d, hd⟩ := exists_ndate hyears
    rw [hsame] at hd
    refine ⟨hallowed, d, ?_⟩
    rw [hd] at htm
    obtain ⟨hday, hmonth, hyear⟩ := (Tm.mk.injEq ..).mp htm
    refine ⟨by omega, by omega, by omega, ?_⟩
    dsimp only
    rw [hd, nday_tm]

theorem Denotes.fit {date : Timestamp} (h : Denotes expect now r date) : Fit expect r := by
  constructor
  · intro i h3 h6
    have := h.hour
    have := h.min
    have := h.sec
    interval_cases i <;> omega
  · have := h.fraction
    omega
  · intro hexpect i hi
    obtain ⟨hallowed, -⟩ := h.date hexpect _ rfl
    unfold Forbidden at hallowed
    rcases order_cases r.count r.dot_separator_seen hi with hpos | hpos | hpos
    · rw [hpos]
      omega
    · rw [hpos]
      omega
    · rw [hpos]
      omega

end

end Firebird.Cvt
