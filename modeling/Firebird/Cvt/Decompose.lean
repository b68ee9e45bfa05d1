import Firebird.Lib.Outcome
import Firebird.Lib.Wrap
import Firebird.Cvt.Numeral

/-! # Numeric strings (`decompose` in `jrd/cvt.cpp`)

`decompose` reads a string in one pass. The mantissa is accumulated without its sign in 64 bits,
with a test for overflow before each digit.
-/

namespace Firebird.Cvt

open Wrap

/-- The errors of a conversion -/
inductive CvtError where
  /-- `gds_arith_except` -/
  | arithExcept
  /-- `conversion_error` -/
  | conversion
deriving DecidableEq

/-- The types that a string is decomposed for -/
inductive Dtype where
  | long
  | int64
deriving DecidableEq

def Dtype.lowerLimit : Dtype → ℤ
  | .long => -2147483648
  | .int64 => -9223372036854775808

def Dtype.upperLimit : Dtype → ℤ
  | .long => 2147483647
  | .int64 => 9223372036854775807

/-- Used to check for overflow -/
def Dtype.limitBy10 (dtype : Dtype) : ℤ := dtype.upperLimit.tdiv 10

/-- The conversion to the type of the returned value -/
def Dtype.convert : Dtype → ℤ → ℤ
  | .long => toInt32
  | .int64 => id

def SHORT_LIMIT : ℤ := 2 ^ 14 / 5

/-- The variables of the loop over the mantissa -/
structure Scan where
  value : ℤ
  digitSeen : Bool
  scale : ℤ
  fraction : Bool
  sign : ℤ

/-- The test for an overflow, and the next value -/
def addDigit (dtype : Dtype) (sign value : ℤ) (c : Char) : Except CvtError ℤ :=
  if value ≥ dtype.limitBy10 ∧
      (value > dtype.limitBy10 ∨ c > '8' ∧ sign = -1 ∨ c > '7' ∧ sign ≠ -1) then
    .error .arithExcept
  else .ok (toInt64 (value * 10 + digit c))

/-- One turn of the loop over the mantissa -/
def scanChar (dtype : Dtype) (m : Scan) (c : Char) : Except CvtError Scan :=
  if c = ',' then .ok m
  else if DIGIT c then
    (addDigit dtype m.sign m.value c).bind fun value =>
      .ok { m with
        digitSeen := true
        value := value
        scale := if m.fraction then toInt16 (m.scale - 1) else m.scale }
  else if c = '.' then
    if m.fraction then .error .conversion else .ok { m with fraction := true }
  else if c = '-' ∧ ¬m.digitSeen ∧ m.sign = 0 ∧ ¬m.fraction then .ok { m with sign := -1 }
  else if c = '+' ∧ ¬m.digitSeen ∧ m.sign = 0 ∧ ¬m.fraction then .ok { m with sign := 1 }
  else if c ≠ ' ' then .error .conversion
  else .ok m

/-- The loop over the mantissa, and what is left at the letter of an exponent -/
def scan (dtype : Dtype) : List Char → Scan → Except CvtError (Scan × List Char)
  | [], m => .ok (m, [])
  | c :: p, m =>
    if isE c then .ok (m, c :: p)
    else (scanChar dtype m c).bind fun m => scan dtype p m

/-- The variables of the loop over the exponent -/
structure ExpScan where
  digitSeen : Bool
  sign : ℤ
  exp : ℤ

/-- One turn of the loop over the exponent -/
def scanExpChar (e : ExpScan) (c : Char) : Except CvtError ExpScan :=
  if DIGIT c then
    let exp := toInt16 (e.exp * 10 + digit c)
    if exp ≥ SHORT_LIMIT then .error .arithExcept else .ok { e with digitSeen := true, exp := exp }
  else if c = '-' ∧ ¬e.digitSeen ∧ e.sign = 0 then .ok { e with sign := -1 }
  else if c = '+' ∧ ¬e.digitSeen ∧ e.sign = 0 then .ok { e with sign := 1 }
  else if c ≠ ' ' then .error .conversion
  else .ok e

/-- Decompose a numeric string in mantissa and exponent. -/
def decompose (string : List Char) (dtype : Dtype) : Except CvtError (ℤ × ℤ) :=
  (scan dtype string ⟨0, false, 0, false, 0⟩).bind fun (m, p) =>
    if ¬m.digitSeen then .error .conversion
    else
      let value :=
        if m.sign = -1 ∧ m.value ≠ dtype.lowerLimit then toInt64 (-m.value) else m.value
      match p with
      | [] => .ok (dtype.convert value, m.scale)
      | _ :: p =>
        (p.foldlM scanExpChar ⟨false, 0, 0⟩).bind fun e =>
          let scale := toInt16 (if e.sign = -1 then m.scale - e.exp else m.scale + e.exp)
          if ¬e.digitSeen then .error .conversion else .ok (dtype.convert value, scale)

/-! ## The conversions -/

def LONG_LIMIT : ℤ := 2 ^ 30 / 5

def INT64_LIMIT : ℤ := 2 ^ 62 / 5

/-- The loop that divides by a power of ten -/
def divideDown : ℕ → ℤ → ℤ
  | 0, value => value
  | n + 1, value => divideDown n (value.tdiv 10)

/-- The loop that multiplies by a power of ten within a limit -/
def multiplyUp (limit : ℤ) : ℕ → ℤ → Except CvtError ℤ
  | 0, value => .ok value
  | n + 1, value =>
    if value > limit ∨ value < -limit then .error .arithExcept
    else multiplyUp limit n (value * 10)

/-- The adjustment for scale of a value that comes from a string -/
def adjust (limit value scale : ℤ) : Except CvtError ℤ :=
  if scale > 0 then .ok (divideDown scale.toNat value)
  else multiplyUp limit (-scale).toNat value

/-- `CVT_get_long` of a string -/
def CVT_get_long (string : List Char) (scale : ℤ) : Except CvtError ℤ :=
  (decompose string .long).bind fun (value, d) => adjust LONG_LIMIT value (toInt16 (scale - d))

/-- `CVT_get_int64` of a string -/
def CVT_get_int64 (string : List Char) (scale : ℤ) : Except CvtError ℤ :=
  (decompose string .int64).bind fun (value, d) => adjust INT64_LIMIT value (toInt16 (scale - d))

/-! ## The loop over the mantissa -/

section

variable {dtype : Dtype}

/-- The loop up to the letter of an exponent -/
theorem scan_eq (s : List Char) (m : Scan) :
    scan dtype s m =
      ((s.takeWhile (!isE ·)).foldlM (scanChar dtype) m).bind fun m =>
        .ok (m, s.dropWhile (!isE ·)) := by
  induction s generalizing m with
  | nil => rfl
  | cons c s ih =>
    rw [scan]
    by_cases h : isE c = true
    · have hn : ¬(!isE c) = true := by rw [h]; decide
      rw [if_pos h, List.takeWhile_cons_of_neg (p := (!isE ·)) hn,
        List.dropWhile_cons_of_neg (p := (!isE ·)) hn]
      rfl
    · have hn : (!isE c) = true := by rw [Bool.not_eq_true] at h; rw [h]; rfl
      rw [if_neg h, List.takeWhile_cons_of_pos (p := (!isE ·)) hn,
        List.dropWhile_cons_of_pos (p := (!isE ·)) hn, List.foldlM_cons]
      cases scanChar dtype m c with
      | error e => rfl
      | ok m => exact ih m

/-- Blanks and commas are skipped. -/
theorem foldlM_filter (t : List Char) (m : Scan) :
    t.foldlM (scanChar dtype) m =
      (t.filter fun c => c ≠ ' ' ∧ c ≠ ',').foldlM (scanChar dtype) m := by
  apply Outcome.foldlM_filter
  intro m c hskip
  rw [decide_eq_false_iff_not, Classical.not_and_iff_not_or_not, not_not, not_not] at hskip
  rcases hskip with rfl | rfl
  · rfl
  · rfl

/-! ### Digits -/

/-- The values that digits are accumulated to -/
def accumulate (dtype : Dtype) (sign : ℤ) (ds : List Char) (value : ℤ) : Except CvtError ℤ :=
  ds.foldlM (addDigit dtype sign) value

/-- The state after digits with the value `v` -/
def Scan.after (m : Scan) (ds : List Char) (v : ℤ) : Scan :=
  { m with
    digitSeen := m.digitSeen || !ds.isEmpty
    value := v
    scale := if m.fraction then toInt16 (m.scale - ds.length) else m.scale }

theorem Scan.after_nil {m : Scan} (hscale : toInt16 m.scale = m.scale) :
    m.after [] m.value = m := by
  obtain ⟨value, digitSeen, scale, fraction, sign⟩ := m
  cases fraction
  · simp [Scan.after]
  · simpa [Scan.after] using hscale

theorem Scan.after_cons (m : Scan) (d : Char) (ds : List Char) (v w : ℤ) :
    (m.after [d] v).after ds w = m.after (d :: ds) w := by
  obtain ⟨value, digitSeen, scale, fraction, sign⟩ := m
  have hscale :
      toInt16 (toInt16 (scale - 1) - ds.length) = toInt16 (scale - (ds.length + 1 : ℕ)) := by
    rw [toInt16_eq, toInt16_eq, toInt16_eq]
    push_cast
    omega
  cases fraction
  · simp [Scan.after]
  · simpa [Scan.after] using hscale

theorem toInt16_toInt16 (x : ℤ) : toInt16 (toInt16 x) = toInt16 x := by
  rw [toInt16_eq, toInt16_eq]
  omega

theorem Scan.after_scale {m : Scan} (hscale : toInt16 m.scale = m.scale) (ds : List Char) (v : ℤ) :
    toInt16 (m.after ds v).scale = (m.after ds v).scale := by
  obtain ⟨value, digitSeen, scale, fraction, sign⟩ := m
  cases fraction
  · exact hscale
  · exact toInt16_toInt16 _

theorem scanChar_digit {c : Char} (hc : DIGIT c) (m : Scan) :
    scanChar dtype m c = (addDigit dtype m.sign m.value c).bind fun v => .ok (m.after [c] v) := by
  rw [scanChar, if_neg (hc.ne (by decide)), if_pos hc]
  simp [Scan.after]

theorem foldlM_digits {ds : List Char} (hds : ∀ d ∈ ds, DIGIT d) {m : Scan}
    (hscale : toInt16 m.scale = m.scale) :
    ds.foldlM (scanChar dtype) m =
      (accumulate dtype m.sign ds m.value).bind fun v => .ok (m.after ds v) := by
  induction ds generalizing m with
  | nil =>
    change Except.ok m = Except.ok (m.after [] m.value)
    rw [Scan.after_nil hscale]
  | cons d ds ih =>
    rw [List.foldlM_cons, scanChar_digit (hds d List.mem_cons_self), accumulate, List.foldlM_cons]
    cases addDigit dtype m.sign m.value d with
    | error e => rfl
    | ok v =>
      change ds.foldlM (scanChar dtype) (m.after [d] v) = (accumulate dtype m.sign ds v).bind _
      rw [ih (fun c hc => hds c (List.mem_cons_of_mem d hc)) (Scan.after_scale hscale [d] v)]
      simp only [Scan.after_cons]
      rfl

/-! ### The parts of a mantissa -/

/-- A sign is no longer possible. -/
def Scan.Begun (m : Scan) : Prop := m.digitSeen = true ∨ m.sign ≠ 0 ∨ m.fraction = true

/-- What is read of a string without blanks and commas, but for a sign -/
theorem scanChar_begun {m m' : Scan} {c : Char} (hm : m.Begun ∨ c ≠ '-' ∧ c ≠ '+')
    (hskip : c ≠ ' ' ∧ c ≠ ',') (h : scanChar dtype m c = .ok m') :
    DIGIT c ∨ (c = '.' ∧ m.fraction = false ∧ m' = { m with fraction := true }) := by
  by_cases hd : DIGIT c
  · exact .inl hd
  · -- the tests for a sign fail, so that only the point is left
    right
    have hminus : ¬(c = '-' ∧ ¬m.digitSeen ∧ m.sign = 0 ∧ ¬m.fraction) := by
      rintro ⟨hc, h1, h2, h3⟩
      rcases hm with (h | h | h) | h
      · exact h1 h
      · exact h h2
      · exact h3 h
      · exact h.1 hc
    have hplus : ¬(c = '+' ∧ ¬m.digitSeen ∧ m.sign = 0 ∧ ¬m.fraction) := by
      rintro ⟨hc, h1, h2, h3⟩
      rcases hm with (h | h | h) | h
      · exact h1 h
      · exact h h2
      · exact h3 h
      · exact h.2 hc
    rw [scanChar, if_neg hskip.2, if_neg hd] at h
    by_cases hdot : c = '.'
    · rw [if_pos hdot] at h
      by_cases hf : m.fraction = true
      · rw [if_pos hf] at h
        cases h
      · rw [if_neg hf] at h
        exact ⟨hdot, by simpa using hf, (Except.ok.inj h).symm⟩
    · rw [if_neg hdot, if_neg hminus, if_neg hplus, if_pos hskip.1] at h
      cases h

/-- A digit does not change what may follow. -/
theorem scanChar_digit_begun {c : Char} (hc : DIGIT c) {m m1 : Scan}
    (h : scanChar dtype m c = .ok m1) : m1.Begun ∧ m1.fraction = m.fraction := by
  rw [scanChar_digit hc] at h
  obtain ⟨v, -, hv⟩ := Outcome.of_bind_eq_ok h
  obtain rfl := Except.ok.inj hv
  exact ⟨.inl (Bool.or_true _), rfl⟩

/-- Behind the point there are digits only. -/
theorem digits_of_fraction {u : List Char} (hu : ∀ c ∈ u, c ≠ ' ' ∧ c ≠ ',') {m m' : Scan}
    (hm : m.fraction = true) (h : u.foldlM (scanChar dtype) m = .ok m') : ∀ c ∈ u, DIGIT c := by
  induction u generalizing m with
  | nil => exact List.forall_mem_nil _
  | cons c u ih =>
    obtain ⟨m1, h1, hrest⟩ := Outcome.of_foldlM_cons h
    obtain ⟨hskip, hskips⟩ := List.forall_mem_cons.mp hu
    rcases scanChar_begun (.inl (.inr (.inr hm))) hskip h1 with hc | ⟨-, hf, -⟩
    · have hfraction := (scanChar_digit_begun hc h1).2.trans hm
      exact List.forall_mem_cons.mpr ⟨hc, ih hskips hfraction hrest⟩
    · rw [hm] at hf
      cases hf

/-- Behind the sign there are digits with at most one point. -/
theorem pointed_of_ok {u : List Char} (hu : ∀ c ∈ u, c ≠ ' ' ∧ c ≠ ',') {m m' : Scan}
    (hm : m.Begun ∨ NoSign u) (hfraction : m.fraction = false)
    (h : u.foldlM (scanChar dtype) m = .ok m') :
    ∃ ds f, Pointed u ds f ∧ ∀ d ∈ ds, DIGIT d := by
  induction u generalizing m with
  | nil => exact ⟨[], 0, .whole [], List.forall_mem_nil _⟩
  | cons c u ih =>
    obtain ⟨m1, h1, hrest⟩ := Outcome.of_foldlM_cons h
    obtain ⟨hskip, hskips⟩ := List.forall_mem_cons.mp hu
    have hm' : m.Begun ∨ c ≠ '-' ∧ c ≠ '+' :=
      hm.imp_right fun hsign =>
        ⟨fun hc => hsign.2 (congrArg some hc), fun hc => hsign.1 (congrArg some hc)⟩
    rcases scanChar_begun hm' hskip h1 with hc | ⟨rfl, -, rfl⟩
    · obtain ⟨hm1, hf1⟩ := scanChar_digit_begun hc h1
      obtain ⟨ds, f, htext, hds⟩ := ih hskips (.inl hm1) (hf1.trans hfraction) hrest
      refine ⟨c :: ds, f, ?_, List.forall_mem_cons.mpr ⟨hc, hds⟩⟩
      cases htext with
      | whole => exact .whole (c :: u)
      | point p q => exact .point (c :: p) q
    · exact ⟨u, u.length, .point [] u, digits_of_fraction hskips rfl hrest⟩

/-- What is read from the start -/
theorem mantissa_of_ok {u : List Char} (hu : ∀ c ∈ u, c ≠ ' ' ∧ c ≠ ',') {m' : Scan}
    (h : u.foldlM (scanChar dtype) ⟨0, false, 0, false, 0⟩ = .ok m') :
    ∃ sg text neg ds f, u = sg ++ text ∧ Signed sg neg ∧ Pointed text ds f ∧
      ∀ d ∈ ds, DIGIT d := by
  rcases sign_cases u with ⟨u, rfl⟩ | ⟨u, rfl⟩ | hsign
  · have hbegun : Scan.Begun ⟨0, false, 0, false, -1⟩ := .inr (.inl (by decide))
    obtain ⟨ds, f, htext, hds⟩ :=
      pointed_of_ok (List.forall_mem_cons.mp hu).2 (.inl hbegun) rfl h
    exact ⟨['-'], u, true, ds, f, rfl, .minus, htext, hds⟩
  · have hbegun : Scan.Begun ⟨0, false, 0, false, 1⟩ := .inr (.inl (by decide))
    obtain ⟨ds, f, htext, hds⟩ :=
      pointed_of_ok (List.forall_mem_cons.mp hu).2 (.inl hbegun) rfl h
    exact ⟨['+'], u, false, ds, f, rfl, .plus, htext, hds⟩
  · obtain ⟨ds, f, htext, hds⟩ := pointed_of_ok hu (.inr hsign) rfl h
    exact ⟨[], u, false, ds, f, rfl, .none, htext, hds⟩

/-- The sign as the loop holds it -/
def SignOf (neg : Bool) (sign : ℤ) : Prop := (neg = true ↔ sign = -1)

/-- What the loop does with a mantissa without blanks and commas -/
theorem foldlM_mantissa (dtype : Dtype) {sg text ds : List Char} {neg : Bool} {f : ℕ}
    (hsg : Signed sg neg) (htext : Pointed text ds f) (hds : ∀ d ∈ ds, DIGIT d) :
    ∃ sign fraction, SignOf neg sign ∧
      (sg ++ text).foldlM (scanChar dtype) ⟨0, false, 0, false, 0⟩ =
        (accumulate dtype sign ds 0).bind fun v =>
          .ok ⟨v, !ds.isEmpty, toInt16 (-f), fraction, sign⟩ := by
  have hsign : ∃ sign, SignOf neg sign ∧
      (sg ++ text).foldlM (scanChar dtype) ⟨0, false, 0, false, 0⟩ =
        text.foldlM (scanChar dtype) ⟨0, false, 0, false, sign⟩ := by
    cases hsg with
    | none => exact ⟨0, by unfold SignOf; decide, rfl⟩
    | plus => exact ⟨1, by unfold SignOf; decide, rfl⟩
    | minus => exact ⟨-1, by unfold SignOf; decide, rfl⟩
  obtain ⟨sign, hneg, hrun⟩ := hsign
  rw [hrun]
  cases htext with
  | whole =>
    refine ⟨sign, false, hneg, ?_⟩
    rw [foldlM_digits hds rfl]
    rfl
  | point p q =>
    refine ⟨sign, true, hneg, ?_⟩
    have hp : ∀ d ∈ p, DIGIT d := fun d hd => hds d (List.mem_append_left q hd)
    have hq : ∀ d ∈ q, DIGIT d := fun d hd => hds d (List.mem_append_right p hd)
    rw [List.foldlM_append, foldlM_digits hp rfl, accumulate, accumulate, List.foldlM_append]
    change ((p.foldlM (addDigit dtype sign) 0).bind _).bind _ = Except.bind (Except.bind _ _) _
    cases p.foldlM (addDigit dtype sign) 0 with
    | error e => rfl
    | ok v =>
      change q.foldlM (scanChar dtype)
        { (⟨0, false, 0, false, sign⟩ : Scan).after p v with fraction := true } = _
      rw [foldlM_digits hq rfl]
      change (accumulate dtype sign q v).bind _ = (accumulate dtype sign q v).bind _
      congr 1
      funext w
      have hseen : (!p.isEmpty || !q.isEmpty) = !(p ++ q).isEmpty := by cases p <;> rfl
      simp [Scan.after, hseen]

/-! ## The accumulated value -/

/-- The largest mantissa of a sign -/
def Dtype.limit : Dtype → Bool → ℕ
  | .long, false => 2147483647
  | .long, true => 2147483648
  | .int64, false => 9223372036854775807
  | .int64, true => 9223372036854775808

/-- The digits have brought the value down to `MIN_SINT64`, where the test for an overflow does not
see the next digit. -/
def Wrapped (dtype : Dtype) (neg : Bool) (m : ℕ) : Prop :=
  dtype = .int64 ∧ neg = true ∧ m = 9223372036854775808

/-- The number that is read for digits: that of the digits, or, where digits follow `MIN_SINT64`,
what is read for these alone -/
inductive Reads (dtype : Dtype) (neg : Bool) : List Char → ℕ → Prop where
  | all {ds : List Char} (h : number ds ≤ dtype.limit neg) : Reads dtype neg ds (number ds)
  | drop {p q : List Char} {m : ℕ} (hp : Wrapped dtype neg (number p)) (hq : q ≠ [])
      (h : Reads dtype neg q m) : Reads dtype neg (p ++ q) m

theorem not_wrapped_long {neg : Bool} {m : ℕ} : ¬Wrapped .long neg m := fun h => by cases h.1

theorem not_wrapped_plus {dtype : Dtype} {m : ℕ} : ¬Wrapped dtype false m := fun h => by cases h.2.1

theorem wrapped_iff {m : ℕ} : Wrapped .int64 true m ↔ m = 9223372036854775808 :=
  ⟨fun h => h.2.2, fun h => ⟨rfl, rfl, h⟩⟩

/-- What one digit makes of the number -/
def Next (dtype : Dtype) (neg : Bool) (m : ℕ) (c : Char) (m' : ℕ) : Prop :=
  Wrapped dtype neg m ∧ m' = digit c ∨
    ¬Wrapped dtype neg m ∧ m' = m * 10 + digit c ∧ m' ≤ dtype.limit neg

theorem lt_char_iff {c : Char} (d : Char) : d < c ↔ d.toNat < c.toNat := by
  rw [Char.lt_def, UInt32.lt_iff_toNat_lt]
  rfl

/-- The test for an overflow finds the numbers beyond the limit, but for one. -/
theorem overflow_iff {c : Char} (hc : DIGIT c) {neg : Bool} {sign : ℤ} (hsign : SignOf neg sign)
    {m : ℕ} (hm : m ≤ dtype.limit neg) :
    (toInt64 m ≥ dtype.limitBy10 ∧
      (toInt64 m > dtype.limitBy10 ∨ c > '8' ∧ sign = -1 ∨ c > '7' ∧ sign ≠ -1)) ↔
      ¬Wrapped dtype neg m ∧ dtype.limit neg < m * 10 + digit c := by
  obtain ⟨hnat, hlt⟩ := hc.toNat
  -- the tests of the character are tests of the digit
  have h8 : c > '8' ↔ 8 < digit c := by
    rw [gt_iff_lt, lt_char_iff, hnat]
    change 56 < 48 + digit c ↔ _
    omega
  have h7 : c > '7' ↔ 7 < digit c := by
    rw [gt_iff_lt, lt_char_iff, hnat]
    change 55 < 48 + digit c ↔ _
    omega
  have htest : (8 < digit c ∧ sign = -1 ∨ 7 < digit c ∧ sign ≠ -1) ↔
      (if neg then 8 else 7) < digit c := by
    cases neg with
    | false =>
      have hs : sign ≠ -1 := fun h => by cases hsign.mpr h
      simp [hs]
    | true => simp [hsign.mp rfl]
  have hlong : Dtype.limitBy10 .long = 214748364 := by decide
  have hint64 : Dtype.limitBy10 .int64 = 922337203685477580 := by decide
  rw [h8, h7, htest, toInt64_eq]
  cases dtype with
  | long =>
    rw [hlong, and_iff_right not_wrapped_long]
    cases neg with
    | false =>
      simp only [Dtype.limit, Bool.false_eq_true, if_false] at hm ⊢
      omega
    | true =>
      simp only [Dtype.limit, if_true] at hm ⊢
      omega
  | int64 =>
    rw [hint64]
    cases neg with
    | false =>
      rw [and_iff_right not_wrapped_plus]
      simp only [Dtype.limit, Bool.false_eq_true, if_false] at hm ⊢
      omega
    | true =>
      rw [wrapped_iff]
      simp only [Dtype.limit, if_true] at hm ⊢
      omega

theorem limit_le (dtype : Dtype) (neg : Bool) : dtype.limit neg ≤ 9223372036854775808 := by
  cases dtype <;> cases neg <;> decide

theorem addDigit_iff {c : Char} (hc : DIGIT c) {neg : Bool} {sign : ℤ} (hsign : SignOf neg sign)
    {m : ℕ} (hm : m ≤ dtype.limit neg) (v : ℤ) :
    addDigit dtype sign (toInt64 m) c = .ok v ↔ ∃ m', Next dtype neg m c m' ∧ v = toInt64 m' := by
  have hover := overflow_iff hc hsign hm
  have hle := limit_le dtype neg
  have hdigit := hc.toNat.2
  unfold addDigit
  by_cases hw : Wrapped dtype neg m
  · -- ten times `MIN_SINT64` is zero
    have hmin : toInt64 (toInt64 m * 10 + digit c) = toInt64 (digit c) := by
      have hm' : (m : ℤ) = 9223372036854775808 := by
        have := hw.2.2
        omega
      rw [hm', toInt64_eq, toInt64_eq, toInt64_eq]
      omega
    rw [if_neg (mt hover.mp (fun h => h.1 hw)), hmin]
    constructor
    · intro h
      exact ⟨digit c, .inl ⟨hw, rfl⟩, (Except.ok.inj h).symm⟩
    · rintro ⟨m', ⟨-, hm'⟩ | ⟨hnw, -⟩, hv⟩
      · rw [hv, hm']
      · exact absurd hw hnw
  · by_cases hbig : dtype.limit neg < m * 10 + digit c
    · rw [if_pos (hover.mpr ⟨hw, hbig⟩)]
      constructor
      · intro h
        cases h
      · rintro ⟨m', ⟨hw', -⟩ | ⟨-, rfl, hle'⟩, -⟩
        · exact absurd hw' hw
        · omega
    · have hexact : toInt64 (toInt64 m * 10 + digit c) = toInt64 ((m * 10 + digit c : ℕ) : ℤ) := by
        rw [toInt64_of_lt (x := (m : ℤ)) (by omega) (by omega)]
        push_cast
        rfl
      rw [if_neg (mt hover.mp (fun h => hbig h.2)), hexact]
      constructor
      · intro h
        exact ⟨m * 10 + digit c, .inr ⟨hw, rfl, not_lt.mp hbig⟩, (Except.ok.inj h).symm⟩
      · rintro ⟨m', ⟨hw', -⟩ | ⟨-, hm', -⟩, hv⟩
        · exact absurd hw' hw
        · rw [hv, hm']

/-! ### What is read -/

theorem reads_nil {neg : Bool} {m : ℕ} (h : Reads dtype neg [] m) : m = 0 := by
  generalize hds : ([] : List Char) = ds at h
  cases h with
  | all => rw [← hds]; rfl
  | drop hp hq h => exact absurd (List.append_eq_nil_iff.mp hds.symm).2 hq

theorem Reads.le {neg : Bool} {ds : List Char} {m : ℕ} (h : Reads dtype neg ds m) :
    m ≤ dtype.limit neg := by
  induction h with
  | all h => exact h
  | drop hp hq h ih => exact ih

theorem le_limit_of_wrapped {neg : Bool} {m : ℕ} (h : Wrapped dtype neg m) :
    m ≤ dtype.limit neg := by
  obtain ⟨rfl, rfl, rfl⟩ := h
  exact le_rfl

theorem reads_digit {neg : Bool} {c : Char} (hc : DIGIT c) : Reads dtype neg [c] (digit c) := by
  have hle : number [c] ≤ dtype.limit neg := by
    rw [number_singleton]
    have := hc.toNat.2
    have : 9 ≤ dtype.limit neg := by cases dtype <;> cases neg <;> decide
    omega
  have h := Reads.all hle
  rwa [number_singleton] at h

/-- One more digit -/
theorem Reads.snoc {neg : Bool} {ds : List Char} {c : Char} {m m' : ℕ} (hc : DIGIT c)
    (h : Reads dtype neg ds m) (hnext : Next dtype neg m c m') :
    Reads dtype neg (ds ++ [c]) m' := by
  induction h with
  | all h =>
    rcases hnext with ⟨hw, rfl⟩ | ⟨-, rfl, hle⟩
    · exact .drop hw (List.cons_ne_nil c []) (reads_digit hc)
    · rw [← number_snoc] at hle ⊢
      exact .all hle
  | drop hp hq h ih =>
    rw [List.append_assoc]
    exact .drop hp (List.append_ne_nil_of_left_ne_nil hq [c]) (ih hnext)

/-- One digit less -/
theorem Reads.of_snoc {neg : Bool} {ds : List Char} {c : Char} {m' : ℕ}
    (h : Reads dtype neg (ds ++ [c]) m') :
    ∃ m, Reads dtype neg ds m ∧ Next dtype neg m c m' := by
  -- where digits have been dropped, the last one is behind them
  generalize hall : ds ++ [c] = all at h
  induction h generalizing ds with
  | all h =>
    subst hall
    rw [number_snoc] at h ⊢
    have hle : number ds ≤ dtype.limit neg := by omega
    refine ⟨number ds, .all hle, .inr ⟨?_, rfl, h⟩⟩
    intro hw
    have hlimit := limit_le dtype neg
    have := hw.2.2
    omega
  | @drop p q m hp hq h ih =>
    obtain ⟨q', d, rfl⟩ : ∃ q' d, q = q' ++ [d] := by
      rcases List.eq_nil_or_concat q with hnil | ⟨q', d, rfl⟩
      · exact absurd hnil hq
      · exact ⟨q', d, by rw [List.concat_eq_append]⟩
    rw [← List.append_assoc] at hall
    obtain ⟨rfl, hd⟩ := List.append_inj' hall rfl
    obtain rfl := List.head_eq_of_cons_eq hd
    obtain ⟨m0, hm0, hnext⟩ := ih rfl
    by_cases hq' : q' = []
    · subst hq'
      obtain rfl := reads_nil hm0
      refine ⟨number p, ?_, .inl ⟨hp, ?_⟩⟩
      · rw [List.append_nil]
        exact .all (le_limit_of_wrapped hp)
      · rcases hnext with ⟨hw, -⟩ | ⟨-, hm, -⟩
        · exact absurd hw.2.2 (by decide)
        · rw [hm, Nat.zero_mul, Nat.zero_add]
    · exact ⟨m0, .drop hp hq' hm0, hnext⟩

/-- The digits are accumulated to the number that is read. -/
theorem accumulate_iff (dtype : Dtype) {neg : Bool} {sign : ℤ} (hsign : SignOf neg sign)
    {ds : List Char} (hds : ∀ d ∈ ds, DIGIT d) (v : ℤ) :
    accumulate dtype sign ds 0 = .ok v ↔ ∃ m, Reads dtype neg ds m ∧ v = toInt64 m := by
  -- the loop goes from left to right, so that the last digit is the last step
  induction ds using List.reverseRecOn generalizing v with
  | nil =>
    have hzero : toInt64 ((0 : ℕ) : ℤ) = 0 := by
      rw [Nat.cast_zero]
      exact toInt64_of_lt (by omega) (by omega)
    have hrun : accumulate dtype sign [] 0 = .ok 0 := rfl
    rw [hrun]
    constructor
    · intro h
      refine ⟨0, .all (Nat.zero_le _), ?_⟩
      rw [hzero]
      exact (Except.ok.inj h).symm
    · rintro ⟨m, hm, hv⟩
      rw [hv, reads_nil hm, hzero]
  | append_singleton ds c ih =>
    have hc : DIGIT c := hds c (List.mem_append_right ds List.mem_cons_self)
    have ih := ih fun d hd => hds d (List.mem_append_left [c] hd)
    have hrun : accumulate dtype sign (ds ++ [c]) 0 =
        (accumulate dtype sign ds 0).bind fun v => addDigit dtype sign v c := by
      rw [accumulate, List.foldlM_append]
      change Except.bind _ _ = _
      congr 1
      funext v
      rw [List.foldlM_cons]
      cases addDigit dtype sign v c <;> rfl
    rw [hrun]
    constructor
    · intro h
      obtain ⟨w, hacc, hnext⟩ := Outcome.of_bind_eq_ok h
      obtain ⟨m, hm, hw⟩ := (ih w).mp hacc
      rw [hw] at hnext
      obtain ⟨m', hnext, hv⟩ := (addDigit_iff hc hsign hm.le v).mp hnext
      exact ⟨m', hm.snoc hc hnext, hv⟩
    · rintro ⟨m', hm', hv⟩
      obtain ⟨m, hm, hnext⟩ := hm'.of_snoc
      rw [(ih (toInt64 m)).mpr ⟨m, hm, rfl⟩, Outcome.ok_bind]
      exact (addDigit_iff hc hsign hm.le v).mpr ⟨m', hnext, hv⟩

end

/-! ## The loop over the exponent -/

theorem SHORT_LIMIT_eq : SHORT_LIMIT = 3276 := by decide

/-- Blanks are skipped. -/
theorem foldlM_exp_filter (p : List Char) (e : ExpScan) :
    p.foldlM scanExpChar e = (p.filter (· ≠ ' ')).foldlM scanExpChar e := by
  apply Outcome.foldlM_filter
  intro e c hskip
  rw [decide_eq_false_iff_not, not_not] at hskip
  subst hskip
  rfl

theorem scanExpChar_digit {c : Char} (hc : DIGIT c) (seen : Bool) (sign : ℤ) {x : ℕ}
    (hx : x < 3276) :
    scanExpChar ⟨seen, sign, x⟩ c =
      if x * 10 + digit c < 3276 then .ok ⟨true, sign, (x * 10 + digit c : ℕ)⟩
      else .error .arithExcept := by
  have hdigit := hc.toNat.2
  have hexact : toInt16 ((x : ℤ) * 10 + digit c) = (x * 10 + digit c : ℕ) := by
    rw [toInt16_of_lt (by omega) (by omega)]
    push_cast
    rfl
  rw [scanExpChar, if_pos hc]
  dsimp only
  rw [hexact, SHORT_LIMIT_eq]
  by_cases h : x * 10 + digit c < 3276
  · rw [if_pos h, if_neg (by omega)]
  · rw [if_neg h, if_pos (by omega)]

theorem foldlM_exp_digits {ds : List Char} (hds : ∀ d ∈ ds, DIGIT d) (seen : Bool) (sign : ℤ)
    {x : ℕ} (hx : x < 3276) :
    ds.foldlM scanExpChar ⟨seen, sign, x⟩ =
      if x * 10 ^ ds.length + number ds < 3276 then
        .ok ⟨seen || !ds.isEmpty, sign, (x * 10 ^ ds.length + number ds : ℕ)⟩
      else .error .arithExcept := by
  induction ds generalizing seen x with
  | nil =>
    rw [if_pos (by simpa [number_nil] using hx)]
    simp [number_nil]
    rfl
  | cons d ds ih =>
    have hcons : x * 10 ^ (d :: ds).length + number (d :: ds) =
        (x * 10 + digit d) * 10 ^ ds.length + number ds := by
      rw [← List.singleton_append, number_append, number_singleton, List.length_append,
        List.length_singleton, pow_add]
      ring
    rw [List.foldlM_cons, scanExpChar_digit (hds d List.mem_cons_self) seen sign hx, hcons]
    by_cases h : x * 10 + digit d < 3276
    · rw [if_pos h]
      change ds.foldlM scanExpChar ⟨true, sign, _⟩ = _
      rw [ih (fun c hc => hds c (List.mem_cons_of_mem d hc)) true h]
      cases seen <;> rfl
    · -- an error for some digits is one for all of them
      have hpow : 1 ≤ 10 ^ ds.length := Nat.one_le_pow _ _ (by omega)
      have hbig : ¬(x * 10 + digit d) * 10 ^ ds.length + number ds < 3276 := by
        have := Nat.mul_le_mul (not_lt.mp h) hpow
        omega
      rw [if_neg h, if_neg hbig]
      rfl

/-- What the loop does with an exponent without blanks -/
theorem foldlM_exponent {sg ds : List Char} {neg : Bool} (hsg : Signed sg neg)
    (hds : ∀ d ∈ ds, DIGIT d) :
    ∃ sign, SignOf neg sign ∧ (sg ++ ds).foldlM scanExpChar ⟨false, 0, 0⟩ =
      if number ds < 3276 then .ok ⟨!ds.isEmpty, sign, number ds⟩ else .error .arithExcept := by
  have hsign : ∃ sign, SignOf neg sign ∧
      (sg ++ ds).foldlM scanExpChar ⟨false, 0, 0⟩ =
        ds.foldlM scanExpChar ⟨false, sign, (0 : ℕ)⟩ := by
    cases hsg with
    | none => exact ⟨0, by unfold SignOf; decide, rfl⟩
    | plus => exact ⟨1, by unfold SignOf; decide, rfl⟩
    | minus => exact ⟨-1, by unfold SignOf; decide, rfl⟩
  obtain ⟨sign, hneg, hrun⟩ := hsign
  refine ⟨sign, hneg, ?_⟩
  rw [hrun, foldlM_exp_digits hds false sign (by omega), Nat.zero_mul, Nat.zero_add, Bool.false_or]

/-- Behind the sign of an exponent there are digits only. -/
theorem digits_of_exp_ok {u : List Char} (hu : ∀ c ∈ u, c ≠ ' ') {e e' : ExpScan}
    (he : (e.digitSeen = true ∨ e.sign ≠ 0) ∨ NoSign u)
    (h : u.foldlM scanExpChar e = .ok e') : ∀ c ∈ u, DIGIT c := by
  induction u generalizing e with
  | nil => exact List.forall_mem_nil _
  | cons c u ih =>
    obtain ⟨e1, h1, hrest⟩ := Outcome.of_foldlM_cons h
    obtain ⟨hskip, hskips⟩ := List.forall_mem_cons.mp hu
    by_cases hc : DIGIT c
    · have hseen : e1.digitSeen = true := by
        rw [scanExpChar, if_pos hc] at h1
        dsimp only at h1
        by_cases hbig : toInt16 (e.exp * 10 + digit c) ≥ SHORT_LIMIT
        · rw [if_pos hbig] at h1
          cases h1
        · rw [if_neg hbig] at h1
          rw [← Except.ok.inj h1]
      exact List.forall_mem_cons.mpr ⟨hc, ih hskips (.inl (.inl hseen)) hrest⟩
    · -- another character is an error, since a sign is no longer possible
      exfalso
      have hnosign : ∀ d, d = '-' ∨ d = '+' → ¬(c = d ∧ ¬e.digitSeen ∧ e.sign = 0) := by
        rintro d hd ⟨hcd, h1, h2⟩
        rcases he with (h | h) | h
        · exact h1 h
        · exact h h2
        · rcases hd with rfl | rfl
          · exact h.2 (congrArg some hcd)
          · exact h.1 (congrArg some hcd)
      rw [scanExpChar, if_neg hc, if_neg (hnosign '-' (.inl rfl)), if_neg (hnosign '+' (.inr rfl)),
        if_pos hskip] at h1
      cases h1

theorem exponent_of_ok {u : List Char} (hu : ∀ c ∈ u, c ≠ ' ') {e' : ExpScan}
    (h : u.foldlM scanExpChar ⟨false, 0, 0⟩ = .ok e') :
    ∃ sg ds neg, u = sg ++ ds ∧ Signed sg neg ∧ ∀ d ∈ ds, DIGIT d := by
  rcases sign_cases u with ⟨u, rfl⟩ | ⟨u, rfl⟩ | hsign
  · exact ⟨['-'], u, true, rfl, .minus, digits_of_exp_ok (e := ⟨false, -1, 0⟩)
      (List.forall_mem_cons.mp hu).2 (.inl (.inr (by decide))) h⟩
  · exact ⟨['+'], u, false, rfl, .plus, digits_of_exp_ok (e := ⟨false, 1, 0⟩)
      (List.forall_mem_cons.mp hu).2 (.inl (.inr (by decide))) h⟩
  · exact ⟨[], u, false, rfl, .none, digits_of_exp_ok hu (.inr hsign) h⟩

end Firebird.Cvt
