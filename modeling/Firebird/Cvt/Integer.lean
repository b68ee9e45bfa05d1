import Firebird.Cvt.Decompose

/-! # Conversion of numeric strings (`CVT_get_long` and `CVT_get_int64` in `jrd/cvt.cpp`)

What `decompose` returns for a numeral, and what the adjustment for scale makes of it.
-/

namespace Firebird.Cvt

open Wrap

variable {dtype : Dtype}

/-! ## Decomposition -/

/-- What `decompose` does with the mantissa of a numeral -/
theorem scan_mantissa (dtype : Dtype) {n : Numeral} {s t e : List Char} (hm : n.Mantissa t)
    (hspan : s.takeWhile (!isE ·) = t ∧ s.dropWhile (!isE ·) = e) :
    ∃ sign fraction, SignOf n.neg sign ∧
      scan dtype s ⟨0, false, 0, false, 0⟩ =
        (accumulate dtype sign n.digits 0).bind fun v =>
          .ok (⟨v, !n.digits.isEmpty, toInt16 (-n.fraction), fraction, sign⟩, e) := by
  obtain ⟨sg, text, hfilter, hsg, htext⟩ := hm.spelled
  obtain ⟨sign, fraction, hsign, hrun⟩ := foldlM_mantissa dtype hsg htext hm.digits
  refine ⟨sign, fraction, hsign, ?_⟩
  rw [scan_eq, hspan.1, hspan.2, foldlM_filter, hfilter, hrun]
  cases accumulate dtype sign n.digits 0 <;> rfl

@[simp] theorem convert_long (x : ℤ) : Dtype.long.convert x = toInt32 x := rfl

@[simp] theorem convert_int64 (x : ℤ) : Dtype.int64.convert x = x := rfl

@[simp] theorem signed_false (x : ℤ) : signed false x = x := rfl

@[simp] theorem signed_true (x : ℤ) : signed true x = -x := rfl

@[simp] theorem lowerLimit_long : Dtype.long.lowerLimit = -2147483648 := rfl

@[simp] theorem lowerLimit_int64 : Dtype.int64.lowerLimit = -9223372036854775808 := rfl

/-- The value with its sign -/
theorem convert_value {neg : Bool} {sign : ℤ} (hsign : SignOf neg sign) {m : ℕ}
    (hm : m ≤ dtype.limit neg) :
    dtype.convert (if sign = -1 ∧ toInt64 m ≠ dtype.lowerLimit then toInt64 (-toInt64 m)
      else toInt64 m) = signed neg m := by
  have hlimit := limit_le dtype neg
  cases neg with
  | false =>
    have hs : sign ≠ -1 := fun h => by cases hsign.mpr h
    rw [if_neg (fun h => hs h.1), signed_false]
    cases dtype with
    | long =>
      simp only [Dtype.limit] at hm
      rw [convert_long, toInt64_of_lt (by omega) (by omega), toInt32_of_lt (by omega) (by omega)]
    | int64 =>
      simp only [Dtype.limit] at hm
      rw [convert_int64, toInt64_of_lt (by omega) (by omega)]
  | true =>
    have hs : sign = -1 := hsign.mp rfl
    cases dtype with
    | long =>
      simp only [Dtype.limit] at hm
      rw [lowerLimit_long, toInt64_of_lt (x := (m : ℤ)) (by omega) (by omega),
        if_pos ⟨hs, by omega⟩, toInt64_of_lt (by omega) (by omega), convert_long, signed_true]
      exact toInt32_of_lt (by omega) (by omega)
    | int64 =>
      rw [lowerLimit_int64, convert_int64, signed_true]
      by_cases hmin : m = 9223372036854775808
      · -- `MIN_SINT64` has been reached from below and is not negated
        have hmin' : (m : ℤ) = 9223372036854775808 := by omega
        have hstored : toInt64 m = -9223372036854775808 := by
          rw [hmin', toInt64_eq]
          omega
        rw [if_neg (fun h => h.2 hstored), hstored]
        omega
      · have hstored : toInt64 (m : ℤ) = m := toInt64_of_lt (by omega) (by omega)
        rw [hstored, if_pos ⟨hs, by omega⟩, toInt64_of_lt (by omega) (by omega)]

/-- What `decompose` does with a numeral -/
theorem decompose_of (dtype : Dtype) {n : Numeral} {s : List Char} (h : n.Of s) :
    ∃ sign, SignOf n.neg sign ∧ decompose s dtype =
      (accumulate dtype sign n.digits 0).bind fun v =>
        if |n.exp| < SHORT_LIMIT then
          .ok (dtype.convert (if sign = -1 ∧ v ≠ dtype.lowerLimit then toInt64 (-v) else v),
            toInt16 (n.exp - n.fraction))
        else .error .arithExcept := by
  obtain ⟨t, e, rfl, hm, he⟩ := h.spelled
  obtain ⟨sign, fraction, hsign, hscan⟩ :=
    scan_mantissa dtype hm (span_eq hm.not_isE he)
  refine ⟨sign, hsign, ?_⟩
  have hseen : (!n.digits.isEmpty) = true := by
    rw [Bool.not_eq_true', List.isEmpty_eq_false_iff]
    exact h.ne_nil
  rw [decompose, hscan, hseen]
  cases accumulate dtype sign n.digits 0 with
  | error err => rfl
  | ok v =>
    rw [Outcome.ok_bind, Outcome.ok_bind, Outcome.ok_bind]
    dsimp only
    generalize dtype.convert (if sign = -1 ∧ v ≠ dtype.lowerLimit then toInt64 (-v) else v) = value
    have hnot : ¬¬true = true := by decide
    rw [if_neg hnot]
    generalize n.exp = x at he ⊢
    cases he with
    | none =>
      dsimp only
      rw [if_pos (show |(0 : ℤ)| < SHORT_LIMIT by decide), zero_sub]
    | @some c p sg ds neg hc hs hsg hds hne =>
      dsimp only
      obtain ⟨esign, hesign, hexp⟩ := foldlM_exponent hsg hds
      have hne' : (!ds.isEmpty) = true := by
        rw [Bool.not_eq_true', List.isEmpty_eq_false_iff]
        exact hne
      rw [foldlM_exp_filter, hs, hexp, hne', SHORT_LIMIT_eq]
      have habs : |if neg = true then -(number ds : ℤ) else number ds| = number ds := by
        have hnat : |(number ds : ℤ)| = number ds := abs_of_nonneg (Int.natCast_nonneg _)
        cases neg
        · exact hnat
        · exact (abs_neg _).trans hnat
      rw [habs]
      by_cases hsmall : number ds < 3276
      · have hsmall' : (number ds : ℤ) < 3276 := by omega
        rw [if_pos hsmall, if_pos hsmall', Outcome.ok_bind]
        dsimp only
        rw [if_neg hnot]
        congr 2
        rw [toInt16_eq, toInt16_eq, toInt16_eq]
        cases neg with
        | false =>
          have hes : esign ≠ -1 := fun h => by cases hesign.mpr h
          rw [if_neg hes, if_neg Bool.false_ne_true]
          omega
        | true =>
          rw [if_pos (hesign.mp rfl), if_pos rfl]
          omega
      · have hbig : ¬(number ds : ℤ) < 3276 := by omega
        rw [if_neg hsmall, if_neg hbig]
        rfl

/-- What `decompose` accepts is a numeral. -/
theorem numeral_of_ok {s : List Char} {r : ℤ × ℤ} (h : decompose s dtype = .ok r) :
    ∃ n : Numeral, n.Of s := by
  unfold decompose at h
  obtain ⟨⟨m, p⟩, hscan, h⟩ := Outcome.of_bind_eq_ok h
  rw [scan_eq, foldlM_filter] at hscan
  obtain ⟨m', hfold, hm⟩ := Outcome.of_bind_eq_ok hscan
  obtain ⟨rfl, hp⟩ := Prod.mk.inj (Except.ok.inj hm)
  generalize ht : s.takeWhile (!isE ·) = t at hfold
  generalize he : s.dropWhile (!isE ·) = e at hp
  subst hp
  have hs : s = t ++ e := by rw [← ht, ← he, List.takeWhile_append_dropWhile]
  have hskip : ∀ c ∈ t.filter fun c => c ≠ ' ' ∧ c ≠ ',', c ≠ ' ' ∧ c ≠ ',' := by
    intro c hc
    simpa using (List.mem_filter.mp hc).2
  obtain ⟨sg, text, neg, ds, f, hfilter, hsg, htext, hds⟩ := mantissa_of_ok hskip hfold
  -- an error is returned where no digit is seen
  dsimp only at h
  have hseen : m'.digitSeen = true := by
    by_contra hno
    rw [if_pos hno] at h
    cases h
  rw [if_neg (not_not.mpr hseen)] at h
  have hne : ds ≠ [] := by
    rintro rfl
    obtain ⟨sign, fraction, -, hrun⟩ := foldlM_mantissa dtype hsg htext hds
    rw [← hfilter, hfold] at hrun
    rw [Except.ok.inj hrun] at hseen
    cases hseen
  cases e with
  | nil =>
    exact ⟨⟨neg, ds, f, 0⟩, ⟨t, [], hs, ⟨⟨sg, text, hfilter, hsg, htext⟩, hds⟩, .none⟩, hne⟩
  | cons c p =>
    have hc : c = 'e' ∨ c = 'E' := by
      have hhead := List.head?_dropWhile_not (!isE ·) s
      rw [he] at hhead
      exact or_iff_not_imp_left.mpr (by simpa [isE] using hhead)
    obtain ⟨ex, hexp, h⟩ := Outcome.of_bind_eq_ok h
    rw [foldlM_exp_filter] at hexp
    have hblank : ∀ c ∈ p.filter (· ≠ ' '), c ≠ ' ' := by
      intro c hc
      simpa using (List.mem_filter.mp hc).2
    obtain ⟨esg, eds, eneg, hp, hesg, heds⟩ := exponent_of_ok hblank hexp
    have hne' : eds ≠ [] := by
      rintro rfl
      obtain ⟨sign, -, hrun⟩ := foldlM_exponent hesg heds
      rw [← hp, hexp, if_pos (by decide)] at hrun
      rw [Except.ok.inj hrun] at h
      cases h
    exact ⟨⟨neg, ds, f, _⟩, ⟨t, c :: p, hs, ⟨⟨sg, text, hfilter, hsg, htext⟩, hds⟩,
      .some hc hp hesg heds hne'⟩, hne⟩

/-- What `decompose` returns is read from a numeral. -/
theorem decompose_ok_iff (s : List Char) (v d : ℤ) :
    decompose s dtype = .ok (v, d) ↔
      ∃ (n : Numeral) (m : ℕ), n.Of s ∧ |n.exp| < SHORT_LIMIT ∧ Reads dtype n.neg n.digits m ∧
        v = signed n.neg m ∧ d = toInt16 (n.exp - n.fraction) := by
  have hrun : ∀ {n : Numeral}, n.Of s → (decompose s dtype = .ok (v, d) ↔
      ∃ m : ℕ, |n.exp| < SHORT_LIMIT ∧ Reads dtype n.neg n.digits m ∧
        v = signed n.neg m ∧ d = toInt16 (n.exp - n.fraction)) := by
    intro n hn
    obtain ⟨t, e, -, hm, -⟩ := hn.spelled
    obtain ⟨sign, hsign, hrun⟩ := decompose_of dtype hn
    have hacc := accumulate_iff dtype hsign hm.digits
    rw [hrun]
    constructor
    · intro h
      obtain ⟨w, hw, h⟩ := Outcome.of_bind_eq_ok h
      obtain ⟨m, hreads, hvalue⟩ := (hacc w).mp hw
      rw [hvalue, convert_value hsign hreads.le] at h
      by_cases hexp : |n.exp| < SHORT_LIMIT
      · rw [if_pos hexp] at h
        obtain ⟨hvalue, hscale⟩ := Prod.mk.inj (Except.ok.inj h)
        exact ⟨m, hexp, hreads, hvalue.symm, hscale.symm⟩
      · rw [if_neg hexp] at h
        cases h
    · rintro ⟨m, hexp, hreads, hv, hd⟩
      rw [(hacc (toInt64 m)).mpr ⟨m, hreads, rfl⟩, Outcome.ok_bind, convert_value hsign hreads.le,
        if_pos hexp, hv, hd]
  constructor
  · intro h
    obtain ⟨n, hn⟩ := numeral_of_ok h
    obtain ⟨m, hm⟩ := (hrun hn).mp h
    exact ⟨n, m, hn, hm⟩
  · rintro ⟨n, m, hn, hm⟩
    exact (hrun hn).mpr ⟨m, hm⟩

/-! ## Adjustment for scale -/

theorem tdiv_signed (neg : Bool) (m d : ℕ) :
    (signed neg m).tdiv d = signed neg ((m / d : ℕ) : ℤ) := by
  cases neg
  · rfl
  · rw [signed_true, signed_true, Int.neg_tdiv]
    rfl

theorem divideDown_signed (neg : Bool) (n m : ℕ) :
    divideDown n (signed neg m) = signed neg ((m / 10 ^ n : ℕ) : ℤ) := by
  induction n generalizing m with
  | zero => rw [divideDown, pow_zero, Nat.div_one]
  | succ n ih =>
    have hten := tdiv_signed neg m 10
    rw [divideDown]
    change divideDown n ((signed neg m).tdiv (10 : ℕ)) = _
    rw [hten, ih, Nat.div_div_eq_div_mul, pow_succ']

/-- The number can be multiplied by `10 ^ n` within the limit. -/
def Multiplies (limit m : ℕ) : ℕ → Prop
  | 0 => True
  | n + 1 => m * 10 ^ n ≤ limit

theorem multiplyUp_signed_iff (limit : ℕ) (neg : Bool) (n m : ℕ) (v : ℤ) :
    multiplyUp limit n (signed neg m) = .ok v ↔
      Multiplies limit m n ∧ v = signed neg ((m * 10 ^ n : ℕ) : ℤ) := by
  induction n generalizing m with
  | zero =>
    rw [multiplyUp, pow_zero, Nat.mul_one, Except.ok.injEq, eq_comm]
    exact (and_iff_right trivial).symm
  | succ n ih =>
    have hguard : signed neg m > limit ∨ signed neg m < -limit ↔ limit < m := by
      cases neg
      · rw [signed_false]
        omega
      · rw [signed_true]
        omega
    have hmul : signed neg m * 10 = signed neg ((m * 10 : ℕ) : ℤ) := by
      cases neg
      · rw [signed_false, signed_false]
        push_cast
        rfl
      · rw [signed_true, signed_true]
        push_cast
        ring
    have hpow : m * 10 * 10 ^ n = m * 10 ^ (n + 1) := by ring
    rw [multiplyUp]
    by_cases h : limit < m
    · have hpos : 1 ≤ 10 ^ n := Nat.one_le_pow _ _ (by omega)
      rw [if_pos (hguard.mpr h)]
      refine iff_of_false (fun h => by cases h) (fun hm => ?_)
      have hle : m * 10 ^ n ≤ limit := hm.1
      have := Nat.le_mul_of_pos_right m hpos
      omega
    · rw [if_neg (mt hguard.mp h), hmul, ih, hpow]
      have hstep : Multiplies limit (m * 10) n ↔ Multiplies limit m (n + 1) := by
        cases n with
        | zero =>
          change True ↔ m * 10 ^ 0 ≤ limit
          rw [pow_zero, Nat.mul_one, true_iff]
          exact not_lt.mp h
        | succ n =>
          change m * 10 * 10 ^ n ≤ limit ↔ m * 10 ^ (n + 1) ≤ limit
          rw [Nat.mul_assoc, ← pow_succ']
      rw [hstep]

/-- The adjustment divides, or multiplies within the limit. -/
theorem adjust_signed_iff (limit : ℕ) (neg : Bool) (m : ℕ) (x v : ℤ) :
    adjust limit (signed neg m) x = .ok v ↔
      Multiplies limit m (-x).toNat ∧ v = shiftRight neg m x := by
  unfold adjust shiftRight
  by_cases hx : x > 0
  · have hzero : (-x).toNat = 0 := by omega
    rw [if_pos hx, if_pos hx.le, divideDown_signed, hzero, Except.ok.injEq, eq_comm]
    push_cast
    exact (and_iff_right trivial).symm
  · rw [if_neg hx, multiplyUp_signed_iff]
    by_cases hx0 : x = 0
    · subst hx0
      simp
    · rw [if_neg (by omega)]
      push_cast
      rfl

/-! ## Conversion -/

/-- A conversion raises an error, or the string is a numeral and the result its exact value divided
by `10 ^ t`, truncated. -/
def Exact (s : List Char) (t : ℤ) (r : Except CvtError ℤ) : Prop :=
  ∀ v, r = .ok v → ∃ n : Numeral, n.Of s ∧ v = truncate (n.value / 10 ^ t)

/-- The limit of the adjustment for scale -/
def Dtype.scaleLimit : Dtype → ℕ
  | .long => 214748364
  | .int64 => 922337203685477580

/-- The power of ten to divide by, in 16 bits -/
def Numeral.shift (n : Numeral) (t : ℤ) : ℤ := toInt16 (t + n.fraction - n.exp)

/-- Digits follow `MIN_SINT64`, or the power of ten does not fit 16 bits; no overflow is found in
what is left; and that gives another quotient. -/
def Misread (dtype : Dtype) (n : Numeral) (t : ℤ) : Prop :=
  ((∃ p q, n.digits = p ++ q ∧ Wrapped dtype n.neg (number p) ∧ q ≠ []) ∨
      n.shift t ≠ t + n.fraction - n.exp) ∧
    |n.exp| < SHORT_LIMIT ∧
    ∃ m, Reads dtype n.neg n.digits m ∧ Multiplies dtype.scaleLimit m (-n.shift t).toNat ∧
      shiftRight n.neg m (n.shift t) ≠ truncate (n.value / 10 ^ t)

/-- What a conversion returns -/
theorem convert_ok_iff (s : List Char) (t v : ℤ) :
    ((decompose s dtype).bind fun (value, d) =>
      adjust dtype.scaleLimit value (toInt16 (t - d))) = .ok v ↔
      ∃ (n : Numeral) (m : ℕ), n.Of s ∧ |n.exp| < SHORT_LIMIT ∧ Reads dtype n.neg n.digits m ∧
        Multiplies dtype.scaleLimit m (-n.shift t).toNat ∧ v = shiftRight n.neg m (n.shift t) := by
  have hshift : ∀ n : Numeral, toInt16 (t - toInt16 (n.exp - n.fraction)) = n.shift t := by
    intro n
    rw [Numeral.shift, toInt16_eq, toInt16_eq, toInt16_eq]
    omega
  constructor
  · intro h
    cases hd : decompose s dtype with
    | error err =>
      rw [hd] at h
      cases h
    | ok r =>
      obtain ⟨value, d⟩ := r
      obtain ⟨n, m, hn, hexp, hreads, hv, hscale⟩ := (decompose_ok_iff s value d).mp hd
      rw [hd, Outcome.ok_bind] at h
      dsimp only at h
      rw [hv, hscale, hshift, adjust_signed_iff] at h
      exact ⟨n, m, hn, hexp, hreads, h⟩
  · rintro ⟨n, m, hn, hexp, hreads, h⟩
    rw [(decompose_ok_iff s _ _).mpr ⟨n, m, hn, hexp, hreads, rfl, rfl⟩, Outcome.ok_bind]
    dsimp only
    rw [hshift, adjust_signed_iff]
    exact h

/-- All digits are read, or some are dropped. -/
theorem Reads.eq_or {neg : Bool} {ds : List Char} {m : ℕ} (h : Reads dtype neg ds m) :
    m = number ds ∨ ∃ p q, ds = p ++ q ∧ Wrapped dtype neg (number p) ∧ q ≠ [] := by
  cases h with
  | all h => exact .inl rfl
  | drop hp hq h => exact .inr ⟨_, _, rfl, hp, hq⟩

theorem exact_iff (s : List Char) (t : ℤ) :
    Exact s t ((decompose s dtype).bind fun (value, d) =>
      adjust dtype.scaleLimit value (toInt16 (t - d))) ↔
      ∀ n : Numeral, n.Of s → ¬Misread dtype n t := by
  constructor
  · rintro hexact n hn ⟨-, hexp, m, hreads, hmul, hne⟩
    obtain ⟨n', hn', hv⟩ :=
      hexact _ ((convert_ok_iff s t _).mpr ⟨n, m, hn, hexp, hreads, hmul, rfl⟩)
    obtain rfl := hn.unique hn'
    exact hne hv
  · intro hno v hv
    obtain ⟨n, m, hn, hexp, hreads, hmul, rfl⟩ := (convert_ok_iff s t v).mp hv
    refine ⟨n, hn, ?_⟩
    by_contra hne
    refine hno n hn ⟨?_, hexp, m, hreads, hmul, hne⟩
    by_contra hfits
    rw [not_or, not_not] at hfits
    -- all digits are read, and the power of ten is exact
    rcases hreads.eq_or with hm | hdropped
    · apply hne
      rw [n.truncate_value, hm, hfits.2]
    · exact hfits.1 hdropped

theorem LONG_LIMIT_eq : LONG_LIMIT = (Dtype.scaleLimit .long : ℕ) := by decide

theorem INT64_LIMIT_eq : INT64_LIMIT = (Dtype.scaleLimit .int64 : ℕ) := by decide

/-- The string "-92233720368547758085" -/
def twentyDigits : List Char :=
  ['-', '9', '2', '2', '3', '3', '7', '2', '0', '3', '6', '8', '5', '4', '7', '7', '5', '8', '0',
    '8', '5']

end Firebird.Cvt
