import Mathlib.Tactic.FieldSimp
import Mathlib.Tactic.Ring
import Firebird.Lib.Outcome
import Firebird.Lib.Truncated
import Firebird.Evl.Arithmetic

/-! # Exact numeric division (`divide2` in `jrd/evl.cpp`)

The quotient is scaled by `10 ^ (-2 * s)`, where `s` is the scale of the divisor. As much of the
scaling as possible is applied to the dividend, then zeros are stripped from the divisor, and what
is left is applied to the quotient. Every 64-bit operation of the model is checked for overflow.
-/

namespace Firebird.Evl

/-- What stops a division -/
inductive Stop where
  /-- A 64-bit operation overflows, or traps -/
  | trap
  | post (e : Error)
deriving DecidableEq

/-! ## Checked operations -/

def mul (a b : SINT64) : Except Stop SINT64 :=
  if a.smulOverflow b then .error .trap else .ok (a * b)

def div (a b : SINT64) : Except Stop SINT64 :=
  if b = 0 ∨ a.sdivOverflow b then .error .trap else .ok (a.sdiv b)

def rem (a b : SINT64) : Except Stop SINT64 :=
  if b = 0 ∨ a.sdivOverflow b then .error .trap else .ok (a.srem b)

def MAX_INT64_LIMIT : SINT64 := MAX_SINT64.sdiv 10

def MIN_INT64_LIMIT : SINT64 := MIN_SINT64.sdiv 10

/-- A loop that multiplies by 10 within a limit, `n` times at most. It returns what is left of
`n`. -/
def scaleWhile (within : SINT64 → Bool) : SINT64 → ℕ → Except Stop (SINT64 × ℕ)
  | i, 0 => .ok (i, 0)
  | i, n + 1 =>
    if within i then (mul i 10).bind fun i => scaleWhile within i n else .ok (i, n + 1)

/-- The two loops that scale the dividend, and the quotient -/
def scaleUp (i : SINT64) (n : ℕ) : Except Stop (SINT64 × ℕ) :=
  if BitVec.sle 0 i then scaleWhile (fun i => i.sle MAX_INT64_LIMIT) i n
  else scaleWhile (fun i => MIN_INT64_LIMIT.sle i) i n

/-- The loop that strips zeros from the divisor -/
def strip : SINT64 → ℕ → Except Stop (SINT64 × ℕ)
  | i, 0 => .ok (i, 0)
  | i, n + 1 =>
    (rem i 10).bind fun r =>
      if r = 0 then (div i 10).bind fun i => strip i n else .ok (i, n + 1)

/-- `-addl_scale` at the start -/
def addlScale (desc : Dsc) : ℕ := (-(2 * desc.scale)).toNat

/-- The dividend and the divisor of the division, and the scaling that is left for the quotient -/
def operands (desc value : Dsc) : Except Stop (SINT64 × SINT64 × ℕ) :=
  (scaleUp value.value (addlScale desc)).bind fun (i1, addl_scale) =>
    (strip desc.value addl_scale).bind fun (i2, addl_scale) => .ok (i1, i2, addl_scale)

/-- The division, and the scaling of the quotient -/
def quotient (i1 i2 : SINT64) (addl_scale : ℕ) : Except Stop SINT64 :=
  (div i1 i2).bind fun q =>
    (scaleUp q addl_scale).bind fun (q, addl_scale) =>
      if addl_scale ≠ 0 then .error (.post .arithExcept) else .ok q

/-- The `int64` path of `divide2`. Both operands are at their own scales. -/
def divide2 (desc value : Dsc) (node : JrdNod) : Except Stop Dsc :=
  if desc.value = 0 then .error (.post .arithExcept)
  else if value.value = MIN_SINT64 ∧ desc.value = -1 then .error (.post .integerOverflow)
  else
    (operands desc value).bind fun (i1, i2, addl_scale) =>
      (quotient i1 i2 addl_scale).bind fun q => .ok ⟨q, node.scale, value.subType⟩

/-! ## What the operations return -/

theorem mul_eq {a b : SINT64} (h : InRange (a.toInt * b.toInt)) :
    ∃ c, mul a b = .ok c ∧ c.toInt = a.toInt * b.toInt := by
  have hno : ¬a.smulOverflow b = true := by
    rw [BitVec.smulOverflow, Bool.or_eq_true, decide_eq_true_iff, decide_eq_true_iff]
    have := h.1
    have := h.2
    omega
  exact ⟨a * b, if_neg hno, BitVec.toInt_mul_of_not_smulOverflow hno⟩

theorem toInt_MIN_SINT64 : MIN_SINT64.toInt = -2 ^ 63 := by decide

theorem div_eq {a b : SINT64} (hb : b ≠ 0) (h : ¬(a = MIN_SINT64 ∧ b = -1)) :
    ∃ c, div a b = .ok c ∧ c.toInt = a.toInt.tdiv b.toInt := by
  have hmin : a ≠ BitVec.intMin 64 ∨ b ≠ -1#64 := not_and_or.mp h
  have hno : ¬(b = 0 ∨ a.sdivOverflow b = true) := by
    rw [BitVec.sdivOverflow_eq]
    rintro (h0 | hover)
    · exact hb h0
    · have hmin : MIN_SINT64 = BitVec.intMin 64 := by decide
      apply h
      rw [hmin]
      simpa using hover
  exact ⟨a.sdiv b, if_neg hno, BitVec.toInt_sdiv_of_ne_or_ne a b hmin⟩

theorem div_eq_trap {a b : SINT64} (ha : a = MIN_SINT64) (hb : b = -1) :
    div a b = .error .trap := by
  subst ha hb
  decide

theorem rem_ten (a : SINT64) : ∃ c, rem a 10 = .ok c ∧ (c = 0 ↔ (10 : ℤ) ∣ a.toInt) := by
  have hno : ¬((10 : SINT64) = 0 ∨ a.sdivOverflow 10 = true) := by
    rw [BitVec.sdivOverflow_eq]
    simp
  refine ⟨a.srem 10, if_neg hno, ?_⟩
  rw [← BitVec.toInt_inj, BitVec.toInt_srem, Int.dvd_iff_tmod_eq_zero]
  rfl

theorem div_ten (a : SINT64) (h : (10 : ℤ) ∣ a.toInt) :
    ∃ c, div a 10 = .ok c ∧ a.toInt = c.toInt * 10 := by
  obtain ⟨c, hdiv, hc⟩ := div_eq (a := a) (b := 10) (by decide) (fun h => by cases h.2)
  have hten : (10 : SINT64).toInt = 10 := by decide
  rw [hten] at hc
  exact ⟨c, hdiv, by rw [hc, Int.tdiv_mul_cancel h]⟩

/-! ## The loops -/

/-- `i` is scaled to `j` as far as the range allows, and `m` of `n` powers are left. -/
def Scaled (i : ℤ) (n : ℕ) (j : ℤ) (m : ℕ) : Prop :=
  ∃ a, a + m = n ∧ j = i * 10 ^ a ∧ (m ≠ 0 → ¬InRange (j * 10))

/-- Zeros of `i` are stripped down to `j`, and `m` of `n` powers are left. -/
def Stripped (i : ℤ) (n : ℕ) (j : ℤ) (m : ℕ) : Prop :=
  ∃ b, b + m = n ∧ i = j * 10 ^ b ∧ (m ≠ 0 → ¬(10 : ℤ) ∣ j)

/-- The loop scales what has the property `P`, such as a sign, that decides its limit. -/
theorem scaleWhile_eq {within : SINT64 → Bool} {P : ℤ → Prop}
    (hwithin : ∀ i : SINT64, P i.toInt → (within i = true ↔ InRange (i.toInt * 10)))
    (hP : ∀ x, P x → P (x * 10)) (n : ℕ) (i : SINT64) (hi : P i.toInt) :
    ∃ j m, scaleWhile within i n = .ok (j, m) ∧ Scaled i.toInt n j.toInt m := by
  induction n generalizing i with
  | zero => exact ⟨i, 0, rfl, 0, rfl, by rw [pow_zero, Int.mul_one], fun h => absurd rfl h⟩
  | succ n ih =>
    by_cases h : within i = true
    · -- within the limit ten times the number is in range
      have hten : (10 : SINT64).toInt = 10 := by decide
      obtain ⟨c, hmul, hc⟩ := mul_eq (a := i) (b := 10) (by rw [hten]; exact (hwithin i hi).mp h)
      rw [hten] at hc
      obtain ⟨j, m, hrun, a, ham, hj, hstop⟩ := ih c (hc ▸ hP _ hi)
      refine ⟨j, m, ?_, a + 1, by omega, ?_, hstop⟩
      · rw [scaleWhile, if_pos h, hmul]
        exact hrun
      · rw [hj, hc, Int.pow_succ']
        ring
    · refine ⟨i, n + 1, if_neg h, 0, by omega, by rw [pow_zero, Int.mul_one], fun _ => ?_⟩
      exact mt (hwithin i hi).mpr h

theorem toInt_limits :
    MAX_INT64_LIMIT.toInt = 922337203685477580 ∧ MIN_INT64_LIMIT.toInt = -922337203685477580 := by
  decide

theorem scaleUp_eq (i : SINT64) (n : ℕ) :
    ∃ j m, scaleUp i n = .ok (j, m) ∧ Scaled i.toInt n j.toInt m := by
  unfold scaleUp
  by_cases h : BitVec.sle 0 i = true
  · rw [if_pos h]
    apply scaleWhile_eq (P := fun x => 0 ≤ x)
    · intro j hj
      rw [BitVec.sle_iff_toInt_le, toInt_limits.1, InRange]
      omega
    · intro x hx
      omega
    · rwa [toInt_nonneg_iff, ← sle_zero_iff]
  · rw [if_neg h]
    apply scaleWhile_eq (P := fun x => x < 0)
    · intro j hj
      rw [BitVec.sle_iff_toInt_le, toInt_limits.2, InRange]
      omega
    · intro x hx
      omega
    · rw [sle_zero_iff, ← toInt_nonneg_iff] at h
      exact not_le.mp h

theorem strip_eq (n : ℕ) (i : SINT64) :
    ∃ j m, strip i n = .ok (j, m) ∧ Stripped i.toInt n j.toInt m := by
  induction n generalizing i with
  | zero => exact ⟨i, 0, rfl, 0, rfl, by rw [pow_zero, Int.mul_one], fun h => absurd rfl h⟩
  | succ n ih =>
    obtain ⟨r, hrem, hr⟩ := rem_ten i
    by_cases h : r = 0
    · obtain ⟨c, hdiv, hc⟩ := div_ten i (hr.mp h)
      obtain ⟨j, m, hrun, b, hbm, hj, hstop⟩ := ih c
      refine ⟨j, m, ?_, b + 1, by omega, ?_, hstop⟩
      · rw [strip, hrem]
        change (if r = 0 then _ else _) = _
        rw [if_pos h, hdiv]
        exact hrun
      · rw [hc, hj, Int.pow_succ, Int.mul_assoc]
    · refine ⟨i, n + 1, ?_, 0, by omega, by rw [pow_zero, Int.mul_one], fun _ => mt hr.mpr h⟩
      rw [strip, hrem]
      exact if_neg h

/-- What the division is applied to -/
theorem operands_eq (desc value : Dsc) :
    ∃ i1 i2 m, operands desc value = .ok (i1, i2, m) ∧
      ∃ k, Scaled value.value.toInt (addlScale desc) i1.toInt k ∧
        Stripped desc.value.toInt k i2.toInt m := by
  obtain ⟨i1, k, hscale, hi1⟩ := scaleUp_eq value.value (addlScale desc)
  obtain ⟨i2, m, hstrip, hi2⟩ := strip_eq k desc.value
  refine ⟨i1, i2, m, ?_, k, hi1, hi2⟩
  rw [operands, hscale]
  change (strip desc.value k).bind _ = _
  rw [hstrip]
  rfl

/-! ## The division that traps -/

theorem inRange_min_mul {a : ℕ} (h : InRange (-2 ^ 63 * 10 ^ a)) : a = 0 := by
  by_contra hne
  have hpow : (10 : ℤ) ^ 1 ≤ 10 ^ a := pow_le_pow_right₀ (by omega) (Nat.one_le_iff_ne_zero.mpr hne)
  have := h.1
  omega

theorem eq_min_of_mul {x : ℤ} {a : ℕ} (h : -2 ^ 63 = x * 10 ^ a) : a = 0 := by
  by_contra hne
  obtain ⟨c, rfl⟩ := Nat.exists_eq_succ_of_ne_zero hne
  rw [pow_succ (10 : ℤ), ← Int.mul_assoc] at h
  omega

/-- The division traps where the divisor is `-1` followed by zeros, all of which are stripped. -/
theorem operands_min_iff {i1 i2 x y : ℤ} {n k m : ℕ} (h1 : Scaled x n i1 k)
    (h2 : Stripped y k i2 m) (hi1 : InRange i1) :
    (i1 = -2 ^ 63 ∧ i2 = -1) ↔ (x = -2 ^ 63 ∧ ∃ b ≤ n, y = -10 ^ b) := by
  obtain ⟨a, ha, rfl, -⟩ := h1
  obtain ⟨b, hb, rfl, hstop⟩ := h2
  constructor
  · rintro ⟨hmin, rfl⟩
    have ha0 := eq_min_of_mul hmin.symm
    rw [ha0, pow_zero, Int.mul_one] at hmin
    exact ⟨hmin, b, by omega, by rw [Int.neg_mul, Int.one_mul]⟩
  · rintro ⟨rfl, c, hc, hy⟩
    have ha0 := inRange_min_mul hi1
    refine ⟨by rw [ha0, pow_zero, Int.mul_one], ?_⟩
    rcases Nat.lt_trichotomy b c with hlt | rfl | hlt
    · -- zeros would be left to strip
      obtain ⟨d, rfl⟩ := Nat.exists_eq_add_of_lt hlt
      have hi2 : i2 = -10 ^ (d + 1) := by
        apply Int.eq_of_mul_eq_mul_right (a := 10 ^ b) (pow_ne_zero b (by omega))
        rw [hy]
        ring
      exact absurd ⟨-10 ^ d, by rw [hi2]; ring⟩ (hstop (by omega))
    · apply Int.eq_of_mul_eq_mul_right (a := 10 ^ b) (pow_ne_zero b (by omega))
      rw [hy, Int.neg_mul, Int.one_mul]
    · -- more zeros would be stripped than there are
      obtain ⟨d, rfl⟩ := Nat.exists_eq_add_of_lt hlt
      have hone : i2 * 10 ^ d * 10 = -1 := by
        apply Int.eq_of_mul_eq_mul_right (a := 10 ^ c) (pow_ne_zero c (by omega))
        rw [Int.neg_mul, Int.one_mul, ← hy]
        ring
      omega

/-! ## The quotient -/

theorem not_inRange_of_le {u v : ℤ} (h : ¬InRange u) (hsign : v.sign = u.sign)
    (hle : u.natAbs ≤ v.natAbs) : ¬InRange v := by
  rw [InRange] at h ⊢
  rcases Int.lt_trichotomy u 0 with hu | rfl | hu
  · rw [Int.sign_eq_neg_one_of_neg hu, Int.sign_eq_neg_one_iff_neg] at hsign
    omega
  · omega
  · rw [Int.sign_eq_one_of_pos hu, Int.sign_eq_one_iff_pos] at hsign
    omega

/-- A quotient that cannot be scaled far enough is too big. -/
theorem not_inRange_tdiv {x y : ℤ} {c m : ℕ} (hcm : c < m)
    (h : ¬InRange ((x.tdiv y * 10 ^ c) * 10)) : ¬InRange ((x * 10 ^ m).tdiv y) := by
  -- zero can be scaled, and what is not zero keeps its sign and grows
  have hne : x.tdiv y ≠ 0 := by
    intro hzero
    apply h
    rw [hzero, Int.zero_mul, Int.zero_mul]
    exact ⟨by omega, by omega⟩
  have hcast : ((10 ^ m : ℕ) : ℤ) = 10 ^ m := Nat.cast_pow 10 m
  have hsucc : x.tdiv y * 10 ^ c * 10 = x.tdiv y * ((10 ^ (c + 1) : ℕ) : ℤ) := by
    rw [Nat.cast_pow, Int.mul_assoc, ← Int.pow_succ]
    rfl
  rw [hsucc] at h
  rw [← hcast]
  apply not_inRange_of_le h
  · rw [Truncated.sign_tdiv_mul (Nat.pow_pos (by omega)) hne, Int.sign_mul,
      Int.sign_natCast_of_ne_zero (Nat.pow_pos (by omega)).ne', Int.mul_one]
  · calc (x.tdiv y * ((10 ^ (c + 1) : ℕ) : ℤ)).natAbs
        = (x.tdiv y).natAbs * 10 ^ (c + 1) := by rw [Int.natAbs_mul, Int.natAbs_natCast]
      _ ≤ (x.tdiv y).natAbs * 10 ^ m :=
          Nat.mul_le_mul_left _ (Nat.pow_le_pow_right (by omega) hcm)
      _ ≤ _ := Truncated.natAbs_tdiv_mul_le x y (10 ^ m)

/-- Without a trap, the quotient is scaled in full or is too big. -/
theorem quotient_eq {i1 i2 : SINT64} {m : ℕ} (hi2 : i2 ≠ 0)
    (h : ¬(i1 = MIN_SINT64 ∧ i2 = -1)) :
    (∃ q, quotient i1 i2 m = .ok q ∧ q.toInt = i1.toInt.tdiv i2.toInt * 10 ^ m) ∨
      (quotient i1 i2 m = .error (.post .arithExcept) ∧
        ¬InRange ((i1.toInt * 10 ^ m).tdiv i2.toInt)) := by
  obtain ⟨q, hdiv, hq⟩ := div_eq hi2 h
  -- the quotient is scaled by what the operands have left
  obtain ⟨r, k, hscale, a, hak, hr, hstop⟩ := scaleUp_eq q m
  have hrun : quotient i1 i2 m =
      if k ≠ 0 then .error (.post .arithExcept) else .ok r := by
    rw [quotient, hdiv]
    change (scaleUp q m).bind _ = _
    rw [hscale]
    rfl
  rw [hq] at hr
  by_cases hk : k = 0
  · left
    refine ⟨r, ?_, ?_⟩
    · rw [hrun, if_neg (not_not.mpr hk)]
    · rw [hr, ← hak, hk, Nat.add_zero]
  · right
    refine ⟨?_, ?_⟩
    · rw [hrun, if_pos hk]
    · have hover := hstop hk
      rw [hr] at hover
      exact not_inRange_tdiv (by omega) hover

/-! ## Division -/

/-- The quotient at the scale of the result -/
def trueQuotient (desc value : Dsc) : ℚ :=
  value.value.toInt * 10 ^ addlScale desc / desc.value.toInt

/-- The quotient, truncated -/
def truncatedQuotient (desc value : Dsc) : ℤ :=
  (value.value.toInt * 10 ^ addlScale desc).tdiv desc.value.toInt

/-- The quotient is exact but for what the scaling after the division loses, an error means that
it is not representable, and no operation overflows. -/
def Sound (desc value : Dsc) (node : JrdNod) : Prop :=
  Outcome.Holds
    (fun r => r.scale = node.scale ∧ r.subType = value.subType ∧
      ∃ i1 i2 m, operands desc value = .ok (i1, i2, m) ∧
        |(r.value.toInt : ℚ)| ≤ |trueQuotient desc value| ∧
        |trueQuotient desc value - r.value.toInt| < 10 ^ m)
    (fun e => e ≠ .trap ∧ ¬InRange (truncatedQuotient desc value))
    (divide2 desc value node)

/-- The scaling of the operands leaves the quotient but for the power that is left. -/
theorem trueQuotient_eq {desc value : Dsc} {i1 i2 : ℤ} {k m : ℕ} (hdesc : desc.value.toInt ≠ 0)
    (h1 : Scaled value.value.toInt (addlScale desc) i1 k) (h2 : Stripped desc.value.toInt k i2 m) :
    trueQuotient desc value = i1 / i2 * 10 ^ m := by
  obtain ⟨a, ha, rfl, -⟩ := h1
  obtain ⟨b, hb, hy, -⟩ := h2
  have hi2 : (i2 : ℚ) ≠ 0 := by
    rintro h
    rw [Int.cast_eq_zero] at h
    rw [hy, h, Int.zero_mul] at hdesc
    exact hdesc rfl
  have hpow : (10 : ℚ) ^ b ≠ 0 := pow_ne_zero b (by norm_num)
  rw [trueQuotient, hy, ← ha, ← hb]
  push_cast
  rw [pow_add, pow_add]
  field_simp

theorem truncatedQuotient_eq {desc value : Dsc} {i1 i2 : ℤ} {k m : ℕ}
    (h1 : Scaled value.value.toInt (addlScale desc) i1 k) (h2 : Stripped desc.value.toInt k i2 m) :
    truncatedQuotient desc value = (i1 * 10 ^ m).tdiv i2 := by
  obtain ⟨a, ha, rfl, -⟩ := h1
  obtain ⟨b, hb, hy, -⟩ := h2
  have hpow : value.value.toInt * 10 ^ (a + (b + m)) =
      value.value.toInt * 10 ^ a * 10 ^ m * 10 ^ b := by ring
  rw [truncatedQuotient, hy, ← ha, ← hb, hpow]
  exact Int.mul_tdiv_mul_of_pos_left _ _ (pow_pos (by omega) b)

/-- Where the division traps -/
def Traps (desc value : Dsc) : Prop :=
  value.value.toInt = -2 ^ 63 ∧ ∃ k, 1 ≤ k ∧ k ≤ addlScale desc ∧ desc.value.toInt = -10 ^ k

theorem toInt_eq_min_iff {x : SINT64} : x.toInt = -2 ^ 63 ↔ x = MIN_SINT64 := by
  rw [← toInt_MIN_SINT64, BitVec.toInt_inj]

theorem toInt_eq_neg_one_iff {x : SINT64} : x.toInt = -1 ↔ x = -1 := by
  rw [← BitVec.toInt_inj]
  rfl

theorem toInt_ne_zero {x : SINT64} (h : x ≠ 0) : x.toInt ≠ 0 := by
  intro hx
  apply h
  rw [← BitVec.toInt_inj, hx]
  rfl

/-- Beyond the guard of `divide2`, the operands of the division are those that trap exactly where
the divisor has zeros to strip. -/
theorem traps_iff {desc value : Dsc} {i1 i2 : SINT64} {k m : ℕ}
    (h1 : Scaled value.value.toInt (addlScale desc) i1.toInt k)
    (h2 : Stripped desc.value.toInt k i2.toInt m)
    (hguard : ¬(value.value = MIN_SINT64 ∧ desc.value = -1)) :
    (i1 = MIN_SINT64 ∧ i2 = -1) ↔ Traps desc value := by
  rw [← toInt_eq_min_iff, ← toInt_eq_neg_one_iff, operands_min_iff h1 h2 (inRange_toInt i1)]
  constructor
  · rintro ⟨hmin, b, hb, hy⟩
    refine ⟨hmin, b, Nat.one_le_iff_ne_zero.mpr ?_, hb, hy⟩
    rintro rfl
    exact hguard ⟨toInt_eq_min_iff.mp hmin, toInt_eq_neg_one_iff.mp hy⟩
  · rintro ⟨hmin, b, -, hb, hy⟩
    exact ⟨hmin, b, hb, hy⟩

/-- The guard of `divide2` is right. -/
theorem sound_of_guard {desc value : Dsc} (node : JrdNod)
    (h : value.value = MIN_SINT64 ∧ desc.value = -1) :
    Sound desc value node ∧ ¬Traps desc value := by
  have hdesc : desc.value.toInt = -1 := toInt_eq_neg_one_iff.mpr h.2
  constructor
  · have hne : desc.value ≠ 0 := by
      rw [h.2]
      decide
    rw [Sound, divide2, if_neg hne, if_pos h]
    refine ⟨fun h' => (by cases h'), ?_⟩
    have hpow : (1 : ℤ) ≤ 10 ^ addlScale desc := Int.add_one_le_of_lt (pow_pos (by omega) _)
    rw [truncatedQuotient, toInt_eq_min_iff.mpr h.1, hdesc, Int.tdiv_neg, Int.tdiv_one, InRange]
    omega
  · rintro ⟨-, k, hk, -, hy⟩
    have hpow : (10 : ℤ) ^ 1 ≤ 10 ^ k := pow_le_pow_right₀ (by omega) hk
    omega

/-- Beyond the guard, `divide2` does what the division of the operands does. -/
theorem divide2_eq {desc value : Dsc} (node : JrdNod) {i1 i2 : SINT64} {m : ℕ}
    (hdesc : desc.value ≠ 0) (hguard : ¬(value.value = MIN_SINT64 ∧ desc.value = -1))
    (hop : operands desc value = .ok (i1, i2, m)) :
    divide2 desc value node =
      (quotient i1 i2 m).bind fun q => .ok ⟨q, node.scale, value.subType⟩ := by
  rw [divide2, if_neg hdesc, if_neg hguard, hop]
  rfl

/-- The integer path of `divide2` is sound exactly where its division does not trap. -/
theorem divide2_sound_iff (desc value : Dsc) (node : JrdNod) (hdesc : desc.value ≠ 0) :
    Sound desc value node ↔ ¬Traps desc value := by
  by_cases hguard : value.value = MIN_SINT64 ∧ desc.value = -1
  · have h := sound_of_guard node hguard
    exact iff_of_true h.1 h.2
  · obtain ⟨i1, i2, m, hop, k, h1, h2⟩ := operands_eq desc value
    have hrun := divide2_eq node hdesc hguard hop
    have hne := toInt_ne_zero hdesc
    have hi2 : i2.toInt ≠ 0 := by
      obtain ⟨b, -, hy, -⟩ := h2
      intro hzero
      rw [hy, hzero, Int.zero_mul] at hne
      exact hne rfl
    rw [← traps_iff h1 h2 hguard]
    by_cases htrap : i1 = MIN_SINT64 ∧ i2 = -1
    · -- the division stops
      refine iff_of_false ?_ (not_not.mpr htrap)
      rw [Sound, hrun, quotient, div_eq_trap htrap.1 htrap.2]
      exact fun h => h.1 rfl
    · refine iff_of_true ?_ htrap
      have hi2' : i2 ≠ 0 := by
        rintro rfl
        exact hi2 rfl
      rw [Sound, hrun]
      rcases quotient_eq (m := m) hi2' htrap with ⟨q, hq, hvalue⟩ | ⟨herr, hbig⟩
      · -- the quotient is scaled in full
        rw [hq]
        refine ⟨rfl, rfl, i1, i2, m, hop, ?_⟩
        have hcast : (q.toInt : ℚ) = ((i1.toInt.tdiv i2.toInt : ℤ) : ℚ) * 10 ^ m := by
          rw [hvalue]
          push_cast
          rfl
        have hpos : (0 : ℚ) < 10 ^ m := pow_pos (by norm_num) m
        rw [trueQuotient_eq hne h1 h2, hcast, ← sub_mul, abs_mul, abs_mul, abs_mul, abs_of_pos hpos]
        constructor
        · exact mul_le_mul_of_nonneg_right (Truncated.abs_le _ _) hpos.le
        · exact mul_lt_of_lt_one_left hpos (Truncated.abs_sub_lt _ hi2)
      · rw [herr]
        refine ⟨fun h => (by cases h), ?_⟩
        rwa [truncatedQuotient_eq h1 h2]

/-- 1.00 divided by 0.3 -/
theorem divide2_sound_third :
    (3 : SINT64) ≠ 0 ∧ (Sound ⟨3, -1, 0⟩ ⟨100, -2, 0⟩ ⟨.divide2, -3⟩ ↔
      ¬Traps ⟨3, -1, 0⟩ ⟨100, -2, 0⟩) :=
  ⟨by decide, divide2_sound_iff ⟨3, -1, 0⟩ ⟨100, -2, 0⟩ ⟨.divide2, -3⟩ (by decide)⟩

/-- The minimum integer divided by -1.0 -/
theorem divide2_traps :
    divide2 ⟨-10, -1, 0⟩ ⟨MIN_SINT64, 0, 0⟩ ⟨.divide2, -1⟩ = .error .trap ∧
      ¬Sound ⟨-10, -1, 0⟩ ⟨MIN_SINT64, 0, 0⟩ ⟨.divide2, -1⟩ := by
  have htrap : divide2 ⟨-10, -1, 0⟩ ⟨MIN_SINT64, 0, 0⟩ ⟨.divide2, -1⟩ = .error .trap := rfl
  refine ⟨htrap, ?_⟩
  rw [Sound, htrap]
  exact fun h => h.1 rfl

end Firebird.Evl
