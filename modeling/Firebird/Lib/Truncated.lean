import Mathlib.Algebra.Order.Ring.Int
import Mathlib.Data.Rat.Cast.Order
import Mathlib.Algebra.Order.Field.Basic

/-! # Division toward zero

Facts of `Int.tdiv`, the division of integers that rounds toward zero: what is lost, and what
scaling the dividend does.
-/

namespace Truncated

variable {x y : ℤ}

theorem natAbs_mul_le (x y : ℤ) : (x.tdiv y).natAbs * y.natAbs ≤ x.natAbs := by
  rw [Int.natAbs_tdiv]
  exact Nat.div_mul_le_self _ _

theorem natAbs_sub_lt (x : ℤ) (hy : y ≠ 0) : (x - x.tdiv y * y).natAbs < y.natAbs := by
  have hmod : x - x.tdiv y * y = x.tmod y := by
    have h := Int.mul_tdiv_add_tmod x y
    rw [Int.mul_comm] at h
    omega
  rw [hmod, Int.natAbs_tmod]
  exact Nat.mod_lt _ (Int.natAbs_pos.mpr hy)

/-- The quotient of the scaled dividend is at least the scaled quotient. -/
theorem natAbs_tdiv_mul_le (x y : ℤ) (p : ℕ) :
    (x.tdiv y).natAbs * p ≤ ((x * p).tdiv y).natAbs := by
  rw [Int.natAbs_tdiv, Int.natAbs_tdiv, Int.natAbs_mul, Int.natAbs_natCast, Nat.mul_comm,
    Nat.mul_comm x.natAbs]
  exact Nat.mul_div_le_mul_div_assoc _ _ _

theorem sign_tdiv_mul {p : ℕ} (hp : 0 < p) (h : x.tdiv y ≠ 0) :
    ((x * p).tdiv y).sign = (x.tdiv y).sign := by
  have hle : y.natAbs ≤ x.natAbs := by
    by_contra hlt
    have hzero : x.tdiv y = 0 := by
      rw [← Int.natAbs_eq_zero, Int.natAbs_tdiv]
      exact Nat.div_eq_of_lt (not_le.mp hlt)
    exact h hzero
  have hle' : y.natAbs ≤ (x * p).natAbs := by
    rw [Int.natAbs_mul, Int.natAbs_natCast]
    exact hle.trans (Nat.le_mul_of_pos_right _ hp)
  rw [Int.sign_tdiv, Int.sign_tdiv, if_neg (not_lt.mpr hle), if_neg (not_lt.mpr hle'), Int.sign_mul,
    Int.sign_natCast_of_ne_zero hp.ne', Int.mul_one]

/-- The quotient by its bounds, for a dividend of each sign -/
theorem bounds (x : ℤ) {d : ℤ} (hd : 0 < d) :
    (0 ≤ x → d * x.tdiv d ≤ x ∧ x < d * x.tdiv d + d) ∧
      (x ≤ 0 → d * x.tdiv d - d < x ∧ x ≤ d * x.tdiv d) := by
  have hsum := Int.mul_tdiv_add_tmod x d
  have hlt := Int.tmod_lt_of_pos x hd
  have hgt := Int.lt_tmod_of_pos x hd
  constructor
  · intro hx
    have := Int.tmod_nonneg d hx
    omega
  · intro hx
    have := Int.tmod_nonneg d (Int.neg_nonneg_of_nonpos hx)
    rw [Int.neg_tmod] at this
    omega

theorem tdiv_tdiv (x : ℤ) (a b : ℕ) : (x.tdiv a).tdiv b = x.tdiv (a * b : ℕ) := by
  obtain ⟨m, rfl | rfl⟩ := Int.eq_nat_or_neg x
  · rw [← Int.ofNat_tdiv, ← Int.ofNat_tdiv, ← Int.ofNat_tdiv, Nat.div_div_eq_div_mul]
  · rw [Int.neg_tdiv, Int.neg_tdiv, Int.neg_tdiv, ← Int.ofNat_tdiv, ← Int.ofNat_tdiv,
      ← Int.ofNat_tdiv, Nat.div_div_eq_div_mul]

/-! ## Against the exact quotient -/

theorem abs_le (x y : ℤ) : |((x.tdiv y : ℤ) : ℚ)| ≤ |(x : ℚ) / y| := by
  rw [abs_div]
  by_cases hy : y = 0
  · rw [hy, Int.tdiv_zero]
    simp
  · have hpos : (0 : ℚ) < |(y : ℚ)| := abs_pos.mpr (Int.cast_ne_zero.mpr hy)
    rw [le_div_iff₀ hpos, ← Int.cast_abs, ← Int.cast_abs, ← Int.cast_abs, Int.abs_eq_natAbs,
      Int.abs_eq_natAbs, Int.abs_eq_natAbs]
    exact_mod_cast natAbs_mul_le x y

theorem abs_sub_lt (x : ℤ) (hy : y ≠ 0) : |(x : ℚ) / y - (x.tdiv y : ℤ)| < 1 := by
  have hpos : (0 : ℚ) < |(y : ℚ)| := abs_pos.mpr (Int.cast_ne_zero.mpr hy)
  have hdiff : (x : ℚ) / y - (x.tdiv y : ℤ) = ((x - x.tdiv y * y : ℤ) : ℚ) / y := by
    rw [Int.cast_sub, Int.cast_mul, sub_div, mul_div_cancel_right₀ _ (Int.cast_ne_zero.mpr hy)]
  rw [hdiff, abs_div, div_lt_one hpos, ← Int.cast_abs, ← Int.cast_abs, Int.abs_eq_natAbs,
    Int.abs_eq_natAbs]
  exact_mod_cast natAbs_sub_lt x hy

end Truncated
