import Mathlib.Algebra.Order.Floor.Ring
import Mathlib.Algebra.Order.Ring.Int
import Mathlib.Data.Rat.Floor
import Mathlib.Tactic.Linarith

/-! # Rounding half away from zero

The integer nearest to a number, where a tie between two integers goes to the one that is farther
from zero.
-/

namespace HalfAway

variable {K : Type*} [Field K] [LinearOrder K] [IsStrictOrderedRing K]

/-- `z` is nearest to `q`, and no other nearest integer is farther from zero. -/
structure Rounds (q : K) (z : ℤ) : Prop where
  nearest : ∀ w : ℤ, |q - z| ≤ |q - w|
  away : ∀ w : ℤ, |q - w| = |q - z| → |w| ≤ |z|

/-- The interval of what is rounded to `z`. It is closed at the end that is nearer to zero. -/
def Near (q : K) (z : ℤ) : Prop :=
  (0 ≤ q → 2 * z - 1 ≤ 2 * q ∧ 2 * q < 2 * z + 1) ∧
    (q < 0 → 2 * z - 1 < 2 * q ∧ 2 * q ≤ 2 * z + 1)

/-! ## The rounded number -/

variable [FloorRing K]

def halfAway (q : K) : ℤ := if 0 ≤ q then ⌊q + 1 / 2⌋ else ⌈q - 1 / 2⌉

theorem halfAway_eq_iff {q : K} {z : ℤ} : halfAway q = z ↔ Near q z := by
  unfold halfAway Near
  rcases le_or_gt 0 q with hq | hq
  · rw [if_pos hq, Int.floor_eq_iff]
    constructor
    · rintro ⟨hle, hlt⟩
      exact ⟨fun _ => ⟨by linarith, by linarith⟩, fun h => absurd h (not_lt.mpr hq)⟩
    · rintro ⟨h, -⟩
      exact ⟨by linarith [(h hq).1], by linarith [(h hq).2]⟩
  · rw [if_neg (not_le.mpr hq), Int.ceil_eq_iff]
    constructor
    · rintro ⟨hlt, hle⟩
      exact ⟨fun h => absurd h (not_le.mpr hq), fun _ => ⟨by linarith, by linarith⟩⟩
    · rintro ⟨-, h⟩
      exact ⟨by linarith [(h hq).1], by linarith [(h hq).2]⟩

@[simp] theorem halfAway_intCast (z : ℤ) : halfAway (z : K) = z := by
  rw [halfAway_eq_iff]
  exact ⟨fun _ => ⟨by linarith, by linarith⟩, fun _ => ⟨by linarith, by linarith⟩⟩

/-- The quotient of two integers is rounded to `z`. -/
theorem halfAway_div {x d z : ℤ} (hd : 0 < d)
    (hpos : 0 ≤ x → d * (2 * z - 1) ≤ 2 * x ∧ 2 * x < d * (2 * z + 1))
    (hneg : x < 0 → d * (2 * z - 1) < 2 * x ∧ 2 * x ≤ d * (2 * z + 1)) :
    halfAway ((x : K) / d) = z := by
  have hd' : (0 : K) < d := by exact_mod_cast hd
  have htwo : 2 * ((x : K) / d) = ((2 * x : ℤ) : K) / d := by
    push_cast
    rw [mul_div_assoc]
  have hlow : (2 * z - 1 : K) * d = ((d * (2 * z - 1) : ℤ) : K) := by
    push_cast
    rw [mul_comm]
  have hhigh : (2 * z + 1 : K) * d = ((d * (2 * z + 1) : ℤ) : K) := by
    push_cast
    rw [mul_comm]
  rw [halfAway_eq_iff]
  constructor
  · intro h
    have hx : 0 ≤ x := by
      rw [le_div_iff₀ hd', zero_mul] at h
      exact_mod_cast h
    rw [htwo, le_div_iff₀ hd', div_lt_iff₀ hd', hlow, hhigh, Int.cast_le, Int.cast_lt]
    exact hpos hx
  · intro h
    have hx : x < 0 := by
      rw [div_lt_iff₀ hd', zero_mul] at h
      exact_mod_cast h
    rw [htwo, lt_div_iff₀ hd', div_le_iff₀ hd', hlow, hhigh, Int.cast_le, Int.cast_lt]
    exact hneg hx

end HalfAway
