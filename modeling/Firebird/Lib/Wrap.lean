import Mathlib.Algebra.Order.Ring.Int

/-! # Wrap-around

The conversion of an integer to a machine integer. To a signed one it is the balanced remainder
`Int.bmod` by the number of its values, brought into a form that linear arithmetic decides.
-/

namespace Wrap

theorem bmod_eq (h : ℕ) (x : ℤ) : x.bmod (2 * h) = (x + h) % (2 * h) - h := by
  by_cases hh : h = 0
  · subst hh
    simp [Int.bmod]
  · have hpos : (0 : ℤ) < h := by omega
    have hle := Int.le_bmod (x := x) (m := 2 * h) (by omega)
    have hlt := Int.bmod_lt (x := x) (m := 2 * h) (by omega)
    have hmod : (x.bmod (2 * h) + h) % (2 * h : ℕ) = (x + h) % (2 * h : ℕ) := by
      rw [Int.add_emod, Int.bmod_emod, ← Int.add_emod]
    push_cast at hle hlt hmod
    rw [← hmod, Int.emod_eq_of_lt (by omega) (by omega)]
    omega

/-! ## Conversions -/

def toInt16 (x : ℤ) : ℤ := x.bmod 65536

def toInt32 (x : ℤ) : ℤ := x.bmod 4294967296

def toUInt32 (x : ℤ) : ℤ := x % 4294967296

def toInt64 (x : ℤ) : ℤ := x.bmod 18446744073709551616

theorem toInt16_eq (x : ℤ) : toInt16 x = (x + 32768) % 65536 - 32768 :=
  bmod_eq 32768 x

theorem toInt32_eq (x : ℤ) : toInt32 x = (x + 2147483648) % 4294967296 - 2147483648 :=
  bmod_eq 2147483648 x

theorem toInt64_eq (x : ℤ) :
    toInt64 x = (x + 9223372036854775808) % 18446744073709551616 - 9223372036854775808 :=
  bmod_eq 9223372036854775808 x

theorem toInt16_of_lt {x : ℤ} (h : -32768 ≤ x) (h' : x < 32768) : toInt16 x = x := by
  rw [toInt16_eq]
  omega

theorem toInt32_of_lt {x : ℤ} (h : -2147483648 ≤ x) (h' : x < 2147483648) : toInt32 x = x := by
  rw [toInt32_eq]
  omega

theorem toInt64_of_lt {x : ℤ} (h : -9223372036854775808 ≤ x) (h' : x < 9223372036854775808) :
    toInt64 x = x := by
  rw [toInt64_eq]
  omega

end Wrap
