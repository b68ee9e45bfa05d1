import Mathlib.Algebra.Order.Group.Nat
import Mathlib.Algebra.Order.GroupWithZero.Basic
import Mathlib.Algebra.Order.Ring.Abs
import Mathlib.Algebra.Order.Ring.Int

/-! # Exact numeric arithmetic (`add2` and `multiply2` in `jrd/evl.cpp`)

The operands are 64-bit integers at the scale that the node asks for. Addition and subtraction
are computed with wrap-around and judged by three sign bits, multiplication is judged by a trial
division before it is computed.
-/

namespace Firebird.Evl

/-- A signed 64-bit integer -/
abbrev SINT64 := BitVec 64

/-- An unsigned 64-bit integer -/
abbrev UINT64 := BitVec 64

def MAX_SINT64 : SINT64 := 0x7FFFFFFFFFFFFFFF

def MIN_SINT64 : SINT64 := -MAX_SINT64 - 1

/-- The value is in the range of a signed 64-bit integer. -/
def InRange (x : ℤ) : Prop := -2 ^ 63 ≤ x ∧ x < 2 ^ 63

/-- What `ERR_post` reports -/
inductive Error where
  /-- `isc_exception_integer_overflow` -/
  | integerOverflow
  /-- `gds_arith_except` -/
  | arithExcept
deriving DecidableEq

/-- `nod_type` of the nodes of arithmetic -/
inductive NodType where
  | add
  | subtract
  | add2
  | subtract2
  | multiply2
  | divide2
  | average2
  | aggTotal2
  | aggAverage2
  | aggTotalDistinct2
  | aggAverageDistinct2
deriving DecidableEq

/-- The fields of `struct jrd_nod` that the arithmetic reads -/
structure JrdNod where
  type : NodType
  scale : ℤ

/-- A descriptor of type `dtype_int64` and its value -/
structure Dsc where
  value : SINT64
  scale : ℤ
  subType : ℕ

/-- The `int64` path of `add2`. `desc` and `value` are at the scale of the node. -/
def add2 (desc : Dsc) (node : JrdNod) (value : Dsc) : Except Error Dsc :=
  let i1 := desc.value
  let i2 := value.value
  let result := if node.type = .subtract2 then i2 - i1 else i1 + i2
  -- invert the sign bit
  let i1 := if node.type = .subtract2 then i1 ^^^ MIN_SINT64 else i1
  if BitVec.sle 0 (i1 ^^^ i2) ∧ BitVec.slt (i1 ^^^ result) 0 then
    .error .integerOverflow
  else
    .ok ⟨result, node.scale, max desc.subType value.subType⟩

/-- The `int64` path of `multiply2`. `desc` is at the scale of the node less that of `value`. -/
def multiply2 (desc value : Dsc) (node : JrdNod) : Except Error Dsc :=
  let i1 := desc.value
  let i2 := value.value
  let u1 : UINT64 := if BitVec.sle 0 i1 then i1 else -i1
  let u2 : UINT64 := if BitVec.sle 0 i2 then i2 else -i2
  -- largest product
  let u_limit : UINT64 := if BitVec.sle 0 (i1 ^^^ i2) then MAX_SINT64 else MAX_SINT64 + 1
  if u1 ≠ 0 ∧ u_limit / u1 < u2 then
    .error .integerOverflow
  else
    .ok ⟨i1 * i2, node.scale, value.subType⟩

/-! ## Signs -/

theorem inRange_toInt (x : SINT64) : InRange x.toInt :=
  ⟨BitVec.le_toInt x, BitVec.toInt_lt⟩

theorem sle_zero_iff {x : SINT64} : BitVec.sle 0 x ↔ x.msb = false := by
  rw [BitVec.sle_iff_toInt_le, BitVec.msb_eq_toInt, decide_eq_false_iff_not, not_lt]
  rfl

theorem slt_zero_iff {x : SINT64} : BitVec.slt x 0 ↔ x.msb = true := by
  rw [BitVec.slt_iff_toInt_lt, BitVec.msb_eq_toInt, decide_eq_true_iff]
  rfl

theorem msb_MIN_SINT64 : MIN_SINT64.msb = true := by decide

/-- Addition overflows where two operands of one sign have a sum of the other. -/
theorem sum_guard_iff (x y : SINT64) :
    BitVec.sle 0 (x ^^^ y) ∧ BitVec.slt (x ^^^ (x + y)) 0 ↔ ¬InRange (x.toInt + y.toInt) := by
  have hover : x.saddOverflow y = true ↔ ¬InRange (x.toInt + y.toInt) := by
    rw [BitVec.saddOverflow, Bool.or_eq_true, decide_eq_true_iff, decide_eq_true_iff, InRange]
    omega
  rw [← hover, BitVec.saddOverflow_eq, sle_zero_iff, slt_zero_iff, BitVec.msb_xor, BitVec.msb_xor]
  generalize x.msb = a, y.msb = b, (x + y).msb = c
  revert a b c
  decide

/-- Subtraction overflows where the addition of the operand with its sign bit inverted does. -/
theorem difference_guard_iff (x y : SINT64) :
    BitVec.sle 0 ((x ^^^ MIN_SINT64) ^^^ y) ∧ BitVec.slt ((x ^^^ MIN_SINT64) ^^^ (y - x)) 0 ↔
      ¬InRange (y.toInt - x.toInt) := by
  have hover : y.ssubOverflow x = true ↔ ¬InRange (y.toInt - x.toInt) := by
    rw [BitVec.ssubOverflow, Bool.or_eq_true, decide_eq_true_iff, decide_eq_true_iff, InRange]
    omega
  rw [← hover, BitVec.ssubOverflow_eq, sle_zero_iff, slt_zero_iff]
  simp only [BitVec.msb_xor, msb_MIN_SINT64]
  generalize x.msb = a, y.msb = b, (y - x).msb = c
  revert a b c
  decide

/-! ## The trial division -/

/-- `abs(i)` -/
theorem toNat_abs (x : SINT64) : (if BitVec.sle 0 x then x else -x).toNat = x.toInt.natAbs := by
  have hx := x.isLt
  by_cases h : x.msb = false
  · rw [if_pos (sle_zero_iff.mpr h), BitVec.toInt_eq_msb_cond, if_neg (by rw [h]; decide)]
    rfl
  · have hneg : x.msb = true := by simpa using h
    have hlow : 2 ^ 63 ≤ x.toNat := by simpa [BitVec.msb_eq_decide] using hneg
    rw [if_neg (mt sle_zero_iff.mp h), BitVec.toInt_eq_msb_cond, if_pos hneg, BitVec.toNat_neg]
    omega

/-- The largest product -/
theorem toNat_limit (x y : SINT64) :
    (if BitVec.sle 0 (x ^^^ y) then MAX_SINT64 else MAX_SINT64 + 1 : UINT64).toNat =
      if x.msb = y.msb then 2 ^ 63 - 1 else 2 ^ 63 := by
  have hsign : BitVec.sle 0 (x ^^^ y) ↔ x.msb = y.msb := by
    rw [sle_zero_iff, BitVec.msb_xor]
    cases x.msb <;> cases y.msb <;> decide
  by_cases h : x.msb = y.msb
  · rw [if_pos (hsign.mpr h), if_pos h]
    rfl
  · rw [if_neg (mt hsign.mp h), if_neg h]
    rfl

theorem toInt_nonneg_iff {x : SINT64} : 0 ≤ x.toInt ↔ x.msb = false := by
  rw [BitVec.msb_eq_toInt, decide_eq_false_iff_not, not_lt]

/-- A product of integers of one sign is bounded above, of others below. -/
theorem inRange_mul_iff (x y : SINT64) :
    InRange (x.toInt * y.toInt) ↔
      x.toInt.natAbs * y.toInt.natAbs ≤ if x.msb = y.msb then 2 ^ 63 - 1 else 2 ^ 63 := by
  have hx :
      x.toInt = x.toInt.natAbs ∧ x.msb = false ∨ x.toInt = -x.toInt.natAbs ∧ x.msb = true := by
    rw [← Bool.not_eq_false x.msb, ← toInt_nonneg_iff]
    omega
  have hy :
      y.toInt = y.toInt.natAbs ∧ y.msb = false ∨ y.toInt = -y.toInt.natAbs ∧ y.msb = true := by
    rw [← Bool.not_eq_false y.msb, ← toInt_nonneg_iff]
    omega
  generalize x.toInt.natAbs = a at hx ⊢
  generalize y.toInt.natAbs = b at hy ⊢
  have hcast : ((a * b : ℕ) : ℤ) = a * b := Nat.cast_mul a b
  rw [InRange]
  rcases hx with ⟨hx, hxs⟩ | ⟨hx, hxs⟩ <;> rcases hy with ⟨hy, hys⟩ | ⟨hy, hys⟩ <;>
    rw [hx, hy, hxs, hys]
  · rw [if_pos rfl]
    omega
  · rw [if_neg (by decide), Int.mul_neg]
    omega
  · rw [if_neg (by decide), Int.neg_mul]
    omega
  · rw [if_pos rfl, Int.neg_mul_neg]
    omega

/-- The trial division finds the products out of range. -/
theorem product_guard_iff (x y : SINT64) :
    ((if BitVec.sle 0 x then x else -x : UINT64) ≠ 0 ∧
      (if BitVec.sle 0 (x ^^^ y) then MAX_SINT64 else MAX_SINT64 + 1 : UINT64) /
        (if BitVec.sle 0 x then x else -x) < (if BitVec.sle 0 y then y else -y)) ↔
      ¬InRange (x.toInt * y.toInt) := by
  rw [inRange_mul_iff, ← toNat_limit, ← toNat_abs, ← toNat_abs, not_le]
  generalize (if BitVec.sle 0 x then x else -x : UINT64) = u1
  generalize (if BitVec.sle 0 y then y else -y : UINT64) = u2
  generalize (if BitVec.sle 0 (x ^^^ y) then MAX_SINT64 else MAX_SINT64 + 1 : UINT64) = u_limit
  rw [BitVec.lt_def, BitVec.toNat_udiv, ne_eq, ← BitVec.toNat_inj]
  change u1.toNat ≠ 0 ∧ _ ↔ _
  constructor
  · rintro ⟨hpos, hlt⟩
    rwa [Nat.div_lt_iff_lt_mul (Nat.pos_of_ne_zero hpos), Nat.mul_comm] at hlt
  · intro hlt
    have hpos : u1.toNat ≠ 0 := by
      intro h
      rw [h, Nat.zero_mul] at hlt
      exact absurd hlt (Nat.not_lt_zero _)
    refine ⟨hpos, ?_⟩
    rwa [Nat.div_lt_iff_lt_mul (Nat.pos_of_ne_zero hpos), Nat.mul_comm]

/-! ## The operations -/

/-- The result is exact where that is in range, and otherwise an overflow. -/
def Exact (x : ℤ) (scale : ℤ) (subType : ℕ) (r : Except Error Dsc) : Prop :=
  (r = .error .integerOverflow ↔ ¬InRange x) ∧
    (InRange x → ∃ v : SINT64, v.toInt = x ∧ r = .ok ⟨v, scale, subType⟩)

/-- A guard that finds the values out of range -/
theorem exact_of_guard {x scale : ℤ} {subType : ℕ} {p : Prop} [Decidable p] {v : SINT64}
    (hp : p ↔ ¬InRange x) (hv : InRange x → v.toInt = x) :
    Exact x scale subType (if p then .error .integerOverflow else .ok ⟨v, scale, subType⟩) := by
  constructor
  · by_cases h : p
    · rw [if_pos h]
      exact iff_of_true rfl (hp.mp h)
    · rw [if_neg h]
      exact iff_of_false (fun h' => by cases h') (mt hp.mpr h)
  · intro hx
    exact ⟨v, hv hx, if_neg (fun h => hp.mp h hx)⟩

theorem toInt_of_inRange {v : SINT64} {x : ℤ} (hv : v.toInt = x.bmod (2 ^ 64)) (hx : InRange x) :
    v.toInt = x := by
  rw [hv, Int.bmod_eq_of_le]
  · exact hx.1
  · exact hx.2

/-- The value that the node stands for -/
def JrdNod.sum (node : JrdNod) (desc value : Dsc) : ℤ :=
  if node.type = .subtract2 then value.value.toInt - desc.value.toInt
  else desc.value.toInt + value.value.toInt

theorem add2_exact (desc : Dsc) (node : JrdNod) (value : Dsc) :
    Exact (node.sum desc value) node.scale (max desc.subType value.subType)
      (add2 desc node value) := by
  unfold add2 JrdNod.sum
  by_cases h : node.type = .subtract2
  · simp only [if_pos h]
    exact exact_of_guard (difference_guard_iff _ _) (toInt_of_inRange BitVec.toInt_sub)
  · simp only [if_neg h]
    exact exact_of_guard (sum_guard_iff _ _) (toInt_of_inRange (BitVec.toInt_add _ _))

theorem multiply2_exact (desc value : Dsc) (node : JrdNod) :
    Exact (desc.value.toInt * value.value.toInt) node.scale value.subType
      (multiply2 desc value node) :=
  exact_of_guard (product_guard_iff _ _) (toInt_of_inRange (BitVec.toInt_mul _ _))

/-- Addition, subtraction and multiplication overflow exactly where the value is out of range, and
are exact elsewhere. -/
theorem arithmetic_exact (desc value : Dsc) (node : JrdNod) :
    Exact (node.sum desc value) node.scale (max desc.subType value.subType)
        (add2 desc node value) ∧
      Exact (desc.value.toInt * value.value.toInt) node.scale value.subType
        (multiply2 desc value node) :=
  ⟨add2_exact desc node value, multiply2_exact desc value node⟩

end Firebird.Evl
