import Firebird.Lib.HalfAway
import Firebird.Lib.Outcome
import Firebird.Lib.Truncated
import Firebird.Cvt.Decompose

/-! # Exact numerics at another scale (`CVT_get_long`, `CVT_get_int64` and `CVT_move`)

A number of a smaller scale is multiplied by ten within a limit. A number of a larger scale is
divided by ten, and the last digit that falls away decides how the quotient is rounded. The
operations that can overflow are checked in the model.
-/

namespace Firebird.Cvt

open Wrap HalfAway

/-- The types of exact numerics -/
inductive ExactType where
  | short
  | long
  | int64
deriving DecidableEq

/-- The value is in the range of the type. -/
def ExactType.Fits : ExactType → ℤ → Prop
  | .short, x => -32768 ≤ x ∧ x ≤ 32767
  | .long, x => -2147483648 ≤ x ∧ x ≤ 2147483647
  | .int64, x => -9223372036854775808 ≤ x ∧ x ≤ 9223372036854775807

instance (w : ExactType) (x : ℤ) : Decidable (w.Fits x) := by
  cases w <;> exact instDecidableAnd

/-- A descriptor of an exact numeric and its value. The scale is an `SCHAR`. -/
structure ExactDsc where
  dtype : ExactType
  value : ℤ
  scale : ℤ
  fits : dtype.Fits value
  scale_fits : -128 ≤ scale ∧ scale ≤ 127

/-- What ends a conversion without a value -/
inductive Halt where
  /-- `gds_arith_except` -/
  | arithExcept
  /-- A signed operation overflows -/
  | overflow
deriving DecidableEq

/-- The result of a signed operation on the type -/
def checked (w : ExactType) (x : ℤ) : Except Halt ℤ :=
  if w.Fits x then .ok x else .error .overflow

/-- The loop that divides. It keeps the last digit that falls away. -/
def divideScale : ℕ → ℤ → ℤ → ℤ × ℤ
  | 0, value, fraction => (value, fraction)
  | scale + 1, value, fraction =>
    divideScale scale (value.tdiv 10)
      (if scale + 1 = 1 then toInt32 (value.tmod 10) else fraction)

/-- The adjustment to a larger scale -/
def roundDown (w : ExactType) (scale : ℕ) (value : ℤ) : Except Halt ℤ :=
  let (value, fraction) := divideScale scale value 0
  if fraction > 4 then checked w (value + 1)
  else if fraction < -4 then checked w (value - 1)
  else .ok value

/-- The adjustment to a smaller scale -/
def timesTen (w : ExactType) (limit : ℤ) : ℕ → ℤ → Except Halt ℤ
  | 0, value => .ok value
  | scale + 1, value =>
    if value > limit ∨ value < -limit then .error .arithExcept
    else (checked w (value * 10)).bind (timesTen w limit scale)

/-- Adjust for scale. -/
def rescale (w : ExactType) (limit value scale : ℤ) : Except Halt ℤ :=
  if scale > 0 then roundDown w scale.toNat value
  else if scale < 0 then timesTen w limit (-scale).toNat value
  else .ok value

/-- `CVT_get_long` of an exact numeric -/
def ExactDsc.CVT_get_long (desc : ExactDsc) (scale : ℤ) : Except Halt ℤ :=
  let scale := toInt16 (scale - desc.scale)
  match desc.dtype with
  | .short | .long => rescale .long LONG_LIMIT desc.value scale
  | .int64 =>
    -- adjust for scale first, before range-checking the value
    (rescale .int64 INT64_LIMIT desc.value scale).bind fun val64 =>
      if val64 > 2147483647 ∨ val64 < -2147483648 then .error .arithExcept
      else .ok (toInt32 val64)

/-- `CVT_get_int64` of an exact numeric -/
def ExactDsc.CVT_get_int64 (desc : ExactDsc) (scale : ℤ) : Except Halt ℤ :=
  rescale .int64 INT64_LIMIT desc.value (toInt16 (scale - desc.scale))

/-- `CVT_move` of an exact numeric to one of type `dtype_short` -/
def ExactDsc.CVT_move_short (desc : ExactDsc) (to_scale : ℤ) : Except Halt ℤ :=
  -- `DSC_EQUIV`
  if desc.dtype = .short ∧ desc.scale = to_scale then .ok desc.value
  else
    (desc.CVT_get_long to_scale).bind fun l =>
      if toInt16 l ≠ l then .error .arithExcept else .ok (toInt16 l)

/-! ## The value at the scale -/

/-- The value in units of the scale `t` -/
def ExactDsc.atScale (desc : ExactDsc) (t : ℤ) : ℚ := desc.value * 10 ^ (desc.scale - t)

/-- An integer is returned where it fits the type. -/
def returned (w : ExactType) (x : ℤ) : Except Halt ℤ :=
  if w.Fits x then .ok x else .error .arithExcept

theorem returned_of_fits {w : ExactType} {x : ℤ} (h : w.Fits x) : returned w x = .ok x := if_pos h

theorem ExactType.Fits.of_abs_le {w : ExactType} {x y : ℤ} (h : w.Fits y) (hpos : 0 < x → x ≤ y)
    (hneg : x < 0 → y ≤ x) : w.Fits x := by
  cases w <;> unfold ExactType.Fits at h ⊢ <;> omega

/-! ## Multiplication -/

theorem fits_of_mul {w : ExactType} {x : ℤ} (n : ℕ) (h : w.Fits (x * 10 ^ n)) : w.Fits x := by
  have hone : (1 : ℤ) ≤ 10 ^ n := one_le_pow₀ (by omega)
  apply h.of_abs_le
  · intro hx
    exact le_mul_of_one_le_right hx.le hone
  · intro hx
    exact mul_le_of_one_le_right hx.le hone

/-- The limit of the loop is the bound of what can be multiplied. -/
theorem timesTen_eq {w : ExactType} {limit : ℤ}
    (hlimit : ∀ x, x > limit ∨ x < -limit ↔ ¬w.Fits (x * 10)) (n : ℕ) {x : ℤ} (hx : w.Fits x) :
    timesTen w limit n x = returned w (x * 10 ^ n) := by
  induction n generalizing x with
  | zero =>
    rw [pow_zero, Int.mul_one]
    exact (returned_of_fits hx).symm
  | succ n ih =>
    rw [timesTen, pow_succ', ← Int.mul_assoc]
    by_cases hfits : w.Fits (x * 10)
    · rw [if_neg (fun h => (hlimit x).mp h hfits), checked, if_pos hfits]
      exact ih hfits
    · rw [if_pos ((hlimit x).mpr hfits), returned, if_neg (mt (fits_of_mul n) hfits)]

theorem long_limit (x : ℤ) : x > LONG_LIMIT ∨ x < -LONG_LIMIT ↔ ¬ExactType.long.Fits (x * 10) := by
  have h : LONG_LIMIT = 214748364 := by decide
  rw [h, ExactType.Fits]
  omega

theorem int64_limit (x : ℤ) :
    x > INT64_LIMIT ∨ x < -INT64_LIMIT ↔ ¬ExactType.int64.Fits (x * 10) := by
  have h : INT64_LIMIT = 922337203685477580 := by decide
  rw [h, ExactType.Fits]
  omega

/-! ## Division -/

/-- What the loop that divides returns -/
theorem divideScale_eq (n : ℕ) (x f : ℤ) :
    divideScale (n + 1) x f =
      ((x.tdiv (10 ^ n)).tdiv 10, toInt32 ((x.tdiv (10 ^ n)).tmod 10)) := by
  induction n generalizing x f with
  | zero =>
    rw [pow_zero, Int.tdiv_one]
    rfl
  | succ n ih =>
    have hpow : (x.tdiv 10).tdiv (10 ^ n) = x.tdiv (10 ^ (n + 1)) := by
      have h := Truncated.tdiv_tdiv x 10 (10 ^ n)
      rw [← pow_succ', Nat.cast_pow, Nat.cast_pow] at h
      exact h
    rw [divideScale, ih, hpow]

/-- The quotient is rounded by its last digit. -/
theorem roundDown_eq {w : ExactType} (n : ℕ) {x : ℤ} (hx : w.Fits x) :
    roundDown w (n + 1) x = returned w (halfAway ((x : ℚ) / (10 ^ (n + 1) : ℤ))) := by
  have hpos : (0 : ℤ) < 10 ^ n := pow_pos (by omega) n
  obtain ⟨hx0, hx1⟩ := Truncated.bounds x hpos
  obtain ⟨hu0, hu1⟩ := Truncated.bounds (x.tdiv (10 ^ n)) (d := 10) (by omega)
  have hsum := Int.mul_tdiv_add_tmod (x.tdiv (10 ^ n)) 10
  have hlt := Int.tmod_lt_of_pos (x.tdiv (10 ^ n)) (b := 10) (by omega)
  have hgt := Int.lt_tmod_of_pos (x.tdiv (10 ^ n)) (b := 10) (by omega)
  rw [roundDown, divideScale_eq]
  dsimp only
  rw [toInt32_of_lt (by omega) (by omega)]
  generalize (x.tdiv (10 ^ n)).tmod 10 = r at *
  generalize (x.tdiv (10 ^ n)).tdiv 10 = q at *
  generalize x.tdiv (10 ^ n) = u at *
  have hu : (0 ≤ x → 0 ≤ u ∧ u ≤ x) ∧ (x < 0 → x ≤ u ∧ u ≤ 0) := by
    constructor
    · intro hx
      have h0 : 0 ≤ u := by nlinarith [hx0 hx]
      exact ⟨h0, (le_mul_of_one_le_left h0 hpos).trans (hx0 hx).1⟩
    · intro hx
      have h0 : u ≤ 0 := by nlinarith [hx1 hx.le]
      exact ⟨(hx1 hx.le).2.trans (mul_le_of_one_le_left h0 hpos), h0⟩
  -- `z` is the quotient after the correction by the last digit
  have hround : ∀ z : ℤ, (0 ≤ x → 10 * z - 5 ≤ u ∧ u < 10 * z + 5) →
      (x < 0 → 10 * z - 5 < u ∧ u ≤ 10 * z + 5) →
      w.Fits z ∧ halfAway ((x : ℚ) / (10 ^ (n + 1) : ℤ)) = z := by
    intro z hnonneg hneg
    constructor
    · apply hx.of_abs_le
      · omega
      · omega
    · rw [pow_succ]
      apply halfAway_div (by omega)
      · intro hx
        have hlow := Int.mul_le_mul_of_nonneg_left (hnonneg hx).1 hpos.le
        have hhigh := Int.mul_le_mul_of_nonneg_left (hnonneg hx).2 hpos.le
        constructor
        · nlinarith [hx0 hx]
        · nlinarith [hx0 hx]
      · intro hx
        have hlow := Int.mul_le_mul_of_nonneg_left (hneg hx).1 hpos.le
        have hhigh := Int.mul_le_mul_of_nonneg_left (hneg hx).2 hpos.le
        constructor
        · nlinarith [hx1 hx.le]
        · nlinarith [hx1 hx.le]
  split
  · obtain ⟨hfits, hz⟩ := hround (q + 1) (by omega) (by omega)
    rw [hz, checked, if_pos hfits, returned_of_fits hfits]
  · split
    · obtain ⟨hfits, hz⟩ := hround (q - 1) (by omega) (by omega)
      rw [hz, checked, if_pos hfits, returned_of_fits hfits]
    · obtain ⟨hfits, hz⟩ := hround q (by omega) (by omega)
      rw [hz, returned_of_fits hfits]

theorem rescale_eq {w : ExactType} {limit : ℤ}
    (hlimit : ∀ x, x > limit ∨ x < -limit ↔ ¬w.Fits (x * 10)) {x : ℤ} (hx : w.Fits x) (s : ℤ) :
    rescale w limit x s = returned w (halfAway ((x : ℚ) * 10 ^ (-s))) := by
  unfold rescale
  rcases lt_trichotomy 0 s with hs | hs | hs
  · obtain ⟨n, hn⟩ := Int.eq_succ_of_zero_lt hs
    have hpow : (x : ℚ) * 10 ^ (-s) = x / (10 ^ (n + 1) : ℤ) := by
      rw [hn, zpow_neg, ← Nat.cast_succ, zpow_natCast, ← div_eq_mul_inv]
      push_cast
      rfl
    rw [if_pos hs, hpow, hn]
    exact roundDown_eq n hx
  · subst hs
    rw [if_neg (lt_irrefl _), if_neg (lt_irrefl _), Int.neg_zero, zpow_zero, mul_one,
      halfAway_intCast, returned_of_fits hx]
  · obtain ⟨n, hn⟩ := Int.eq_ofNat_of_zero_le (Int.neg_nonneg_of_nonpos hs.le)
    have hpow : (x : ℚ) * 10 ^ (-s) = (x * 10 ^ n : ℤ) := by
      rw [hn, zpow_natCast]
      push_cast
      rfl
    rw [if_neg (not_lt.mpr hs.le), if_pos hs, hpow, hn, Int.toNat_natCast, timesTen_eq hlimit n hx,
      halfAway_intCast]

/-! ## The conversions -/

/-- A range check after a conversion to a wider type -/
theorem returned_bind {w w' : ExactType} {x : ℤ} {f : ℤ → Except Halt ℤ}
    (hw : ∀ x, w'.Fits x → w.Fits x) (hf : ∀ x, f x = returned w' x) :
    (returned w x).bind f = returned w' x := by
  by_cases h : w.Fits x
  · rw [returned_of_fits h, Outcome.ok_bind, hf]
  · rw [returned, if_neg h, returned, if_neg (mt (hw x) h)]
    rfl

theorem ExactType.Fits.widen {w : ExactType} {x : ℤ} (h : w.Fits x) : ExactType.int64.Fits x := by
  cases w <;> unfold ExactType.Fits at h ⊢ <;> omega

variable {desc : ExactDsc} {t : ℤ}

theorem CVT_get_int64_eq (h : toInt16 (t - desc.scale) = t - desc.scale) :
    desc.CVT_get_int64 t = returned .int64 (halfAway (desc.atScale t)) := by
  rw [ExactDsc.CVT_get_int64, h, rescale_eq int64_limit desc.fits.widen, neg_sub]
  rfl

theorem CVT_get_long_eq (h : toInt16 (t - desc.scale) = t - desc.scale) :
    desc.CVT_get_long t = returned .long (halfAway (desc.atScale t)) := by
  obtain ⟨w, x, s, hx, hs⟩ := desc
  dsimp only at h
  have hlong (hx : ExactType.long.Fits x) :
      rescale .long LONG_LIMIT x (t - s) = returned .long (halfAway ((x : ℚ) * 10 ^ (s - t))) := by
    rw [rescale_eq long_limit hx, neg_sub]
  unfold ExactDsc.CVT_get_long ExactDsc.atScale
  dsimp only
  rw [h]
  cases w with
  | short => exact hlong ⟨by have := hx.1; omega, by have := hx.2; omega⟩
  | long => exact hlong hx
  | int64 =>
    dsimp only
    rw [rescale_eq int64_limit hx, neg_sub]
    apply returned_bind
    · exact fun y => ExactType.Fits.widen
    · intro y
      by_cases hy : ExactType.long.Fits y
      · rw [returned_of_fits hy]
        obtain ⟨h0, h1⟩ := hy
        rw [if_neg (by omega), toInt32_of_lt (by omega) (by omega)]
      · rw [returned, if_neg hy]
        unfold ExactType.Fits at hy
        rw [if_pos (by omega)]

theorem CVT_move_short_eq (h : toInt16 (t - desc.scale) = t - desc.scale) :
    desc.CVT_move_short t = returned .short (halfAway (desc.atScale t)) := by
  unfold ExactDsc.CVT_move_short
  by_cases hequiv : desc.dtype = .short ∧ desc.scale = t
  · have hfits : ExactType.short.Fits desc.value := by
      have hx := desc.fits
      rw [hequiv.1] at hx
      exact hx
    rw [if_pos hequiv, ExactDsc.atScale, hequiv.2, Int.sub_self, zpow_zero, mul_one,
      halfAway_intCast, returned_of_fits hfits]
  · rw [if_neg hequiv, CVT_get_long_eq h]
    apply returned_bind
    · intro y hy
      unfold ExactType.Fits at hy ⊢
      omega
    · intro y
      have hwrap := toInt16_eq y
      by_cases hy : ExactType.short.Fits y
      · rw [returned_of_fits hy]
        obtain ⟨h0, h1⟩ := hy
        have hsame : toInt16 y = y := toInt16_of_lt (by omega) (by omega)
        rw [if_neg (not_not.mpr hsame), hsame]
      · rw [returned, if_neg hy]
        unfold ExactType.Fits at hy
        rw [if_pos (by omega)]

/-- An exact numeric is rounded half away from zero at any scale, or `gds_arith_except` is raised
where the rounded number does not fit. No operation overflows. The target scales are those of
descriptors and of nodes, and differences of two of these, and all of them fit an `SCHAR`, so that
the difference to the scale of the source is far from the range of an `SSHORT`. -/
theorem exact_numeric_rescaled (desc : ExactDsc) (t : ℤ) (hlow : -32768 ≤ t - desc.scale)
    (hhigh : t - desc.scale ≤ 32767) :
    desc.CVT_get_long t = returned .long (halfAway (desc.atScale t)) ∧
      desc.CVT_get_int64 t = returned .int64 (halfAway (desc.atScale t)) ∧
      desc.CVT_move_short t = returned .short (halfAway (desc.atScale t)) := by
  have hfits : toInt16 (t - desc.scale) = t - desc.scale := toInt16_of_lt hlow (by omega)
  exact ⟨CVT_get_long_eq hfits, CVT_get_int64_eq hfits, CVT_move_short_eq hfits⟩

/-- -1.25 as a number of scale -1 -/
theorem exact_numeric_rescaled_tie :
    (ExactDsc.mk .int64 (-125) (-2) ⟨by decide, by decide⟩ ⟨by decide, by decide⟩).CVT_get_long
      (-1) = .ok (-13) := by
  rw [(exact_numeric_rescaled _ (-1) (by decide) (by decide)).1]
  have hround : halfAway ((-125 : ℚ) * 10 ^ (-2 - -1 : ℤ)) = -13 :=
    halfAway_eq_iff.mpr (by norm_num [Near])
  exact (congrArg (returned .long) hround).trans (returned_of_fits (by decide))

end Firebird.Cvt
