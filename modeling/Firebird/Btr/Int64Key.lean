import Mathlib.Algebra.Order.Field.Rat
import Mathlib.Data.Rat.Lemmas
import Mathlib.Tactic.FieldSimp
import Mathlib.Tactic.Linarith
import Mathlib.Tactic.Ring

/-! # Index keys of 64-bit integers (`make_int64_key` in `jrd/btr.cpp`)

A number `q` of scale `s` stands for `q * 10 ^ s`. It is multiplied by the largest power of ten
that does not overflow, so that `q` and `10 * q` of the scale below give one key: the quotient
by 10000, divided by the power of ten of the scale, and the remainder.

The table of the limits starts with 922337203685470000. From there on the number is not
multiplied at all, although `10 * q` still fits up to 922337203685477580. Such a pair gets one
key only if the remainder is zero.
-/

namespace Firebird.Btr

/-! ## The key -/

/-- An entry of `int64_scale_control` -/
structure Int64ScaleControl where
  limit : BitVec 64
  factor : BitVec 64
  scaleChange : BitVec 16
  deriving DecidableEq

/-- `int64_scale_control` -/
def int64ScaleControl : List Int64ScaleControl := [
  ⟨922337203685470000, 1, 0⟩,
  ⟨92233720368547000, 10, 1⟩,
  ⟨9223372036854700, 100, 2⟩,
  ⟨922337203685470, 1000, 3⟩,
  ⟨92233720368548, 10000, 4⟩,
  ⟨9223372036855, 100000, 5⟩,
  ⟨922337203686, 1000000, 6⟩,
  ⟨92233720369, 10000000, 7⟩,
  ⟨9223372035, 100000000, 8⟩,
  ⟨922337204, 1000000000, 9⟩,
  ⟨92233721, 10000000000, 10⟩,
  ⟨9223373, 100000000000, 11⟩,
  ⟨922338, 1000000000000, 12⟩,
  ⟨92234, 10000000000000, 13⟩,
  ⟨9224, 100000000000000, 14⟩,
  ⟨923, 1000000000000000, 15⟩,
  ⟨93, 10000000000000000, 16⟩,
  ⟨10, 100000000000000000, 17⟩,
  ⟨1, 1000000000000000000, 18⟩,
  ⟨0, 0, 0⟩]

/-- The entry at which `while (uq < int64_scale_control[n].limit) n++` stops -/
def control (uq : BitVec 64) : List Int64ScaleControl → Int64ScaleControl
  | [] => ⟨0, 0, 0⟩
  | entry :: entries => if uq < entry.limit then control uq entries else entry

/-- `(UINT64) ((q >= 0) ? q : -q)` -/
def absolute (q : BitVec 64) : BitVec 64 :=
  if q.toInt ≥ 0 then q else -q

/-- The entry for `q` -/
def entryOf (q : BitVec 64) : Int64ScaleControl :=
  control (absolute q) int64ScaleControl

/-- `pow10` -/
def pow10 : List ℚ :=
  (List.range 37).map (10 ^ ·)

/-- `pow10[i]`, `none` outside of the table -/
def pow10At (i : ℤ) : Option ℚ :=
  if i < 0 then none else pow10[i.toNat]?

/-- `powerof10`. For a positive scale the index is negative. -/
def powerof10 (s : ℤ) : Option ℚ :=
  if s ≤ 0 then pow10At (-s) else (pow10At (-s)).map (1 / ·)

/-- `INT64_KEY`, with an exact number for the double -/
structure Int64Key where
  dPart : ℚ
  sPart : ℤ
  deriving DecidableEq

/-- Keys are compared by their first parts, then by their second. -/
def Int64Key.Before (key key' : Int64Key) : Prop :=
  key.dPart < key'.dPart ∨ key.dPart = key'.dPart ∧ key.sPart < key'.sPart

/-- `make_int64_key`, `none` if `pow10` is read outside -/
def makeInt64Key (q : BitVec 64) (scale : BitVec 16) : Option Int64Key :=
  let q' := q * (entryOf q).factor
  let scale' := scale - (entryOf q).scaleChange
  (powerof10 scale'.toInt).map fun power => ⟨(q'.toInt.tdiv 10000 : ℤ) / power, q'.toInt.tmod 10000⟩

/-! ## The table -/

/-- The power of ten that `q` is multiplied by -/
def change (q : BitVec 64) : ℕ :=
  (entryOf q).scaleChange.toNat

variable {q q' u v : BitVec 64} {s : BitVec 16} {x y : ℤ} {c : ℕ}
  {entry : Int64ScaleControl} {entries : List Int64ScaleControl}

theorem control_cons (u : BitVec 64) (entry : Int64ScaleControl)
    (entries : List Int64ScaleControl) : control u (entry :: entries) =
      if u < entry.limit then control u entries else entry := rfl

theorem control_mem (h : control u entries ≠ ⟨0, 0, 0⟩) : control u entries ∈ entries := by
  induction entries with
  | nil => exact absurd rfl h
  | cons entry entries ih =>
      rw [control_cons] at h ⊢
      split
      · rename_i hlt
        rw [if_pos hlt] at h
        exact List.mem_cons_of_mem _ (ih h)
      · exact List.mem_cons_self

theorem limit_control_le : (control u entries).limit ≤ u := by
  induction entries with
  | nil => exact BitVec.le_def.mpr (Nat.zero_le _)
  | cons entry entries ih =>
      rw [control_cons]
      split
      · exact ih
      · rename_i hlt
        exact BitVec.not_lt.mp hlt

/-- A smaller number has the same entry, or is below its limit. -/
theorem control_eq_or_lt (entries : List Int64ScaleControl) (h : u ≤ v) :
    control u entries = control v entries ∨ u < (control v entries).limit := by
  induction entries with
  | nil => exact .inl rfl
  | cons entry entries ih =>
      rw [control_cons, control_cons]
      by_cases hv : v < entry.limit
      · rw [if_pos hv, if_pos (show u < entry.limit by bv_omega)]
        exact ih
      · rw [if_neg hv]
        by_cases hu : u < entry.limit
        · exact .inr hu
        · exact .inl (if_neg hu)

/-- What the entries have in common: the limit is scaled to a multiple of 10000. -/
structure Int64ScaleControl.Sound (entry : Int64ScaleControl) : Prop where
  factor : entry.factor.toInt = 10 ^ entry.scaleChange.toNat
  change : entry.scaleChange.toNat ≤ 18
  dvd : 10000 ∣ entry.limit.toNat * 10 ^ entry.scaleChange.toNat
  pos : 10000 ≤ entry.limit.toNat * 10 ^ entry.scaleChange.toNat

instance : DecidablePred Int64ScaleControl.Sound := fun entry =>
  decidable_of_iff
    (entry.factor.toInt = 10 ^ entry.scaleChange.toNat ∧ entry.scaleChange.toNat ≤ 18 ∧
      10000 ∣ entry.limit.toNat * 10 ^ entry.scaleChange.toNat ∧
      10000 ≤ entry.limit.toNat * 10 ^ entry.scaleChange.toNat)
    ⟨fun h => ⟨h.1, h.2.1, h.2.2.1, h.2.2.2⟩, fun h => ⟨h.factor, h.change, h.dvd, h.pos⟩⟩

theorem sound_of_mem : ∀ entry ∈ int64ScaleControl, entry ≠ ⟨0, 0, 0⟩ → entry.Sound := by
  decide

/-- Numbers below `bound` are multiplied without an overflow. -/
def fits : ℕ → List Int64ScaleControl → Bool
  | _, [] => true
  | bound, entry :: entries =>
      (bound - 1) * entry.factor.toNat < 2 ^ 63 && fits entry.limit.toNat entries

theorem mul_factor_lt {bound : ℕ} (h : fits bound entries = true) (hu : u.toNat < bound) :
    u.toNat * (control u entries).factor.toNat < 2 ^ 63 := by
  induction entries generalizing bound with
  | nil => simp [control]
  | cons entry entries ih =>
      simp only [fits, Bool.and_eq_true, decide_eq_true_eq] at h
      unfold control
      split
      · rename_i hlt
        exact ih h.2 hlt
      · exact Nat.lt_of_le_of_lt (Nat.mul_le_mul_right _ (Nat.le_sub_one_of_lt hu)) h.1

theorem absolute_toNat (q : BitVec 64) : (absolute q).toNat = q.toInt.natAbs := by
  unfold absolute
  split
  · have := BitVec.toInt_eq_toNat_cond q
    split at this <;> omega
  · have := BitVec.toInt_eq_toNat_cond q
    rw [BitVec.toNat_neg]
    split at this <;> omega

/-- Only zero gets to the end of the table. -/
theorem control_ne (h : 0 < u.toNat) : control u int64ScaleControl ≠ ⟨0, 0, 0⟩ := by
  intro h0
  have hone : control 1 int64ScaleControl = ⟨1, 1000000000000000000, 18⟩ := by decide
  have hle : 1 ≤ u := BitVec.le_def.mpr h
  rcases control_eq_or_lt int64ScaleControl hle with heq | hlt
  · rw [hone, h0] at heq
    exact absurd heq (by decide)
  · rw [h0] at hlt
    exact absurd hlt (by decide)

theorem sound_control (h : 0 < u.toNat) : (control u int64ScaleControl).Sound :=
  sound_of_mem _ (control_mem (control_ne h)) (control_ne h)

theorem absolute_pos (h : q.toInt ≠ 0) : 0 < (absolute q).toNat := by
  rw [absolute_toNat]
  exact Int.natAbs_pos.mpr h

theorem change_le (q : BitVec 64) : change q ≤ 18 := by
  by_cases h : entryOf q = ⟨0, 0, 0⟩
  · rw [change, h]
    exact Nat.zero_le _
  · exact (sound_of_mem _ (control_mem h) h).change

theorem entryOf_eq (h : ¬absolute q < 922337203685470000) :
    entryOf q = ⟨922337203685470000, 1, 0⟩ := by
  unfold entryOf int64ScaleControl control
  rw [if_neg h]

theorem natAbs_mul_factor_lt (h : absolute q < 922337203685470000) :
    (q.toInt * (entryOf q).factor.toInt).natAbs < 2 ^ 63 := by
  by_cases h0 : q.toInt = 0
  · rw [h0, zero_mul]
    decide
  · have htail : entryOf q = control (absolute q) int64ScaleControl.tail := by
      unfold entryOf int64ScaleControl control
      rw [if_pos h]
      rfl
    have hfits : fits 922337203685470000 int64ScaleControl.tail = true := by decide
    have hlt := mul_factor_lt hfits (BitVec.lt_def.mp h)
    rw [← htail, absolute_toNat] at hlt
    have hpos : 1 ≤ q.toInt.natAbs := Int.natAbs_pos.mpr h0
    have hfactor : (entryOf q).factor.toNat < 2 ^ 63 :=
      Nat.lt_of_le_of_lt (Nat.le_mul_of_pos_left _ hpos) hlt
    have htoInt : (entryOf q).factor.toInt = (entryOf q).factor.toNat :=
      BitVec.toInt_eq_toNat_of_lt (by omega)
    rw [htoInt, Int.natAbs_mul, Int.natAbs_natCast]
    exact hlt

/-- The multiplication does not overflow. -/
theorem toInt_mul_factor (q : BitVec 64) :
    (q * (entryOf q).factor).toInt = q.toInt * (entryOf q).factor.toInt := by
  by_cases h : absolute q < 922337203685470000
  · have hlt := natAbs_mul_factor_lt h
    rw [BitVec.toInt_mul]
    apply Int.bmod_eq_of_le <;> omega
  · have hone : (entryOf q).factor = 1 := congrArg Int64ScaleControl.factor (entryOf_eq h)
    rw [hone, BitVec.ofNat_eq_ofNat, BitVec.mul_one]
    exact (Int.mul_one _).symm

/-- The number is multiplied by a power of ten. -/
theorem toInt_scaled (q : BitVec 64) :
    (q * (entryOf q).factor).toInt = q.toInt * 10 ^ change q := by
  rw [toInt_mul_factor]
  by_cases h : q.toInt = 0
  · rw [h, zero_mul, zero_mul]
  · rw [entryOf, (sound_control (absolute_pos h)).factor]
    rfl

/-! ## What a key stands for -/

/-- The first part of the key, before the scale is put in -/
def lead (x : ℤ) (c : ℕ) : ℚ :=
  ((x * 10 ^ c).tdiv 10000 : ℤ) / 10 ^ c

/-- The scale is one that `pow10` has. -/
def InTable (q : BitVec 64) (s : BitVec 16) : Prop :=
  -36 ≤ (s - (entryOf q).scaleChange).toInt ∧ (s - (entryOf q).scaleChange).toInt ≤ 0

instance : Decidable (InTable q s) := inferInstanceAs (Decidable (_ ∧ _))

theorem powerof10_eq (h : -36 ≤ x) (h' : x ≤ 0) : powerof10 x = some (10 ^ (-x).toNat) := by
  have hlt : (-x).toNat < 37 := by omega
  rw [powerof10, if_pos h', pow10At, if_neg (by omega), pow10, List.getElem?_map,
    List.getElem?_range hlt]
  rfl

theorem powerof10_eq_none (h : ¬(-36 ≤ x ∧ x ≤ 0)) : powerof10 x = none := by
  unfold powerof10 pow10At
  split
  · rw [if_neg (by omega), pow10, List.getElem?_eq_none]
    · simp only [List.length_map, List.length_range]
      omega
  · rw [if_pos (by omega)]
    rfl

/-- The scale does not wrap round. -/
theorem toInt_scale (h : InTable q s) :
    s.toInt = (s - (entryOf q).scaleChange).toInt + change q := by
  have hle := change_le q
  obtain ⟨hlow, hhigh⟩ := h
  unfold change at hle ⊢
  rw [BitVec.toInt_sub] at hlow hhigh ⊢
  rw [BitVec.toInt_eq_toNat_of_lt (x := (entryOf q).scaleChange) (by omega)] at hlow hhigh ⊢
  have := BitVec.toInt_lt (x := s)
  have := BitVec.le_toInt (x := s)
  rw [Int.bmod_def] at hlow hhigh ⊢
  omega

/-- A key is the leading part at the scale, and the remainder. -/
theorem makeInt64Key_eq (h : InTable q s) :
    makeInt64Key q s =
      some ⟨lead q.toInt (change q) * 10 ^ s.toInt, (q.toInt * 10 ^ change q).tmod 10000⟩ := by
  have hs := toInt_scale h
  obtain ⟨hlow, hhigh⟩ := h
  rw [makeInt64Key, powerof10_eq hlow hhigh, toInt_scaled, Option.map_some, lead, hs]
  obtain ⟨p, hp⟩ : ∃ p : ℕ, (s - (entryOf q).scaleChange).toInt = -p :=
    ⟨(-(s - (entryOf q).scaleChange).toInt).toNat, by omega⟩
  rw [hp, neg_neg, Int.toNat_natCast, zpow_add₀ (by norm_num), zpow_neg, zpow_natCast, zpow_natCast]
  congr 2
  field_simp

theorem makeInt64Key_eq_none (h : ¬InTable q s) : makeInt64Key q s = none := by
  rw [makeInt64Key, powerof10_eq_none h]
  rfl

/-! ## Order -/

theorem lead_neg (x : ℤ) (c : ℕ) : lead (-x) c = -lead x c := by
  rw [lead, lead, Int.neg_mul, Int.neg_tdiv, Int.cast_neg, neg_div]

theorem lead_le (h : 0 ≤ x) : lead x c ≤ x / 10000 := by
  have hpos : (0 : ℚ) < 10 ^ c := by positivity
  have hnonneg : 0 ≤ x * 10 ^ c := by positivity
  have hmul : (x * 10 ^ c).tdiv 10000 * 10000 ≤ x * 10 ^ c := by
    rw [Int.tdiv_eq_ediv_of_nonneg hnonneg]
    omega
  have hcast : (((x * 10 ^ c).tdiv 10000 : ℤ) : ℚ) * 10000 ≤ x * 10 ^ c := by exact_mod_cast hmul
  rw [lead, div_le_div_iff₀ hpos (by norm_num)]
  exact hcast

/-- The limit is in the leading part as a whole. -/
theorem limit_le_lead {limit : ℕ} (hdvd : 10000 ∣ limit * 10 ^ c) (h : (limit : ℤ) ≤ x) :
    (limit : ℚ) / 10000 ≤ lead x c := by
  have hpos : (0 : ℚ) < 10 ^ c := by positivity
  have hmul : (limit : ℤ) * 10 ^ c ≤ (x * 10 ^ c).tdiv 10000 * 10000 := by
    have hle : (limit : ℤ) * 10 ^ c ≤ x * 10 ^ c := Int.mul_le_mul_of_nonneg_right h (by positivity)
    have hnonneg : 0 ≤ (limit : ℤ) * 10 ^ c := by positivity
    have hdvd' : (10000 : ℤ) ∣ limit * 10 ^ c := by exact_mod_cast hdvd
    rw [Int.tdiv_eq_ediv_of_nonneg (hnonneg.trans hle)]
    omega
  have hcast : (limit : ℚ) * 10 ^ c ≤ (((x * 10 ^ c).tdiv 10000 : ℤ) : ℚ) * 10000 := by
    exact_mod_cast hmul
  rw [lead, div_le_div_iff₀ (by norm_num) hpos]
  exact hcast

/-- Numbers that are multiplied by one power of ten are in order. -/
theorem lead_lt_or_of_lt (h : x < y) :
    lead x c < lead y c ∨
      lead x c = lead y c ∧ (x * 10 ^ c).tmod 10000 < (y * 10 ^ c).tmod 10000 := by
  have hpos : (0 : ℚ) < 10 ^ c := by positivity
  have hlt : x * 10 ^ c < y * 10 ^ c := Int.mul_lt_mul_of_pos_right h (by positivity)
  have hx := Int.tdiv_mul_add_tmod (x * 10 ^ c) 10000
  have hy := Int.tdiv_mul_add_tmod (y * 10 ^ c) 10000
  have hle : (x * 10 ^ c).tdiv 10000 ≤ (y * 10 ^ c).tdiv 10000 :=
    Int.tdiv_le_tdiv (by decide) hlt.le
  rcases hle.lt_or_eq with hdiv | hdiv
  · left
    rw [lead, lead, div_lt_div_iff_of_pos_right hpos]
    exact_mod_cast hdiv
  · right
    rw [lead, lead, hdiv]
    exact ⟨rfl, by omega⟩

/-- Numbers with two entries are apart from each other by their leading parts. -/
theorem lead_lt_of_lt_limit {limit : ℕ} (hdvd : 10000 ∣ limit * 10 ^ c) (hx : 0 ≤ x)
    (hlt : x < limit) (hle : (limit : ℤ) ≤ y) {c' : ℕ} : lead x c' < lead y c := by
  have hcast : (x : ℚ) < limit := by exact_mod_cast hlt
  calc lead x c' ≤ x / 10000 := lead_le hx
    _ < limit / 10000 := by linarith
    _ ≤ lead y c := limit_le_lead hdvd hle

/-- The power of ten for an absolute value -/
def changeOf (u : BitVec 64) : ℕ :=
  (control u int64ScaleControl).scaleChange.toNat

/-- The absolute values are in the order of their keys. -/
theorem absolute_lt_or (h : u.toNat < v.toNat) :
    lead u.toNat (changeOf u) < lead v.toNat (changeOf v) ∨
      lead u.toNat (changeOf u) = lead v.toNat (changeOf v) ∧
        (u.toNat * 10 ^ changeOf u : ℤ).tmod 10000 < (v.toNat * 10 ^ changeOf v : ℤ).tmod 10000 := by
  rcases control_eq_or_lt int64ScaleControl (BitVec.le_def.mpr h.le) with heq | hlt
  · have hchange : changeOf u = changeOf v := by rw [changeOf, heq, changeOf]
    rw [hchange]
    exact lead_lt_or_of_lt (by exact_mod_cast h)
  · left
    have hsound := sound_control (Nat.zero_lt_of_lt h)
    apply lead_lt_of_lt_limit hsound.dvd (Int.natCast_nonneg _)
    · exact_mod_cast BitVec.lt_def.mp hlt
    · exact_mod_cast BitVec.le_def.mp limit_control_le

/-- A number that is not zero has a leading part. -/
theorem lead_pos (h : 0 < u.toNat) : 0 < lead u.toNat (changeOf u) := by
  have hsound := sound_control h
  have hle : ((control u int64ScaleControl).limit.toNat : ℤ) ≤ u.toNat := by
    exact_mod_cast BitVec.le_def.mp limit_control_le
  have hpos : 0 < (control u int64ScaleControl).limit.toNat := by
    apply Nat.pos_of_ne_zero
    intro h0
    have := hsound.pos
    rw [h0, Nat.zero_mul] at this
    omega
  have hcast : (0 : ℚ) < (control u int64ScaleControl).limit.toNat := by exact_mod_cast hpos
  calc (0 : ℚ) < (control u int64ScaleControl).limit.toNat / 10000 := by linarith
    _ ≤ lead u.toNat (changeOf u) := limit_le_lead hsound.dvd hle

theorem lead_nonneg (hx : 0 ≤ x) (c : ℕ) : 0 ≤ lead x c := by
  have hpos : (0 : ℚ) < 10 ^ c := by positivity
  have hnonneg : 0 ≤ (x * 10 ^ c).tdiv 10000 := Int.tdiv_nonneg (by positivity) (by decide)
  rw [lead]
  exact div_nonneg (by exact_mod_cast hnonneg) hpos.le

/-- Numbers are in the order of their keys, up to the scale. -/
theorem lead_lt_or (h : q.toInt < q'.toInt) :
    lead q.toInt (change q) < lead q'.toInt (change q') ∨
      lead q.toInt (change q) = lead q'.toInt (change q') ∧
        (q.toInt * 10 ^ change q).tmod 10000 < (q'.toInt * 10 ^ change q').tmod 10000 := by
  have hq := absolute_toNat q
  have hq' := absolute_toNat q'
  rcases lt_or_ge q.toInt 0 with hneg | hnonneg
  · have hx : q.toInt = -(absolute q).toNat := by omega
    rcases lt_or_ge q'.toInt 0 with hneg' | hnonneg'
    · have hy : q'.toInt = -(absolute q').toNat := by omega
      rw [hx, hy, lead_neg, lead_neg, neg_lt_neg_iff, neg_inj, Int.neg_mul, Int.neg_mul,
        Int.neg_tmod, Int.neg_tmod, neg_lt_neg_iff]
      rcases absolute_lt_or (u := absolute q') (v := absolute q) (by omega) with hlt | ⟨heq, hlt⟩
      · exact .inl hlt
      · exact .inr ⟨heq.symm, hlt⟩
    · left
      have hpos : 0 < lead (absolute q).toNat (change q) := lead_pos (by omega)
      rw [hx, lead_neg]
      exact lt_of_lt_of_le (by linarith) (lead_nonneg hnonneg' _)
  · have hx : q.toInt = (absolute q).toNat := by omega
    have hy : q'.toInt = (absolute q').toNat := by omega
    rw [hx, hy]
    exact absolute_lt_or (by omega)

/-! ## Two representations of one number -/

/-- The entries with a limit from 922337203685470 on, and the others -/
theorem entryOf_cases (q : BitVec 64) :
    922337203685470000 ≤ q.toInt.natAbs ∧ change q = 0 ∨
    92233720368547000 ≤ q.toInt.natAbs ∧ q.toInt.natAbs < 922337203685470000 ∧ change q = 1 ∨
    9223372036854700 ≤ q.toInt.natAbs ∧ q.toInt.natAbs < 92233720368547000 ∧ change q = 2 ∨
    922337203685470 ≤ q.toInt.natAbs ∧ q.toInt.natAbs < 9223372036854700 ∧ change q = 3 ∨
    q.toInt.natAbs < 922337203685470 ∧ (4 ≤ change q ∨ q.toInt = 0) := by
  have hlow : ∀ entry ∈ int64ScaleControl.drop 4, entry ≠ ⟨0, 0, 0⟩ → 4 ≤ entry.scaleChange.toNat := by
    decide
  rw [← absolute_toNat, change, entryOf]
  by_cases h0 : absolute q < 922337203685470000
  · by_cases h1 : absolute q < 92233720368547000
    · by_cases h2 : absolute q < 9223372036854700
      · by_cases h3 : absolute q < 922337203685470
        · have hdrop : control (absolute q) int64ScaleControl =
              control (absolute q) (int64ScaleControl.drop 4) := by
            unfold int64ScaleControl
            rw [control, if_pos h0, control, if_pos h1, control, if_pos h2, control, if_pos h3]
            rfl
          refine .inr (.inr (.inr (.inr ⟨BitVec.lt_def.mp h3, ?_⟩)))
          by_cases hzero : q.toInt = 0
          · exact .inr hzero
          · have hne := control_ne (absolute_pos hzero)
            left
            rw [hdrop] at hne ⊢
            exact hlow _ (control_mem hne) hne
        · refine .inr (.inr (.inr (.inl ⟨BitVec.not_lt.mp h3, BitVec.lt_def.mp h2, ?_⟩)))
          unfold int64ScaleControl
          rw [control, if_pos h0, control, if_pos h1, control, if_pos h2, control, if_neg h3]
          rfl
      · refine .inr (.inr (.inl ⟨BitVec.not_lt.mp h2, BitVec.lt_def.mp h1, ?_⟩))
        unfold int64ScaleControl
        rw [control, if_pos h0, control, if_pos h1, control, if_neg h2]
        rfl
    · refine .inr (.inl ⟨BitVec.not_lt.mp h1, BitVec.lt_def.mp h0, ?_⟩)
      unfold int64ScaleControl
      rw [control, if_pos h0, control, if_neg h1]
      rfl
  · refine .inl ⟨BitVec.not_lt.mp h0, ?_⟩
    unfold int64ScaleControl
    rw [control, if_neg h0]
    rfl

/-- A multiple of 10000 is in the leading part as a whole. -/
theorem lead_eq_of_dvd (h : 10000 ∣ x * 10 ^ c) : lead x c = x / 10000 := by
  have hpos : (0 : ℚ) < 10 ^ c := by positivity
  have hmul : (x * 10 ^ c).tdiv 10000 * 10000 = x * 10 ^ c := Int.tdiv_mul_cancel h
  have hcast : (((x * 10 ^ c).tdiv 10000 : ℤ) : ℚ) * 10000 = x * 10 ^ c := by exact_mod_cast hmul
  rw [lead, div_eq_div_iff hpos.ne' (by norm_num)]
  exact hcast

theorem dvd_of_four_le (x : ℤ) (h : 4 ≤ c) : 10000 ∣ x * 10 ^ c :=
  Dvd.dvd.mul_left (pow_dvd_pow 10 h) x

/-- One power of ten more for a number that is a tenth -/
theorem lead_ten_mul (x : ℤ) (c : ℕ) : lead (10 * x) c = 10 * lead x (c + 1) := by
  have hpos : (0 : ℚ) < 10 ^ c := by positivity
  have hmul : 10 * x * 10 ^ c = x * 10 ^ (c + 1) := by ring
  rw [lead, lead, hmul, pow_succ (10 : ℚ)]
  field_simp

variable {t : BitVec 64}

/-- The parts of the keys are the same where both are exact, -/
theorem lead_eq_of_dvd_both (ht : t.toInt = 10 * q.toInt) (h : 10000 ∣ q.toInt * 10 ^ change q)
    (h' : 10000 ∣ t.toInt * 10 ^ change t) :
    lead t.toInt (change t) = 10 * lead q.toInt (change q) ∧
      (t.toInt * 10 ^ change t).tmod 10000 = (q.toInt * 10 ^ change q).tmod 10000 := by
  rw [lead_eq_of_dvd h, lead_eq_of_dvd h', Int.tmod_eq_zero_of_dvd h, Int.tmod_eq_zero_of_dvd h', ht]
  refine ⟨?_, rfl⟩
  push_cast
  ring

/-- and where one power of ten lies between the two. -/
theorem lead_eq_of_change (ht : t.toInt = 10 * q.toInt) (h : change q = change t + 1) :
    lead t.toInt (change t) = 10 * lead q.toInt (change q) ∧
      (t.toInt * 10 ^ change t).tmod 10000 = (q.toInt * 10 ^ change q).tmod 10000 := by
  have hmul : 10 * q.toInt * 10 ^ change t = q.toInt * 10 ^ (change t + 1) := by ring
  rw [ht, h, lead_ten_mul, hmul]
  exact ⟨rfl, rfl⟩

/-- The parts of the two keys -/
theorem lead_eq_iff (ht : t.toInt = 10 * q.toInt) :
    (lead t.toInt (change t) = 10 * lead q.toInt (change q) ∧
      (t.toInt * 10 ^ change t).tmod 10000 = (q.toInt * 10 ^ change q).tmod 10000) ↔
    (q.toInt.natAbs < 922337203685470000 ∨ 10000 ∣ q.toInt) := by
  constructor
  · rintro ⟨-, hmod⟩
    by_contra hne
    obtain ⟨hle, hdvd⟩ := not_or.mp hne
    have hq : change q = 0 := by
      rcases entryOf_cases q with h | h | h | h | h <;> omega
    have ht' : change t = 0 := by
      rcases entryOf_cases t with h | h | h | h | h <;> omega
    rw [hq, ht', ht, pow_zero, mul_one, mul_one] at hmod
    have hx := Int.tdiv_mul_add_tmod q.toInt 10000
    have hy := Int.tdiv_mul_add_tmod (10 * q.toInt) 10000
    omega
  · rintro (hlt | hdvd)
    · rcases entryOf_cases q with h | h | h | h | h
      · omega
      · apply lead_eq_of_change ht
        rcases entryOf_cases t with h' | h' | h' | h' | h' <;> omega
      · apply lead_eq_of_change ht
        rcases entryOf_cases t with h' | h' | h' | h' | h' <;> omega
      · apply lead_eq_of_change ht
        rcases entryOf_cases t with h' | h' | h' | h' | h' <;> omega
      · -- both are multiplied by so much that nothing remains
        rcases h.2 with hfour | hzero
        · apply lead_eq_of_dvd_both ht (dvd_of_four_le _ hfour)
          have hthree : 3 ≤ change t ∨ t.toInt = 0 := by
            rcases entryOf_cases t with h' | h' | h' | h' | h' <;> omega
          rcases hthree with hthree | hzero
          · rw [ht, mul_comm 10, mul_assoc, ← pow_succ']
            exact dvd_of_four_le _ (by omega)
          · rw [hzero, zero_mul]
            exact dvd_zero _
        · apply lead_eq_of_dvd_both ht
          · rw [hzero, zero_mul]
            exact dvd_zero _
          · rw [ht, hzero, mul_zero, zero_mul]
            exact dvd_zero _
    · apply lead_eq_of_dvd_both ht
      · exact Dvd.dvd.mul_right hdvd _
      · rw [ht]
        exact Dvd.dvd.mul_right (Dvd.dvd.mul_left hdvd 10) _

/-! ## Main results -/

/-- Two numbers get one key. -/
def OneKey (q : BitVec 64) (s : BitVec 16) (q' : BitVec 64) (s' : BitVec 16) : Prop :=
  ∃ key, makeInt64Key q s = some key ∧ makeInt64Key q' s' = some key

/-- Two numbers of one scale get keys in order. -/
def KeysBefore (q q' : BitVec 64) (s : BitVec 16) : Prop :=
  ∃ key key', makeInt64Key q s = some key ∧ makeInt64Key q' s = some key' ∧ key.Before key'

theorem inTable_of_makeInt64Key {key : Int64Key} (h : makeInt64Key q s = some key) :
    InTable q s := by
  by_contra hout
  rw [makeInt64Key_eq_none hout] at h
  cases h

theorem keysBefore_iff (h : q.toInt < q'.toInt) :
    KeysBefore q q' s ↔ InTable q s ∧ InTable q' s := by
  constructor
  · rintro ⟨key, key', hkey, hkey', -⟩
    exact ⟨inTable_of_makeInt64Key hkey, inTable_of_makeInt64Key hkey'⟩
  · rintro ⟨hin, hin'⟩
    refine ⟨_, _, makeInt64Key_eq hin, makeInt64Key_eq hin', ?_⟩
    have hpos : (0 : ℚ) < 10 ^ s.toInt := zpow_pos (by norm_num) _
    rcases lead_lt_or h with hlt | ⟨heq, hlt⟩
    · exact .inl (mul_lt_mul_of_pos_right hlt hpos)
    · exact .inr ⟨by rw [heq], hlt⟩

theorem toInt_ten_mul (h : -2 ^ 63 ≤ 10 * q.toInt) (h' : 10 * q.toInt < 2 ^ 63) :
    (10 * q).toInt = 10 * q.toInt := by
  rw [BitVec.toInt_mul]
  apply Int.bmod_eq_of_le
  · exact h
  · exact h'

theorem toInt_sub_one (h : InTable q s) : (s - 1).toInt = s.toInt - 1 := by
  have hs := toInt_scale h
  have hlow := h.1
  have hlt := BitVec.toInt_lt (x := s)
  rw [BitVec.toInt_sub]
  apply Int.bmod_eq_of_le
  · change -32768 ≤ s.toInt - 1
    omega
  · change s.toInt - 1 < 32768
    omega

theorem oneKey_iff (h : -2 ^ 63 ≤ 10 * q.toInt) (h' : 10 * q.toInt < 2 ^ 63) :
    OneKey q s (10 * q) (s - 1) ↔
      (InTable q s ∧ InTable (10 * q) (s - 1)) ∧
        (q.toInt.natAbs < 922337203685470000 ∨ 10000 ∣ q.toInt) := by
  have hten := toInt_ten_mul h h'
  rw [← lead_eq_iff hten]
  have hkeys : InTable q s → InTable (10 * q) (s - 1) →
      (makeInt64Key q s = makeInt64Key (10 * q) (s - 1) ↔
        lead (10 * q).toInt (change (10 * q)) = 10 * lead q.toInt (change q) ∧
          ((10 * q).toInt * 10 ^ change (10 * q)).tmod 10000 =
            (q.toInt * 10 ^ change q).tmod 10000) := by
    intro hin hin'
    have hpos : (0 : ℚ) < 10 ^ s.toInt := zpow_pos (by norm_num) _
    have hscale : lead (10 * q).toInt (change (10 * q)) * 10 ^ (s.toInt - 1) =
        lead (10 * q).toInt (change (10 * q)) / 10 * 10 ^ s.toInt := by
      rw [zpow_sub_one₀ (by norm_num)]
      ring
    rw [makeInt64Key_eq hin, makeInt64Key_eq hin', toInt_sub_one hin, hscale, Option.some_inj,
      Int64Key.mk.injEq, mul_left_inj' hpos.ne', eq_div_iff (by norm_num), mul_comm _ (10 : ℚ)]
    exact and_congr eq_comm eq_comm
  constructor
  · rintro ⟨key, hkey, hkey'⟩
    have hin := inTable_of_makeInt64Key hkey
    have hin' := inTable_of_makeInt64Key hkey'
    exact ⟨⟨hin, hin'⟩, (hkeys hin hin').mp (hkey.trans hkey'.symm)⟩
  · rintro ⟨⟨hin, hin'⟩, hparts⟩
    exact ⟨_, makeInt64Key_eq hin, ((hkeys hin hin').mpr hparts) ▸ makeInt64Key_eq hin⟩

/-- **Scale-independent keys.** The two representations get one key if and only if the number is
below the first limit or a multiple of 10000, and the table has both scales. The keys of one
scale are in order if and only if the table has both scales. The multiplication never
overflows. -/
theorem makeInt64Key_scale_independent_iff (q : BitVec 64) (s : BitVec 16) :
    (-2 ^ 63 ≤ 10 * q.toInt → 10 * q.toInt < 2 ^ 63 →
      (OneKey q s (10 * q) (s - 1) ↔
        (InTable q s ∧ InTable (10 * q) (s - 1)) ∧
          (q.toInt.natAbs < 922337203685470000 ∨ 10000 ∣ q.toInt))) ∧
    (∀ q', q.toInt < q'.toInt → (KeysBefore q q' s ↔ InTable q s ∧ InTable q' s)) ∧
    (q * (entryOf q).factor).toInt = q.toInt * (entryOf q).factor.toInt :=
  ⟨oneKey_iff, fun _ => keysBefore_iff, toInt_mul_factor q⟩

/-- 5 at scale 0 and 50 at scale -1, 5 before 7 -/
theorem makeInt64Key_scale_independent_five :
    OneKey 5 0 (10 * 5) (0 - 1) ∧ KeysBefore 5 7 0 ∧ (5 * (entryOf 5).factor).toInt = 5 * 10 ^ 18 :=
  have h := makeInt64Key_scale_independent_iff 5 0
  ⟨(h.1 (by decide) (by decide)).mpr (by decide), (h.2.1 7 (by decide)).mpr (by decide),
    h.2.2.trans (by decide)⟩

/-- 922337203685470001 at scale 0, and ten times as much at scale -1: both numbers fit, and the
table has both scales. -/
theorem makeInt64Key_not_scale_independent :
    ∃ q : BitVec 64, q = 922337203685470001 ∧ -2 ^ 63 ≤ 10 * q.toInt ∧ 10 * q.toInt < 2 ^ 63 ∧
      makeInt64Key q 0 = some ⟨92233720368547, 1⟩ ∧
      makeInt64Key (10 * q) (0 - 1) = some ⟨92233720368547, 10⟩ ∧
      ¬OneKey q 0 (10 * q) (0 - 1) := by
  have hkey : makeInt64Key 922337203685470001 0 = some ⟨92233720368547, 1⟩ := by
    decide +kernel
  have hkey' : makeInt64Key (10 * 922337203685470001) (0 - 1) = some ⟨92233720368547, 10⟩ := by
    decide +kernel
  refine ⟨_, rfl, by decide, by decide, hkey, hkey', ?_⟩
  rintro ⟨key, h, h'⟩
  have heq := (hkey.symm.trans h).trans (h'.symm.trans hkey')
  exact absurd heq (by decide +kernel)

end Firebird.Btr
