import Firebird.Lib.Bytes
import Firebird.Lib.Padded
import Firebird.Cvt.Rescale

/-! # Comparing values (`CVT2_compare` in `jrd/cvt2.cpp`)

Strings are compared byte by byte, and the shorter one is followed by blanks. Two values of type
`dtype_text` are compared in a loop of their own; for all other pairs of strings the difference of
the lengths is kept in an `SSHORT`. Exact numerics are brought to the smaller one of their scales.
-/

namespace Firebird.Cvt

open Wrap HalfAway

/-! ## Strings -/

/-- The types of strings -/
inductive StringType where
  | text
  | cstring
  | varying
deriving DecidableEq

/-- A descriptor of a string, with the `dsc_length` bytes at `dsc_address`. In a string of type
`dtype_cstring` is a terminator, and in one of type `dtype_varying` the length. -/
structure StringDsc where
  dtype : StringType
  scale : ℤ
  ttype : ℕ
  address : List UCHAR
  length_le : address.length ≤ 65535
  terminated : dtype = .cstring → 0 ∈ address
  counted : dtype = .varying → 2 ≤ address.length

/-- `ASCII_SPACE` -/
def blank : UCHAR := 32

/-- `vary_length` -/
def varyLength (address : List UCHAR) : ℕ := (address.getD 0 0).val + 256 * (address.getD 1 0).val

/-- `CVT_get_string_ptr` of a string: the length, and what is at the address -/
def StringDsc.CVT_get_string_ptr (desc : StringDsc) : ℕ × List UCHAR :=
  match desc.dtype with
  | .text => (desc.address.length, desc.address)
  | .cstring =>
    (min (desc.address.idxOf 0 % 65536) (desc.address.length - 1), desc.address)
  | .varying =>
    (min (varyLength desc.address) (desc.address.length - 2), desc.address.drop 2)

/-- The loop over the bytes that both strings have, and what it returns where they differ -/
def compareLoop : ℕ → List UCHAR → List UCHAR → Option ℤ
  | length + 1, c1 :: p1, c2 :: p2 =>
    if c1 ≠ c2 then some (if c1 > c2 then 1 else -1) else compareLoop length p1 p2
  | _, _, _ => none

/-- The loop over the bytes behind the end of the other string -/
def blankLoop (greater : UCHAR → Bool) : ℕ → List UCHAR → Option ℤ
  | length + 1, c :: p =>
    if c ≠ blank then some (if greater c then 1 else -1) else blankLoop greater length p
  | _, _ => none

/-- The loop of that kind that counts `fill` up to zero -/
def fillLoop (greater : UCHAR → Bool) : ℤ → List UCHAR → Option ℤ
  | fill, c :: p =>
    if c ≠ blank then some (if greater c then 1 else -1)
    else if toInt16 (fill + 1) ≠ 0 then fillLoop greater (toInt16 (fill + 1)) p
    else none
  | _, [] => none

example : compareLoop 2 [65, 66] [65, 67] = some (-1) := by simp [compareLoop]

example : fillLoop (blank > ·) (-2) [32, 33] = some (-1) := by
  simp [fillLoop, blank, toInt16, Int.bmod]

/-- The comparison of two strings of type `dtype_text` -/
def compareText (p1 p2 : List UCHAR) : ℤ :=
  if p1.length ≥ p2.length then
    (compareLoop p2.length p1 p2).getD
      ((blankLoop (· > blank) (p1.length - p2.length) (p1.drop p2.length)).getD 0)
  else
    (compareLoop p1.length p1 p2).getD
      ((blankLoop (blank > ·) (p2.length - p1.length) (p2.drop p1.length)).getD 0)

/-- The comparison of strings of other types. `fill` is an `SSHORT`. -/
def compareMixed (length length2 : ℕ) (p1 p2 : List UCHAR) : ℤ :=
  let fill := toInt16 (length - length2)
  if length ≥ length2 then
    (compareLoop length2 p1 p2).getD
      (if fill > 0 then (blankLoop (· > blank) fill.toNat (p1.drop length2)).getD 0 else 0)
  else
    (compareLoop length p1 p2).getD ((fillLoop (blank > ·) fill (p2.drop length)).getD 0)

/-- `ttype_none` -/
def ttype_none : ℕ := 0

/-- `ttype_binary` -/
def ttype_binary : ℕ := 1

/-- `ttype_ascii` -/
def ttype_ascii : ℕ := 2

/-- `ttype_last_internal` -/
def ttype_last_internal : ℕ := 4

/-- `ttype_dynamic` -/
def ttype_dynamic : ℕ := 127

/-- `IS_INTL_DATA` of a string -/
def StringDsc.IS_INTL_DATA (desc : StringDsc) : Prop := desc.ttype > ttype_last_internal

instance (desc : StringDsc) : Decidable desc.IS_INTL_DATA := Nat.decLt _ _

section

variable (INTL_charset : ℕ → ℕ) (INTL_compare : StringDsc → StringDsc → Except Halt ℤ)

/-- The character set of a string. The one of the attachment is looked up. -/
def StringDsc.charset (desc : StringDsc) : ℕ :=
  if desc.ttype = ttype_dynamic then INTL_charset desc.ttype else desc.ttype

/-- Strings that cannot be compared byte by byte -/
def StringDsc.International (arg1 arg2 : StringDsc) : Prop :=
  (arg1.IS_INTL_DATA ∨ arg2.IS_INTL_DATA) ∧
    arg1.charset INTL_charset ≠ ttype_binary ∧ arg2.charset INTL_charset ≠ ttype_binary ∧
    (arg1.charset INTL_charset ≠ ttype_ascii ∨ arg2.charset INTL_charset ≠ ttype_ascii) ∧
    (arg1.charset INTL_charset ≠ ttype_none ∨ arg2.charset INTL_charset ≠ ttype_none)

instance (arg1 arg2 : StringDsc) : Decidable (arg1.International INTL_charset arg2) :=
  inferInstanceAs (Decidable (_ ∧ _))

/-- Two descriptors of type `dtype_text` that are matched -/
def StringDsc.Matched (arg1 arg2 : StringDsc) : Prop :=
  arg1.dtype = .text ∧ arg2.dtype = .text ∧ arg1.scale = arg2.scale

instance (arg1 arg2 : StringDsc) : Decidable (arg1.Matched arg2) :=
  inferInstanceAs (Decidable (_ ∧ _))

/-- `CVT2_compare` of two strings -/
def StringDsc.CVT2_compare (arg1 arg2 : StringDsc) : Except Halt ℤ :=
  if arg1.International INTL_charset arg2 then INTL_compare arg1 arg2
  else if arg1.Matched arg2 then .ok (compareText arg1.address arg2.address)
  else
    .ok (compareMixed arg1.CVT_get_string_ptr.1 arg2.CVT_get_string_ptr.1
      arg1.CVT_get_string_ptr.2 arg2.CVT_get_string_ptr.2)

end

/-! ## Exact numerics -/

/-- `compare_priority` -/
def ExactType.comparePriority : ExactType → ℕ
  | .short => 8
  | .long => 9
  | .int64 => 10

/-- The order of two machine integers -/
def orderOf (x y : ℤ) : ℤ := if x = y then 0 else if x > y then 1 else -1

/-- The comparison of two numbers, of which the first one has the type with the greater priority -/
def ExactDsc.compareTypes (arg1 arg2 : ExactDsc) : Except Halt ℤ :=
  let scale := min arg1.scale arg2.scale
  match arg1.dtype with
  | .short => do
    let temp1 ← arg1.CVT_get_long scale
    let temp2 ← arg2.CVT_get_long scale
    return orderOf temp1 temp2
  | .long | .int64 => do
    let temp1 ← arg1.CVT_get_int64 scale
    let temp2 ← arg2.CVT_get_int64 scale
    return orderOf temp1 temp2

/-- `CVT2_compare` of two exact numerics -/
def ExactDsc.CVT2_compare (arg1 arg2 : ExactDsc) : Except Halt ℤ :=
  if arg1.dtype = arg2.dtype ∧ arg1.scale = arg2.scale then .ok (orderOf arg1.value arg2.value)
  else if arg1.dtype.comparePriority < arg2.dtype.comparePriority then do
    -- the operands change places; their types still differ
    let result ← arg2.compareTypes arg1
    return -result
  else arg1.compareTypes arg2

/-! ## The loops -/

/-- -1, 0 and 1 -/
def signOf : Ordering → ℤ
  | .lt => -1
  | .eq => 0
  | .gt => 1

theorem signOf_swap (o : Ordering) : signOf o.swap = -signOf o := by cases o <;> rfl

theorem signOf_nonpos_iff (o : Ordering) : signOf o ≤ 0 ↔ o ≠ .gt := by cases o <;> decide

theorem signOf_inj {o o' : Ordering} (h : signOf o = signOf o') : o = o' := by
  cases o <;> cases o' <;> first | rfl | cases h

theorem orderOf_eq (x y : ℤ) : orderOf x y = signOf (cmp x y) := by
  unfold orderOf
  rcases lt_trichotomy x y with h | rfl | h
  · rw [if_neg h.ne, if_neg (not_lt.mpr h.le), (cmp_eq_lt_iff x y).mpr h]
    rfl
  · rw [if_pos rfl, cmp_self_eq_eq]
    rfl
  · rw [if_neg h.ne', if_pos h, (cmp_eq_gt_iff x y).mpr h]
    rfl

/-- What is returned where two bytes differ -/
theorem ite_eq_signOf {c1 c2 : UCHAR} (h : c1 ≠ c2) :
    (if c1 > c2 then (1 : ℤ) else -1) = signOf (cmp c1 c2) := by
  rcases lt_or_gt_of_ne h with hlt | hgt
  · rw [if_neg (not_lt.mpr hlt.le), (cmp_eq_lt_iff c1 c2).mpr hlt]
    rfl
  · rw [if_pos hgt, (cmp_eq_gt_iff c1 c2).mpr hgt]
    rfl

theorem compareLoop_getD {n : ℕ} {p1 p2 : List UCHAR} (h1 : n ≤ p1.length) (h2 : n ≤ p2.length)
    (o : Ordering) :
    (compareLoop n p1 p2).getD (signOf o) =
      signOf (((p1.take n).compareLex cmp (p2.take n)).then o) := by
  induction n generalizing p1 p2 with
  | zero =>
    rw [compareLoop, List.take_zero, List.take_zero]
    · rfl
    · intro _ _ _ _ _ h
      cases h
  | succ n ih =>
    rcases p1 with _ | ⟨c1, p1⟩
    · cases h1
    rcases p2 with _ | ⟨c2, p2⟩
    · cases h2
    rw [compareLoop, List.take_succ_cons, List.take_succ_cons, List.compareLex_cons_cons]
    by_cases h : c1 = c2
    · rw [if_neg (not_not.mpr h), ih (Nat.le_of_succ_le_succ h1) (Nat.le_of_succ_le_succ h2), h,
        cmp_self_eq_eq, Ordering.eq_then]
    · have hne : cmp c1 c2 ≠ .eq := fun heq => h ((cmp_eq_eq_iff c1 c2).mp heq)
      rw [if_pos h, Option.getD_some, ite_eq_signOf h]
      cases hcmp : cmp c1 c2 with
      | lt => rfl
      | eq => exact absurd hcmp hne
      | gt => rfl

theorem blankLoop_getD (greater : UCHAR → Bool) {o : UCHAR → Ordering}
    (hgreater : ∀ c, c ≠ blank → (if greater c then (1 : ℤ) else -1) = signOf (o c))
    {f : List UCHAR → Ordering} (hnil : f [] = .eq)
    (hcons : ∀ c p, f (c :: p) = if c = blank then f p else o c) (n : ℕ) (p : List UCHAR) :
    (blankLoop greater n p).getD 0 = signOf (f (p.take n)) := by
  induction n generalizing p with
  | zero =>
    rw [blankLoop, List.take_zero, hnil]
    · rfl
    · intro _ _ _ h
      cases h
  | succ n ih =>
    cases p with
    | nil =>
      rw [blankLoop, List.take_nil, hnil]
      · rfl
      · intro _ _ _ _ h
        cases h
    | cons c p =>
      rw [blankLoop, List.take_succ_cons, hcons]
      by_cases h : c = blank
      · rw [if_neg (not_not.mpr h), if_pos h, ih]
      · rw [if_pos h, if_neg h, Option.getD_some, hgreater c h]

theorem then_eq_ite {c1 c2 : UCHAR} (o : Ordering) :
    (cmp c1 c2).then o = if c1 = c2 then o else cmp c1 c2 := by
  by_cases h : c1 = c2
  · rw [if_pos h, h, cmp_self_eq_eq]
    rfl
  · rw [if_neg h]
    cases hcmp : cmp c1 c2 with
    | lt => rfl
    | eq => exact absurd ((cmp_eq_eq_iff c1 c2).mp hcmp) h
    | gt => rfl

/-- The rest of the first string against blanks -/
theorem blankLoop_first (n : ℕ) (p : List UCHAR) :
    (blankLoop (· > blank) n p).getD 0 = signOf (Padded.compare blank (p.take n) []) := by
  apply blankLoop_getD (· > blank) (o := fun c => cmp c blank)
    (f := fun p => Padded.compare blank p [])
  · intro c h
    exact (if_congr decide_eq_true_iff rfl rfl).trans (ite_eq_signOf h)
  · exact Padded.compare_nil_nil
  · intro c p
    rw [Padded.compare_cons_nil, then_eq_ite]

/-- The rest of the second string against blanks -/
theorem blankLoop_second (n : ℕ) (p : List UCHAR) :
    (blankLoop (blank > ·) n p).getD 0 = signOf (Padded.compare blank [] (p.take n)) := by
  apply blankLoop_getD (blank > ·) (o := fun c => cmp blank c)
    (f := fun p => Padded.compare blank [] p)
  · intro c h
    exact (if_congr decide_eq_true_iff rfl rfl).trans (ite_eq_signOf (Ne.symm h))
  · exact Padded.compare_nil_nil
  · intro c p
    rw [Padded.compare_nil_cons, then_eq_ite]
    exact if_congr eq_comm rfl rfl

/-- Counting up to zero, through the largest `SSHORT` where the difference is large, takes as many
steps as bytes are left. -/
theorem fillLoop_eq (greater : UCHAR → Bool) {n : ℕ} (hpos : 0 < n) (hle : n ≤ 65535)
    (p : List UCHAR) : fillLoop greater (toInt16 (-n)) p = blankLoop greater n p := by
  induction p generalizing n with
  | nil =>
    rw [fillLoop, blankLoop]
    intro _ _ _ _ h
    cases h
  | cons c p ih =>
    obtain ⟨n, rfl⟩ := Nat.exists_eq_succ_of_ne_zero hpos.ne'
    have hstep : toInt16 (toInt16 (-(n + 1 : ℕ)) + 1) = toInt16 (-n) := by
      rw [toInt16_eq, toInt16_eq, toInt16_eq]
      omega
    rw [fillLoop, blankLoop, Nat.succ_eq_add_one, hstep]
    rcases Nat.eq_zero_or_pos n with rfl | hn
    · have hzero : toInt16 (-(0 : ℕ)) = 0 := rfl
      have hnone : blankLoop greater 0 p = none := by
        rw [blankLoop]
        intro _ _ _ h
        cases h
      rw [hzero, if_neg (not_not.mpr rfl), hnone]
    · have hne : toInt16 (-n) ≠ 0 := by
        rw [toInt16_eq]
        omega
      rw [if_pos hne, ih hn (by omega)]

/-! ## Strings -/

variable {l1 l2 : ℕ} {p1 p2 : List UCHAR}

theorem take_split (p : List UCHAR) (h : l2 ≤ l1) :
    p.take l1 = p.take l2 ++ (p.drop l2).take (l1 - l2) := by
  conv_lhs => rw [← Nat.add_sub_cancel' h]
  exact List.take_add

/-- The loops where the first string is not the shorter one -/
theorem loops_first (h : l2 ≤ l1) (h1 : l1 ≤ p1.length) (h2 : l2 ≤ p2.length) :
    (compareLoop l2 p1 p2).getD
        ((blankLoop (· > blank) (l1 - l2) (p1.drop l2)).getD 0) =
      signOf (Padded.compare blank (p1.take l1) (p2.take l2)) := by
  have hlen : (p1.take l2).length = (p2.take l2).length := by
    rw [List.length_take_of_le (h.trans h1), List.length_take_of_le h2]
  rw [blankLoop_first, compareLoop_getD (h.trans h1) h2, take_split p1 h]
  conv_rhs => rw [← List.append_nil (p2.take l2)]
  rw [Padded.compare_append_of_length hlen]

/-- The loops where the second string is longer -/
theorem loops_second (h : l1 ≤ l2) (h1 : l1 ≤ p1.length) (h2 : l2 ≤ p2.length) :
    (compareLoop l1 p1 p2).getD
        ((blankLoop (blank > ·) (l2 - l1) (p2.drop l1)).getD 0) =
      signOf (Padded.compare blank (p1.take l1) (p2.take l2)) := by
  have hlen : (p1.take l1).length = (p2.take l1).length := by
    rw [List.length_take_of_le h1, List.length_take_of_le (h.trans h2)]
  rw [blankLoop_second, compareLoop_getD h1 (h.trans h2), take_split p2 h]
  conv_rhs => rw [← List.append_nil (p1.take l1)]
  rw [Padded.compare_append_of_length hlen]

theorem compareText_eq (p1 p2 : List UCHAR) :
    compareText p1 p2 = signOf (Padded.compare blank p1 p2) := by
  unfold compareText
  split
  · next h => rw [loops_first h (Nat.le_refl _) (Nat.le_refl _), List.take_length, List.take_length]
  · next h =>
    rw [loops_second (by omega) (Nat.le_refl _) (Nat.le_refl _), List.take_length, List.take_length]

/-- The lengths differ by less than the range of `fill`. -/
theorem compareMixed_eq (h1 : l1 ≤ p1.length) (h2 : l2 ≤ p2.length) (hfar : l1 < l2 + 32768)
    (hle : l2 ≤ 65535) :
    compareMixed l1 l2 p1 p2 = signOf (Padded.compare blank (p1.take l1) (p2.take l2)) := by
  unfold compareMixed
  dsimp only
  split
  · next h =>
    have hfill : toInt16 (l1 - l2) = (l1 - l2 : ℕ) := by
      rw [toInt16_of_lt (by omega) (by omega)]
      omega
    rw [← loops_first h h1 h2, hfill, Int.toNat_natCast]
    split
    · rfl
    · -- there are no bytes behind the other string
      next hzero =>
      have hsame : l1 - l2 = 0 := by omega
      rw [hsame, blankLoop]
      · rfl
      · intro _ _ _ h
        cases h
  · next h =>
    have hfill : toInt16 (l1 - l2) = toInt16 (-(l2 - l1 : ℕ)) := by
      congr 1
      omega
    rw [← loops_second (by omega) h1 h2, hfill, fillLoop_eq _ (by omega) (by omega)]

/-- The loop over the rest of the first string is left out where the difference of the lengths is
not an `SSHORT`. -/
theorem compareMixed_of_far (h1 : l1 ≤ p1.length) (h2 : l2 ≤ p2.length) (hfar : l2 + 32768 ≤ l1)
    (hle : l1 ≤ 65535) :
    compareMixed l1 l2 p1 p2 = signOf ((p1.take l2).compareLex cmp (p2.take l2)) := by
  have hfill : ¬toInt16 (l1 - l2) > 0 := by
    rw [toInt16_eq]
    omega
  unfold compareMixed
  dsimp only
  rw [if_pos (by omega), if_neg hfill]
  exact (compareLoop_getD (by omega) h2 .eq).trans (by rw [Ordering.then_eq])

/-- The bytes of a string -/
def StringDsc.string (desc : StringDsc) : List UCHAR :=
  desc.CVT_get_string_ptr.2.take desc.CVT_get_string_ptr.1

theorem StringDsc.length_ptr (desc : StringDsc) :
    desc.CVT_get_string_ptr.1 ≤ desc.CVT_get_string_ptr.2.length := by
  unfold CVT_get_string_ptr
  split
  · exact Nat.le_refl _
  · exact (Nat.min_le_right _ _).trans (Nat.sub_le _ _)
  · rw [List.length_drop]
    exact Nat.min_le_right _ _

theorem StringDsc.length_string (desc : StringDsc) :
    desc.string.length = desc.CVT_get_string_ptr.1 :=
  List.length_take_of_le desc.length_ptr

theorem StringDsc.length_string_le (desc : StringDsc) : desc.string.length ≤ 65535 := by
  have hle := desc.length_le
  rw [length_string]
  unfold CVT_get_string_ptr
  split
  · exact hle
  · dsimp only
    omega
  · dsimp only
    omega

theorem StringDsc.string_text {desc : StringDsc} (h : desc.dtype = .text) :
    desc.string = desc.address := by
  unfold string CVT_get_string_ptr
  rw [h]
  exact List.take_length

/-- The character set of the string is one of those that are compared byte by byte. -/
def StringDsc.Plain (desc : StringDsc) : Prop :=
  desc.ttype = ttype_none ∨ desc.ttype = ttype_ascii ∨ desc.ttype = ttype_binary

theorem StringDsc.Plain.not_intl {desc : StringDsc} (h : desc.Plain) : ¬desc.IS_INTL_DATA := by
  unfold IS_INTL_DATA ttype_last_internal
  rcases h with h | h | h <;> rw [h] <;> decide

section

variable {INTL_charset : ℕ → ℕ} {INTL_compare : StringDsc → StringDsc → Except Halt ℤ}
  {a b c : StringDsc}

/-- The rest of the first string is cut off: the pair is not matched, the difference of the lengths
is not an `SSHORT`, and the strings agree up to a rest that is not blank. -/
def StringDsc.CutOff (a b : StringDsc) : Prop :=
  ¬a.Matched b ∧ b.string.length + 32768 ≤ a.string.length ∧ b.string <+: a.string ∧
    ∃ c ∈ a.string.drop b.string.length, c ≠ blank

theorem StringDsc.CVT2_compare_plain (ha : a.Plain) (hb : b.Plain) :
    a.CVT2_compare INTL_charset INTL_compare b =
      if a.Matched b then .ok (compareText a.address b.address)
      else
        .ok (compareMixed a.CVT_get_string_ptr.1 b.CVT_get_string_ptr.1 a.CVT_get_string_ptr.2
          b.CVT_get_string_ptr.2) := by
  have hintl : ¬a.International INTL_charset b := by
    rintro ⟨hintl | hintl, -⟩
    · exact ha.not_intl hintl
    · exact hb.not_intl hintl
  rw [CVT2_compare, if_neg hintl]

theorem StringDsc.string_compare_iff (ha : a.Plain) (hb : b.Plain) :
    a.CVT2_compare INTL_charset INTL_compare b =
        .ok (signOf (Padded.compare blank a.string b.string)) ↔ ¬a.CutOff b := by
  rw [CVT2_compare_plain ha hb]
  by_cases hmatched : a.Matched b
  · rw [if_pos hmatched, compareText_eq, string_text hmatched.1, string_text hmatched.2.1]
    exact iff_of_true rfl fun h => h.1 hmatched
  rw [if_neg hmatched]
  have hla := a.length_string
  have hlb := b.length_string
  have hua := a.length_string_le
  have hub := b.length_string_le
  by_cases hfar : a.string.length < b.string.length + 32768
  · rw [compareMixed_eq a.length_ptr b.length_ptr (by omega) (by omega)]
    refine iff_of_true rfl ?_
    rintro ⟨-, hlong, -⟩
    omega
  · have hlong : b.string.length + 32768 ≤ a.string.length := not_lt.mp hfar
    have hcut : a.CVT_get_string_ptr.2.take b.CVT_get_string_ptr.1 =
        a.string.take b.string.length := by
      rw [hlb, string, List.take_take, min_eq_left (by omega)]
    have hlen : (a.string.take b.string.length).length = b.string.length :=
      List.length_take_of_le (by omega)
    have hspec : Padded.compare blank a.string b.string =
        ((a.string.take b.string.length).compareLex cmp b.string).then
          (Padded.compare blank (a.string.drop b.string.length) []) := by
      rw [← Padded.compare_append_of_length hlen, List.take_append_drop, List.append_nil]
    rw [compareMixed_of_far a.length_ptr b.length_ptr (by omega) (by omega), hcut, ← string, hspec]
    have hblank : Padded.compare blank (a.string.drop b.string.length) [] = .eq ↔
        ∀ c ∈ a.string.drop b.string.length, c = blank := by
      rw [← Padded.compare_nil_eq_iff, ← Padded.compare_swap, Ordering.swap_eq_eq]
    constructor
    · rintro h ⟨-, -, ⟨r, hr⟩, c, hmem, hc⟩
      have htake : a.string.take b.string.length = b.string := by
        rw [← hr, List.take_left]
      rw [htake, Lex.compareLex_self, Ordering.eq_then] at h
      exact hc (hblank.mp (signOf_inj (Except.ok.inj h)).symm c hmem)
    · intro h
      by_cases heq : a.string.take b.string.length = b.string
      · have hprefix : b.string <+: a.string := heq ▸ List.take_prefix _ _
        have hall : ∀ c ∈ a.string.drop b.string.length, c = blank := by
          intro c hmem
          by_contra hc
          exact h ⟨hmatched, hlong, hprefix, c, hmem, hc⟩
        rw [hblank.mpr hall, Ordering.then_eq]
      · -- the strings differ in the bytes that both have
        have hne : (a.string.take b.string.length).compareLex cmp b.string ≠ .eq := fun h' =>
          heq ((Lex.compareLex_eq_eq_iff _ _).mp h')
        cases hcmp : (a.string.take b.string.length).compareLex cmp b.string with
        | lt => rfl
        | eq => exact absurd hcmp hne
        | gt => rfl

end

/-! ## Exact numerics -/

/-- The exact decimal value -/
def ExactDsc.decimal (desc : ExactDsc) : ℚ := desc.atScale 0

theorem atScale_intCast {desc : ExactDsc} {t : ℤ} (h : t ≤ desc.scale) :
    desc.atScale t = (desc.value * 10 ^ (desc.scale - t).toNat : ℤ) := by
  have hscale : ((desc.scale - t).toNat : ℤ) = desc.scale - t := Int.toNat_of_nonneg (by omega)
  rw [ExactDsc.atScale, Int.cast_mul, Int.cast_pow, Int.cast_ofNat, ← zpow_natCast, hscale]

/-- Numbers of one scale are in the order of their decimal values. -/
theorem cmp_atScale (a b : ExactDsc) (t : ℤ) :
    cmp (a.atScale t) (b.atScale t) = cmp a.decimal b.decimal := by
  have hshift : ∀ desc : ExactDsc, desc.decimal = desc.atScale t * 10 ^ t := by
    intro desc
    rw [ExactDsc.decimal, ExactDsc.atScale, ExactDsc.atScale, mul_assoc, ← zpow_add₀ (by norm_num)]
    congr 2
    omega
  have hpos : (0 : ℚ) < 10 ^ t := zpow_pos (by norm_num) t
  rw [hshift a, hshift b]
  apply Lex.cmp_congr
  · exact (mul_lt_mul_iff_left₀ hpos).symm
  · exact (mul_lt_mul_iff_left₀ hpos).symm

/-- What is returned, or `gds_arith_except` -/
def Compares (x : Except Halt ℤ) (o : Ordering) : Prop :=
  x = .ok (signOf o) ∨ x = .error .arithExcept

theorem returned_compares {w : ExactType} {a b : ExactDsc} {x y : Except Halt ℤ}
    (hx : x = returned w (halfAway (a.atScale (min a.scale b.scale))))
    (hy : y = returned w (halfAway (b.atScale (min a.scale b.scale)))) :
    Compares (do let temp1 ← x; let temp2 ← y; return orderOf temp1 temp2)
      (cmp a.decimal b.decimal) := by
  have ha := atScale_intCast (min_le_left a.scale b.scale)
  have hb := atScale_intCast (min_le_right a.scale b.scale)
  rw [← cmp_atScale a b (min a.scale b.scale), ha, hb]
  rw [ha, halfAway_intCast] at hx
  rw [hb, halfAway_intCast] at hy
  generalize a.value * 10 ^ (a.scale - min a.scale b.scale).toNat = v at *
  generalize b.value * 10 ^ (b.scale - min a.scale b.scale).toNat = u at *
  unfold returned at hx hy
  subst hx hy
  have hcast : cmp (v : ℚ) (u : ℚ) = cmp v u := Lex.cmp_congr Int.cast_lt Int.cast_lt
  rw [hcast]
  by_cases hv : w.Fits v
  · by_cases hu : w.Fits u
    · left
      rw [if_pos hv, if_pos hu, Outcome.ok_seq, Outcome.ok_seq, orderOf_eq]
      rfl
    · rw [if_pos hv, if_neg hu]
      exact .inr rfl
  · rw [if_neg hv]
    exact .inr rfl

theorem compareTypes_compares (a b : ExactDsc) :
    Compares (a.compareTypes b) (cmp a.decimal b.decimal) := by
  have hfits : ∀ t desc : ℤ, -128 ≤ t ∧ t ≤ 127 → -128 ≤ desc ∧ desc ≤ 127 →
      toInt16 (t - desc) = t - desc := by
    intro t desc ht hdesc
    exact toInt16_of_lt (by omega) (by omega)
  have hmin : -128 ≤ min a.scale b.scale ∧ min a.scale b.scale ≤ 127 := by
    have ha := a.scale_fits
    have hb := b.scale_fits
    omega
  have hlong := returned_compares (CVT_get_long_eq (hfits _ _ hmin a.scale_fits))
    (CVT_get_long_eq (hfits _ _ hmin b.scale_fits))
  have hint64 := returned_compares (CVT_get_int64_eq (hfits _ _ hmin a.scale_fits))
    (CVT_get_int64_eq (hfits _ _ hmin b.scale_fits))
  unfold ExactDsc.compareTypes
  dsimp only
  cases a.dtype with
  | short => exact hlong
  | long => exact hint64
  | int64 => exact hint64

theorem exact_compare (a b : ExactDsc) :
    Compares (a.CVT2_compare b) (cmp a.decimal b.decimal) := by
  unfold ExactDsc.CVT2_compare
  by_cases h : a.dtype = b.dtype ∧ a.scale = b.scale
  · left
    rw [if_pos h, orderOf_eq, ← cmp_atScale a b a.scale]
    have hb : b.atScale a.scale = b.value := by
      rw [ExactDsc.atScale, h.2, Int.sub_self, zpow_zero, mul_one]
    have ha : a.atScale a.scale = a.value := by
      rw [ExactDsc.atScale, Int.sub_self, zpow_zero, mul_one]
    have hcast : cmp (a.value : ℚ) (b.value : ℚ) = cmp a.value b.value :=
      Lex.cmp_congr Int.cast_lt Int.cast_lt
    rw [ha, hb, hcast]
  · rw [if_neg h]
    by_cases hpriority : a.dtype.comparePriority < b.dtype.comparePriority
    · rw [if_pos hpriority]
      rcases compareTypes_compares b a with h | h
      · left
        rw [h, Outcome.ok_seq, ← signOf_swap, cmp_swap]
        rfl
      · right
        rw [h]
        rfl
    · rw [if_neg hpriority]
      exact compareTypes_compares a b

/-! ## The order of values -/

/-- Where a comparison returns a number, the opposite one returns its negative, and values in order
stay so. -/
structure Orders {α : Type} (compare : α → α → Except Halt ℤ) (a b c : α) : Prop where
  antisymm : ∀ r s, compare a b = .ok r → compare b a = .ok s → s = -r
  trans : ∀ r s t, compare a b = .ok r → compare b c = .ok s → compare a c = .ok t →
    r ≤ 0 → s ≤ 0 → t ≤ 0

/-- A comparison that returns the sign of an order of some kind -/
theorem Orders.of_signs {α : Type} {compare : α → α → Except Halt ℤ} (cmp : α → α → Ordering)
    {a b c : α} (hswap : (cmp a b).swap = cmp b a)
    (htrans : cmp a b ≠ .gt → cmp b c ≠ .gt → cmp a c ≠ .gt)
    (hab : ∀ r, compare a b = .ok r → r = signOf (cmp a b))
    (hba : ∀ r, compare b a = .ok r → r = signOf (cmp b a))
    (hbc : ∀ r, compare b c = .ok r → r = signOf (cmp b c))
    (hac : ∀ r, compare a c = .ok r → r = signOf (cmp a c)) : Orders compare a b c := by
  constructor
  · intro r s hr hs
    rw [hab r hr, hba s hs, ← hswap, signOf_swap]
  · intro r s t hr hs ht hr0 hs0
    rw [hab r hr, signOf_nonpos_iff] at hr0
    rw [hbc s hs, signOf_nonpos_iff] at hs0
    rw [hac t ht, signOf_nonpos_iff]
    exact htrans hr0 hs0

theorem exact_orders (a b c : ExactDsc) : Orders ExactDsc.CVT2_compare a b c := by
  have hsign : ∀ x y : ExactDsc, ∀ r, x.CVT2_compare y = .ok r →
      r = signOf (cmp x.decimal y.decimal) := by
    intro x y r hr
    rcases exact_compare x y with h | h
    · rw [h] at hr
      exact (Except.ok.inj hr).symm
    · rw [h] at hr
      cases hr
  apply Orders.of_signs fun x y => cmp x.decimal y.decimal
  · exact cmp_swap _ _
  · intro hab hbc
    rw [Ne, cmp_eq_gt_iff, not_lt] at hab hbc ⊢
    exact hab.trans hbc
  · exact hsign a b
  · exact hsign b a
  · exact hsign b c
  · exact hsign a c

/-- Strings are compared as if the shorter one were filled up with blanks, unless the rest of the
first one is cut off. Of exact numerics the decimal values are compared, or `gds_arith_except` is
raised. The order is total where nothing is cut off. -/
theorem value_comparison_iff (INTL_charset : ℕ → ℕ)
    (INTL_compare : StringDsc → StringDsc → Except Halt ℤ) :
    (∀ a b : StringDsc, a.Plain → b.Plain →
      (a.CVT2_compare INTL_charset INTL_compare b =
        .ok (signOf (Padded.compare blank a.string b.string)) ↔ ¬a.CutOff b)) ∧
    (∀ a b c : StringDsc, a.Plain → b.Plain → c.Plain →
      ¬a.CutOff b → ¬b.CutOff a → ¬b.CutOff c → ¬a.CutOff c →
      Orders (StringDsc.CVT2_compare INTL_charset INTL_compare) a b c) ∧
    (∀ a b : ExactDsc, Compares (a.CVT2_compare b) (cmp a.decimal b.decimal)) ∧
    ∀ a b c : ExactDsc, Orders ExactDsc.CVT2_compare a b c := by
  refine ⟨fun a b ha hb => StringDsc.string_compare_iff ha hb, ?_, exact_compare, exact_orders⟩
  intro a b c ha hb hc hab hba hbc hac
  have hsign : ∀ x y : StringDsc, x.Plain → y.Plain → ¬x.CutOff y → ∀ r,
      x.CVT2_compare INTL_charset INTL_compare y = .ok r →
        r = signOf (Padded.compare blank x.string y.string) := by
    intro x y hx hy hxy r hr
    rw [(StringDsc.string_compare_iff hx hy).mpr hxy] at hr
    exact (Except.ok.inj hr).symm
  apply Orders.of_signs fun x y => Padded.compare blank x.string y.string
  · exact Padded.compare_swap _ _ _
  · exact Padded.compare_trans
  · exact hsign a b ha hb hab
  · exact hsign b a hb ha hba
  · exact hsign b c hb hc hbc
  · exact hsign a c ha hc hac

/-- A varying string of `n` exclamation marks -/
def marks (n : ℕ) (h : n ≤ 65533) : StringDsc where
  dtype := .varying
  scale := 0
  ttype := ttype_none
  address := Fin.ofNat 256 n :: Fin.ofNat 256 (n / 256) :: List.replicate n 33
  length_le := by
    rw [List.length_cons, List.length_cons, List.length_replicate]
    omega
  terminated := fun h => nomatch h
  counted := fun _ => by
    rw [List.length_cons, List.length_cons]
    omega

theorem string_marks (n : ℕ) (h : n ≤ 65533) : (marks n h).string = List.replicate n 33 := by
  have hcount : varyLength (marks n h).address = n := by
    change n % 256 + 256 * (n / 256 % 256) = n
    omega
  have hlen : (marks n h).address.length - 2 = n := by
    change (List.replicate n (33 : UCHAR)).length + 1 + 1 - 2 = n
    rw [List.length_replicate]
    omega
  change (List.replicate n (33 : UCHAR)).take
    (min (varyLength (marks n h).address) ((marks n h).address.length - 2)) = _
  rw [hcount, hlen, min_self, List.take_replicate, min_self]

/-- 32768 exclamation marks are compared with the empty string as if they were blanks. -/
theorem value_comparison_cut :
    let a := marks 32768 (by decide)
    let b := marks 0 (by decide)
    a.CVT2_compare id (fun _ _ => .ok 0) b = .ok 0 ∧
      Padded.compare blank a.string b.string = .gt ∧
      b.CVT2_compare id (fun _ _ => .ok 0) a = .ok (-1) := by
  intro a b
  have hplain : a.Plain ∧ b.Plain := ⟨.inl rfl, .inl rfl⟩
  have hmatched : ¬a.Matched b := fun h => nomatch h.1
  have ha : a.string = List.replicate 32768 33 := string_marks _ _
  have hb : b.string = [] := string_marks _ _
  have hgt : Padded.compare blank a.string b.string = .gt := by
    rw [ha, hb, List.replicate_succ, Padded.compare_cons_nil]
    rfl
  have hla : a.CVT_get_string_ptr.1 = 32768 := by
    rw [← StringDsc.length_string, ha, List.length_replicate]
  have hlb : b.CVT_get_string_ptr.1 = 0 := by
    rw [← StringDsc.length_string, hb, List.length_nil]
  refine ⟨?_, hgt, ?_⟩
  · rw [StringDsc.CVT2_compare_plain hplain.1 hplain.2, if_neg hmatched,
      compareMixed_of_far a.length_ptr b.length_ptr (by rw [hla, hlb]) (by rw [hla]; decide), hlb]
    rfl
  · have hcut : ¬b.CutOff a := by
      rintro ⟨-, hfar, -⟩
      rw [ha, hb, List.length_replicate, List.length_nil] at hfar
      omega
    rw [(StringDsc.string_compare_iff hplain.2 hplain.1).mpr hcut, ← Padded.compare_swap, hgt]
    rfl

end Firebird.Cvt
