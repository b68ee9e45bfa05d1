import Mathlib.Data.List.GetD
import Firebird.Btr.Compound
import Firebird.Cvt.Compare

/-! # Index keys of strings (`compress` in `jrd/btr.cpp`)

The bytes of the string are the key, without the pads at its end. One pad is kept when there is
nothing else. A key is before those that it begins, while a string is compared as if it went on
with blanks.
-/

namespace Firebird.Btr

open Cvt

/-- The itypes whose keys are the bytes of a string -/
inductive StringItype where
  | string
  | byteArray
deriving DecidableEq

/-- `pad` -/
def StringItype.pad : StringItype → UCHAR
  | .string => blank
  | .byteArray => 0

/-- `sizeof(key->key_data)` -/
def sizeofKeyData : ℕ := 2 * maxKey

/-- `while (p > key->key_data) if (*--p != pad) break;` -/
def chopPads (pad : UCHAR) (keyData : List UCHAR) : ℕ → ℕ
  | 0 => 0
  | p + 1 => if keyData.getD p 0 ≠ pad then p else chopPads pad keyData p

example : chopPads 32 [65, 32, 66, 32, 32] 5 = 2 := by simp [chopPads]

/-- `compress` of a string that is not missing -/
def compressString (itype : StringItype) (desc : StringDsc) : List UCHAR :=
  let length := min desc.CVT_get_string_ptr.1 sizeofKeyData
  let keyData :=
    if length ≠ 0 then desc.CVT_get_string_ptr.2.take length else [itype.pad]
  keyData.take (chopPads itype.pad keyData keyData.length + 1)

/-! ## The bytes of a key -/

/-- A string without the pads at its end, or one pad -/
def significant (pad : UCHAR) (l : List UCHAR) : List UCHAR :=
  if Padded.strip pad l = [] then [pad] else Padded.strip pad l

variable {pad : UCHAR} {l m : List UCHAR}

theorem chopPads_append (l m : List UCHAR) {n : ℕ} (h : n ≤ l.length) :
    chopPads pad (l ++ m) n = chopPads pad l n := by
  induction n with
  | zero => rfl
  | succ n ih =>
    rw [chopPads, chopPads, List.getD_append _ _ _ _ h, ih (Nat.le_of_succ_le h)]

theorem chopPads_le (l : List UCHAR) (n : ℕ) : chopPads pad l n ≤ n - 1 := by
  induction n with
  | zero => exact Nat.le_refl _
  | succ n ih =>
    rw [chopPads]
    split
    · exact Nat.le_refl _
    · omega

theorem take_chopPads (h : l ≠ []) :
    l.take (chopPads pad l l.length + 1) = significant pad l := by
  induction l using List.reverseRecOn with
  | nil => exact absurd rfl h
  | append_singleton l c ih =>
    have hlast : (l ++ [c]).getD l.length 0 = c := by simp
    rw [List.length_append, List.length_singleton, chopPads, hlast, significant,
      Padded.strip_append_singleton]
    by_cases hc : c = pad
    · rw [if_neg (not_not.mpr hc), if_pos hc, chopPads_append l [c] (Nat.le_refl _)]
      rcases eq_or_ne l [] with rfl | hne
      · rw [hc]
        rfl
      · have hle : chopPads pad l l.length ≤ l.length - 1 := chopPads_le l l.length
        have hpos := List.length_pos_of_ne_nil hne
        rw [List.take_append_of_le_length (by omega), ih hne, significant]
    · rw [if_pos hc, if_neg hc, if_neg (by simp), List.take_of_length_le (by simp)]

/-- The key of a string that `key_data` has room for -/
theorem compressString_eq (itype : StringItype) {desc : StringDsc}
    (h : desc.string.length ≤ sizeofKeyData) :
    compressString itype desc = significant itype.pad desc.string := by
  have hlen := desc.length_string
  unfold compressString
  dsimp only
  rw [min_eq_left (by omega), ← hlen]
  split
  · next hpos =>
    have hstring : desc.CVT_get_string_ptr.2.take desc.string.length = desc.string := by
      rw [hlen]
      rfl
    rw [hstring]
    apply take_chopPads
    intro hnil
    rw [hnil] at hpos
    exact hpos rfl
  · next hzero =>
    have hnil : desc.string = [] := List.length_eq_zero_iff.mp (not_not.mp hzero)
    have hpad : Padded.strip itype.pad [itype.pad] = [] := Padded.strip_eq_nil_iff.mpr (by simp)
    rw [take_chopPads (List.cons_ne_nil _ _), hnil, significant, if_pos hpad]
    exact (if_pos rfl).symm

/-! ## The order of keys -/

/-- The strings are the same up to pads at the end, until the second one goes on with a byte below
the pad. -/
def GoesBelow (pad : UCHAR) (l m : List UCHAR) : Prop :=
  ∃ p c rest, m = p ++ c :: rest ∧ c < pad ∧ p ≠ [] ∧ Padded.strip pad p = Padded.strip pad l

theorem compare_significant (l m : List UCHAR) :
    Padded.compare pad (significant pad l) (significant pad m) = Padded.compare pad l m := by
  have hstrip : ∀ l : List UCHAR,
      Padded.strip pad (significant pad l) = Padded.strip pad l := by
    intro l
    unfold significant
    split
    · next h =>
      rw [h]
      exact Padded.strip_append_replicate ([] : List UCHAR) 1
    · exact Padded.strip_strip l
  rw [← Padded.compare_strip, hstrip, hstrip, Padded.compare_strip]

/-- What is left of a key behind a part of it does not end with a pad. -/
theorem not_pads_of_significant {r : List UCHAR} (h : significant pad m = l ++ r) (hl : l ≠ [])
    (hr : r ≠ []) : ¬∀ c ∈ r, c = pad := by
  intro hpads
  have hrep : r = List.replicate r.length pad := List.eq_replicate_iff.mpr ⟨rfl, hpads⟩
  have hlen := List.length_pos_of_ne_nil hl
  have hlen' := List.length_pos_of_ne_nil hr
  have hshort : (Padded.strip pad (significant pad m)).length ≤ l.length := by
    rw [h, hrep, Padded.strip_append_replicate]
    exact (Padded.strip_isPrefix pad l).length_le
  have hlong : (significant pad m).length = l.length + r.length := by
    rw [h, List.length_append]
  unfold significant at hshort hlong
  split at hshort
  · next hnil =>
    rw [if_pos hnil, List.length_singleton] at hlong
    omega
  · next hne =>
    rw [if_neg hne] at hlong
    rw [Padded.strip_strip] at hshort
    omega

theorem significant_ne_nil (pad : UCHAR) (l : List UCHAR) : significant pad l ≠ [] := by
  unfold significant
  split
  · exact List.cons_ne_nil _ _
  · next h => exact h

/-- A key that begins another one -/
theorem compare_of_longer {r : List UCHAR} (h : significant pad m = significant pad l ++ r)
    (hr : r ≠ []) :
    (significant pad l).compareLex cmp (significant pad m) = .lt ∧
      (Padded.compare pad l m = .lt ∨ Padded.compare pad l m = .gt ∧ GoesBelow pad l m) := by
  constructor
  · obtain ⟨c, r, rfl⟩ := List.exists_cons_of_ne_nil hr
    conv_lhs => rw [← List.append_nil (significant pad l), h, Lex.compareLex_append_left]
    rfl
  have hrest : Padded.compare pad l m = Padded.compare pad [] r := by
    have happ : Padded.compare pad (significant pad l ++ []) (significant pad l ++ r) =
        Padded.compare pad [] r := Padded.compare_append_left _ _ _
    rwa [List.append_nil, ← h, compare_significant] at happ
  rw [hrest]
  cases hcmp : Padded.compare pad [] r with
  | lt => exact .inl rfl
  | eq =>
    exact absurd (Padded.compare_nil_eq_iff.mp hcmp)
      (not_pads_of_significant h (significant_ne_nil pad l) hr)
  | gt =>
    refine .inr ⟨rfl, ?_⟩
    obtain ⟨n, c, rest, rfl, hc⟩ := Padded.compare_nil_eq_gt_iff.mp hcmp
    -- the second key is its string up to the pads at the end
    have hm : ∃ i, m = significant pad m ++ List.replicate i pad := by
      obtain ⟨i, hi⟩ := Padded.append_replicate pad m
      refine ⟨i, ?_⟩
      have hne : Padded.strip pad m ≠ [] := by
        intro hnil
        have hone : significant pad m = [pad] := if_pos hnil
        have hpos := List.length_pos_of_ne_nil (significant_ne_nil pad l)
        rw [hone] at h
        have hlen := congrArg List.length h
        simp only [List.length_append, List.length_replicate, List.length_cons,
          List.length_nil] at hlen
        omega
      rw [significant, if_neg hne]
      exact hi
    obtain ⟨i, hi⟩ := hm
    refine ⟨significant pad l ++ List.replicate n pad, c, rest ++ List.replicate i pad, ?_, hc, ?_, ?_⟩
    · rw [hi, h]
      simp
    · simp [significant_ne_nil]
    · rw [Padded.strip_append_replicate, significant]
      split
      · next hnil =>
        rw [hnil]
        exact Padded.strip_append_replicate [] 1
      · exact Padded.strip_strip l

/-- A string that goes below has a key behind the other one. -/
theorem GoesBelow.longer (h : GoesBelow pad l m) :
    ∃ r, r ≠ [] ∧ significant pad m = significant pad l ++ r ∧ Padded.compare pad l m = .gt := by
  obtain ⟨p, c, rest, rfl, hc, hp, hstrip⟩ := h
  have hlong : p ++ [c] <+: Padded.strip pad (p ++ c :: rest) := Padded.prefix_strip hc.ne _ _
  have hm : significant pad (p ++ c :: rest) = Padded.strip pad (p ++ c :: rest) := by
    apply if_neg
    intro hnil
    rw [hnil] at hlong
    simpa using hlong.length_le
  have hl : significant pad l <+: p := by
    unfold significant
    rw [← hstrip]
    split
    · next hnil =>
      obtain ⟨d, p, rfl⟩ := List.exists_cons_of_ne_nil hp
      have hd : d = pad := Padded.strip_eq_nil_iff.mp hnil d List.mem_cons_self
      rw [hd]
      exact ⟨p, rfl⟩
    · exact Padded.strip_isPrefix pad p
  obtain ⟨t, ht⟩ := hl
  obtain ⟨t', ht'⟩ := hlong
  refine ⟨t ++ [c] ++ t', by simp, ?_, ?_⟩
  · rw [hm, ← ht', ← ht]
    simp
  · have hp' : Padded.compare pad l (p ++ c :: rest) = Padded.compare pad p (p ++ c :: rest) := by
      rw [← Padded.compare_strip, ← hstrip, Padded.compare_strip]
    rw [hp']
    conv_lhs => rw [← List.append_nil p]
    rw [List.append_assoc, List.nil_append, Padded.compare_append_left]
    exact Padded.compare_nil_eq_gt_iff.mpr ⟨0, c, rest, rfl, hc⟩

/-- Keys are in the order of the strings where neither string goes below the other. Where one does,
they are in the opposite order. -/
theorem significant_order (l m : List UCHAR) :
    ¬GoesBelow pad l m ∧ ¬GoesBelow pad m l ∧
        (significant pad l).compareLex cmp (significant pad m) = Padded.compare pad l m ∨
      GoesBelow pad l m ∧ (significant pad l).compareLex cmp (significant pad m) = .lt ∧
        Padded.compare pad l m = .gt ∨
      GoesBelow pad m l ∧ (significant pad l).compareLex cmp (significant pad m) = .gt ∧
        Padded.compare pad l m = .lt := by
  by_cases hl : GoesBelow pad l m
  · obtain ⟨r, hr, heq, hgt⟩ := hl.longer
    exact .inr (.inl ⟨hl, (compare_of_longer heq hr).1, hgt⟩)
  by_cases hm : GoesBelow pad m l
  · obtain ⟨r, hr, heq, hgt⟩ := hm.longer
    refine .inr (.inr ⟨hm, ?_, ?_⟩)
    · rw [← Lex.compareLex_swap, (compare_of_longer heq hr).1]
      rfl
    · rw [← Padded.compare_swap, hgt]
      rfl
  refine .inl ⟨hl, hm, ?_⟩
  have hkeys : significant pad l <+: significant pad m ∨ significant pad m <+: significant pad l ∨
      (significant pad l).compareLex cmp (significant pad m) =
        Padded.compare pad (significant pad l) (significant pad m) :=
    Padded.prefix_or_compare_eq _ _
  rcases hkeys with ⟨r, hr⟩ | ⟨r, hr⟩ | heq
  · rcases eq_or_ne r [] with rfl | hne
    · rw [List.append_nil] at hr
      rw [← compare_significant, hr, Lex.compareLex_self, Padded.compare_self]
    · obtain ⟨hlt, hlt' | ⟨-, hbelow⟩⟩ := compare_of_longer hr.symm hne
      · rw [hlt, hlt']
      · exact absurd hbelow hl
  · rcases eq_or_ne r [] with rfl | hne
    · rw [List.append_nil] at hr
      rw [← compare_significant, hr, Lex.compareLex_self, Padded.compare_self]
    · obtain ⟨hlt, hlt' | ⟨-, hbelow⟩⟩ := compare_of_longer hr.symm hne
      · rw [← Lex.compareLex_swap, ← Padded.compare_swap, hlt, hlt']
      · exact absurd hbelow hm
  · rw [heq, compare_significant]

/-! ## Strings and their keys -/

/-- A string of a character set whose bytes are compared, short enough for a key -/
structure KeyString extends StringDsc where
  plain : toStringDsc.Plain
  short : toStringDsc.string.length < maxKey

/-- The key in an index of strings -/
def KeyString.key (s : KeyString) : List UCHAR := compressString .string s.toStringDsc

/-- The string goes on below a blank where the other one is at its end. -/
def KeyString.Below (a b : KeyString) : Prop := GoesBelow blank b.string a.string

section

variable (INTL_charset : ℕ → ℕ) (INTL_compare : StringDsc → StringDsc → Except Halt ℤ)

/-- `CVT2_compare` of the two strings -/
def KeyString.compare (a b : KeyString) : Except Halt ℤ :=
  a.toStringDsc.CVT2_compare INTL_charset INTL_compare b.toStringDsc

/-- `CVT2_compare` returns the order of the keys, and zero for the strings with one key. -/
def KeyString.Agree (a b : KeyString) : Prop :=
  a.compare INTL_charset INTL_compare b = .ok (signOf (a.key.compareLex cmp b.key)) ∧
    (a.compare INTL_charset INTL_compare b = .ok 0 ↔ a.key = b.key)

/-- The rows with a string from `lower` to `upper` -/
def tableScan (lower upper : KeyString) (rows : List KeyString) : List KeyString :=
  rows.filter fun row =>
    (lower.compare INTL_charset INTL_compare row).toOption.any (· ≤ 0) &&
      (row.compare INTL_charset INTL_compare upper).toOption.any (· ≤ 0)

/-- The rows with a key from the one of `lower` to the one of `upper` -/
def indexScan (lower upper : KeyString) (rows : List KeyString) : List KeyString :=
  rows.filter fun row =>
    lower.key.compareLex cmp row.key ≠ .gt && row.key.compareLex cmp upper.key ≠ .gt

variable {INTL_charset : ℕ → ℕ} {INTL_compare : StringDsc → StringDsc → Except Halt ℤ}
  {a b lower upper : KeyString} {rows : List KeyString}

theorem KeyString.compare_eq (a b : KeyString) :
    a.compare INTL_charset INTL_compare b =
      .ok (signOf (Padded.compare blank a.string b.string)) := by
  apply (StringDsc.string_compare_iff a.plain b.plain).mpr
  rintro ⟨-, hfar, -⟩
  have hshort := a.short
  unfold maxKey at hshort
  omega

theorem KeyString.key_eq (s : KeyString) : s.key = significant blank s.string :=
  compressString_eq .string (s.short.le.trans (by decide))

/-- The order of two strings, and the one of their keys -/
theorem KeyString.order (a b : KeyString) :
    ¬b.Below a ∧ ¬a.Below b ∧ a.key.compareLex cmp b.key = Padded.compare blank a.string b.string ∨
      b.Below a ∧ a.key.compareLex cmp b.key = .lt ∧
        Padded.compare blank a.string b.string = .gt ∨
      a.Below b ∧ a.key.compareLex cmp b.key = .gt ∧
        Padded.compare blank a.string b.string = .lt := by
  rw [a.key_eq, b.key_eq]
  exact significant_order _ _

theorem KeyString.agree_iff :
    a.Agree INTL_charset INTL_compare b ↔ ¬a.Below b ∧ ¬b.Below a := by
  unfold Agree
  rw [compare_eq]
  rcases a.order b with ⟨hb, ha, heq⟩ | ⟨hb, hlt, hgt⟩ | ⟨ha, hgt, hlt⟩
  · refine iff_of_true ⟨by rw [heq], ?_⟩ ⟨ha, hb⟩
    rw [← heq, ← Lex.compareLex_eq_eq_iff]
    constructor
    · intro h
      exact signOf_inj (Except.ok.inj h)
    · intro h
      rw [h]
      rfl
  · refine iff_of_false ?_ fun h => h.2 hb
    rintro ⟨h, -⟩
    rw [hlt, hgt] at h
    cases Except.ok.inj h
  · refine iff_of_false ?_ fun h => h.1 ha
    rintro ⟨h, -⟩
    rw [hlt, hgt] at h
    cases Except.ok.inj h

/-- A string from which on rows are taken, while the key of one of them is before its key -/
theorem KeyString.missed_iff :
    Padded.compare blank a.string b.string ≠ .gt ∧ a.key.compareLex cmp b.key = .gt ↔
      a.Below b := by
  rcases a.order b with ⟨hb, ha, heq⟩ | ⟨hb, hlt, hgt⟩ | ⟨ha, hgt, hlt⟩
  · rw [heq]
    exact iff_of_false (fun h => h.1 h.2) ha
  · refine iff_of_false (fun h => h.1 hgt) ?_
    intro ha
    obtain ⟨-, -, -, hgt'⟩ := GoesBelow.longer ha
    rw [← Padded.compare_swap, hgt] at hgt'
    cases hgt'
  · rw [hlt]
    exact iff_of_true ⟨by decide, hgt⟩ ha

theorem mem_tableScan_iff {row : KeyString} :
    row ∈ tableScan INTL_charset INTL_compare lower upper rows ↔
      row ∈ rows ∧ Padded.compare blank lower.string row.string ≠ .gt ∧
        Padded.compare blank row.string upper.string ≠ .gt := by
  unfold tableScan
  rw [List.mem_filter, KeyString.compare_eq, KeyString.compare_eq]
  simp [Except.toOption, signOf_nonpos_iff]

theorem mem_indexScan_iff {row : KeyString} :
    row ∈ indexScan lower upper rows ↔
      row ∈ rows ∧ lower.key.compareLex cmp row.key ≠ .gt ∧
        row.key.compareLex cmp upper.key ≠ .gt := by
  rw [indexScan, List.mem_filter, Bool.and_eq_true, decide_eq_true_iff, decide_eq_true_iff]

/-- Keys agree with the comparison of strings that do not go below one another. A scan of the index
misses the rows that are in the range while one of the bounds goes below them, or they go below
one. -/
theorem string_keys_agree_iff (INTL_charset : ℕ → ℕ)
    (INTL_compare : StringDsc → StringDsc → Except Halt ℤ) :
    (∀ a b : KeyString, a.Agree INTL_charset INTL_compare b ↔ ¬a.Below b ∧ ¬b.Below a) ∧
    ∀ (lower upper : KeyString) (rows : List KeyString),
      tableScan INTL_charset INTL_compare lower upper rows ⊆ indexScan lower upper rows ↔
        ∀ row ∈ rows,
          (lower.Below row → Padded.compare blank row.string upper.string = .gt) ∧
          (row.Below upper → Padded.compare blank lower.string row.string = .gt) := by
  refine ⟨fun a b => KeyString.agree_iff, ?_⟩
  intro lower upper rows
  constructor
  · intro hsub row hrow
    constructor
    · intro hbelow
      by_contra hupper
      obtain ⟨hlower, hgt⟩ := KeyString.missed_iff.mpr hbelow
      have hmem := hsub (mem_tableScan_iff.mpr ⟨hrow, hlower, hupper⟩)
      exact (mem_indexScan_iff.mp hmem).2.1 hgt
    · intro hbelow
      by_contra hlower
      obtain ⟨hupper, hgt⟩ := KeyString.missed_iff.mpr hbelow
      have hmem := hsub (mem_tableScan_iff.mpr ⟨hrow, hlower, hupper⟩)
      exact (mem_indexScan_iff.mp hmem).2.2 hgt
  · intro hrows row hmem
    obtain ⟨hrow, hlower, hupper⟩ := mem_tableScan_iff.mp hmem
    refine mem_indexScan_iff.mpr ⟨hrow, ?_, ?_⟩
    · intro hgt
      exact hupper ((hrows row hrow).1 (KeyString.missed_iff.mp ⟨hlower, hgt⟩))
    · intro hgt
      exact hlower ((hrows row hrow).2 (KeyString.missed_iff.mp ⟨hupper, hgt⟩))

end

/-- A string of type `dtype_text` -/
def textOf (address : List UCHAR) (h : address.length < maxKey) : KeyString where
  dtype := .text
  scale := 0
  ttype := ttype_none
  address := address
  length_le := h.le.trans (by decide)
  terminated := fun h => nomatch h
  counted := fun h => nomatch h
  plain := .inl rfl
  short := by rwa [StringDsc.string_text rfl]

/-- `'a'` and a control character is before `'a'`, and has a key behind it. The scan of an index from
it on misses the row with `'a'`. -/
theorem string_keys_disagree :
    let a := textOf [97, 1] (by decide)
    let b := textOf [97] (by decide)
    a.compare id (fun _ _ => .ok 0) b = .ok (-1) ∧ a.key.compareLex cmp b.key = .gt ∧
      (tableScan id (fun _ _ => .ok 0) a b [b]).length = 1 ∧
      (indexScan a b [b]).length = 0 := by
  decide

end Firebird.Btr
