import Mathlib.Data.List.DropRight
import Mathlib.Data.List.Lex
import Mathlib.Data.Nat.Notation
import Firebird.Lib.Lex

/-! # Comparing lists that are filled up

The shorter one of two lists is filled up with a pad element, and the lists are compared element
by element. Pads at the end of a list do not matter for that, and lists are equal when they are
the same without them.
-/

namespace Padded

section

variable {α : Type*} {pad : α} {l : List α} {n : ℕ}

/-- A list filled up to a length -/
def fill (pad : α) (n : ℕ) (l : List α) : List α := l ++ List.replicate (n - l.length) pad

theorem length_fill (h : l.length ≤ n) : (fill pad n l).length = n := by
  rw [fill, List.length_append, List.length_replicate]
  omega

theorem fill_of_le (h : n ≤ l.length) : fill pad n l = l := by
  rw [fill, Nat.sub_eq_zero_of_le h, List.replicate_zero, List.append_nil]

theorem fill_nil : fill pad n [] = List.replicate n pad := rfl

/-- Filling up further -/
theorem fill_add (hl : l.length ≤ n) (i : ℕ) :
    fill pad (n + i) l = fill pad n l ++ List.replicate i pad := by
  rw [fill, fill, List.append_assoc, ← List.replicate_add]
  congr 2
  omega

end

variable {α : Type*} [LinearOrder α] {pad x y : α} {l m k : List α} {n : ℕ}

/-- The comparison of two lists, the shorter one filled up to the length of the longer one -/
def compare (pad : α) (l m : List α) : Ordering :=
  (fill pad m.length l).compareLex cmp (fill pad l.length m)

/-- A list without the pads at its end -/
def strip (pad : α) (l : List α) : List α := l.rdropWhile (· = pad)

example : compare 0 [1, 2] [1, 2, 0, 0] = .eq := by decide

/-- Both lists may be filled up to any length that they have room in. -/
theorem compare_eq_fill (hl : l.length ≤ n) (hm : m.length ≤ n) :
    compare pad l m = (fill pad n l).compareLex cmp (fill pad n m) := by
  have hfill : ∀ a b : List α, a.length ≤ b.length → b.length ≤ n →
      (fill pad n a).compareLex cmp (fill pad n b) = (fill pad b.length a).compareLex cmp b := by
    intro a b hab hb
    rcases Nat.exists_eq_add_of_le hb with ⟨i, rfl⟩
    rw [fill_add hab, fill_add (Nat.le_refl _), fill_of_le (Nat.le_refl b.length),
      Lex.compareLex_append (length_fill hab), Lex.compareLex_self, Ordering.then_eq]
  rcases Nat.le_total l.length m.length with h | h
  · rw [hfill l m h hm, compare, fill_of_le h]
  · rw [← Lex.compareLex_swap, hfill m l h hl, Lex.compareLex_swap, compare, fill_of_le h]

/-! ## The order -/

theorem compare_swap (pad : α) (l m : List α) : (compare pad l m).swap = compare pad m l :=
  Lex.compareLex_swap _ _

theorem compare_self (pad : α) (l : List α) : compare pad l l = .eq := Lex.compareLex_self _

/-- The lists in order, up to pads at the end, are ordered totally. -/
theorem compare_trans (h : compare pad l m ≠ .gt) (h' : compare pad m k ≠ .gt) :
    compare pad l k ≠ .gt := by
  have hl : l.length ≤ max l.length (max m.length k.length) := by omega
  have hm : m.length ≤ max l.length (max m.length k.length) := by omega
  have hk : k.length ≤ max l.length (max m.length k.length) := by omega
  rw [compare_eq_fill hl hm, Ne, Lex.compareLex_eq_gt_iff, not_lt] at h
  rw [compare_eq_fill hm hk, Ne, Lex.compareLex_eq_gt_iff, not_lt] at h'
  rw [compare_eq_fill hl hk, Ne, Lex.compareLex_eq_gt_iff, not_lt]
  exact h.trans h'

/-! ## Element by element -/

theorem compare_nil_nil : compare pad [] [] = .eq := compare_self pad []

theorem compare_cons_cons :
    compare pad (x :: l) (y :: m) = (cmp x y).then (compare pad l m) := by
  have hfill : ∀ (z : α) (a b : List α),
      fill pad (b.length + 1) (z :: a) = z :: fill pad b.length a := by
    intro z a b
    rw [fill, fill, List.cons_append, List.length_cons, Nat.add_sub_add_right]
  rw [compare, List.length_cons, List.length_cons, hfill, hfill,
    List.compareLex_cons_cons, compare]

theorem compare_cons_nil : compare pad (x :: l) [] = (cmp x pad).then (compare pad l []) := by
  have hleft : ∀ a : List α, fill pad ([] : List α).length a = a := fun a =>
    fill_of_le (Nat.zero_le _)
  rw [compare, hleft, fill_nil, List.length_cons, List.replicate_succ, List.compareLex_cons_cons,
    compare, hleft, fill_nil]

theorem compare_nil_cons : compare pad [] (x :: l) = (cmp pad x).then (compare pad [] l) := by
  rw [← compare_swap, compare_cons_nil, Ordering.swap_then, cmp_swap, compare_swap]

theorem compare_append_left (l m k : List α) :
    compare pad (l ++ m) (l ++ k) = compare pad m k := by
  induction l with
  | nil => rfl
  | cons x l ih =>
    rw [List.cons_append, List.cons_append, compare_cons_cons, cmp_self_eq_eq, ih]
    rfl

/-- First parts of one length decide first. -/
theorem compare_append_of_length (h : l.length = m.length) (l' m' : List α) :
    compare pad (l ++ l') (m ++ m') = (l.compareLex cmp m).then (compare pad l' m') := by
  induction l generalizing m with
  | nil =>
    obtain rfl := List.length_eq_zero_iff.mp h.symm
    rfl
  | cons x l ih =>
    cases m with
    | nil => cases h
    | cons y m =>
      rw [List.cons_append, List.cons_append, compare_cons_cons, List.compareLex_cons_cons,
        ih (Nat.succ.inj h), Ordering.then_assoc]

/-! ## Pads at the end -/

theorem compare_append_replicate (l m : List α) (n : ℕ) :
    compare pad (l ++ List.replicate n pad) m = compare pad l m := by
  have hfill : fill pad (l.length + n + m.length) (l ++ List.replicate n pad) =
      fill pad (l.length + n + m.length) l := by
    rw [fill, fill, List.append_assoc, ← List.replicate_add, List.length_append,
      List.length_replicate]
    congr 2
    omega
  have hlen : (l ++ List.replicate n pad).length = l.length + n := by simp
  rw [compare_eq_fill (n := l.length + n + m.length) (by omega) (by omega), hfill,
    ← compare_eq_fill (by omega) (by omega)]

theorem append_replicate (pad : α) (l : List α) :
    ∃ n, l = strip pad l ++ List.replicate n pad := by
  refine ⟨(l.rtakeWhile (· = pad)).length, ?_⟩
  have hpads : l.rtakeWhile (· = pad) =
      List.replicate (l.rtakeWhile (· = pad)).length pad := by
    rw [List.eq_replicate_iff]
    refine ⟨rfl, ?_⟩
    intro b hb
    have hpad := List.mem_rtakeWhile_imp hb
    exact of_decide_eq_true hpad
  rw [← hpads, strip, List.rdropWhile_append_rtakeWhile]

/-- Pads at the end do not matter. -/
theorem compare_strip (l m : List α) : compare pad (strip pad l) (strip pad m) = compare pad l m := by
  have hleft : ∀ a b : List α, compare pad (strip pad a) b = compare pad a b := by
    intro a b
    obtain ⟨n, hn⟩ := append_replicate pad a
    conv_rhs => rw [hn, compare_append_replicate]
  rw [hleft, ← compare_swap, hleft, compare_swap]

theorem compare_nil_replicate (n : ℕ) : compare pad [] (List.replicate n pad) = .eq := by
  rw [← compare_swap, ← List.nil_append (List.replicate n pad), compare_append_replicate,
    compare_self]
  rfl

/-- A list that is equal to the empty one has pads only. -/
theorem compare_nil_eq_iff : compare pad [] l = .eq ↔ ∀ x ∈ l, x = pad := by
  induction l with
  | nil => simp [compare_self]
  | cons x l ih =>
    rw [compare_nil_cons, Ordering.then_eq_eq, ih, cmp_eq_eq_iff, List.forall_mem_cons, eq_comm]

theorem strip_append_singleton (l : List α) (x : α) :
    strip pad (l ++ [x]) = if x = pad then strip pad l else l ++ [x] := by
  rw [strip, List.rdropWhile_concat, strip]
  simp only [decide_eq_true_eq]

theorem strip_isPrefix (pad : α) (l : List α) : strip pad l <+: l := List.rdropWhile_prefix _ _

theorem strip_eq_nil_iff : strip pad l = [] ↔ ∀ x ∈ l, x = pad := by
  rw [strip, List.rdropWhile_eq_nil_iff]
  simp only [decide_eq_true_eq]

theorem strip_append_replicate (l : List α) (n : ℕ) :
    strip pad (l ++ List.replicate n pad) = strip pad l := by
  induction n with
  | zero => rw [List.replicate_zero, List.append_nil]
  | succ n ih =>
    rw [List.replicate_succ', ← List.append_assoc, strip_append_singleton, if_pos rfl, ih]

theorem strip_strip (l : List α) : strip pad (strip pad l) = strip pad l :=
  List.rdropWhile_idempotent _ _

/-- An element that is not a pad is kept, with all before it. -/
theorem prefix_strip (hx : x ≠ pad) (l m : List α) : l ++ [x] <+: strip pad (l ++ x :: m) := by
  induction m using List.reverseRecOn with
  | nil =>
    have heq : strip pad (l ++ [x]) = l ++ [x] := by rw [strip_append_singleton, if_neg hx]
    exact ⟨[], by rw [List.append_nil]; exact heq.symm⟩
  | append_singleton m y ih =>
    rw [← List.cons_append, ← List.append_assoc, strip_append_singleton]
    split
    · exact ih
    · exact ⟨m ++ [y], by simp⟩

/-! ## Against the order in which a prefix comes first -/

/-- Where pads go on against a list, its first element that is not one decides. -/
theorem compare_nil_eq_gt_iff : compare pad [] l = .gt ↔
    ∃ n x m, l = List.replicate n pad ++ x :: m ∧ x < pad := by
  induction l with
  | nil => simp [compare_self]
  | cons y l ih =>
    rw [compare_nil_cons]
    rcases lt_trichotomy pad y with h | rfl | h
    · rw [(cmp_eq_lt_iff pad y).mpr h]
      refine iff_of_false (fun h => nomatch h) ?_
      rintro ⟨n, x, m, heq, hx⟩
      rcases n with _ | n
      · cases heq
        exact absurd (h.trans hx) (lt_irrefl _)
      · cases heq
        exact lt_irrefl _ h
    · rw [cmp_self_eq_eq, Ordering.eq_then, ih]
      constructor
      · rintro ⟨n, x, m, rfl, hx⟩
        exact ⟨n + 1, x, m, by rw [List.replicate_succ, List.cons_append], hx⟩
      · rintro ⟨n, x, m, heq, hx⟩
        rcases n with _ | n
        · cases heq
          exact absurd hx (lt_irrefl _)
        · rw [List.replicate_succ, List.cons_append] at heq
          cases heq
          exact ⟨n, x, m, rfl, hx⟩
    · rw [(cmp_eq_gt_iff pad y).mpr h]
      exact iff_of_true rfl ⟨0, y, l, rfl, h⟩

/-- Lists neither of which begins the other are in one order either way. -/
theorem prefix_or_compare_eq (l m : List α) :
    l <+: m ∨ m <+: l ∨ l.compareLex cmp m = compare pad l m := by
  induction l generalizing m with
  | nil => exact .inl List.nil_prefix
  | cons x l ih =>
    cases m with
    | nil => exact .inr (.inl List.nil_prefix)
    | cons y m =>
      rw [List.compareLex_cons_cons, compare_cons_cons]
      by_cases h : x = y
      · subst h
        rcases ih m with hl | hm | heq
        · exact .inl (List.cons_prefix_cons.mpr ⟨rfl, hl⟩)
        · exact .inr (.inl (List.cons_prefix_cons.mpr ⟨rfl, hm⟩))
        · exact .inr (.inr (by rw [heq]))
      · right
        right
        cases hcmp : cmp x y with
        | lt => rfl
        | eq => exact absurd ((cmp_eq_eq_iff x y).mp hcmp) h
        | gt => rfl

end Padded
