import Mathlib.Data.List.Lex
import Mathlib.Data.Nat.Notation
import Mathlib.Order.Lattice

/-! # Common prefixes of strings in order

How much two strings have in common from the front, and what this says about their order: with
`a < k` and `a ≤ b`, the string `b` is behind `k` if it has less in common with `a` than `k`
has, and before `k` if it has more.
-/

namespace Firebird

variable {α : Type*} [LinearOrder α]

/-- The length of the common prefix -/
def common : List α → List α → ℕ
  | x :: l, y :: m => if x = y then common l m + 1 else 0
  | [], _ => 0
  | _ :: _, [] => 0

example : common [1, 2, 3] [1, 2, 4] = 2 := by simp [common]

variable {x y : α} {a b k l m : List α} {n : ℕ}

@[simp]
theorem common_nil_left (m : List α) : common [] m = 0 := by rw [common]

@[simp]
theorem common_nil_right (l : List α) : common l [] = 0 := by
  cases l with
  | nil => rfl
  | cons x l => rfl

theorem common_cons_self (x : α) (l m : List α) : common (x :: l) (x :: m) = common l m + 1 := by
  rw [common, if_pos rfl]

theorem common_cons_of_ne (h : x ≠ y) (l m : List α) : common (x :: l) (y :: m) = 0 := by
  rw [common, if_neg h]

theorem common_comm (l m : List α) : common l m = common m l := by
  induction l generalizing m with
  | nil => rw [common_nil_left, common_nil_right]
  | cons x l ih =>
      cases m with
      | nil => rw [common_nil_left, common_nil_right]
      | cons y m =>
          by_cases hxy : x = y
          · subst hxy
            rw [common_cons_self, common_cons_self, ih]
          · rw [common_cons_of_ne hxy, common_cons_of_ne (Ne.symm hxy)]

theorem common_le_left (l m : List α) : common l m ≤ l.length := by
  induction l generalizing m with
  | nil => rw [common_nil_left, List.length_nil]
  | cons x l ih =>
      cases m with
      | nil => exact Nat.zero_le _
      | cons y m =>
          rw [common]
          split
          · exact Nat.succ_le_succ (ih m)
          · exact Nat.zero_le _

theorem common_le_right (l m : List α) : common l m ≤ m.length := by
  rw [common_comm]
  exact common_le_left m l

/-- They have it in common. -/
theorem take_eq_take (h : n ≤ common l m) : l.take n = m.take n := by
  induction l generalizing m n with
  | nil =>
      rw [common_nil_left] at h
      rw [Nat.le_zero.mp h, List.take_zero, List.take_zero]
  | cons x l ih =>
      cases n with
      | zero => rfl
      | succ n =>
          cases m with
          | nil => exact absurd h (Nat.not_succ_le_zero n)
          | cons y m =>
              rw [common] at h
              split at h
              · rename_i hxy
                rw [hxy, List.take_succ_cons, List.take_succ_cons, ih (Nat.le_of_succ_le_succ h)]
              · exact absurd h (Nat.not_succ_le_zero n)

theorem drop_lt_drop_iff (h : n ≤ common l m) : l.drop n < m.drop n ↔ l < m := by
  induction n generalizing l m with
  | zero => rw [List.drop_zero, List.drop_zero]
  | succ n ih =>
      cases l with
      | nil => exact absurd h (Nat.not_succ_le_zero n)
      | cons x l =>
          cases m with
          | nil => exact absurd h (Nat.not_succ_le_zero n)
          | cons y m =>
              by_cases hxy : x = y
              · subst hxy
                rw [common_cons_self] at h
                rw [List.drop_succ_cons, List.drop_succ_cons, ih (Nat.le_of_succ_le_succ h),
                  List.cons_lt_cons_iff]
                exact ⟨fun hlt => .inr ⟨rfl, hlt⟩,
                  fun hlt => hlt.elim (fun hx => absurd hx (lt_irrefl x)) And.right⟩
              · rw [common_cons_of_ne hxy] at h
                exact absurd h (Nat.not_succ_le_zero n)

/-- Strings with a common front -/
theorem common_append_append (c l m : List α) :
    common (c ++ l) (c ++ m) = c.length + common l m := by
  induction c with
  | nil => rw [List.nil_append, List.nil_append, List.length_nil, Nat.zero_add]
  | cons x c ih =>
      rw [List.cons_append, List.cons_append, common_cons_self, ih, List.length_cons]
      omega

theorem common_self (l : List α) : common l l = l.length := by
  have h := common_append_append l [] []
  rw [List.append_nil, common_nil_left, Nat.add_zero] at h
  exact h

theorem nil_le (l : List α) : [] ≤ l := not_lt.mp (List.not_lt_nil l)

theorem take_le (l : List α) (n : ℕ) : l.take n ≤ l := by
  induction l generalizing n with
  | nil => rw [List.take_nil]
  | cons x l ih =>
      cases n with
      | zero => exact nil_le _
      | succ n =>
          rw [List.take_succ_cons]
          exact List.cons_le_cons x (ih n)

/-- Strings with less in common come later. -/
theorem lt_of_common_lt (hak : a < k) (hab : a ≤ b) (h : common a b < common a k) : k < b := by
  induction a generalizing b k with
  | nil =>
      rw [common_nil_left] at h
      exact absurd h (Nat.not_lt_zero _)
  | cons x a ih =>
      cases k with
      | nil => exact absurd hak (List.not_lt_nil _)
      | cons y k =>
          cases b with
          | nil => exact absurd hab (not_le_of_gt (List.nil_lt_cons x a))
          | cons z b =>
              rw [List.cons_lt_cons_iff] at hak
              by_cases hxy : x = y
              · subst hxy
                have hak := (hak.resolve_left (lt_irrefl x)).2
                by_cases hxz : x = z
                · subst hxz
                  rw [common_cons_self, common_cons_self] at h
                  have hab : a ≤ b := by
                    rcases lt_or_eq_of_le hab with hlt | heq
                    · rw [List.cons_lt_cons_iff] at hlt
                      exact le_of_lt (hlt.resolve_left (lt_irrefl x)).2
                    · exact le_of_eq (List.cons.inj heq).2
                  exact List.cons_lt_cons_iff.mpr (.inr ⟨rfl, ih hak hab (Nat.lt_of_succ_lt_succ h)⟩)
                · have hlt := lt_of_le_of_ne hab fun heq => hxz (List.cons.inj heq).1
                  rw [List.cons_lt_cons_iff] at hlt
                  exact List.cons_lt_cons_iff.mpr (.inl (hlt.resolve_right fun heq => hxz heq.1))
              · rw [common_cons_of_ne hxy] at h
                exact absurd h (Nat.not_lt_zero _)

/-- Strings with more in common come earlier. -/
theorem lt_of_lt_common (hak : a < k) (h : common a k < common a b) :
    b < k ∧ common b k = common a k := by
  induction a generalizing b k with
  | nil =>
      rw [common_nil_left, common_nil_left] at h
      exact absurd h (Nat.lt_irrefl 0)
  | cons x a ih =>
      cases k with
      | nil => exact absurd hak (List.not_lt_nil _)
      | cons y k =>
          cases b with
          | nil => exact absurd h (Nat.not_lt_zero _)
          | cons z b =>
              by_cases hxz : x = z
              · subst hxz
                rw [List.cons_lt_cons_iff] at hak
                by_cases hxy : x = y
                · subst hxy
                  rw [common_cons_self, common_cons_self] at h
                  obtain ⟨hlt, heq⟩ := ih (hak.resolve_left (lt_irrefl x)).2 (Nat.lt_of_succ_lt_succ h)
                  rw [common_cons_self, common_cons_self, heq]
                  exact ⟨List.cons_lt_cons_iff.mpr (.inr ⟨rfl, hlt⟩), rfl⟩
                · rw [common_cons_of_ne hxy, common_cons_of_ne hxy]
                  exact ⟨List.cons_lt_cons_iff.mpr (.inl (hak.resolve_right fun heq => hxy heq.1)), rfl⟩
              · rw [common_cons_of_ne hxz] at h
                exact absurd h (Nat.not_lt_zero _)

end Firebird
