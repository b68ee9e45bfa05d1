import Mathlib.Data.List.Lex
import Mathlib.Order.Compare
import Mathlib.Order.Lattice

/-! # Comparing lists element by element

The comparison of two lists of one length is that of their first parts, and then that of the
rest. It does not see a change that keeps the order of the elements, and is turned round by one
that turns the elements round.
-/

namespace Lex

variable {α β : Type*} [LinearOrder α] [LinearOrder β] {x y : α} {l m l' m' : List α}

/-- Two comparisons that come out in the same way -/
theorem cmp_congr {a b : α} {c d : β} (hlt : a < b ↔ c < d) (hgt : b < a ↔ d < c) :
    cmp a b = cmp c d := by
  rcases lt_trichotomy a b with h | h | h
  · rw [(cmp_eq_lt_iff a b).mpr h, (cmp_eq_lt_iff c d).mpr (hlt.mp h)]
  · have heq : c = d := le_antisymm (not_lt.mp fun h' => (hgt.mpr h').ne h.symm)
      (not_lt.mp fun h' => (hlt.mpr h').ne h)
    rw [(cmp_eq_eq_iff a b).mpr h, (cmp_eq_eq_iff c d).mpr heq]
  · rw [(cmp_eq_gt_iff a b).mpr h, (cmp_eq_gt_iff c d).mpr (hgt.mp h)]

theorem compareLex_singleton : [x].compareLex cmp [y] = cmp x y := by
  rw [List.compareLex_cons_cons, List.compareLex_nil_nil, Ordering.then_eq]

theorem compareLex_self (l : List α) : l.compareLex cmp l = .eq := by
  induction l with
  | nil => rfl
  | cons x l ih => rw [List.compareLex_cons_cons, cmp_self_eq_eq, ih, Ordering.then_eq]

theorem compareLex_swap (l m : List α) : (l.compareLex cmp m).swap = m.compareLex cmp l := by
  induction l generalizing m with
  | nil =>
    cases m with
    | nil => rfl
    | cons y m => rfl
  | cons x l ih =>
    cases m with
    | nil => rfl
    | cons y m =>
      rw [List.compareLex_cons_cons, List.compareLex_cons_cons, Ordering.swap_then, cmp_swap, ih]

/-- It is the order of lists. -/
theorem compareLex_eq_lt_iff (l m : List α) : l.compareLex cmp m = .lt ↔ l < m := by
  induction l generalizing m with
  | nil =>
    cases m with
    | nil => exact iff_of_false (fun h => nomatch h) (lt_irrefl _)
    | cons y m => exact iff_of_true rfl List.Lex.nil
  | cons x l ih =>
    cases m with
    | nil => exact iff_of_false (fun h => nomatch h) (List.not_lt_nil _)
    | cons y m =>
      rw [List.compareLex_cons_cons, Ordering.then_eq_lt, cmp_eq_lt_iff, cmp_eq_eq_iff, ih,
        List.cons_lt_cons_iff]

theorem compareLex_eq_gt_iff (l m : List α) : l.compareLex cmp m = .gt ↔ m < l := by
  rw [← compareLex_eq_lt_iff, ← compareLex_swap, Ordering.swap_eq_gt]

theorem compareLex_eq_eq_iff (l m : List α) : l.compareLex cmp m = .eq ↔ l = m := by
  induction l generalizing m with
  | nil =>
    cases m with
    | nil => exact iff_of_true rfl rfl
    | cons y m => exact iff_of_false (fun h => nomatch h) (by simp)
  | cons x l ih =>
    cases m with
    | nil => exact iff_of_false (fun h => nomatch h) (by simp)
    | cons y m =>
      rw [List.compareLex_cons_cons, Ordering.then_eq_eq, cmp_eq_eq_iff, ih, List.cons.injEq]

/-- First parts of one length decide first. -/
theorem compareLex_append (h : l.length = m.length) :
    (l ++ l').compareLex cmp (m ++ m') = (l.compareLex cmp m).then (l'.compareLex cmp m') := by
  induction l generalizing m with
  | nil =>
      obtain rfl := List.length_eq_zero_iff.mp h.symm
      rw [List.compareLex_nil_nil]
      rfl
  | cons x l ih =>
      cases m with
      | nil => cases h
      | cons y m =>
          rw [List.cons_append, List.cons_append, List.compareLex_cons_cons,
            List.compareLex_cons_cons, ih (Nat.succ.inj h), Ordering.then_assoc]

/-- First parts that are the same do not matter. -/
theorem compareLex_append_left (l : List α) :
    (l ++ l').compareLex cmp (l ++ m') = l'.compareLex cmp m' := by
  rw [compareLex_append rfl, compareLex_self]
  rfl

/-- A change of the elements that keeps their order -/
theorem compareLex_map {f : α → β} (hf : ∀ x y, cmp (f x) (f y) = cmp x y)
    (h : l.length = m.length) : (l.map f).compareLex cmp (m.map f) = l.compareLex cmp m := by
  induction l generalizing m with
  | nil =>
      obtain rfl := List.length_eq_zero_iff.mp h.symm
      rfl
  | cons x l ih =>
      cases m with
      | nil => cases h
      | cons y m =>
          rw [List.map_cons, List.map_cons, List.compareLex_cons_cons, List.compareLex_cons_cons,
            hf, ih (Nat.succ.inj h)]

/-- A change of the elements that turns their order round -/
theorem compareLex_map_swap {f : α → β} (hf : ∀ x y, cmp (f x) (f y) = (cmp x y).swap)
    (h : l.length = m.length) :
    (l.map f).compareLex cmp (m.map f) = (l.compareLex cmp m).swap := by
  induction l generalizing m with
  | nil =>
      obtain rfl := List.length_eq_zero_iff.mp h.symm
      rfl
  | cons x l ih =>
      cases m with
      | nil => cases h
      | cons y m =>
          rw [List.map_cons, List.map_cons, List.compareLex_cons_cons, List.compareLex_cons_cons,
            hf, ih (Nat.succ.inj h), Ordering.swap_then]

end Lex
