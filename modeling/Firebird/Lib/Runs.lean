import Mathlib.Data.List.Basic
import Mathlib.Logic.Function.Basic

/-! # Runs of equal keys

A multiset of keys that follows a list: a key is put into it when the new head of the list
has another key than the old one, and it is taken out when an element goes. How many of a
key there must be at least is the number of its runs in the list.
-/

namespace Runs

universe u

variable {α : Type u} [DecidableEq α]

/-- How often runs of `K` begin in a list; `inside` says that `K` stands just before it. -/
def begins (K : α) : Bool → List α → ℕ
  | _, [] => 0
  | inside, a :: l => if a = K then (if inside then 0 else 1) + begins K true l else begins K false l

/-- The number of runs of `K` -/
def runs (K : α) (l : List α) : ℕ := begins K false l

example : runs 1 [1, 1, 2, 1] = 2 := by simp [runs, begins]

variable {K a : α} {l l' : List α}

theorem begins_true_le (l : List α) : begins K true l ≤ begins K false l := by
  cases l with
  | nil => exact Nat.le_refl 0
  | cons a l =>
      rw [begins, begins]
      split <;> simp

theorem begins_le_true (l : List α) : begins K false l ≤ begins K true l + 1 := by
  cases l with
  | nil => exact Nat.zero_le 1
  | cons a l =>
      rw [begins, begins]
      split
      · simp [Nat.add_comm]
      · exact Nat.le_succ _

theorem begins_sublist (h : l.Sublist l') (inside : Bool) :
    begins K inside l ≤ begins K inside l' := by
  induction h generalizing inside with
  | slnil => exact Nat.le_refl 0
  | @cons l₁ l₂ a _ ih =>
      rw [begins]
      split
      · cases inside with
        | true => simpa using ih true
        | false =>
            have hle := begins_le_true (K := K) l₂
            have hih := ih false
            simp only [Bool.false_eq_true, if_false]
            omega
      · cases inside with
        | true => exact Nat.le_trans (ih true) (begins_true_le l₂)
        | false => exact ih false
  | @cons_cons l₁ l₂ a _ ih =>
      rw [begins, begins]
      split
      · exact Nat.add_le_add_left (ih true) _
      · exact ih false

/-- Runs become fewer when elements go. -/
theorem runs_sublist (h : l.Sublist l') : runs K l ≤ runs K l' := begins_sublist h false

theorem runs_cons_ne (h : a ≠ K) : runs K (a :: l) = runs K l := by
  rw [runs, begins, if_neg h, runs]

theorem runs_cons_self : runs K (K :: l) = begins K true l + 1 := by
  rw [runs, begins, if_pos rfl, if_neg Bool.false_ne_true, Nat.add_comm]

theorem runs_cons_le : runs K (a :: l) ≤ runs K l + 1 := by
  by_cases h : a = K
  · subst h
    rw [runs_cons_self]
    exact Nat.succ_le_succ (begins_true_le l)
  · rw [runs_cons_ne h]
    exact Nat.le_succ _

/-- A run begins with an element before another one. -/
theorem runs_cons_of_head (h : l.head? ≠ some K) : runs K (K :: l) = runs K l + 1 := by
  rw [runs_cons_self]
  cases l with
  | nil => rfl
  | cons a l =>
      have ha : a ≠ K := fun ha => h (congrArg some ha)
      rw [begins, if_neg ha, runs_cons_ne ha]
      rfl

/-- An element before an equal one belongs to its run. -/
theorem runs_cons_again (h : l.head? = some a) : runs K (a :: l) = runs K l := by
  by_cases ha : a = K
  · subst ha
    cases l with
    | nil => cases h
    | cons b l =>
        cases h
        rw [runs_cons_self, runs_cons_self, begins, if_pos rfl, if_pos rfl, Nat.zero_add]
  · exact runs_cons_ne ha

theorem runs_pos (h : K ∈ l) : 0 < runs K l := by
  induction l with
  | nil => cases h
  | cons a l ih =>
      by_cases ha : a = K
      · subst ha
        rw [runs_cons_self]
        exact Nat.succ_pos _
      · rw [runs_cons_ne ha]
        exact ih ((List.mem_cons.mp h).resolve_left (Ne.symm ha))

theorem runs_eq_zero (h : K ∉ l) : runs K l = 0 := by
  induction l with
  | nil => rfl
  | cons a l ih =>
      rw [List.mem_cons, not_or] at h
      rw [runs_cons_ne (Ne.symm h.1), ih h.2]

/-! ## Keys that cover a list -/

/-- There is a key for every run of the list; of the keys in `fixed` there is one at least. -/
structure Covers (count : α → ℕ) (fixed : α → Prop) (l : List α) : Prop where
  fixed_pos : ∀ K, fixed K → 0 < count K
  runs_le : ∀ K, ¬fixed K → runs K l ≤ count K

namespace Covers

variable {count : α → ℕ} {fixed : α → Prop}

theorem pos (h : Covers count fixed l) (hK : K ∈ l) : 0 < count K := by
  by_cases hfixed : fixed K
  · exact h.fixed_pos K hfixed
  · exact Nat.lt_of_lt_of_le (runs_pos hK) (h.runs_le K hfixed)

theorem sublist (h : Covers count fixed l) (hsub : l'.Sublist l) : Covers count fixed l' where
  fixed_pos := h.fixed_pos
  runs_le K hK := Nat.le_trans (runs_sublist hsub) (h.runs_le K hK)

/-- No key is needed for an element equal to the head. -/
theorem again (h : Covers count fixed l) (hhead : l.head? = some a) :
    Covers count fixed (a :: l) where
  fixed_pos := h.fixed_pos
  runs_le K hK := by
    rw [runs_cons_again hhead]
    exact h.runs_le K hK

theorem insert (h : Covers count fixed l) (a : α) :
    Covers (Function.update count a (count a + 1)) fixed (a :: l) where
  fixed_pos K hK := by
    by_cases hKa : K = a
    · subst hKa
      rw [Function.update_self]
      exact Nat.succ_pos _
    · rw [Function.update_of_ne hKa]
      exact h.fixed_pos K hK
  runs_le K hK := by
    by_cases hKa : K = a
    · subst hKa
      rw [Function.update_self]
      exact Nat.le_trans runs_cons_le (Nat.succ_le_succ (h.runs_le K hK))
    · rw [Function.update_of_ne hKa, runs_cons_ne (Ne.symm hKa)]
      exact h.runs_le K hK

/-- A key is taken out that the list is left with enough of. -/
theorem remove (h : Covers count fixed l) (ha : ¬fixed a) (hsub : l'.Sublist l)
    (hruns : runs a l' ≤ runs a l - 1) :
    Covers (Function.update count a (count a - 1)) fixed l' where
  fixed_pos K hK := by
    have hKa : K ≠ a := fun heq => ha (heq ▸ hK)
    rw [Function.update_of_ne hKa]
    exact h.fixed_pos K hK
  runs_le K hK := by
    by_cases hKa : K = a
    · subst hKa
      rw [Function.update_self]
      have hle := h.runs_le K hK
      omega
    · rw [Function.update_of_ne hKa]
      exact Nat.le_trans (runs_sublist hsub) (h.runs_le K hK)

/-- The head goes, and its run with it. -/
theorem remove_head (h : Covers count fixed (a :: l)) (ha : ¬fixed a) (hhead : l.head? ≠ some a) :
    Covers (Function.update count a (count a - 1)) fixed l :=
  h.remove ha (List.sublist_cons_self a l) (by rw [runs_cons_of_head hhead]; omega)

/-- The second element goes, and its run with it. -/
theorem remove_second {b : α} (h : Covers count fixed (b :: a :: l)) (ha : ¬fixed a) (hb : b ≠ a)
    (hhead : l.head? ≠ some a) :
    Covers (Function.update count a (count a - 1)) fixed (b :: l) := by
  refine h.remove ha ((List.sublist_cons_self a l).cons_cons b) ?_
  rw [runs_cons_ne hb, runs_cons_ne hb, runs_cons_of_head hhead]
  omega

/-- A key is taken out that is not in the list. -/
theorem remove_absent (h : Covers count fixed l) (ha : ¬fixed a) (hl : a ∉ l) :
    Covers (Function.update count a (count a - 1)) fixed l :=
  h.remove ha (List.Sublist.refl l) (by have hzero := runs_eq_zero hl; omega)

end Covers

end Runs
