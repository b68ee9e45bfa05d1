import Mathlib.Data.Set.Card

/-! # Cursors

A cursor is asked for one element after the other, until it says that there are no more. It may
also fail. If each answer is the first one of the elements ahead, the answers are all of them in
order, and the other way round.
-/

namespace Cursor

universe u v w

variable {σ : Type u} {ε : Type v} {α : Type w} (next : σ → Except ε (Option σ)) (value : σ → α)
  (before : α → α → Prop) (ahead : σ → Set α)

/-- The elements that the cursor gives from a state on, up to its end -/
inductive Yields : σ → List α → Prop
  | done {s : σ} : next s = .ok none → Yields s []
  | more {s s' : σ} {xs : List α} :
      next s = .ok (some s') → Yields s' xs → Yields s (value s' :: xs)

/-- The element is in the set, and before all others of it. -/
def IsFirst (A : Set α) (x : α) : Prop := x ∈ A ∧ ∀ y ∈ A, y = x ∨ before x y

/-- The answer is the first one of the elements ahead, or that there are none. -/
def Answers (s : σ) : Prop :=
  match next s with
  | .ok none => ahead s = ∅
  | .ok (some s') => IsFirst before (ahead s) (value s')
  | .error _ => False

/-- The cursor gives what is ahead, each element once and in order. -/
def Enumerates (s : σ) : Prop :=
  ∃ xs, Yields next value s xs ∧ xs.Pairwise before ∧ ∀ y, y ∈ xs ↔ y ∈ ahead s

/-- Behind an element that was ahead, those after it are ahead. -/
def Advances : Prop :=
  ∀ s s', value s' ∈ ahead s → ∀ y, y ∈ ahead s' ↔ y ∈ ahead s ∧ before (value s') y

variable {next value before ahead} {s s' : σ} {xs : List α}

theorem Answers.of_done (h : Answers next value before ahead s) (hnext : next s = .ok none) :
    ahead s = ∅ := by
  rwa [Answers, hnext] at h

theorem Answers.of_more (h : Answers next value before ahead s) (hnext : next s = .ok (some s')) :
    IsFirst before (ahead s) (value s') := by
  rwa [Answers, hnext] at h

/-- A cursor that enumerates has the right answer, here and at each element. -/
theorem Yields.answers (hirrefl : ∀ x, ¬before x x) (hadv : Advances value before ahead)
    (h : Yields next value s xs) (hsorted : xs.Pairwise before)
    (hall : ∀ y, y ∈ xs ↔ y ∈ ahead s) :
    Answers next value before ahead s ∧
      ∀ y ∈ xs, ∃ s', value s' = y ∧ Answers next value before ahead s' := by
  induction h with
  | @done s hnext =>
      refine ⟨?_, fun y hy => absurd hy List.not_mem_nil⟩
      rw [Answers, hnext]
      exact Set.eq_empty_of_forall_notMem fun y hy => List.not_mem_nil ((hall y).mpr hy)
  | @more s s' xs hnext hrest ih =>
      obtain ⟨hfirst, hsorted⟩ := List.pairwise_cons.mp hsorted
      have hmem : value s' ∈ ahead s := (hall _).mp List.mem_cons_self
      have hrest : ∀ y, y ∈ xs ↔ y ∈ ahead s' := by
        intro y
        rw [hadv s s' hmem y, ← hall y]
        constructor
        · intro hy
          exact ⟨List.mem_cons_of_mem _ hy, hfirst y hy⟩
        · rintro ⟨hy, hbefore⟩
          rcases List.mem_cons.mp hy with rfl | hy
          · exact absurd hbefore (hirrefl _)
          · exact hy
      obtain ⟨hhere, hthere⟩ := ih hsorted hrest
      constructor
      · rw [Answers, hnext]
        refine ⟨hmem, fun y hy => ?_⟩
        rcases List.mem_cons.mp ((hall y).mpr hy) with rfl | hy
        · exact .inl rfl
        · exact .inr (hfirst y hy)
      · intro y hy
        rcases List.mem_cons.mp hy with rfl | hy
        · exact ⟨s', rfl, hhere⟩
        · exact hthere y hy

/-- A cursor enumerates if its answers are right, here and wherever it stands at an element. -/
theorem enumerates_of_answers (hirrefl : ∀ x, ¬before x x) (hadv : Advances value before ahead)
    (hfinite : (ahead s).Finite) (hhere : Answers next value before ahead s)
    (hthere : ∀ s', value s' ∈ ahead s → Answers next value before ahead s') :
    Enumerates next value before ahead s := by
  -- by the number of elements ahead
  induction hn : (ahead s).ncard using Nat.strong_induction_on generalizing s with
  | h n ih =>
      subst hn
      cases hnext : next s with
      | error e =>
          rw [Answers, hnext] at hhere
          exact hhere.elim
      | ok o =>
          cases o with
          | none =>
              refine ⟨[], .done hnext, List.Pairwise.nil, fun y => ?_⟩
              rw [hhere.of_done hnext]
              exact iff_of_false List.not_mem_nil (Set.notMem_empty y)
          | some s' =>
              obtain ⟨hmem, hfirst⟩ := hhere.of_more hnext
              have hadv' := hadv s s' hmem
              have hsub : ahead s' ⊆ ahead s := fun y hy => ((hadv' y).mp hy).1
              have hout : value s' ∉ ahead s' := fun hy => hirrefl _ ((hadv' _).mp hy).2
              have hlt : (ahead s').ncard < (ahead s).ncard := by
                apply Set.ncard_lt_ncard _ hfinite
                exact ⟨hsub, fun hback => hout (hback hmem)⟩
              obtain ⟨xs, hyields, hsorted, hall⟩ := ih _ hlt (hfinite.subset hsub)
                (hthere s' hmem) (fun t ht => hthere t (hsub ht)) rfl
              refine ⟨value s' :: xs, .more hnext hyields, ?_, fun y => ?_⟩
              · exact List.pairwise_cons.mpr
                  ⟨fun y hy => ((hadv' y).mp ((hall y).mp hy)).2, hsorted⟩
              · rw [List.mem_cons, hall y, hadv' y]
                constructor
                · rintro (rfl | ⟨hy, -⟩)
                  · exact hmem
                  · exact hy
                · intro hy
                  rcases hfirst y hy with heq | hbefore
                  · exact .inl heq
                  · exact .inr ⟨hy, hbefore⟩

end Cursor
