import Mathlib.Init

/-! # Transition systems

States reached from an initial state by labelled steps, the invariant rule, and
systems whose steps are limited by a side condition.
-/

namespace Transition

universe u v

/-- Initial states, and steps with the operation they carry out. -/
structure System (σ : Type u) (ι : Type v) where
  init : σ → Prop
  step : σ → ι → σ → Prop

variable {σ : Type u} {ι : Type v}

/-- The states of the runs of a system. -/
inductive Reachable (S : System σ ι) : σ → Prop
  | init {s : σ} : S.init s → Reachable S s
  | step {s s' : σ} {i : ι} : Reachable S s → S.step s i s' → Reachable S s'

/-- What holds initially and is kept by every step holds in every state reached. -/
theorem Reachable.invariant {S : System σ ι} {I : σ → Prop} (h0 : ∀ s, S.init s → I s)
    (hstep : ∀ s i s', I s → S.step s i s' → I s') {s : σ} (h : Reachable S s) : I s := by
  induction h with
  | init hs => exact h0 _ hs
  | step _ hs ih => exact hstep _ _ _ ih hs

/-- The runs that carry out an operation only in states that meet the condition `C`. -/
def System.restrict (S : System σ ι) (C : σ → ι → Prop) : System σ ι where
  init := S.init
  step s i s' := S.step s i s' ∧ C s i

theorem Reachable.of_restrict {S : System σ ι} {C : σ → ι → Prop} {s : σ}
    (h : Reachable (S.restrict C) s) : Reachable S s := by
  induction h with
  | init hs => exact .init hs
  | step _ hs ih => exact ih.step hs.1

/-- The state that a list of operations leads to is reached. -/
theorem Reachable.of_foldlM {S : System σ ι} {f : σ → ι → Option σ} {ops : List ι} {s s' : σ}
    (hf : ∀ i ∈ ops, ∀ t t', f t i = some t' → S.step t i t') (hs : Reachable S s)
    (h : ops.foldlM f s = some s') : Reachable S s' := by
  induction ops generalizing s with
  | nil =>
      cases h
      exact hs
  | cons i ops ih =>
      rw [List.foldlM_cons] at h
      obtain ⟨t, ht, hrest⟩ := Option.bind_eq_some_iff.mp h
      exact ih (fun j hj => hf j (List.mem_cons_of_mem _ hj))
        (hs.step (hf i List.mem_cons_self s t ht)) hrest

end Transition
