import Mathlib.Data.Nat.Notation
import Mathlib.Logic.Relation

/-! # Relations with a rank

A relation whose steps lower a rank has no cycle, and keeps a rank when a step is added
that closes none.
-/

open Relation (ReflTransGen TransGen)

universe u

variable {α : Type u} {r r' : α → α → Prop}

/-- Some rank falls with every step. -/
def Ranked (r : α → α → Prop) : Prop := ∃ rank : α → ℕ, ∀ a b, r a b → rank b < rank a

namespace Ranked

theorem mono (h : Ranked r) (hr : ∀ a b, r' a b → r a b) : Ranked r' := by
  obtain ⟨rank, hrank⟩ := h
  exact ⟨rank, fun a b hab => hrank a b (hr a b hab)⟩

theorem lt_of_transGen {rank : α → ℕ} (hrank : ∀ a b, r a b → rank b < rank a) {a b : α}
    (h : TransGen r a b) : rank b < rank a := by
  induction h with
  | single hab => exact hrank _ _ hab
  | tail _ hbc ih => exact Nat.lt_trans (hrank _ _ hbc) ih

theorem not_transGen_self (h : Ranked r) (a : α) : ¬TransGen r a a := by
  obtain ⟨rank, hrank⟩ := h
  intro hcycle
  exact Nat.lt_irrefl _ (lt_of_transGen hrank hcycle)

/-- A step from `a` to `b` may be added if `b` does not lead back to `a`. -/
theorem insert (h : Ranked r) {a b : α} (hab : ¬ReflTransGen r b a) :
    Ranked fun x y => r x y ∨ x = a ∧ y = b := by
  classical
  obtain ⟨rank, hrank⟩ := h
  -- all that leads to `a` is lifted above `b`
  refine ⟨fun x => rank x + if ReflTransGen r x a then rank b + 1 else 0, ?_⟩
  rintro x y (hxy | ⟨rfl, rfl⟩)
  · have hlt := hrank x y hxy
    by_cases hy : ReflTransGen r y a
    · have hx : ReflTransGen r x a := .head hxy hy
      simp only [if_pos hx, if_pos hy]
      omega
    · simp only [if_neg hy]
      omega
  · simp only [if_neg hab, if_pos ReflTransGen.refl]
    omega

end Ranked
