import Firebird.Lib.Outcome

/-! # Computations given a number of steps

`Settles f a`: the computation `f`, given enough steps, returns `a`. A loop
whose body settles is followed turn by turn, and the steps its parts need never
have to be added up.
-/

universe u v

/-- Every number of steps from some one on is enough for `f` to return `a`. -/
def Settles {ε : Type u} {α : Type v} (f : Nat → Except ε α) (a : α) : Prop :=
  ∃ n, ∀ m, n ≤ m → f m = .ok a

namespace Settles

variable {ε : Type u} {α β : Type v} {f g : Nat → Except ε α} {a b : α}

theorem of_eq (h : ∀ m, f m = .ok a) : Settles f a := ⟨0, fun m _ => h m⟩

/-- One step is spent on the call itself. -/
theorem of_succ (h : Settles (fun n => f (n + 1)) a) : Settles f a := by
  rcases h with ⟨n, h⟩
  refine ⟨n + 1, fun m hm => ?_⟩
  have hpred : n ≤ m - 1 := by omega
  have hm' : m - 1 + 1 = m := by omega
  have hstep : f (m - 1 + 1) = .ok a := h (m - 1) hpred
  rwa [hm'] at hstep

theorem congr (hf : Settles f a) (h : ∀ m, g m = f m) : Settles g a := by
  rcases hf with ⟨n, hf⟩
  exact ⟨n, fun m hm => (h m).trans (hf m hm)⟩

/-- Sequencing. -/
theorem bind {k : α → Nat → Except ε β} {c : β} (hf : Settles f a) (hk : Settles (k a) c) :
    Settles (fun n => f n >>= fun x => k x n) c := by
  rcases hf with ⟨n, hf⟩
  rcases hk with ⟨l, hk⟩
  refine ⟨max n l, fun m hm => ?_⟩
  have hn : n ≤ m := Nat.le_trans (Nat.le_max_left n l) hm
  have hl : l ≤ m := Nat.le_trans (Nat.le_max_right n l) hm
  show (f m >>= fun x => k x m) = .ok c
  rw [hf m hn, Outcome.ok_seq]
  exact hk m hl

end Settles
