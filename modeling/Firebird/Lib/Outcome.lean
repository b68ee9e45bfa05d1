import Mathlib.Init

/-! # Outcomes of fallible computations

`Outcome P E x`: the computation `x` returns a value with `P` or fails with an
error with `E`. The rules follow the computation.
-/

namespace Outcome

universe u v

variable {ε : Type u} {α β : Type v}

theorem ok_bind (a : α) (f : α → Except ε β) : (Except.ok a).bind f = f a := rfl

/-- Going on from a value -/
theorem ok_seq (a : α) (f : α → Except ε β) : (Except.ok a >>= f) = f a := rfl

theorem error_seq (e : ε) (f : α → Except ε β) : ((Except.error e : Except ε α) >>= f) = .error e := rfl

theorem exists_ok_iff {P : α → Prop} {a : α} :
    (∃ b, (Except.ok a : Except ε α) = .ok b ∧ P b) ↔ P a := by
  constructor
  · rintro ⟨b, hb, h⟩
    cases hb
    exact h
  · intro h
    exact ⟨a, rfl, h⟩

/-- What returns a value goes on from a value. -/
theorem of_bind_eq_ok {x : Except ε α} {f : α → Except ε β} {b : β} (h : x.bind f = .ok b) :
    ∃ a, x = .ok a ∧ f a = .ok b := by
  cases x with
  | error e => cases h
  | ok a => exact ⟨a, rfl, h⟩

/-! ### Rules -/

/-- A returned value satisfies `P`, an error satisfies `E`. -/
def Holds (P : α → Prop) (E : ε → Prop) : Except ε α → Prop
  | .ok a => P a
  | .error e => E e

@[simp] theorem holds_ok {P : α → Prop} {E : ε → Prop} {a : α} :
    Holds P E (.ok a : Except ε α) ↔ P a := Iff.rfl

@[simp] theorem holds_error {P : α → Prop} {E : ε → Prop} {e : ε} :
    Holds P E (.error e : Except ε α) ↔ E e := Iff.rfl

theorem holds_true (x : Except ε α) : Holds (fun _ => True) (fun _ => True) x := by
  cases x <;> trivial

/-- What holds of a computation holds of the value it returned. -/
theorem Holds.of_ok {P : α → Prop} {E : ε → Prop} {x : Except ε α} (hx : Holds P E x) {a : α}
    (h : x = .ok a) : P a := by
  subst h
  exact hx

theorem Holds.of_error {P : α → Prop} {E : ε → Prop} {x : Except ε α} (hx : Holds P E x) {e : ε}
    (h : x = .error e) : E e := by
  subst h
  exact hx

/-- Sequencing. -/
theorem Holds.bind {P : α → Prop} {Q : β → Prop} {E : ε → Prop} {x : Except ε α}
    {f : α → Except ε β} (hx : Holds P E x) (hf : ∀ a, P a → Holds Q E (f a)) :
    Holds Q E (x >>= f) := by
  cases x with
  | ok a => exact hf a hx
  | error e => exact hx

/-- Consequence. -/
theorem Holds.mono {P Q : α → Prop} {E F : ε → Prop} {x : Except ε α} (hx : Holds P E x)
    (hP : ∀ a, P a → Q a) (hE : ∀ e, E e → F e) : Holds Q F x := by
  cases x with
  | ok a => exact hP a hx
  | error e => exact hE e hx

/-! ### Loops -/

section

variable {κ : Type*} {f : α → κ → Except ε α} {k : κ} {ks : List κ} {a b : α}

theorem of_foldlM_cons (h : (k :: ks).foldlM f a = .ok b) :
    ∃ c, f a k = .ok c ∧ ks.foldlM f c = .ok b := by
  rw [List.foldlM_cons] at h
  exact of_bind_eq_ok h

/-- The turns that do nothing are skipped. -/
theorem foldlM_filter {keep : κ → Bool} (h : ∀ a k, keep k = false → f a k = .ok a)
    (ks : List κ) (a : α) : ks.foldlM f a = (ks.filter keep).foldlM f a := by
  induction ks generalizing a with
  | nil => rfl
  | cons k ks ih =>
    cases hk : keep k with
    | false =>
      have hno : ¬keep k = true := by
        rw [hk]
        exact Bool.false_ne_true
      rw [List.filter_cons_of_neg hno, List.foldlM_cons, h a k hk]
      exact ih a
    | true =>
      rw [List.filter_cons_of_pos hk, List.foldlM_cons, List.foldlM_cons]
      cases f a k with
      | error e => rfl
      | ok a => exact ih a

end

/-! ### Decisions -/

/-- The computation returns whether `P` holds. -/
def Decides (P : Prop) (x : Except ε Bool) : Prop := ∃ b, x = .ok b ∧ (b = true ↔ P)

theorem decides_true {P : Prop} (h : P) : Decides P (.ok true : Except ε Bool) :=
  ⟨true, rfl, iff_of_true rfl h⟩

theorem decides_false {P : Prop} (h : ¬P) : Decides P (.ok false : Except ε Bool) :=
  ⟨false, rfl, iff_of_false Bool.false_ne_true h⟩

theorem Decides.congr {P Q : Prop} {x : Except ε Bool} (hx : Decides P x) (h : P ↔ Q) :
    Decides Q x := by
  obtain ⟨b, hb, hP⟩ := hx
  exact ⟨b, hb, hP.trans h⟩

/-- One computation, and another one when it returns false -/
def orElse (x y : Except ε Bool) : Except ε Bool :=
  x.bind fun b => if b then .ok true else y

theorem Decides.orElse {P Q : Prop} {x y : Except ε Bool} (hx : Decides P x) (hy : Decides Q y) :
    Decides (P ∨ Q) (orElse x y) := by
  obtain ⟨b, rfl, hP⟩ := hx
  cases b with
  | true => exact decides_true (.inl (hP.mp rfl))
  | false => exact hy.congr (or_iff_right fun h => Bool.false_ne_true (hP.mpr h)).symm

end Outcome
