import Mathlib.Data.List.Infix
import Firebird.Lib.Outcome
import Firebird.Lib.Pattern

/-! # Matching by backtracking

A matcher runs through stages. A stage takes a string to a rest of it, and the stages behind it are
tried on the rests in turn, on the longest first. A blind stage reads a character without a look at
the end of the string, so that a trial which reaches it with the empty string goes astray.

When the stages are orderly, no trial goes astray before a match is found: the two would cross, and
the match would have been found where they cross.
-/

open Computability

namespace Backtrack

universe u v

variable {α : Type u} {ε : Type v} {ok : α → Prop} {d : α} {s t s' t' : List α}

/-! ## Runs of characters -/

/-- `t` is left of `s` behind a run of characters of a set. -/
inductive Run (ok : α → Prop) : List α → List α → Prop where
  | stop (s : List α) : Run ok s s
  | step {d : α} {s t : List α} (hd : ok d) (h : Run ok s t) : Run ok (d :: s) t

theorem Run.suffix (h : Run ok s t) : t <:+ s := by
  induction h with
  | stop s => exact List.suffix_refl s
  | step _ _ ih => exact ih.trans (List.suffix_cons _ _)

/-- The run may stop earlier. -/
theorem Run.between (h : Run ok s s') (ht : s' <:+ t) (hs : t <:+ s) : Run ok s t := by
  induction h with
  | stop s =>
    rw [hs.eq_of_length_le ht.length_le]
    exact .stop s
  | @step d s s' hd h ih =>
    rcases List.suffix_cons_iff.mp hs with rfl | hs
    · exact .stop _
    · exact .step hd (ih ht hs)

theorem exists_run_nil {P : List α → Prop} : (∃ t, Run ok [] t ∧ P t) ↔ P [] := by
  constructor
  · rintro ⟨t, ht, h⟩
    cases ht
    exact h
  · intro h
    exact ⟨[], .stop [], h⟩

theorem exists_run_cons {P : List α → Prop} :
    (∃ t, Run ok (d :: s) t ∧ P t) ↔ P (d :: s) ∨ ok d ∧ ∃ t, Run ok s t ∧ P t := by
  constructor
  · rintro ⟨t, ht, h⟩
    cases ht with
    | stop => exact .inl h
    | step hd ht => exact .inr ⟨hd, t, ht, h⟩
  · rintro (h | ⟨hd, t, ht, h⟩)
    · exact ⟨d :: s, .stop _, h⟩
    · exact ⟨t, .step hd ht, h⟩

/-! ## Stages -/

structure Stage (α : Type u) where
  /-- The stage takes a string to a rest of it. -/
  Takes : List α → List α → Prop
  /-- It reads a character without a look at the end. -/
  blind : Bool

/-- The stages match the string. -/
def Accepts : List (Stage α) → List α → Prop
  | [], s => s = []
  | p :: ps, s => ∃ t, p.Takes s t ∧ Accepts ps t

/-- Some stages take the string to its end, and the next stage is blind. -/
def Strays : List (Stage α) → List α → Prop
  | [], _ => False
  | p :: ps, s => (p.blind ∧ s = []) ∨ ∃ t, p.Takes s t ∧ Strays ps t

/-- Where two passages through the stage cross, the outer one may leave at the rest of the inner
one. -/
structure Stage.Orderly (p : Stage α) : Prop where
  cross : ∀ {s t s' t' : List α}, t <:+ s → p.Takes s s' → p.Takes t t' → t' <:+ s' ∨ p.Takes s t'
  blind : p.blind → ∀ t, ¬p.Takes [] t

/-- What is accepted behind the start of a stray trial is accepted at its start. -/
theorem Strays.cross {ps : List (Stage α)} (hp : ∀ p ∈ ps, p.Orderly) (hs : Strays ps s)
    (ht : t <:+ s) (ha : Accepts ps t) : Accepts ps s := by
  induction ps generalizing s t with
  | nil => exact hs.elim
  | cons p ps ih =>
    rw [List.forall_mem_cons] at hp
    obtain ⟨hp, hps⟩ := hp
    obtain ⟨t', htake', ha⟩ := ha
    rcases hs with ⟨hb, rfl⟩ | ⟨s', htake, hs⟩
    · rw [List.suffix_nil.mp ht] at htake'
      exact absurd htake' (hp.blind hb t')
    · rcases hp.cross ht htake htake' with hle | hout
      · exact ⟨s', htake, ih hps hs hle ha⟩
      · exact ⟨t', hout, ha⟩

/-! ## Kinds of stages -/

/-- One character of a set -/
def single (ok : α → Prop) (blind : Bool) : Stage α := ⟨fun s t => ∃ d, ok d ∧ s = d :: t, blind⟩

/-- Any number of characters of a set -/
def many (ok : α → Prop) : Stage α := ⟨Run ok, false⟩

/-- Any number of characters, but not all that are left -/
def proper : Stage α := ⟨fun s t => t <:+ s ∧ (t = [] → s = []), false⟩

/-- All characters that are left -/
def all : Stage α := ⟨fun _ t => t = [], false⟩

/-- No character -/
def pass : Stage α := ⟨fun s t => t = s, false⟩

theorem exists_single_nil {b : Bool} {P : List α → Prop} :
    (∃ t, (single ok b).Takes [] t ∧ P t) ↔ False := by
  simp [single]

theorem exists_single_cons {b : Bool} {P : List α → Prop} :
    (∃ t, (single ok b).Takes (d :: s) t ∧ P t) ↔ ok d ∧ P s := by
  constructor
  · rintro ⟨t, ⟨e, he, h⟩, hP⟩
    obtain ⟨rfl, rfl⟩ := List.cons.inj h
    exact ⟨he, hP⟩
  · rintro ⟨hd, hP⟩
    exact ⟨s, ⟨d, hd, rfl⟩, hP⟩

/-- A stage for an element of a pattern -/
theorem exists_single_iff {b : Bool} {l : Language α} :
    (∃ t, (single ok b).Takes s t ∧ t ∈ l) ↔ s ∈ Element.single ok * l := by
  cases s with
  | nil => exact iff_of_false exists_single_nil.mp Element.nil_notMem_single_mul
  | cons d s => exact exists_single_cons.trans Element.cons_mem_single_mul.symm

theorem exists_many_iff {l : Language α} :
    (∃ t, (many ok).Takes s t ∧ t ∈ l) ↔ s ∈ (Element.single ok)∗ * l := by
  induction s with
  | nil => exact exists_run_nil.trans Element.nil_mem_many.symm
  | cons d s ih =>
    rw [Element.cons_mem_many, ← ih]
    exact exists_run_cons

theorem exists_all_iff {P : List α → Prop} : (∃ t, all.Takes s t ∧ P t) ↔ P [] := by
  simp [all]

theorem exists_proper_nil {P : List α → Prop} : (∃ t, proper.Takes [] t ∧ P t) ↔ P [] := by
  simp [proper]

theorem exists_proper_cons {P : List α → Prop} :
    (∃ t, proper.Takes (d :: s) t ∧ P t) ↔
      P (d :: s) ∨ s ≠ [] ∧ ∃ t, proper.Takes s t ∧ P t := by
  constructor
  · rintro ⟨t, ⟨ht, hnil⟩, hP⟩
    rcases List.suffix_cons_iff.mp ht with rfl | ht
    · exact .inl hP
    · have hne : t ≠ [] := fun h => by cases hnil h
      refine .inr ⟨?_, t, ⟨ht, fun h => absurd h hne⟩, hP⟩
      rintro rfl
      exact hne (List.suffix_nil.mp ht)
  · rintro (hP | ⟨hs, t, ⟨ht, hnil⟩, hP⟩)
    · exact ⟨d :: s, ⟨List.suffix_refl _, id⟩, hP⟩
    · exact ⟨t, ⟨ht.trans (List.suffix_cons d s), fun h => absurd (hnil h) hs⟩, hP⟩

theorem single_orderly (ok : α → Prop) (blind : Bool) : (single ok blind).Orderly where
  cross := by
    rintro s t s' t' ht ⟨d, -, rfl⟩ ⟨e, -, rfl⟩
    left
    rcases List.suffix_cons_iff.mp ht with h | h
    · rw [(List.cons.inj h).2]
    · exact (List.suffix_cons e t').trans h
  blind := by
    rintro - t ⟨d, -, h⟩
    cases h

/-- A stage that takes a string to all rests between the string and what it takes it to. -/
theorem orderly_of_between {p : Stage α} (hb : p.blind = false)
    (hs : ∀ {s s'}, p.Takes s s' → s' <:+ s)
    (h : ∀ {s s' t}, p.Takes s s' → s' <:+ t → t <:+ s → p.Takes s t) : p.Orderly where
  cross := by
    intro s t s' t' ht htake htake'
    have hle := (hs htake').trans ht
    rcases List.suffix_or_suffix_of_suffix hle (hs htake) with h' | h'
    · left
      exact h'
    · right
      exact h htake h' hle
  blind := fun h => absurd (hb.symm.trans h) Bool.false_ne_true

theorem many_orderly (ok : α → Prop) : (many ok).Orderly :=
  orderly_of_between rfl Run.suffix Run.between

theorem proper_orderly : (proper : Stage α).Orderly := by
  apply orderly_of_between rfl And.left
  intro s s' t h hs ht
  refine ⟨ht, fun hnil => h.2 ?_⟩
  rw [hnil] at hs
  exact List.suffix_nil.mp hs

theorem all_orderly : (all : Stage α).Orderly where
  cross := by
    rintro s t s' t' - - rfl
    exact .inr rfl
  blind := fun h => absurd h Bool.false_ne_true

theorem pass_orderly : (pass : Stage α).Orderly where
  cross := by
    rintro s t s' t' ht rfl rfl
    exact .inl ht
  blind := fun h => absurd h Bool.false_ne_true

/-! ## What a matcher returns -/

/-- The computation returns whether `A` holds, but it stops with the error `e` where `A` fails and
`S` holds. -/
def Ends (A S : Prop) (e : ε) (x : Except ε Bool) : Prop :=
  A ∧ x = .ok true ∨ ¬A ∧ S ∧ x = .error e ∨ ¬A ∧ ¬S ∧ x = .ok false

section

variable {A S B T P : Prop} {e : ε} {x y : Except ε Bool}

theorem ends_true (h : A) : Ends A S e (.ok true) := .inl ⟨h, rfl⟩

theorem ends_false (hA : ¬A) (hS : ¬S) : Ends A S e (.ok false) := .inr (.inr ⟨hA, hS, rfl⟩)

theorem ends_error (hA : ¬A) (hS : S) : Ends A S e (.error e) := .inr (.inl ⟨hA, hS, rfl⟩)

theorem Ends.congr (h : Ends A S e x) (hA : A ↔ B) (hS : S ↔ T) : Ends B T e x := by
  rwa [← hA, ← hS]

/-- A second trial, when the first one fails -/
theorem Ends.orElse (hx : Ends A S e x) (hy : Ends B T e y) (hc : S → B → A) :
    Ends (A ∨ B) (S ∨ T) e (Outcome.orElse x y) := by
  rcases hx with ⟨hA, rfl⟩ | ⟨hA, hS, rfl⟩ | ⟨hA, hS, rfl⟩
  · exact ends_true (.inl hA)
  · apply ends_error _ (.inl hS)
    rintro (h | h)
    · exact hA h
    · exact hA (hc hS h)
  · exact Ends.congr hy (or_iff_right hA).symm (or_iff_right hS).symm

theorem Ends.orElse_false (hx : Ends A S e x) : Ends A S e (Outcome.orElse x (.ok false)) := by
  have h := hx.orElse (ends_false (A := False) (S := False) id id) fun _ h => h.elim
  rwa [or_false, or_false] at h

theorem Ends.ite (hx : Ends A S e x) (p : Prop) [Decidable p] :
    Ends (p ∧ A) (p ∧ S) e (if p then x else .ok false) := by
  split
  · next h => exact hx.congr (and_iff_right h).symm (and_iff_right h).symm
  · next h => exact ends_false (fun h' => h h'.1) (fun h' => h h'.1)

theorem Ends.decides_iff (h : Ends A S e x) :
    Outcome.Decides P x ↔ ¬(S ∧ ¬A) ∧ (A ↔ P) := by
  rcases h with ⟨hA, rfl⟩ | ⟨hA, hS, rfl⟩ | ⟨hA, hS, rfl⟩
  · simp [Outcome.Decides, hA]
  · simp [Outcome.Decides, hA, hS]
  · simp [Outcome.Decides, hA, hS]

end

end Backtrack
