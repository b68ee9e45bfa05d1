import Mathlib.Computability.Language

/-! # Patterns of character elements

An element stands for one character of a set, or for any number of characters of the set. The
language of a pattern is the product of the languages of its elements. The rules say what a matcher
may do at the front of a string.
-/

open Computability

/-- One element of a pattern -/
structure Element (α : Type*) where
  ok : α → Prop
  star : Bool

namespace Element

universe u

variable {α : Type u} {p q : α → Prop} {l m : Language α} {c : α} {s : List α}

/-- The strings of one character of a set -/
def single (p : α → Prop) : Language α := {s | ∃ c, p c ∧ s = [c]}

/-- One character of a set -/
def one (p : α → Prop) : Element α := ⟨p, false⟩

/-- Any number of characters of a set -/
def many (p : α → Prop) : Element α := ⟨p, true⟩

def lang (e : Element α) : Language α := if e.star then (single e.ok)∗ else single e.ok

/-- The language of a pattern -/
def langs (es : List (Element α)) : Language α := (es.map lang).prod

@[simp] theorem langs_nil : langs ([] : List (Element α)) = 1 := rfl

theorem langs_one (es : List (Element α)) : langs (one p :: es) = single p * langs es := rfl

theorem langs_many (es : List (Element α)) : langs (many p :: es) = (single p)∗ * langs es := rfl

theorem nil_mem_langs_nil : [] ∈ langs ([] : List (Element α)) := Language.nil_mem_one

theorem mem_langs_nil : s ∈ langs ([] : List (Element α)) ↔ s = [] := Language.mem_one s

/-! ## One character -/

theorem nil_notMem_single_mul : [] ∉ single p * l := by
  rintro ⟨a, ⟨c, -, rfl⟩, b, -, h⟩
  cases h

theorem cons_mem_single_mul : c :: s ∈ single p * l ↔ p c ∧ s ∈ l := by
  constructor
  · rintro ⟨a, ⟨d, hd, rfl⟩, b, hb, h⟩
    obtain ⟨rfl, rfl⟩ := List.cons.inj h
    exact ⟨hd, hb⟩
  · rintro ⟨hc, hs⟩
    exact ⟨[c], ⟨c, hc, rfl⟩, s, hs, rfl⟩

/-! ## Any number of characters -/

/-- Unfolding at the front. -/
theorem mem_many : s ∈ (single p)∗ * l ↔ s ∈ l ∨ s ∈ single p * ((single p)∗ * l) := by
  conv_lhs => rw [← Language.one_add_self_mul_kstar_eq_kstar, add_mul, one_mul, mul_assoc]
  exact Language.mem_add _ _ _

theorem nil_mem_many : [] ∈ (single p)∗ * l ↔ [] ∈ l := by
  rw [mem_many]
  exact or_iff_left nil_notMem_single_mul

theorem cons_mem_many : c :: s ∈ (single p)∗ * l ↔ c :: s ∈ l ∨ p c ∧ s ∈ (single p)∗ * l := by
  rw [mem_many, cons_mem_single_mul]

/-- Two adjacent elements of the same set are one. -/
theorem many_many : (single p)∗ * ((single p)∗ * l) = (single p)∗ * l := by
  rw [← mul_assoc, kstar_mul_kstar]

theorem exists_suffix_nil {P : List α → Prop} : (∃ t, t <:+ [] ∧ P t) ↔ P [] := by
  simp only [List.suffix_nil, exists_eq_left]

theorem exists_suffix_cons {P : List α → Prop} :
    (∃ t, t <:+ c :: s ∧ P t) ↔ P (c :: s) ∨ ∃ t, t <:+ s ∧ P t := by
  simp only [List.suffix_cons_iff, or_and_right, exists_or, exists_eq_left]

/-- Any number of any characters: the rest of the string is in the rest of the pattern. -/
theorem mem_many_true : s ∈ (single fun _ : α => True)∗ * l ↔ ∃ t, t <:+ s ∧ t ∈ l := by
  induction s with
  | nil => rw [nil_mem_many, exists_suffix_nil]
  | cons c s ih => rw [cons_mem_many, ih, exists_suffix_cons, true_and]

end Element
