import Firebird.Lib.Tiling
import Mathlib.Algebra.Order.Group.Nat

/-! # Free extents in order

Free extents in the order of their offsets, such that no two of them adjoin. An extent is put in
front of others and joined with the first of them if they adjoin.
-/

namespace Firebird.Extent

variable {a b : Extent} {as bs : List Extent} {n p : ℕ}

/-- The extents are in order, and there is something between any two of them. -/
def Gapped (as : List Extent) : Prop := as.Pairwise fun a b => a.stop < b.offset

theorem gapped_cons : Gapped (a :: as) ↔ (∀ b ∈ as, a.stop < b.offset) ∧ Gapped as :=
  List.pairwise_cons

theorem gapped_append : Gapped (as ++ bs) ↔
    Gapped as ∧ Gapped bs ∧ ∀ a ∈ as, ∀ b ∈ bs, a.stop < b.offset :=
  List.pairwise_append

/-- An extent in front of others, as one with the first of them if they adjoin -/
def join (a : Extent) : List Extent → List Extent
  | [] => [a]
  | b :: bs => if a.stop = b.offset then ⟨a.offset, a.length + b.length⟩ :: bs else a :: b :: bs

@[simp] theorem join_nil : join a [] = [a] := rfl

theorem join_cons : join a (b :: bs) =
    if a.stop = b.offset then ⟨a.offset, a.length + b.length⟩ :: bs else a :: b :: bs :=
  rfl

theorem join_of_eq (h : a.stop = b.offset) :
    join a (b :: bs) = ⟨a.offset, a.length + b.length⟩ :: bs :=
  if_pos h

theorem join_of_ne (h : a.stop ≠ b.offset) : join a (b :: bs) = a :: b :: bs := if_neg h

/-- The first of what is joined -/
theorem exists_join_eq (a : Extent) (bs : List Extent) :
    ∃ c cs, join a bs = c :: cs ∧ c.offset = a.offset := by
  cases bs with
  | nil => exact ⟨a, [], rfl, rfl⟩
  | cons b bs =>
      rw [join_cons]
      split
      · exact ⟨_, bs, rfl, rfl⟩
      · exact ⟨a, b :: bs, rfl, rfl⟩

theorem layers_join : layers (join a bs) p = layers (a :: bs) p := by
  cases bs with
  | nil => rfl
  | cons b bs =>
      by_cases h : a.stop = b.offset
      · rw [join_of_eq h, layers_mk, layers_cons, layers_cons]
        unfold stop at h ⊢
        split_ifs <;> omega
      · rw [join_of_ne h]

/-- What is joined begins where it began. -/
theorem le_offset_of_mem_join (h : ∀ b ∈ bs, a.offset ≤ b.offset) (hb : b ∈ join a bs) :
    a.offset ≤ b.offset := by
  cases bs with
  | nil =>
      rw [List.mem_singleton.mp hb]
  | cons c bs =>
      rw [join_cons] at hb
      split at hb
      · rcases List.mem_cons.mp hb with rfl | hb
        · exact le_rfl
        · exact h b (List.mem_cons_of_mem c hb)
      · rcases List.mem_cons.mp hb with rfl | hb
        · exact le_rfl
        · exact h b hb

/-- An extent in front of free extents -/
theorem Gapped.join (h : Gapped bs) (hle : ∀ b ∈ bs, a.stop ≤ b.offset) : Gapped (join a bs) := by
  cases bs with
  | nil => exact List.pairwise_singleton _ a
  | cons c bs =>
      have hc := gapped_cons.mp h
      rw [join_cons]
      split
      · rename_i heq
        refine gapped_cons.mpr ⟨fun b hb => ?_, hc.2⟩
        have hlt := hc.1 b hb
        unfold stop at heq hlt ⊢
        simp only
        omega
      · rename_i hne
        refine gapped_cons.mpr ⟨fun b hb => ?_, h⟩
        have hle := hle c List.mem_cons_self
        rcases List.mem_cons.mp hb with rfl | hb
        · exact lt_of_le_of_ne hle hne
        · have hlt := hc.1 b hb
          unfold stop at hle hlt ⊢
          omega

/-- What is not shorter than the least length is not so when it is joined. -/
theorem length_of_mem_join (ha : n ≤ a.length) (h : ∀ b ∈ bs, n ≤ b.length) (hb : b ∈ join a bs) :
    n ≤ b.length := by
  cases bs with
  | nil =>
      rw [List.mem_singleton.mp hb]
      exact ha
  | cons c bs =>
      rw [join_cons] at hb
      split at hb
      · rcases List.mem_cons.mp hb with rfl | hb
        · exact ha.trans (Nat.le_add_right _ _)
        · exact h b (List.mem_cons_of_mem c hb)
      · rcases List.mem_cons.mp hb with rfl | hb
        · exact ha
        · exact h b hb

/-- Extents behind others, joined with the last of these if they adjoin -/
def joinLast (as bs : List Extent) : List Extent :=
  match as.getLast? with
  | none => bs
  | some l => as.dropLast ++ join l bs

@[simp] theorem joinLast_nil : joinLast [] bs = bs := rfl

@[simp] theorem joinLast_concat : joinLast (as ++ [a]) bs = as ++ join a bs := by
  rw [joinLast, List.getLast?_concat]
  simp only [List.dropLast_concat]

theorem layers_joinLast : layers (joinLast as bs) p = layers (as ++ bs) p := by
  rcases List.eq_nil_or_concat as with rfl | ⟨front, l, rfl⟩
  · rfl
  · rw [List.concat_eq_append, joinLast_concat, layers_append, layers_join, ← layers_append,
      List.append_assoc, List.singleton_append]

/-- Free extents behind others that may touch them -/
theorem Gapped.joinLast (has : Gapped as) (hbs : Gapped bs)
    (hle : ∀ a ∈ as, ∀ b ∈ bs, a.stop ≤ b.offset) : Gapped (joinLast as bs) := by
  rcases List.eq_nil_or_concat as with rfl | ⟨front, l, rfl⟩
  · exact hbs
  · rw [List.concat_eq_append] at has hle ⊢
    rw [joinLast_concat]
    obtain ⟨hfront, -, hfl⟩ := gapped_append.mp has
    have hl : ∀ b ∈ bs, l.stop ≤ b.offset :=
      hle l (List.mem_append_right front (List.mem_singleton_self l))
    refine gapped_append.mpr ⟨hfront, hbs.join hl, fun f hf c hc => ?_⟩
    have hlc := le_offset_of_mem_join (fun b hb => (Nat.le_add_right _ _).trans (hl b hb)) hc
    exact (hfl f hf l (List.mem_singleton_self l)).trans_le hlc

theorem length_of_mem_joinLast (has : ∀ a ∈ as, n ≤ a.length) (hbs : ∀ b ∈ bs, n ≤ b.length)
    (hb : b ∈ joinLast as bs) : n ≤ b.length := by
  rcases List.eq_nil_or_concat as with rfl | ⟨front, l, rfl⟩
  · exact hbs b hb
  · rw [List.concat_eq_append] at has hb
    rw [joinLast_concat] at hb
    rcases List.mem_append.mp hb with hb | hb
    · exact has b (List.mem_append_left [l] hb)
    · exact length_of_mem_join (has l (List.mem_append_right front (List.mem_singleton_self l))) hbs hb

/-! ### The room that extents take -/

theorem Tiles.sum_length (h : Tiles as n) : (as.map length).sum = n := by
  have hwords : allWords as = Finset.range n := by
    ext p
    rw [mem_allWords, Finset.mem_range]
    constructor
    · rintro ⟨a, ha, hp⟩
      rw [words, Finset.mem_Ico] at hp
      by_contra hlt
      have hpos := layers_pos ha hp
      rw [h p, if_neg hlt] at hpos
      exact Nat.lt_irrefl 0 hpos
    · intro hp
      obtain ⟨a, ha, hpa⟩ := h.covers hp
      exact ⟨a, ha, Finset.mem_Ico.mpr hpa⟩
  rw [← card_allWords h.pairwise, hwords, Finset.card_range]

end Firebird.Extent
