import Firebird.Lib.Memory
import Mathlib.Algebra.Order.BigOperators.Group.List
import Mathlib.Algebra.Order.Ring.Nat
import Mathlib.Data.Finset.Card
import Mathlib.Data.List.Forall2
import Mathlib.Order.Interval.Finset.Nat

/-! # Extents

Ranges of words in a memory that lie apart from each other: they take no more room in all than
the region they are in, and what is stored in one is not seen in the others.
-/

namespace Firebird

/-- The words from `offset` on -/
structure Extent where
  offset : ℕ
  length : ℕ
  deriving DecidableEq, Repr

namespace Extent

variable {a b : Extent} {lo hi : ℕ}

/-- The first word behind -/
def stop (a : Extent) : ℕ := a.offset + a.length

/-- No word is in both. -/
def Apart (a b : Extent) : Prop :=
  a.length = 0 ∨ b.length = 0 ∨ a.stop ≤ b.offset ∨ b.stop ≤ a.offset

instance : Decidable (Apart a b) := inferInstanceAs (Decidable (_ ∨ _))

theorem apart_iff : Apart a b ↔ ∀ p, ¬((a.offset ≤ p ∧ p < a.stop) ∧ b.offset ≤ p ∧ p < b.stop) := by
  unfold Apart stop
  constructor
  · rintro h p ⟨ha, hb⟩
    omega
  · intro h
    have ha := h a.offset
    have hb := h b.offset
    omega

theorem Apart.symm (h : Apart a b) : Apart b a := by
  unfold Apart at h ⊢
  omega

instance : Std.Symm Apart := ⟨fun _ _ h => h.symm⟩

/-- The words of an extent -/
def words (a : Extent) : Finset ℕ := Finset.Ico a.offset a.stop

theorem card_words (a : Extent) : a.words.card = a.length := by
  rw [words, Nat.card_Ico, stop, Nat.add_sub_cancel_left]

theorem Apart.disjoint (h : Apart a b) : Disjoint a.words b.words := by
  rw [Finset.disjoint_left]
  intro p hp hp'
  rw [words, Finset.mem_Ico] at hp hp'
  exact apart_iff.mp h p ⟨hp, hp'⟩

/-- The words of all extents -/
def allWords : List Extent → Finset ℕ
  | [] => ∅
  | a :: as => a.words ∪ allWords as

theorem mem_allWords {as : List Extent} {p : ℕ} : p ∈ allWords as ↔ ∃ a ∈ as, p ∈ a.words := by
  induction as with
  | nil => simp [allWords]
  | cons a as ih =>
      rw [allWords, Finset.mem_union, ih]
      simp only [List.mem_cons, exists_eq_or_imp]

theorem card_allWords {as : List Extent} (h : as.Pairwise Apart) :
    (allWords as).card = (as.map length).sum := by
  induction as with
  | nil => rfl
  | cons a as ih =>
      obtain ⟨hfirst, hrest⟩ := List.pairwise_cons.mp h
      have hdisjoint : Disjoint a.words (allWords as) := by
        rw [Finset.disjoint_left]
        intro p hp hp'
        obtain ⟨b, hb, hpb⟩ := Iff.mp mem_allWords hp'
        exact Finset.disjoint_left.mp (hfirst b hb).disjoint hp hpb
      rw [allWords, Finset.card_union_of_disjoint hdisjoint, card_words, ih hrest, List.map_cons,
        List.sum_cons]

/-- Extents apart from each other take no more room than the region they are in. -/
theorem sum_length_le (lo hi : ℕ) {as : List Extent} (h : as.Pairwise Apart)
    (hin : ∀ a ∈ as, lo ≤ a.offset ∧ a.stop ≤ hi) : (as.map length).sum ≤ hi - lo := by
  rw [← card_allWords h, ← Nat.card_Ico]
  apply Finset.card_le_card
  intro p hp
  obtain ⟨a, ha, hpa⟩ := Iff.mp mem_allWords hp
  have hbound := hin a ha
  rw [words, Finset.mem_Ico] at hpa
  rw [Finset.mem_Ico]
  omega

/-- Extents between two bounds that lie apart from each other -/
def Within (lo hi : ℕ) (as : List Extent) : Prop :=
  as.Pairwise Apart ∧ ∀ a ∈ as, lo ≤ a.offset ∧ a.stop ≤ hi

theorem within_nil : Within lo hi [] := ⟨.nil, List.forall_mem_nil _⟩

theorem Within.mono {as : List Extent} {l h : ℕ} (hw : Within lo hi as) (hl : l ≤ lo)
    (hh : hi ≤ h) : Within l h as :=
  ⟨hw.1, fun a ha => ⟨hl.trans (hw.2 a ha).1, (hw.2 a ha).2.trans hh⟩⟩

theorem within_perm {as bs : List Extent} (h : as.Perm bs) : Within lo hi as ↔ Within lo hi bs := by
  refine and_congr (h.pairwise_iff fun hab => hab.symm) ?_
  exact forall_congr' fun a => imp_congr_left h.mem_iff

theorem within_cons {as : List Extent} :
    Within lo hi (a :: as) ↔
      ((lo ≤ a.offset ∧ a.stop ≤ hi) ∧ ∀ b ∈ as, Apart a b) ∧ Within lo hi as := by
  rw [Within, Within, List.pairwise_cons, List.forall_mem_cons]
  constructor
  · rintro ⟨⟨hfirst, hrest⟩, ha, has⟩
    exact ⟨⟨ha, hfirst⟩, hrest, has⟩
  · rintro ⟨⟨ha, hfirst⟩, hrest, has⟩
    exact ⟨⟨hfirst, hrest⟩, ha, has⟩

theorem Within.sublist {as bs : List Extent} (h : Within lo hi bs) (hsub : as.Sublist bs) :
    Within lo hi as :=
  ⟨h.1.sublist hsub, fun a ha => h.2 a (hsub.subset ha)⟩

/-- What lies in front of the middle is apart from what lies behind it. -/
theorem Within.append {as bs : List Extent} {mid : ℕ} (ha : Within lo mid as)
    (hb : Within mid hi bs) (hlo : lo ≤ mid) (hhi : mid ≤ hi) : Within lo hi (as ++ bs) := by
  constructor
  · refine List.pairwise_append.mpr ⟨ha.1, hb.1, fun a hma b hmb => ?_⟩
    exact .inr (.inr (.inl ((ha.2 a hma).2.trans (hb.2 b hmb).1)))
  · intro a hm
    rcases List.mem_append.mp hm with hm | hm
    · exact ⟨(ha.2 a hm).1, (ha.2 a hm).2.trans hhi⟩
    · exact ⟨hlo.trans (hb.2 a hm).1, (hb.2 a hm).2⟩

theorem within_singleton {l : ℕ} (h : lo + l ≤ hi) : Within lo hi [⟨lo, l⟩] :=
  ⟨List.pairwise_singleton _ _, fun _ ha => by
    rw [List.mem_singleton.mp ha]
    exact ⟨le_rfl, h⟩⟩

/-! ## In a memory -/

variable {α : Type*} {m : Memory α} {ws : List α} {p : ℕ}

/-- The words that stand in an extent -/
def content (m : Memory α) (a : Extent) : List α := m.load a.offset a.length

theorem content_congr {m' : Memory α} (h : ∀ p, a.offset ≤ p → p < a.stop → m p = m' p) :
    content m a = content m' a :=
  Memory.load_congr h

/-- A store that lies in an extent apart from it -/
theorem content_store (h : Apart a b) (hlo : b.offset ≤ p) (hhi : p + ws.length ≤ b.stop) :
    content (m.store p ws) a = content m a := by
  rcases h with hempty | hempty | h | h
  · rw [content, hempty, content, hempty, Memory.load_zero, Memory.load_zero]
  · unfold stop at hhi
    apply content_congr
    intro q _ _
    exact Memory.store_of_outside (by omega)
  · apply Memory.load_store_of_disjoint
    left
    exact h.trans hlo
  · apply Memory.load_store_of_disjoint
    right
    exact hhi.trans h

end Extent

end Firebird
