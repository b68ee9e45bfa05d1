import Mathlib.Data.Nat.Notation

/-! # A memory of words

Blocks of words are loaded and stored. A store is seen by the loads that lie in it, and not by
those that do not meet it.
-/

namespace Firebird

/-- A memory -/
abbrev Memory (α : Type*) := ℕ → α

namespace Memory

variable {α : Type*} {m : Memory α} {a n p q : ℕ} {ws : List α}

/-- The `n` words from `a` on -/
def load (m : Memory α) (a n : ℕ) : List α := (List.range n).map fun i => m (a + i)

/-- Words put from `a` on -/
def store (m : Memory α) (a : ℕ) (ws : List α) : Memory α := fun p =>
  if a ≤ p then ws.getD (p - a) (m p) else m p

@[simp]
theorem length_load (m : Memory α) (a n : ℕ) : (m.load a n).length = n := by
  rw [load, List.length_map, List.length_range]

@[simp]
theorem load_zero (m : Memory α) (a : ℕ) : m.load a 0 = [] := rfl

theorem load_congr {m' : Memory α} (h : ∀ p, a ≤ p → p < a + n → m p = m' p) :
    m.load a n = m'.load a n := by
  refine List.map_congr_left fun i hi => ?_
  exact h (a + i) (Nat.le_add_right a i) (Nat.add_lt_add_left (List.mem_range.mp hi) a)

theorem load_add (m : Memory α) (a n n' : ℕ) :
    m.load a (n + n') = m.load a n ++ m.load (a + n) n' := by
  simp only [load, List.range_add, List.map_append, List.map_map, Function.comp_def, Nat.add_assoc]

/-- Loads that are equal are of equal words. -/
theorem eq_of_load_eq {m' : Memory α} (h : m.load a n = m'.load a n) (hp : a ≤ p)
    (hp' : p < a + n) : m p = m' p := by
  have hi := List.map_inj_left.mp h (p - a) (List.mem_range.mpr (by omega))
  rwa [Nat.add_sub_of_le hp] at hi

/-- The first word of a block -/
theorem eq_of_load {w : α} (h : m.load a n = w :: ws) : m a = w := by
  cases n with
  | zero => cases h
  | succ n =>
      rw [Nat.add_comm n 1, load_add] at h
      exact (List.cons.inj h).1

theorem store_of_outside (h : p < a ∨ a + ws.length ≤ p) : m.store a ws p = m p := by
  rw [store]
  split
  · rw [List.getD_eq_getElem?_getD, List.getElem?_eq_none (by omega), Option.getD_none]
  · rfl

/-- A load that does not meet the store -/
theorem load_store_of_disjoint (h : a + n ≤ q ∨ q + ws.length ≤ a) :
    (m.store q ws).load a n = m.load a n :=
  load_congr fun p hp hp' => store_of_outside (by omega)

/-- The load of what has been stored -/
theorem load_store (m : Memory α) (a : ℕ) (ws : List α) :
    (m.store a ws).load a ws.length = ws := by
  refine List.ext_getElem (length_load _ _ _) fun i hi hi' => ?_
  simp only [load, List.getElem_map, List.getElem_range, store, Nat.le_add_right, if_true,
    Nat.add_sub_cancel_left, List.getD_eq_getElem?_getD, List.getElem?_eq_getElem hi',
    Option.getD_some]

@[simp]
theorem store_nil (m : Memory α) (a : ℕ) : m.store a [] = m := by
  funext p
  exact store_of_outside (by rw [List.length_nil]; omega)

theorem store_congr {m' : Memory α} (h : m p = m' p) : m.store a ws p = m'.store a ws p := by
  unfold store
  rw [h]

/-- The first words of a store -/
theorem store_take (m : Memory α) (a : ℕ) (h : p < a + n ∨ ws.length ≤ n) :
    m.store a (ws.take n) p = m.store a ws p := by
  rcases h with h | h
  · unfold store
    split
    · rw [List.getD_eq_getElem?_getD, List.getD_eq_getElem?_getD,
        List.getElem?_take_of_lt (by omega)]
    · rfl
  · rw [List.take_of_length_le h]

/-- The other words of a store -/
theorem store_drop (m : Memory α) (a n p : ℕ) :
    m.store (a + n) (ws.drop n) (a + n + p) = m.store a ws (a + n + p) := by
  unfold store
  rw [if_pos (Nat.le_add_right _ _), if_pos (by omega), List.getD_eq_getElem?_getD,
    List.getD_eq_getElem?_getD, List.getElem?_drop]
  congr 2
  omega

/-- A store in a part of a memory is a store in the memory. -/
theorem store_shift (m : Memory α) (k a : ℕ) (ws : List α) (p : ℕ) :
    store (fun q => m (k + q)) a ws p = m.store (k + a) ws (k + p) := by
  unfold store
  simp only [Nat.add_le_add_iff_left, Nat.add_sub_add_left]

/-! ## What stands in a memory -/

/-- The words from `a` on are these. -/
def Holds (m : Memory α) (a : ℕ) (ws : List α) : Prop :=
  ∀ i, ∀ h : i < ws.length, m (a + i) = ws[i]

variable {m' : Memory α} {vs : List α} {w : α} {l : ℕ}

@[simp]
theorem holds_nil (m : Memory α) (a : ℕ) : m.Holds a [] := fun _ h => nomatch h

theorem holds_append :
    m.Holds a (vs ++ ws) ↔ m.Holds a vs ∧ m.Holds (a + vs.length) ws := by
  constructor
  · intro h
    refine ⟨fun i hi => ?_, fun i hi => ?_⟩
    · rw [h i (by rw [List.length_append]; omega), List.getElem_append_left hi]
    · rw [Nat.add_assoc, h (vs.length + i) (by rw [List.length_append]; omega),
        List.getElem_append_right (Nat.le_add_right _ _)]
      simp only [Nat.add_sub_cancel_left]
  · rintro ⟨hvs, hws⟩ i hi
    by_cases hlt : i < vs.length
    · rw [hvs i hlt, List.getElem_append_left hlt]
    · obtain ⟨j, rfl⟩ := Nat.exists_eq_add_of_le (Nat.le_of_not_lt hlt)
      rw [List.length_append] at hi
      rw [← Nat.add_assoc, hws j (by omega), List.getElem_append_right (Nat.le_add_right _ _)]
      simp only [Nat.add_sub_cancel_left]

theorem holds_cons : m.Holds a (w :: ws) ↔ m a = w ∧ m.Holds (a + 1) ws := by
  rw [← List.singleton_append, holds_append]
  refine and_congr_left' ⟨fun h => h 0 Nat.one_pos, fun h i hi => ?_⟩
  obtain rfl : i = 0 := Nat.lt_one_iff.mp hi
  exact h

theorem holds_load (m : Memory α) (a n : ℕ) : m.Holds a (m.load a n) := by
  intro i hi
  simp only [load, List.getElem_map, List.getElem_range]

theorem Holds.load_eq (h : m.Holds a ws) : m.load a ws.length = ws := by
  refine List.ext_getElem (length_load _ _ _) fun i hi hi' => ?_
  rw [← h i hi']
  simp only [load, List.getElem_map, List.getElem_range]

theorem Holds.load_of_length (h : m.Holds a ws) (hn : ws.length = n) : m.load a n = ws := by
  rw [← hn]
  exact h.load_eq

theorem holds_store (m : Memory α) (a : ℕ) (ws : List α) : (m.store a ws).Holds a ws := by
  have h := holds_load (m.store a ws) a ws.length
  rwa [load_store] at h

theorem Holds.congr (h : m.Holds a ws) (heq : ∀ p, a ≤ p → p < a + ws.length → m' p = m p) :
    m'.Holds a ws := by
  intro i hi
  rw [heq (a + i) (Nat.le_add_right a i) (Nat.add_lt_add_left hi a)]
  exact h i hi

theorem Holds.store_of_disjoint (h : m.Holds a ws) (hout : a + ws.length ≤ q ∨ q + vs.length ≤ a) :
    (m.store q vs).Holds a ws :=
  h.congr fun p hp hp' => store_of_outside (by omega)

/-! ## Moves -/

/-- `do *--q = *--p; while (--l);` -/
def moveUp : ℕ → Memory α → ℕ → ℕ → Memory α
  | 0, m, _, _ => m
  | l + 1, m, p, q => moveUp l (m.store (q - 1) [m (p - 1)]) (p - 1) (q - 1)

/-- `do *p++ = *q++; while (--l);` -/
def moveDown : ℕ → Memory α → ℕ → ℕ → Memory α
  | 0, m, _, _ => m
  | l + 1, m, p, q => moveDown l (m.store p [m q]) (p + 1) (q + 1)

/-- One move after the other -/
theorem moveDown_add (l l' : ℕ) (m : Memory α) (p q : ℕ) :
    moveDown (l + l') m p q = moveDown l' (moveDown l m p q) (p + l) (q + l) := by
  induction l generalizing m p q with
  | zero => rw [Nat.zero_add, moveDown, Nat.add_zero, Nat.add_zero]
  | succ l ih =>
      rw [Nat.add_right_comm, moveDown, moveDown, ih, Nat.add_assoc, Nat.add_assoc,
        Nat.add_comm 1 l]

theorem store_singleton_apply (m : Memory α) (a : ℕ) (w : α) (p : ℕ) :
    m.store a [w] p = if p = a then w else m p := by
  split
  · rename_i heq
    subst heq
    exact holds_store m p [w] 0 Nat.one_pos
  · exact store_of_outside (by rw [List.length_singleton]; omega)

/-- Words that are moved up from the highest one down may overlap with where they go. -/
theorem moveUp_apply (hl : l ≤ p) (hpq : p ≤ q) (x : ℕ) :
    moveUp l m p q x = if q - l ≤ x ∧ x < q then m (x - (q - p)) else m x := by
  induction l generalizing m p q with
  | zero => rw [moveUp, if_neg (by omega)]
  | succ l ih =>
      rw [moveUp, ih (by omega) (by omega), store_singleton_apply, store_singleton_apply]
      by_cases hin : q - 1 - l ≤ x ∧ x < q - 1
      · rw [if_pos hin, if_neg (by omega), if_pos (by omega), show q - 1 - (p - 1) = q - p by omega]
      · rw [if_neg hin]
        by_cases hx : x = q - 1
        · rw [if_pos hx, if_pos (by omega), hx, show q - 1 - (q - p) = p - 1 by omega]
        · rw [if_neg hx, if_neg (by omega)]

/-- Words that are moved down from the lowest one up may overlap with where they go. -/
theorem moveDown_apply (hpq : p ≤ q) (x : ℕ) :
    moveDown l m p q x = if p ≤ x ∧ x < p + l then m (x + (q - p)) else m x := by
  induction l generalizing m p q with
  | zero => rw [moveDown, if_neg (by omega)]
  | succ l ih =>
      rw [moveDown, ih (by omega), store_singleton_apply, store_singleton_apply]
      by_cases hin : p + 1 ≤ x ∧ x < p + 1 + l
      · rw [if_pos hin, if_neg (by omega), if_pos (by omega),
          show q + 1 - (p + 1) = q - p by omega]
      · rw [if_neg hin]
        by_cases hx : x = p
        · rw [if_pos hx, if_pos (by omega), hx, Nat.add_sub_of_le hpq]
        · rw [if_neg hx, if_neg (by omega)]

/-- What has been moved up stands where it should. -/
theorem Holds.moveUp (h : m.Holds a ws) (hl : l ≤ p) (hpq : p ≤ q) (ha : p - l ≤ a)
    (hp : a + ws.length ≤ p) : (Memory.moveUp l m p q).Holds (a + (q - p)) ws := by
  intro i hi
  rw [moveUp_apply hl hpq, if_pos (by omega), ← h i hi]
  congr 1
  omega

theorem Holds.moveUp_below (h : m.Holds a ws) (hl : l ≤ p) (hpq : p ≤ q)
    (hout : a + ws.length ≤ q - l) : (Memory.moveUp l m p q).Holds a ws :=
  h.congr fun x _ hx' => by rw [moveUp_apply hl hpq, if_neg (by omega)]

theorem Holds.moveDown (h : m.Holds q ws) (hpq : p ≤ q) :
    (moveDown ws.length m p q).Holds p ws := by
  intro i hi
  rw [moveDown_apply hpq, if_pos (by omega), ← h i hi]
  congr 1
  omega

/-- Words that are moved down to behind other words -/
theorem Holds.append_moveDown (h : m.Holds a vs) (hws : m.Holds q ws) (hp : a + vs.length = p)
    (hpq : p ≤ q) : (Memory.moveDown ws.length m p q).Holds a (vs ++ ws) := by
  subst hp
  refine holds_append.mpr ⟨h.congr fun x _ hx' => ?_, hws.moveDown hpq⟩
  rw [moveDown_apply hpq, if_neg (by omega)]

/-! ## Operations on parts of a memory -/

/-- One after the other there are operations, each on a part of its own. What is needed and what is
done are about that part only. -/
theorem exists_foldlM {κ : Type*} {part : κ → ℕ → Prop} {f : Memory α → κ → Option (Memory α)}
    {P Q : κ → Memory α → Prop} {ks : List κ}
    (hparts : ks.Pairwise fun k k' => ∀ p, part k p → ¬part k' p)
    (hP : ∀ k ∈ ks, ∀ m m', (∀ p, part k p → m' p = m p) → P k m → P k m')
    (hQ : ∀ k ∈ ks, ∀ m m', (∀ p, part k p → m' p = m p) → Q k m → Q k m')
    (hf : ∀ k ∈ ks, ∀ m, P k m → ∃ m', f m k = some m' ∧ Q k m' ∧ ∀ p, ¬part k p → m' p = m p)
    (h : ∀ k ∈ ks, P k m) :
    ∃ m', ks.foldlM f m = some m' ∧ (∀ k ∈ ks, Q k m') ∧
      ∀ p, (∀ k ∈ ks, ¬part k p) → m' p = m p := by
  induction ks generalizing m with
  | nil =>
      refine ⟨m, rfl, fun k hk => ?_, fun _ _ => rfl⟩
      cases hk
  | cons k ks ih =>
      obtain ⟨hk, hks⟩ := List.pairwise_cons.mp hparts
      obtain ⟨m₁, hm₁, hq, hrest⟩ := hf k List.mem_cons_self m (h k List.mem_cons_self)
      -- the parts of the others are as they were
      have hothers : ∀ k' ∈ ks, P k' m₁ := fun k' hk' =>
        hP k' (List.mem_cons_of_mem k hk') m m₁
          (fun p hp => hrest p fun hp' => hk k' hk' p hp' hp) (h k' (List.mem_cons_of_mem k hk'))
      obtain ⟨m₂, hm₂, hqs, hout⟩ := ih hks (fun k' hk' => hP k' (List.mem_cons_of_mem k hk'))
        (fun k' hk' => hQ k' (List.mem_cons_of_mem k hk'))
        (fun k' hk' => hf k' (List.mem_cons_of_mem k hk')) hothers
      refine ⟨m₂, ?_, fun k' hk' => ?_, fun p hp => ?_⟩
      · rw [List.foldlM_cons, hm₁]
        exact hm₂
      · rcases List.mem_cons.mp hk' with rfl | hk'
        · exact hQ k' List.mem_cons_self m₁ m₂
            (fun p hp => hout p fun k'' hk'' => hk k'' hk'' p hp) hq
        · exact hqs k' hk'
      · rw [hout p fun k' hk' => hp k' (List.mem_cons_of_mem k hk'),
          hrest p (hp k List.mem_cons_self)]

end Memory

end Firebird
