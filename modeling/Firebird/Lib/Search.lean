import Mathlib.Data.Nat.Notation
import Mathlib.Order.Bounds.Basic
import Mathlib.Tactic.Ring

/-! # Searches along an interval

The first and the last number of an interval that has a property. A search over an interval is
put together from searches over its parts. Loops that go through chunks of one width, and in each
chunk through its positions, search the numbers the chunks make up.
-/

namespace Firebird

namespace Search

variable {P Q : ℕ → Prop} {a b c k r w : ℕ} {o : Option ℕ}

/-- What a search for the first number in `[a, b)` finds -/
def First (P : ℕ → Prop) (a b : ℕ) : Option ℕ → Prop
  | some r => P r ∧ a ≤ r ∧ r < b ∧ ∀ y, a ≤ y → y < r → ¬ P y
  | none => ∀ y, a ≤ y → y < b → ¬ P y

/-- What a search for the last number in `[a, b)` finds -/
def Last (P : ℕ → Prop) (a b : ℕ) : Option ℕ → Prop
  | some r => P r ∧ a ≤ r ∧ r < b ∧ ∀ y, r < y → y < b → ¬ P y
  | none => ∀ y, a ≤ y → y < b → ¬ P y

theorem first_none_of_le (h : b ≤ a) : First P a b none :=
  fun _ ha hb => absurd (ha.trans_lt hb) (Nat.not_lt_of_le h)

theorem last_none_of_le (h : b ≤ a) : Last P a b none :=
  fun _ ha hb => absurd (ha.trans_lt hb) (Nat.not_lt_of_le h)

theorem First.append (h : First P a b none) (h' : First P b c o) (hab : a ≤ b) :
    First P a c o := by
  cases o with
  | none =>
      intro y ha hc
      rcases Nat.lt_or_ge y b with hlt | hge
      · exact h y ha hlt
      · exact h' y hge hc
  | some r =>
      obtain ⟨hr, hb, hc, hno⟩ := h'
      refine ⟨hr, hab.trans hb, hc, fun y ha hy => ?_⟩
      rcases Nat.lt_or_ge y b with hlt | hge
      · exact h y ha hlt
      · exact hno y hge hy

theorem First.extend (h : First P a b (some r)) (hbc : b ≤ c) : First P a c (some r) :=
  ⟨h.1, h.2.1, h.2.2.1.trans_le hbc, h.2.2.2⟩

/-- There is nothing in the rest of a longer interval. -/
theorem First.widen (h : First P a b o) (hno : ∀ y, b ≤ y → ¬ P y) (hbc : b ≤ c) :
    First P a c o := by
  cases o with
  | none =>
      intro y ha _
      rcases Nat.lt_or_ge y b with hlt | hge
      · exact h y ha hlt
      · exact hno y hge
  | some r => exact h.extend hbc

theorem Last.append (h : Last P b c none) (h' : Last P a b o) (hbc : b ≤ c) : Last P a c o := by
  cases o with
  | none =>
      intro y ha hc
      rcases Nat.lt_or_ge y b with hlt | hge
      · exact h' y ha hlt
      · exact h y hge hc
  | some r =>
      obtain ⟨hr, ha, hb, hno⟩ := h'
      refine ⟨hr, ha, hb.trans_le hbc, fun y hy hc => ?_⟩
      rcases Nat.lt_or_ge y b with hlt | hge
      · exact hno y hy hlt
      · exact h y hge hc

theorem Last.extend (h : Last P b c (some r)) (hab : a ≤ b) : Last P a c (some r) :=
  ⟨h.1, hab.trans h.2.1, h.2.2.1, h.2.2.2⟩

theorem Last.widen (h : Last P a b o) (hno : ∀ y, b ≤ y → ¬ P y) (hbc : b ≤ c) :
    Last P a c o := by
  cases o with
  | none =>
      intro y ha _
      rcases Nat.lt_or_ge y b with hlt | hge
      · exact h y ha hlt
      · exact hno y hge
  | some r =>
      refine ⟨h.1, h.2.1, h.2.2.1.trans_le hbc, fun y hy _ => ?_⟩
      rcases Nat.lt_or_ge y b with hlt | hge
      · exact h.2.2.2 y hy hlt
      · exact hno y hge

theorem First.congr (h : First P a b o) (hPQ : ∀ y < b, P y ↔ Q y) : First Q a b o := by
  cases o with
  | none => exact fun y ha hb hQ => h y ha hb ((hPQ y hb).mpr hQ)
  | some r =>
      obtain ⟨hr, ha, hb, hno⟩ := h
      refine ⟨(hPQ r hb).mp hr, ha, hb, fun y hay hyr hQ => hno y hay hyr ?_⟩
      exact (hPQ y (hyr.trans hb)).mpr hQ

theorem Last.congr (h : Last P a b o) (hPQ : ∀ y < b, P y ↔ Q y) : Last Q a b o := by
  cases o with
  | none => exact fun y ha hb hQ => h y ha hb ((hPQ y hb).mpr hQ)
  | some r =>
      obtain ⟨hr, ha, hb, hno⟩ := h
      exact ⟨(hPQ r hb).mp hr, ha, hb, fun y hry hyb hQ => hno y hry hyb ((hPQ y hyb).mpr hQ)⟩

/-- A search that begins one later is right if there is nothing to be missed. -/
theorem First.iff_not (h : First P (a + 1) b o) (hab : a < b) : First P a b o ↔ ¬ P a := by
  constructor
  · intro hfirst hP
    cases o with
    | none => exact hfirst a le_rfl hab hP
    | some r =>
        have hle := h.2.1
        exact hfirst.2.2.2 a le_rfl hle hP
  · intro hP
    have hnone : First P a (a + 1) none := by
      intro y hy hlt
      obtain rfl : y = a := by omega
      exact hP
    exact hnone.append h (Nat.le_succ a)

theorem Last.iff_not (h : Last P 0 a o) : Last P 0 (a + 1) o ↔ ¬ P a := by
  constructor
  · intro hlast hP
    cases o with
    | none => exact hlast a (Nat.zero_le a) (Nat.lt_succ_self a) hP
    | some r => exact hlast.2.2.2 a h.2.2.1 (Nat.lt_succ_self a) hP
  · intro hP
    have hnone : Last P a (a + 1) none := by
      intro y hy hlt
      obtain rfl : y = a := by omega
      exact hP
    exact hnone.append h (Nat.le_succ a)

/-- A search relative to a base -/
theorem First.shift {base : ℕ} (h : First (fun y => P (base + y)) a b o) :
    First P (base + a) (base + b) (o.map (base + ·)) := by
  cases o with
  | none =>
      intro y ha hb
      obtain ⟨d, rfl⟩ := Nat.exists_eq_add_of_le ((Nat.le_add_right base a).trans ha)
      exact h d (Nat.le_of_add_le_add_left ha) (Nat.lt_of_add_lt_add_left hb)
  | some r =>
      obtain ⟨hr, ha, hb, hno⟩ := h
      refine ⟨hr, Nat.add_le_add_left ha base, Nat.add_lt_add_left hb base, fun y hay hyr => ?_⟩
      obtain ⟨d, rfl⟩ := Nat.exists_eq_add_of_le ((Nat.le_add_right base a).trans hay)
      exact hno d (Nat.le_of_add_le_add_left hay) (Nat.lt_of_add_lt_add_left hyr)

theorem Last.shift {base : ℕ} (h : Last (fun y => P (base + y)) a b o) :
    Last P (base + a) (base + b) (o.map (base + ·)) := by
  cases o with
  | none =>
      intro y ha hb
      obtain ⟨d, rfl⟩ := Nat.exists_eq_add_of_le ((Nat.le_add_right base a).trans ha)
      exact h d (Nat.le_of_add_le_add_left ha) (Nat.lt_of_add_lt_add_left hb)
  | some r =>
      obtain ⟨hr, ha, hb, hno⟩ := h
      refine ⟨hr, Nat.add_le_add_left ha base, Nat.add_lt_add_left hb base, fun y hry hyb => ?_⟩
      have hbase : base ≤ y := (Nat.le_add_right base r).trans hry.le
      obtain ⟨d, rfl⟩ := Nat.exists_eq_add_of_le hbase
      exact hno d (Nat.lt_of_add_lt_add_left hry) (Nat.lt_of_add_lt_add_left hyb)

/-! ## Loops -/

/-- `for (; i < i + k; i++)`, up to a number with the property -/
def up (p : ℕ → Bool) : ℕ → ℕ → Option ℕ
  | 0, _ => none
  | k + 1, i => if p i then some i else up p k (i + 1)

/-- `for (i = k - 1; i >= 0; i--)` -/
def down (p : ℕ → Bool) : ℕ → Option ℕ
  | 0 => none
  | i + 1 => if p i then some i else down p i

/-- Chunks from the one with number `i` on, the first one from the position `j` on, the others
from their first position on -/
def upFrom (f : ℕ → ℕ → Option ℕ) : ℕ → ℕ → ℕ → Option (ℕ × ℕ)
  | 0, _, _ => none
  | k + 1, i, j =>
      match f i j with
      | some r => some (i, r)
      | none => upFrom f k (i + 1) 0

/-- Chunks below the one with number `i` down, the first one from the position `j` down, the others
from their last position down -/
def downFrom (f : ℕ → ℕ → Option ℕ) (last : ℕ) : ℕ → ℕ → Option (ℕ × ℕ)
  | 0, _ => none
  | i + 1, j =>
      match f i j with
      | some r => some (i, r)
      | none => downFrom f last i last

theorem first_up {p : ℕ → Bool} (k i : ℕ) : First (fun y => p y = true) i (i + k) (up p k i) := by
  induction k generalizing i with
  | zero => exact first_none_of_le le_rfl
  | succ k ih =>
      rw [up]
      split
      · rename_i hp
        refine ⟨hp, le_rfl, by omega, fun y hy hlt => absurd hy (by omega)⟩
      · rename_i hp
        have hfirst : First (fun y => p y = true) i (i + 1) none := by
          intro y hi hlt
          obtain rfl : y = i := by omega
          exact hp
        have hrest := ih (i + 1)
        rw [Nat.add_right_comm i 1 k] at hrest
        exact hfirst.append hrest (Nat.le_succ i)

theorem last_down {p : ℕ → Bool} (k : ℕ) : Last (fun y => p y = true) 0 k (down p k) := by
  induction k with
  | zero => exact last_none_of_le le_rfl
  | succ k ih =>
      rw [down]
      split
      · rename_i hp
        exact ⟨hp, Nat.zero_le k, Nat.lt_succ_self k, fun y hy hlt => absurd hy (by omega)⟩
      · rename_i hp
        have hlast : Last (fun y => p y = true) k (k + 1) none := by
          intro y hk hlt
          obtain rfl : y = k := by omega
          exact hp
        exact hlast.append ih (Nat.le_succ k)

/-- A search below a number finds something, or there is nothing to be found. -/
theorem exists_last (P : ℕ → Prop) (b : ℕ) : ∃ o, Last P 0 b o := by
  classical
  exact ⟨_, (@last_down (fun y => decide (P y)) b).congr fun y _ => decide_eq_true_iff⟩

theorem first_upFrom {f : ℕ → ℕ → Option ℕ} {j : ℕ} (i : ℕ)
    (hf : ∀ i < c, ∀ j ≤ w, First (fun y => P (w * i + y)) j w (f i j)) (hj : j ≤ w)
    (hk : i + k ≤ c) :
    First P (w * i + j) (w * (i + k)) ((upFrom f k i j).map fun x => w * x.1 + x.2) := by
  induction k generalizing i j with
  | zero => exact first_none_of_le (Nat.le_add_right _ _)
  | succ k ih =>
      have hchunk := (hf i (by omega) j hj).shift
      have hwidth : w * i + w = w * (i + 1) := by ring
      rw [upFrom]
      cases h : f i j with
      | some r =>
          rw [h, hwidth] at hchunk
          exact hchunk.extend (Nat.mul_le_mul_left w (by omega))
      | none =>
          have hrest := ih (i + 1) (Nat.zero_le w) (by omega)
          rw [h, hwidth] at hchunk
          rw [show i + (k + 1) = i + 1 + k by omega]
          exact hchunk.append hrest (by rw [← hwidth]; exact Nat.add_le_add_left hj _)

theorem last_downFrom {f : ℕ → ℕ → Option ℕ} {last i j : ℕ}
    (hf : ∀ i < c, ∀ j < w, Last (fun y => P (w * i + y)) 0 (j + 1) (f i j)) (hlast : last + 1 = w)
    (hj : j < w) (hi : i < c) :
    Last P 0 (w * i + (j + 1)) ((downFrom f last (i + 1) j).map fun x => w * x.1 + x.2) := by
  induction i generalizing j with
  | zero =>
      have hchunk := (hf 0 hi j hj).shift
      rw [downFrom]
      cases h : f 0 j with
      | some r =>
          rw [h] at hchunk
          exact hchunk.extend (Nat.zero_le _)
      | none =>
          rw [h, Nat.mul_zero, Nat.zero_add (j + 1)] at hchunk
          rw [Nat.mul_zero, Nat.zero_add]
          exact hchunk
  | succ i ih =>
      have hchunk := (hf (i + 1) hi j hj).shift
      rw [downFrom]
      cases h : f (i + 1) j with
      | some r =>
          rw [h] at hchunk
          exact hchunk.extend (Nat.zero_le _)
      | none =>
          have hrest := ih (j := last) (by omega) (by omega)
          rw [h] at hchunk
          rw [hlast, show w * i + w = w * (i + 1) + 0 by ring] at hrest
          exact hchunk.append hrest (Nat.add_le_add_left (Nat.zero_le _) _)

end Search

end Firebird
