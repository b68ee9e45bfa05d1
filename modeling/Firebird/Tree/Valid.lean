import Mathlib.Data.List.Basic
import Firebird.Tree.Add

/-! # Valid trees

The pages of one depth are a row. In a valid tree every page of a row is in use, and the links go
through the row from its first page to its last one.
-/

namespace Firebird.BePlus

/-- An allocator that knows which pages are in use -/
structure Ledger (σ : Type) extends Allocator σ where
  owns : σ → Addr → Bool
  leafPage_fresh : ∀ {s p s'}, leafPage s = some (p, s') → owns s p = false
  owns_leafPage : ∀ {s p s'}, leafPage s = some (p, s') → owns s' = Function.update (owns s) p true
  nodePage_fresh : ∀ {s p s'}, nodePage s = some (p, s') → owns s p = false
  owns_nodePage : ∀ {s p s'}, nodePage s = some (p, s') → owns s' = Function.update (owns s) p true
  owns_deallocate : ∀ p s, owns (deallocate p s) = Function.update (owns s) p false

instance {σ : Type} : CoeOut (Ledger σ) (Allocator σ) := ⟨Ledger.toAllocator⟩

/-- The links go through a row of pages in both directions. -/
def Linked (next prev : Addr → Option Addr) (row : List Addr) : Prop :=
  ∀ i, ∀ h : i < row.length,
    next row[i] = row[i + 1]? ∧ prev row[i] = if i = 0 then none else row[i - 1]?

namespace Tree

variable {V K σ : Type} {P : Params V K} {A : Ledger σ} {t : Tree V} {s : σ}
  {p q : Addr} {d : ℕ}

/-- The pages of one depth, from the first one to the last -/
def row (t : Tree V) : ℕ → List Addr
  | 0 => [t.root]
  | d + 1 => (t.row d).flatMap fun p => (t.node p).data

/-- The items of a tree -/
def items (t : Tree V) : List V := (t.row t.level).flatMap fun p => (t.leaf p).data

def nextAt (t : Tree V) (d : ℕ) (p : Addr) : Option Addr :=
  if d = t.level then (t.leaf p).next else (t.node p).next

def prevAt (t : Tree V) (d : ℕ) (p : Addr) : Option Addr :=
  if d = t.level then (t.leaf p).prev else (t.node p).prev

def parentAt (t : Tree V) (d : ℕ) (p : Addr) : Option Addr :=
  if d = t.level then (t.leaf p).parent else (t.node p).parent

/-- A tree that is as it should be -/
structure Valid (P : Params V K) (A : Ledger σ) (t : Tree V) (s : σ) : Prop where
  owned : ∀ d ≤ t.level, ∀ p ∈ t.row d, A.owns s p = true
  nodup : ((List.range (t.level + 1)).flatMap t.row).Nodup
  level_eq : ∀ d < t.level, ∀ p ∈ t.row d, (t.node p).level + d + 1 = t.level
  node_count : ∀ d < t.level, ∀ p ∈ t.row d,
    (t.node p).data ≠ [] ∧ (t.node p).data.length ≤ P.nodeCount
  leaf_count : ∀ p ∈ t.row t.level,
    (t.leaf p).data.length ≤ P.leafCount ∧ (0 < t.level → (t.leaf p).data ≠ [])
  parent_root : t.parentAt 0 t.root = none
  parent_eq : ∀ d < t.level, ∀ p ∈ t.row d, ∀ q ∈ (t.node p).data, t.parentAt (d + 1) q = some p
  linked : ∀ d ≤ t.level, Linked (t.nextAt d) (t.prevAt d) (t.row d)
  sorted : t.items.Pairwise fun x y => P.greaterThan (P.keyOf y) (P.keyOf x) = true

/-- A page that a link goes to is in use. -/
theorem Valid.owned_next (h : Valid P A t s) (hd : d ≤ t.level) (hp : p ∈ t.row d)
    (hnext : t.nextAt d p = some q) : A.owns s q = true := by
  obtain ⟨i, hi, rfl⟩ := List.getElem_of_mem hp
  rw [(h.linked d hd i hi).1] at hnext
  exact h.owned d hd q (List.mem_of_getElem? hnext)

theorem mem_row_succ : q ∈ t.row (d + 1) ↔ ∃ p ∈ t.row d, q ∈ (t.node p).data := List.mem_flatMap

/-- Every page but the root has a parent one row above. -/
theorem Valid.exists_parent (h : Valid P A t s) (hd : d < t.level) (hq : q ∈ t.row (d + 1)) :
    ∃ p ∈ t.row d, q ∈ (t.node p).data ∧ t.parentAt (d + 1) q = some p := by
  obtain ⟨p, hp, hmem⟩ := mem_row_succ.mp hq
  exact ⟨p, hp, hmem, h.parent_eq d hd p hp q hmem⟩

/-- Node pages of different rows are different. -/
theorem Valid.ne_of_lt (h : Valid P A t s) {d' : ℕ} (hlt : d < d') (hd' : d' < t.level)
    (hp : p ∈ t.row d) (hq : q ∈ t.row d') : q ≠ p := by
  rintro rfl
  have hlevel := h.level_eq d (Nat.lt_trans hlt hd') q hp
  have hlevel' := h.level_eq d' hd' q hq
  omega

/-- The rows are determined by the node pages above. -/
theorem row_congr {t' : Tree V} (hroot : t'.root = t.root)
    (hdata : ∀ d' < d, ∀ p ∈ t.row d', (t'.node p).data = (t.node p).data) :
    t'.row d = t.row d := by
  induction d with
  | zero => rw [row, row, hroot]
  | succ d ih =>
      have hrow := ih fun d' hd' => hdata d' (Nat.lt_trans hd' (Nat.lt_succ_self d))
      rw [row, row, hrow]
      exact List.flatMap_congr fun p hp => hdata d (Nat.lt_succ_self d) p hp

/-! ## Searches -/

theorem findLoop_le {greater : ℕ → Bool} {k low high : ℕ} (h : low ≤ high) :
    findLoop greater k low high ≤ high := by
  induction k generalizing low high with
  | zero => exact h
  | succ k ih =>
      rw [findLoop]
      split
      · rename_i hlt
        have htemp : low ≤ (high + low) / 2 ∧ (high + low) / 2 < high := by omega
        dsimp only
        split
        · exact ih htemp.2
        · exact Nat.le_trans (ih htemp.1) (Nat.le_of_lt htemp.2)
      · exact h

/-- A position found is one in the page. -/
theorem find_lt {key : K} {count : ℕ} {keyAt : ℕ → K} (hcount : 0 < count) :
    (if (find P key count keyAt).1 then (find P key count keyAt).2
      else (find P key count keyAt).2 - 1) < count := by
  have hle : (find P key count keyAt).2 ≤ count := findLoop_le (Nat.zero_le count)
  split
  · rename_i hfound
    rw [find, Bool.and_eq_true, decide_eq_true_iff] at hfound
    exact Nat.lt_of_le_of_ne hle hfound.1
  · omega

theorem findLoop_all {greater : ℕ → Bool} {k low high : ℕ} (hk : high ≤ low + k) (hle : low ≤ high)
    (h : ∀ i < high, greater i = true) : findLoop greater k low high = high := by
  induction k generalizing low with
  | zero =>
      rw [findLoop]
      omega
  | succ k ih =>
      rw [findLoop]
      split
      · rename_i hlt
        have htemp : low ≤ (high + low) / 2 ∧ (high + low) / 2 < high := by omega
        dsimp only
        rw [if_pos (h _ htemp.2)]
        exact ih (by omega) htemp.2
      · omega

/-- A key that is greater than all entries -/
theorem find_all {key : K} {count : ℕ} {keyAt : ℕ → K}
    (h : ∀ i < count, P.greaterThan key (keyAt i) = true) :
    find P key count keyAt = (false, count) := by
  have hpos : findLoop (fun i => P.greaterThan key (keyAt i)) count 0 count = count :=
    findLoop_all (Nat.le_of_eq (Nat.zero_add count).symm) (Nat.zero_le count) h
  rw [find, hpos]
  simp

theorem getElem!_mem {l : List Addr} {i : ℕ} (h : i < l.length) : l[i]! ∈ l := by
  rw [getElem!_pos l i h]
  exact List.getElem_mem h

/-- The way down leads to a leaf page. -/
theorem Valid.descend_mem [Inhabited V] (h : Valid P A t s) (key : K) {lev : ℕ} (hlev : d + lev = t.level)
    (hp : p ∈ t.row d) : t.descend P key lev p ∈ t.row t.level := by
  induction lev generalizing d p with
  | zero =>
      rw [← hlev]
      exact hp
  | succ lev ih =>
      rw [descend]
      have hd : d < t.level := by omega
      have hdata := List.length_pos_of_ne_nil (h.node_count d hd p hp).1
      have hnext : d + 1 + lev = t.level := by omega
      exact ih hnext (mem_row_succ.mpr ⟨p, hp, getElem!_mem (find_lt hdata)⟩)

end Tree

end Firebird.BePlus
