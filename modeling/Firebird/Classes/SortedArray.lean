import Firebird.Classes.ArrayRuns
import Firebird.Tree.Locate

/-! # `SortedArray`

An array whose elements are kept in the order of their keys, and what a search finds in it. -/

namespace Firebird.Classes

open Wrap (toInt32 toInt32_of_lt)
open Outcome

/-- `KeyOfValue` and `Cmp`: the comparison is that of a weak order. -/
structure Keys (κ : Type) where
  generate : List UCHAR → κ
  greaterThan : κ → κ → Bool
  asymm : ∀ k k', greaterThan k k' = true → greaterThan k' k = false
  trans : ∀ k k' k'', greaterThan k k' = false → greaterThan k' k'' = false →
    greaterThan k k'' = false

variable {p : Params} {κ : Type}

namespace Array

/-! ## Operations -/

/-- The loop of `find`, from `lowBound` and `highBound` -/
def findLoop (K : Keys κ) (a : Array p) (item : κ) : ℕ → ℤ → ℤ → Except Fault (ℤ × ℤ)
  | 0, lowBound, highBound =>
      if lowBound < highBound then .error .loops else .ok (lowBound, highBound)
  | k + 1, lowBound, highBound =>
      if lowBound < highBound then do
        let temp := toInt32 (highBound + lowBound) / 2
        let x ← a.element temp
        if K.greaterThan item (K.generate x) then findLoop K a item k (temp + 1) highBound
        else findLoop K a item k lowBound temp
      else .ok (lowBound, highBound)

/-- `find`, with `pos` -/
def find (K : Keys κ) (a : Array p) (item : κ) : Except Fault (Bool × ℤ) := do
  let (lowBound, highBound) ← findLoop K a item a.count.toNat 0 a.count
  if highBound ≠ a.count then
    let x ← a.element lowBound
    return (!K.greaterThan (K.generate x) item, lowBound)
  else return (false, lowBound)

/-- `SortedArray::add` -/
def addSorted (K : Keys κ) (A : Allocator) (a : Array p) (item : Elem p) :
    Except Fault (ℤ × Array p) := do
  let (_, pos) ← a.find K (K.generate item.val)
  let a ← a.insert A pos item
  return (pos, a)

/-! ## Searches -/

/-- No key is greater than a later one. -/
def Sorted (K : Keys κ) (c : List (List UCHAR)) : Prop :=
  c.Pairwise fun x y => K.greaterThan (K.generate x) (K.generate y) = false

/-- The position is the first whose key is not less. -/
structure Position (K : Keys κ) (c : List (List UCHAR)) (item : κ) (pos : ℤ) : Prop where
  nonneg : 0 ≤ pos
  le : pos ≤ c.length
  before : ∀ x ∈ c.take pos.toNat, K.greaterThan item (K.generate x) = true
  behind : ∀ x ∈ c.drop pos.toNat, K.greaterThan item (K.generate x) = false

variable {K : Keys κ} {a : Array p} {xs : List (Elem p)} {A : Allocator} {item : κ}

/-- The loop is that over the list. -/
theorem Holds.findLoop_eq (h : a.Holds xs) (K : Keys κ) (item : κ) (hcount : xs.length ≤ 1073741824) {k low high : ℕ}
    (hk : high ≤ low + k) (hle : low ≤ high) (hhigh : high ≤ xs.length) :
    ∃ pos : ℕ, pos = BePlus.findLoop (fun i => (xs[i]?.map fun x =>
        K.greaterThan item (K.generate x.val)).getD false) k low high ∧
      a.findLoop K item k low high = .ok (pos, pos) := by
  induction k generalizing low high with
  | zero =>
      obtain rfl : low = high := by omega
      exact ⟨low, rfl, if_neg (Int.lt_irrefl _)⟩
  | succ k ih =>
      rw [findLoop, BePlus.findLoop]
      by_cases hlt : low < high
      · have htemp : toInt32 ((high : ℤ) + low) / 2 = ((high + low) / 2 : ℕ) := by
          rw [toInt32_of_lt (by omega) (by omega)]
          omega
        have hin : (high + low) / 2 < xs.length := by omega
        rw [if_pos (Int.ofNat_lt.mpr hlt), if_pos hlt, htemp]
        dsimp only
        rw [element_eq h hin rfl, ok_seq, List.getElem?_eq_getElem hin, Option.map_some,
          Option.getD_some]
        split
        · exact ih (by omega) (by omega) hhigh
        · exact ih (by omega) (by omega) (by omega)
      · obtain rfl : low = high := by omega
        rw [if_neg (Int.lt_irrefl _), if_neg hlt]
        exact ⟨low, rfl, rfl⟩

/-- A key that is present is at the position. -/
theorem Position.present {items : List (List UCHAR)} {pos : ℕ} (hs : Sorted K items)
    (hpos : Position K items item pos) :
    (∃ x ∈ items, K.greaterThan item (K.generate x) = false ∧
        K.greaterThan (K.generate x) item = false) ↔
      ∃ x, items[pos]? = some x ∧ K.greaterThan (K.generate x) item = false := by
  constructor
  · rintro ⟨x, hx, hless, hgreater⟩
    -- it is not before the position
    have hmem : x ∈ items.drop pos := by
      rw [← List.take_append_drop pos items] at hx
      rcases List.mem_append.mp hx with hx | hx
      · rw [hpos.before x hx] at hless
        cases hless
      · exact hx
    have hsorted : (items.drop pos).Pairwise _ := hs.sublist (List.drop_sublist pos items)
    rw [← List.head?_drop]
    cases hdrop : items.drop pos with
    | nil => rw [hdrop] at hmem; cases hmem
    | cons y ys =>
        refine ⟨y, rfl, ?_⟩
        rw [hdrop] at hmem hsorted
        rcases List.mem_cons.mp hmem with rfl | hys
        · exact hgreater
        · exact K.trans _ _ _ (List.rel_of_pairwise_cons hsorted hys) hgreater
  · rintro ⟨x, hx, hgreater⟩
    obtain ⟨hlt, rfl⟩ := List.getElem?_eq_some_iff.mp hx
    refine ⟨items[pos], List.getElem_mem hlt, hpos.behind _ ?_, hgreater⟩
    rw [Int.toNat_natCast, List.drop_eq_getElem_cons hlt]
    exact List.mem_cons_self

theorem Holds.find_eq (h : a.Holds xs) (hcount : a.count ≤ 1073741824)
    (hs : Sorted K a.contents) (item : κ) :
    ∃ found pos, a.find K item = .ok (found, pos) ∧ Position K a.contents item pos ∧
      (found = true ↔ ∃ x ∈ a.contents, K.greaterThan item (K.generate x) = false ∧
        K.greaterThan (K.generate x) item = false) := by
  have hcontents := h.contents_eq
  have hlen : a.contents.length = xs.length := by rw [hcontents, List.length_map]
  rw [h.count_eq] at hcount
  obtain ⟨pos, hpos, hloop⟩ := h.findLoop_eq K item (k := xs.length) (by omega)
    (Nat.le_of_eq (Nat.zero_add _).symm) (Nat.zero_le _) (Nat.le_refl _)
  have hmono : ∀ i j, i ≤ j → j < xs.length →
      (xs[j]?.map fun x => K.greaterThan item (K.generate x.val)).getD false = true →
      (xs[i]?.map fun x => K.greaterThan item (K.generate x.val)).getD false = true := by
    intro i j hij hj hgreater
    rw [List.getElem?_eq_getElem hj] at hgreater
    rw [List.getElem?_eq_getElem (by omega)]
    rcases Nat.eq_or_lt_of_le hij with rfl | hlt
    · exact hgreater
    · by_contra hnot
      have hle := List.pairwise_iff_getElem.mp hs i j (by omega) (by omega) hlt
      simp only [hcontents, List.getElem_map] at hle
      have := K.trans _ _ _ (Bool.eq_false_iff.mpr hnot) hle
      rw [Option.map_some, Option.getD_some, this] at hgreater
      cases hgreater
  obtain ⟨hle, hbefore, hbehind⟩ := BePlus.Tree.findLoop_spec
    (Nat.le_of_eq (Nat.zero_add _).symm) (Nat.zero_le _) (Nat.le_refl _) hmono nofun
    fun i hi hic => absurd hic (Nat.not_lt.mpr hi)
  rw [← hpos] at hle hbefore hbehind
  have hposition : Position K a.contents item pos := by
    refine ⟨Int.natCast_nonneg _, by rw [hlen]; exact_mod_cast hle, ?_, ?_⟩
    · intro x hx
      obtain ⟨i, hi, rfl⟩ := List.mem_iff_getElem.mp hx
      rw [List.length_take, Int.toNat_natCast] at hi
      have := hbefore i (by omega)
      rw [List.getElem?_eq_getElem (by omega)] at this
      rw [List.getElem_take]
      simp only [hcontents, List.getElem_map]
      exact this
    · intro x hx
      obtain ⟨i, hi, rfl⟩ := List.mem_iff_getElem.mp hx
      rw [List.length_drop, Int.toNat_natCast] at hi
      have := hbehind (pos + i) (Nat.le_add_right _ _) (by omega)
      rw [List.getElem?_eq_getElem (by omega)] at this
      rw [List.getElem_drop]
      simp only [hcontents, List.getElem_map, Int.toNat_natCast]
      exact this
  have hnat : a.count.toNat = xs.length := by rw [h.count_eq, Int.toNat_natCast]
  rw [Nat.cast_zero, ← h.count_eq] at hloop
  rcases Nat.eq_or_lt_of_le hle with hend | hlt
  · refine ⟨false, pos, ?_, hposition, ?_⟩
    · rw [find, hnat, hloop, ok_seq]
      exact if_neg (not_not.mpr (by rw [h.count_eq, hend]))
    · rw [Position.present hs hposition, List.getElem?_eq_none (by omega)]
      simp
  · refine ⟨!K.greaterThan (K.generate xs[pos].val) item, pos, ?_, hposition, ?_⟩
    · rw [find, hnat, hloop, ok_seq]
      dsimp only
      rw [if_pos (by rw [h.count_eq]; omega), element_eq h hlt rfl, ok_seq]
      rfl
    · rw [Position.present hs hposition, hcontents, List.getElem?_map,
        List.getElem?_eq_getElem hlt]
      simp

/-- A value put at the position of its key -/
theorem Position.sorted {c : List (List UCHAR)} {pos : ℤ} {x : List UCHAR} (hs : Sorted K c)
    (hpos : Position K c (K.generate x) pos) :
    Sorted K (c.take pos.toNat ++ [x] ++ c.drop pos.toNat) := by
  have hparts : Sorted K (c.take pos.toNat ++ c.drop pos.toNat) := by
    rw [List.take_append_drop]
    exact hs
  obtain ⟨htake, hdrop, hcross⟩ := List.pairwise_append.mp hparts
  rw [Sorted, List.append_assoc, List.singleton_append, List.pairwise_append, List.pairwise_cons]
  refine ⟨htake, ⟨hpos.behind, hdrop⟩, ?_⟩
  intro y hy z hz
  rcases List.mem_cons.mp hz with rfl | hz
  · exact K.asymm _ _ (hpos.before y hy)
  · exact hcross y hy z hz

theorem Holds.addSorted_holds (h : a.Holds xs) (hcount : a.count ≤ 1073741824)
    (hs : Sorted K a.contents) (item : Elem p) (hn : a.Fits (a.count + 1)) :
    Outcome.Holds (fun r => Position K a.contents (K.generate item.val) r.1 ∧
        r.2.contents = a.contents.take r.1.toNat ++ [item.val] ++ a.contents.drop r.1.toNat ∧
        Sorted K r.2.contents) (· = Fault.noMemory) (a.addSorted K A item) := by
  obtain ⟨found, pos, hfind, hpos, -⟩ := h.find_eq hcount hs (K.generate item.val)
  obtain ⟨k, rfl⟩ := Int.eq_ofNat_of_zero_le hpos.nonneg
  have hk : k ≤ xs.length := by
    have hle := hpos.le
    rw [h.contents_eq, List.length_map] at hle
    omega
  unfold addSorted
  rw [hfind, ok_seq]
  refine (insert_holds h hk rfl hn).bind fun a' ha' => ?_
  have hcontents : a'.contents =
      a.contents.take k ++ [item.val] ++ a.contents.drop k := by
    rw [ha'.contents_eq, h.contents_eq]
    simp
  refine ⟨hpos, hcontents, ?_⟩
  rw [hcontents]
  exact hpos.sorted hs

end Array

open Transition (Reachable)

/-- Elements of two bytes, no inline storage -/
def shorts : Params where
  size := 2
  storageSize := 0
  bits := 64
  size_pos := Nat.two_pos
  bits_le := by decide
  storage_int := by decide
  storage_fits := by decide

/-- Blocks of zero bytes, of any length -/
def zeros : Allocator where
  allocate n := some (List.replicate n 0)
  length_eq := by
    intro n b h
    cases h
    exact List.length_replicate

/-- Keys of no bytes -/
def noKeys : Keys Unit where
  generate _ := ()
  greaterThan _ _ := false
  asymm _ _ h := nomatch h
  trans _ _ _ _ _ := rfl

end Firebird.Classes
