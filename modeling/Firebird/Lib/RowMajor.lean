import Mathlib.Algebra.BigOperators.Group.List.Basic
import Mathlib.Algebra.Group.Action.Defs
import Mathlib.Data.List.Nodup
import Mathlib.Data.Nat.Notation
import Mathlib.Tactic.Ring

/-! # Boxes of subscripts

The subscripts of a box in order, the last one the fastest, so that the subscript at a position has
its digits to the sizes of the dimensions. The subscripts in front of a position are not a box, and
are cut into a box for each dimension.
-/

namespace RowMajor

/-- The values from `lo` to `hi` -/
def interval (lo hi : ℤ) : List ℤ := (List.range (hi + 1 - lo).toNat).map fun i : ℕ => lo + i

variable {lo hi m d x : ℤ}

theorem mem_interval : x ∈ interval lo hi ↔ lo ≤ x ∧ x ≤ hi := by
  rw [interval, List.mem_map]
  constructor
  · rintro ⟨i, hi', rfl⟩
    rw [List.mem_range] at hi'
    omega
  · rintro ⟨hlo, hhi⟩
    refine ⟨(x - lo).toNat, List.mem_range.mpr ?_, ?_⟩ <;> omega

theorem length_interval (lo hi : ℤ) : (interval lo hi).length = (hi + 1 - lo).toNat := by
  rw [interval, List.length_map, List.length_range]

theorem nodup_interval (lo hi : ℤ) : (interval lo hi).Nodup := by
  refine List.Nodup.map (fun i j h => ?_) List.nodup_range
  exact Int.ofNat_inj.mp (add_left_cancel h)

theorem interval_self (d : ℤ) : interval d d = [d] := by
  rw [interval, add_sub_cancel_left]
  show [d + 0] = [d]
  rw [add_zero]

theorem interval_of_lt (h : hi < lo) : interval lo hi = [] := by
  have hzero : (hi + 1 - lo).toNat = 0 := by omega
  rw [interval, hzero]
  rfl

/-- Cutting an interval in front of `m` -/
theorem interval_split (hlo : lo ≤ m) (hhi : m ≤ hi + 1) :
    interval lo hi = interval lo (m - 1) ++ interval m hi := by
  have hparts : (hi + 1 - lo).toNat = (m - 1 + 1 - lo).toNat + (hi + 1 - m).toNat := by omega
  rw [interval, interval, interval, hparts, List.range_add, List.map_append, List.map_map]
  congr 1
  refine List.map_congr_left fun i _ => ?_
  show lo + (((m - 1 + 1 - lo).toNat + i : ℕ) : ℤ) = m + i
  omega

/-! ## Boxes -/

/-- The lower and the upper bound of each dimension -/
abbrev Box := List (ℤ × ℤ)

variable {r : ℤ × ℤ} {b rest : Box} {bs : List Box} {k : ℕ}

/-- The subscripts of a box -/
def points : Box → List (List ℤ)
  | [] => [[]]
  | r :: rest => (interval r.1 r.2).flatMap fun i => (points rest).map (i :: ·)

def size : Box → ℕ
  | [] => 1
  | r :: rest => (r.2 + 1 - r.1).toNat * size rest

/-- The subscript at a position -/
def point : Box → ℕ → List ℤ
  | [], _ => []
  | r :: rest, k => (r.1 + (k / size rest : ℕ)) :: point rest (k % size rest)

theorem points_nil : points [] = [[]] := rfl

theorem points_cons (r : ℤ × ℤ) (rest : Box) :
    points (r :: rest) = (interval r.1 r.2).flatMap fun i => (points rest).map (i :: ·) := rfl

theorem length_points (b : Box) : (points b).length = size b := by
  induction b with
  | nil => rfl
  | cons r rest ih =>
      simp only [points_cons, List.length_flatMap, List.length_map, ih, List.map_const',
        List.sum_replicate, length_interval, size, smul_eq_mul]

theorem mem_points {s : List ℤ} : s ∈ points b ↔ List.Forall₂ (fun x r => r.1 ≤ x ∧ x ≤ r.2) s b := by
  induction b generalizing s with
  | nil =>
      rw [points_nil, List.mem_singleton, List.forall₂_nil_right_iff]
  | cons r rest ih =>
      rw [points_cons, List.mem_flatMap, List.forall₂_cons_right_iff]
      constructor
      · rintro ⟨i, hi', hs⟩
        obtain ⟨t, ht, rfl⟩ := List.mem_map.mp hs
        exact ⟨i, t, mem_interval.mp hi', ih.mp ht, rfl⟩
      · rintro ⟨i, t, hi', ht, rfl⟩
        exact ⟨i, mem_interval.mpr hi', List.mem_map.mpr ⟨t, ih.mpr ht, rfl⟩⟩

theorem nodup_points (b : Box) : (points b).Nodup := by
  induction b with
  | nil => exact List.nodup_singleton _
  | cons r rest ih =>
      refine List.nodup_flatMap.mpr ⟨fun i _ => ih.map (List.cons_injective), ?_⟩
      refine (nodup_interval r.1 r.2).imp fun {i j} hne s hi' hj => ?_
      obtain ⟨t, -, rfl⟩ := List.mem_map.mp hi'
      obtain ⟨t', -, heq⟩ := List.mem_map.mp hj
      exact hne (List.cons.inj heq).1.symm

/-- A dimension with one value -/
theorem points_single (d : ℤ) (b : Box) : points ((d, d) :: b) = (points b).map (d :: ·) := by
  rw [points_cons, interval_self, List.flatMap_singleton]

theorem points_of_lt (h : hi < lo) (b : Box) : points ((lo, hi) :: b) = [] := by
  rw [points_cons, interval_of_lt h]
  rfl

/-- Cutting a box along its first dimension -/
theorem points_split (hlo : lo ≤ m) (hhi : m ≤ hi + 1) (b : Box) :
    points ((lo, hi) :: b) = points ((lo, m - 1) :: b) ++ points ((m, hi) :: b) := by
  rw [points_cons, points_cons, points_cons, interval_split hlo hhi, List.flatMap_append]

theorem flatMap_points_single (d : ℤ) (bs : List Box) :
    (bs.map ((d, d) :: ·)).flatMap points = (bs.flatMap points).map (d :: ·) := by
  induction bs with
  | nil => rfl
  | cons b bs ih => rw [List.map_cons, List.flatMap_cons, List.flatMap_cons, points_single,
      List.map_append, ih]

/-! ## The subscripts in front of a position -/

/-- The box for each dimension: the dimensions in front of it as in the last subscript, this one up
to it, and those behind it full -/
def chop : Box → List ℤ → List Box
  | r :: rest, d :: ds =>
      if rest = [] then [[(r.1, d)]]
      else ((r.1, d - 1) :: rest) :: (chop rest ds).map ((d, d) :: ·)
  | _, _ => []

theorem size_pos (hk : k < size (r :: rest)) : 0 < size rest := by
  rcases Nat.eq_zero_or_pos (size rest) with hzero | hpos
  · rw [size, hzero, Nat.mul_zero] at hk
    exact absurd hk (Nat.not_lt_zero k)
  · exact hpos

theorem div_size_lt (hk : k < size (r :: rest)) : k / size rest < (r.2 + 1 - r.1).toNat := by
  refine Nat.div_lt_of_lt_mul ?_
  rw [Nat.mul_comm]
  exact hk

/-- The box in front of a value of the first dimension, the one of that value, and the one behind -/
theorem points_split_at (hlo : lo ≤ d) (hhi : d ≤ hi) (b : Box) :
    points ((lo, hi) :: b) =
      points ((lo, d - 1) :: b) ++ ((points b).map (d :: ·) ++ points ((d + 1, hi) :: b)) := by
  have hsplit : points ((d, hi) :: b) = (points b).map (d :: ·) ++ points ((d + 1, hi) :: b) := by
    rw [points_split (m := d + 1) (by omega) (by omega), add_sub_cancel_right, points_single]
  rw [points_split hlo (by omega), hsplit]

/-- The subscripts up to a position: those with a smaller first one, and those with the same one -/
theorem take_points (hk : k < size (r :: rest)) :
    (points (r :: rest)).take (k + 1) =
      points ((r.1, r.1 + (k / size rest : ℕ) - 1) :: rest) ++
        ((points rest).take (k % size rest + 1)).map ((r.1 + (k / size rest : ℕ)) :: ·) := by
  obtain ⟨lo, hi⟩ := r
  have hq := div_size_lt hk
  have hmod : k % size rest < size rest := Nat.mod_lt _ (size_pos hk)
  have hparts : k + 1 = k / size rest * size rest + (k % size rest + 1) := by
    rw [← Nat.add_assoc, Nat.div_add_mod']
  generalize k / size rest = q at hq hparts
  generalize k % size rest = j at hmod hparts
  dsimp only at hq ⊢
  have hlen : (points ((lo, lo + q - 1) :: rest)).length = q * size rest := by
    rw [length_points, size]
    congr 1
    show (lo + q - 1 + 1 - lo).toNat = q
    omega
  rw [points_split_at (d := lo + q) (by omega) (by omega), hparts, ← hlen,
    List.take_length_add_append, List.take_append_of_le_length, List.map_take]
  rw [List.length_map, length_points]
  exact hmod

theorem length_point (b : Box) (k : ℕ) : (point b k).length = b.length := by
  induction b generalizing k with
  | nil => rfl
  | cons r rest ih => rw [point, List.length_cons, List.length_cons, ih]

/-- The boxes have the subscripts up to the position, in order. -/
theorem chop_points (hne : b ≠ []) (hk : k < size b) :
    (chop b (point b k)).flatMap points = (points b).take (k + 1) := by
  induction b generalizing k with
  | nil => exact absurd rfl hne
  | cons r rest ih =>
      rw [take_points hk, point, chop]
      split
      · rename_i hrest
        subst hrest
        have hone : size [] = 1 := rfl
        rw [hone, Nat.div_one, Nat.mod_one, List.flatMap_singleton]
        rw [@points_split r.1 _ (r.1 + k) (by omega) (by omega), points_single]
        rfl
      · rename_i hrest
        rw [List.flatMap_cons, flatMap_points_single, ih hrest (Nat.mod_lt _ (size_pos hk))]

/-- The box from the lower bounds to a subscript -/
def corner (b : Box) (s : List ℤ) : Box := List.zipWith (fun r d => (r.1, d)) b s

/-- The box up to a subscript has only subscripts that are not behind it. -/
theorem size_corner_le (hk : k < size b) : size (corner b (point b k)) ≤ k + 1 := by
  induction b generalizing k with
  | nil => exact Nat.le_add_left 1 k
  | cons r rest ih =>
      have hmod : k % size rest < size rest := Nat.mod_lt _ (size_pos hk)
      have hrest := ih hmod
      have hparts := Nat.div_add_mod' k (size rest)
      show (r.1 + ((k / size rest : ℕ) : ℤ) + 1 - r.1).toNat *
        size (corner rest (point rest (k % size rest))) ≤ k + 1
      generalize k / size rest = q at hparts ⊢
      generalize size (corner rest (point rest (k % size rest))) = S at hrest ⊢
      have hq : (r.1 + (q : ℤ) + 1 - r.1).toNat = q + 1 := by omega
      have hmul : q * S ≤ q * size rest := Nat.mul_le_mul_left q (by omega)
      rw [hq, Nat.succ_mul]
      omega

/-- The subscript at a position -/
theorem getElem?_points (hk : k < size b) : (points b)[k]? = some (point b k) := by
  induction b generalizing k with
  | nil =>
      obtain rfl : k = 0 := Nat.lt_one_iff.mp hk
      rfl
  | cons r rest ih =>
      have hmod : k % size rest < size rest := Nat.mod_lt _ (size_pos hk)
      have hlast := congrArg (·[k]?) (take_points hk)
      have hlen : (points ((r.1, r.1 + (k / size rest : ℕ) - 1) :: rest)).length =
          k / size rest * size rest := by
        rw [length_points, size]
        congr 1
        generalize k / size rest = q
        show (r.1 + (q : ℤ) - 1 + 1 - r.1).toNat = q
        omega
      have hsub : k - k / size rest * size rest = k % size rest := by
        rw [Nat.mul_comm]
        exact (Nat.mod_eq_sub_mul_div).symm
      rw [List.getElem?_take_of_lt (Nat.lt_succ_self k), List.getElem?_append_right, hlen, hsub,
        List.getElem?_map, List.getElem?_take_of_lt (Nat.lt_succ_self _), ih hmod] at hlast
      · exact hlast
      · rw [hlen]
        exact Nat.div_mul_le_self k (size rest)

end RowMajor
