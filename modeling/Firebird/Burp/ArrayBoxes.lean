import Firebird.Burp.ArraySlice

/-! # The boxes of an array

The last element that both functions compute, and the boxes that are put for the elements in front
of it.
-/

namespace Firebird.Burp.ArraySlice.Field

open RowMajor

variable {f : Field} {b rest : Box} {r : ℤ × ℤ} {k : ℕ}

/-! ## The last element -/

theorem divisor_eq (h : ∀ r ∈ b, r.1 ≤ r.2) : divisor b = size b := by
  induction b with
  | nil => rfl
  | cons r b ih =>
      have hr : r.1 ≤ r.2 := h r List.mem_cons_self
      have hb := ih fun x hx => h x (List.mem_cons_of_mem r hx)
      unfold divisor at hb
      rw [divisor, List.map_cons, List.prod_cons, hb, size]
      push_cast
      congr 1
      omega

theorem size_pos_of_le (h : ∀ r ∈ b, r.1 ≤ r.2) : 0 < size b := by
  induction b with
  | nil => exact Nat.one_pos
  | cons r b ih =>
      have hr : r.1 ≤ r.2 := h r List.mem_cons_self
      refine Nat.mul_pos ?_ (ih fun x hx => h x (List.mem_cons_of_mem r hx))
      omega

/-- The subscripts of the last one of `k + 1` elements -/
theorem lastSubscripts_eq (h : ∀ r ∈ b, r.1 ≤ r.2) (k : ℕ) :
    lastSubscripts b (k + 1 : ℕ) = point b k := by
  induction b generalizing k with
  | nil => rfl
  | cons r b ih =>
      have hb : ∀ x ∈ b, x.1 ≤ x.2 := fun x hx => h x (List.mem_cons_of_mem r hx)
      have hdiv : (((k + 1 : ℕ) : ℤ) - 1).tdiv (divisor b) = ((k / size b : ℕ) : ℤ) := by
        rw [divisor_eq hb, Nat.cast_succ, add_sub_cancel_right]
        rfl
      have hrest : ((k + 1 : ℕ) : ℤ) - ((k / size b : ℕ) : ℤ) * divisor b = (k % size b + 1 : ℕ) := by
        have hparts := Nat.div_add_mod' k (size b)
        rw [divisor_eq hb]
        push_cast
        have hcast : ((k / size b : ℕ) : ℤ) * size b + (k % size b : ℕ) = k := by exact_mod_cast hparts
        push_cast at hcast
        omega
      rw [lastSubscripts, point, hdiv]
      rw [add_sub_cancel_right, hrest, ih hb, add_comm]

/-- With no element, a dimension is left without one. -/
theorem divisor_lastSubscripts_zero (hne : b ≠ []) (h : ∀ r ∈ b, r.1 ≤ r.2) :
    divisor (corner b (lastSubscripts b 0)) = 0 := by
  induction b with
  | nil => exact absurd rfl hne
  | cons r b ih =>
      have hb : ∀ x ∈ b, x.1 ≤ x.2 := fun x hx => h x (List.mem_cons_of_mem r hx)
      have hpos := size_pos_of_le hb
      rw [lastSubscripts, divisor_eq hb]
      show (((0 - 1 : ℤ).tdiv (size b) + r.1) - r.1 + 1) * divisor (corner b _) = 0
      rcases Nat.lt_or_ge 1 (size b) with hlt | hle
      · -- the division is towards zero
        have hzero : (0 - 1 : ℤ).tdiv (size b) = 0 := by
          show -(((1 / size b : ℕ) : ℤ)) = 0
          rw [Nat.div_eq_of_lt hlt]
          rfl
        rw [hzero, zero_add, sub_self, zero_mul, sub_zero, ih ?_ hb, mul_zero]
        rintro rfl
        exact absurd hlt (Nat.lt_irrefl 1)
      · have hone : size b = 1 := by omega
        rw [hone]
        show (-1 + r.1 - r.1 + 1) * _ = (0 : ℤ)
        rw [add_sub_cancel_right, neg_add_cancel, zero_mul]

theorem corner_le (b : Box) (k : ℕ) : ∀ r ∈ corner b (point b k), r.1 ≤ r.2 := by
  induction b generalizing k with
  | nil => exact nofun
  | cons r b ih =>
      intro x hx
      rcases List.mem_cons.mp hx with rfl | hx
      · show r.1 ≤ r.1 + ((k / size b : ℕ) : ℤ)
        exact le_add_of_nonneg_right (Int.natCast_nonneg _)
      · exact ih _ x hx

/-- The ranges that are written for the first elements have fewer elements. -/
theorem divisor_written_lt (hne : b ≠ []) (h : ∀ r ∈ b, r.1 ≤ r.2) (hk : k < size b) :
    divisor (corner b (lastSubscripts b ((k + 1 : ℕ) - 1))) < (k + 1 : ℕ) := by
  rw [Nat.cast_succ, add_sub_cancel_right]
  cases k with
  | zero =>
      show divisor (corner b (lastSubscripts b 0)) < _
      rw [divisor_lastSubscripts_zero hne h]
      exact Int.zero_lt_one
  | succ k =>
      rw [lastSubscripts_eq h, divisor_eq (corner_le b k)]
      have hle := size_corner_le (b := b) (k := k) (by omega)
      omega

/-! ## Bounds -/

variable {dims pre suf : Dims} {d : ℤ} {current count : ℕ} {p : (ℤ × ℤ) × ℤ}

@[simp] theorem length_stuffRange (count : ℕ) (lower upper : ℤ) :
    (stuffRange count lower upper).length = 12 := rfl

theorem length_stuffRanges (count : ℕ) (b : Box) : (stuffRanges count b).length = 12 * b.length := by
  induction b generalizing count with
  | nil => rfl
  | cons r b ih =>
      rw [stuffRanges, List.length_append, length_stuffRange, ih, List.length_cons]
      omega

/-- The last two dimensions are put at once in the turn of the first of them only. -/
theorem mergeWith_eq_none (hne : current ≠ count) (hlen : count + (p :: dims).length = f.fldDimensions) :
    f.mergeWith current count dims = none := by
  cases dims with
  | nil => rfl
  | cons next dims =>
      rw [mergeWith, if_neg]
      rintro ⟨hcurrent, hcount, -⟩
      rw [List.length_cons, List.length_cons] at hlen
      omega

/-- The dimensions behind the one of the turn are full. -/
theorem boxBounds_behind (hlt : current < count) (hlen : count + dims.length = f.fldDimensions) :
    f.boxBounds current count dims =
      .ok (stuffRanges count (dims.map Prod.fst), some (dims.map Prod.fst, false)) := by
  induction dims generalizing count with
  | nil => rfl
  | cons p dims ih =>
      have hrest : count + 1 + dims.length = f.fldDimensions := by
        rw [List.length_cons] at hlen
        omega
      rw [boxBounds, mergeWith_eq_none (Nat.ne_of_lt hlt) hlen]
      dsimp only
      rw [if_neg (Nat.ne_of_lt hlt), if_pos hlt, ih (Nat.lt_succ_of_lt hlt) hrest]
      rfl

/-- A dimension as in the last element -/
def fixed (p : (ℤ × ℤ) × ℤ) : ℤ × ℤ := (p.2, p.2)

/-- The dimensions in front of the one of the turn are as in the last element. -/
theorem boxBounds_front (hcurrent : current = count + pre.length)
    (hlen : current + suf.length = f.fldDimensions) :
    f.boxBounds current count (pre ++ suf) = (f.boxBounds current current suf).map fun s =>
      (stuffRanges count (pre.map fixed) ++ s.1, s.2.map fun box => (pre.map fixed ++ box.1, box.2)) := by
  induction pre generalizing count with
  | nil =>
      obtain rfl : current = count := hcurrent
      rw [List.nil_append]
      cases f.boxBounds current current suf with
      | error e => rfl
      | ok s =>
          obtain ⟨sdl, box⟩ := s
          cases box <;> rfl
  | cons p pre ih =>
      rw [List.length_cons] at hcurrent
      have hlt : count < current := by omega
      have hmerge : f.mergeWith current count (pre ++ suf) = none := by
        refine mergeWith_eq_none (p := p) (Nat.ne_of_gt hlt) ?_
        rw [List.length_cons, List.length_append]
        omega
      rw [List.cons_append, boxBounds, hmerge]
      dsimp only
      rw [if_neg (Nat.ne_of_gt hlt), if_neg (Nat.lt_asymm hlt), ih (by omega)]
      cases f.boxBounds current current suf with
      | error e => rfl
      | ok s =>
          obtain ⟨sdl, box⟩ := s
          cases box with
          | none => simp only [Except.map, addBound, List.map_cons, stuffRanges, fixed,
              List.append_assoc, Option.map_none]
          | some box => simp only [Except.map, addBound, List.map_cons, stuffRanges, fixed,
              List.append_assoc, List.cons_append, Option.map_some]

/-- Whether the dimensions are two, the last one full -/
def Full : Dims → Prop
  | [_, p] => p.2 = p.1.2
  | _ => False

instance : DecidablePred Full := fun dims =>
  match dims with
  | [_, p] => inferInstanceAs (Decidable (p.2 = p.1.2))
  | [] => .isFalse id
  | [_] => .isFalse id
  | _ :: _ :: _ :: _ => .isFalse id

/-- In a turn that is not the last one -/
theorem boxBounds_turn (hlen : current + (p :: suf).length = f.fldDimensions) (hne : suf ≠ [])
    (hfull : ¬Full (p :: suf)) :
    f.boxBounds current current (p :: suf) =
      if p.2 = -2147483648 then .error .undefined
      else if p.2 - 1 < p.1.1 then .ok ([34, Memory.lowByte current, 11] ++ Memory.longBytes p.1.1 ++ [11], none)
      else .ok (stuffRange current p.1.1 (p.2 - 1) ++ stuffRanges (current + 1) (suf.map Prod.fst),
        some ((p.1.1, p.2 - 1) :: suf.map Prod.fst, false)) := by
  have hpos := List.length_pos_of_ne_nil hne
  rw [List.length_cons] at hlen
  have hmerge : f.mergeWith current current suf = none := by
    cases suf with
    | nil => rfl
    | cons next rest =>
        rw [mergeWith, if_neg]
        rintro ⟨-, hcount, heq⟩
        have hnil : rest = [] := by
          rw [List.length_cons] at hlen
          exact List.eq_nil_of_length_eq_zero (by omega)
        subst hnil
        exact hfull heq
  rw [boxBounds, hmerge]
  dsimp only
  rw [if_pos rfl, if_neg (by omega), boxBounds_behind (Nat.lt_succ_self current) (by omega)]
  rfl

/-- In the last turn -/
theorem boxBounds_last (hlen : current + 1 = f.fldDimensions) (hle : p.1.1 ≤ p.2) :
    f.boxBounds current current [p] =
      .ok (stuffRange current p.1.1 p.2, some ([(p.1.1, p.2)], false)) := by
  rw [boxBounds, mergeWith]
  dsimp only
  rw [if_pos rfl, if_pos (by omega), if_neg (not_lt.mpr hle)]
  rfl

/-- In the turn before the last one, when the last dimension is full -/
theorem boxBounds_merged {next : (ℤ × ℤ) × ℤ} (hlen : current + 2 = f.fldDimensions)
    (hfull : Full [p, next]) :
    f.boxBounds current current [p, next] =
      .ok (stuffRange current p.1.1 p.2 ++ stuffRange (current + 1) next.1.1 next.2,
        some ([(p.1.1, p.2), (next.1.1, next.2)], true)) := by
  rw [boxBounds, mergeWith, if_pos ⟨by omega, by omega, hfull⟩]

/-! ## What is left -/

/-- The subscripts of the boxes from a turn on, when `pre` are the dimensions in front -/
def remaining (pre suf : Dims) : List (List ℤ) :=
  ((chop (suf.map Prod.fst) (suf.map Prod.snd)).flatMap points).map (pre.map Prod.snd ++ ·)

theorem points_fixed (pre : Dims) (b : Box) :
    points (pre.map fixed ++ b) = (points b).map (pre.map Prod.snd ++ ·) := by
  induction pre with
  | nil => simp only [List.map_nil, List.nil_append, List.map_id']
  | cons p pre ih =>
      rw [List.map_cons, List.cons_append]
      show points ((p.2, p.2) :: (pre.map fixed ++ b)) = _
      rw [points_single, ih, List.map_map]
      rfl

theorem remaining_cons (hne : suf ≠ []) :
    remaining pre (p :: suf) =
      points (pre.map fixed ++ (p.1.1, p.2 - 1) :: suf.map Prod.fst) ++ remaining (pre ++ [p]) suf := by
  have hfst : suf.map Prod.fst ≠ [] := fun h => hne (List.map_eq_nil_iff.mp h)
  rw [remaining, List.map_cons, List.map_cons, chop, if_neg hfst, List.flatMap_cons, List.map_append,
    flatMap_points_single, points_fixed, remaining, List.map_map]
  congr 1
  refine List.map_congr_left fun s _ => ?_
  show pre.map Prod.snd ++ p.2 :: s = (pre ++ [p]).map Prod.snd ++ s
  rw [List.map_append, List.append_assoc]
  rfl

theorem remaining_last : remaining pre [p] = points (pre.map fixed ++ [(p.1.1, p.2)]) := by
  rw [remaining, points_fixed, List.map_singleton, List.map_singleton, chop, if_pos rfl,
    List.flatMap_singleton]

/-- Two boxes that are put at once -/
theorem remaining_merged {next : (ℤ × ℤ) × ℤ} (hfull : Full [p, next]) (hle : p.1.1 ≤ p.2) :
    remaining pre [p, next] =
      points (pre.map fixed ++ [(p.1.1, p.2), (next.1.1, next.2)]) := by
  have hnext : (next.1.1, next.2) = next.1 := Prod.ext rfl hfull
  have hsplit := @points_split p.1.1 p.2 p.2 hle (by omega) [next.1]
  rw [points_single] at hsplit
  rw [remaining_cons (List.cons_ne_nil next []), remaining_last, points_fixed, points_fixed,
    points_fixed, hnext, hsplit, @List.map_append _ _ (pre.map Prod.snd ++ ·), List.map_map]
  congr 1
  refine List.map_congr_left fun s _ => ?_
  show (pre ++ [p]).map Prod.snd ++ s = pre.map Prod.snd ++ p.2 :: s
  rw [List.map_append, List.append_assoc]
  rfl

end Firebird.Burp.ArraySlice.Field
