import Firebird.Burp.ArrayBoxes

/-! # Arrays that are put back

The slices that are put have the first elements in order, one box after the other. An element that
is varying has two bytes more than a slice has for it, so that a part of such an array is not put
back.
-/

namespace Firebird.Burp.ArraySlice.Field

open RowMajor

variable {f : Field} {data slice : List UCHAR} {array : Store} {ss ts : List (List ℤ)}

/-! ## Slices -/

variable (f) in
/-- The elements stored from a slice -/
def put : List (List ℤ) → List UCHAR → Store → Store
  | [], _, array => array
  | s :: ss, slice, array =>
      put ss (slice.drop f.fieldLength) (Function.update array s (some (slice.take f.fieldLength)))

theorem put_append : f.put (ss ++ ts) slice array =
    f.put ts (slice.drop (ss.length * f.fieldLength)) (f.put ss slice array) := by
  induction ss generalizing slice array with
  | nil => rw [List.nil_append, List.length_nil, Nat.zero_mul, List.drop_zero, put]
  | cons s ss ih =>
      rw [List.cons_append, put, ih, List.drop_drop, put, List.length_cons, Nat.succ_mul,
        Nat.add_comm f.fieldLength]

theorem put_of_not_mem {s : List ℤ} (hs : s ∉ ss) : f.put ss slice array s = array s := by
  induction ss generalizing slice array with
  | nil => rfl
  | cons t ss ih =>
      rw [put, ih fun hmem => hs (List.mem_cons_of_mem t hmem)]
      refine Function.update_of_ne ?_ _ _
      rintro rfl
      exact hs List.mem_cons_self

/-- Each element is the one at its place in the slice. -/
theorem put_getElem? (hnd : ss.Nodup) {i : ℕ} {s : List ℤ} (hs : ss[i]? = some s) :
    f.put ss slice array s = some ((slice.drop (i * f.fieldLength)).take f.fieldLength) := by
  induction ss generalizing slice array i with
  | nil => cases hs
  | cons t ss ih =>
      obtain ⟨ht, hnd⟩ := List.nodup_cons.mp hnd
      rw [put]
      cases i with
      | zero =>
          obtain rfl : t = s := Option.some.inj hs
          rw [put_of_not_mem ht, Function.update_self, Nat.zero_mul, List.drop_zero]
      | succ i =>
          rw [ih hnd hs, List.drop_drop, Nat.succ_mul, Nat.add_comm f.fieldLength]

theorem any_outside_eq_false {s : List ℤ} {b : Box} (hs : s ∈ points b) :
    (s.zip b).any (fun p => decide (p.1 < p.2.1) || decide (p.2.2 < p.1)) = false := by
  rw [mem_points] at hs
  induction hs with
  | nil => rfl
  | cons hr _ ih =>
      rw [List.zip_cons_cons, List.any_cons, ih, Bool.or_false, decide_eq_false (not_lt.mpr hr.1),
        decide_eq_false (not_lt.mpr hr.2)]
      rfl

theorem walk_eq {left : ℕ} (hin : ∀ s ∈ ss, s ∈ points f.ranges)
    (hleft : ss.length * f.fieldLength ≤ left) :
    f.walk ss left slice array = .ok (f.put ss slice array) := by
  induction ss generalizing left slice array with
  | nil => rfl
  | cons s ss ih =>
      rw [List.length_cons, Nat.succ_mul] at hleft
      rw [walk, any_outside_eq_false (hin s List.mem_cons_self), if_neg, put]
      · exact ih (fun t ht => hin t (List.mem_cons_of_mem s ht)) (by omega)
      · rintro (h | h)
        · exact Bool.false_ne_true h
        · omega

/-- A slice has all the bytes of its elements. -/
theorem le_of_walk {left : ℕ} {array' : Store} (h : f.walk ss left slice array = .ok array') :
    ss.length * f.fieldLength ≤ left := by
  induction ss generalizing left slice array with
  | nil =>
      rw [List.length_nil, Nat.zero_mul]
      exact Nat.zero_le left
  | cons s ss ih =>
      rw [walk] at h
      split at h
      · cases h
      · rename_i hnot
        rw [not_or, not_lt] at hnot
        have hrest := ih h
        rw [List.length_cons, Nat.succ_mul]
        omega

/-! ## Buffers -/

variable (f) in
/-- The length of a whole description, as `get_array` makes it -/
def getLength : ℕ := f.sdlHead.length + 12 * f.fldDimensions + f.stuffElement.length

theorem checkBuffer_of_le {sdl : List UCHAR} (h : sdl.length ≤ 200) : checkBuffer sdl = .ok () :=
  if_pos h

theorem le_of_checkBuffer {α : Type} {sdl : List UCHAR} {g : Unit → Except Stop α} {a : α}
    (h : (checkBuffer sdl >>= g) = .ok a) : sdl.length ≤ 200 ∧ g () = .ok a := by
  unfold checkBuffer at h
  split at h
  · rename_i hle
    exact ⟨hle, h⟩
  · cases h

/-! ## The loop -/

variable {dims pre suf : Dims} {k current dataAt : ℕ} {r : List Box × Store}

/-- In a dimension in front of the last one the last element has the smallest subscript there is,
and the last two dimensions are not put at once. -/
def Lowest : Dims → Prop
  | [] => False
  | p :: suf => suf ≠ [] ∧ (p.2 = -2147483648 ∧ ¬Full (p :: suf) ∨ Lowest suf)

instance : DecidablePred Lowest
  | [] => .isFalse id
  | _ :: suf =>
      have : Decidable (Lowest suf) := instDecidablePredDimsLowest suf
      inferInstanceAs (Decidable (_ ∧ (_ ∨ _)))

theorem putBoxes_done (h : f.fldDimensions ≤ current) :
    f.putBoxes dims data k current dataAt array = .ok ([], array) := by
  cases k with
  | zero => rfl
  | succ k => rw [putBoxes, if_pos h]

/-- A turn that puts a box -/
theorem putBoxes_box {sdl : List UCHAR} {box : Box} {merged : Bool} (hlt : current < f.fldDimensions)
    (hbounds : f.boxBounds current 0 dims = .ok (sdl, some (box, merged)))
    (hsdl : (f.sdlHead ++ sdl ++ f.stuffElement).length ≤ 200) (hvar : f.fldType ≠ blrVarying)
    (hin : ∀ s ∈ points box, s ∈ points f.ranges) :
    f.putBoxes dims data (k + 1) current dataAt array =
      (f.putBoxes dims data k (if merged then current + 2 else current + 1)
        (dataAt + size box * f.fieldLength) (f.put (points box) (data.drop dataAt) array)).map
          fun r => (box :: r.1, r.2) := by
  have hlength : f.fieldLength = f.fldLength := if_neg hvar
  rw [putBoxes, if_neg (not_le.mpr hlt), hbounds]
  dsimp only
  rw [checkBuffer_of_le hsdl, Outcome.ok_seq, putSlice, walk_eq hin, Outcome.ok_seq, hlength]
  · cases f.putBoxes dims data k (if merged then current + 2 else current + 1)
      (dataAt + size box * f.fldLength) (f.put (points box) (data.drop dataAt) array) <;> rfl
  · rw [length_points, hlength]

variable {sdl : List UCHAR} {p next : (ℤ × ℤ) × ℤ}

/-- The description of a box has all its bounds. -/
theorem length_sdl (hsdl : sdl.length = 12 * suf.length)
    (hlen : pre.length + suf.length = f.fldDimensions) :
    (f.sdlHead ++ (stuffRanges 0 (pre.map fixed) ++ sdl) ++ f.stuffElement).length = f.getLength := by
  rw [getLength, List.length_append, List.length_append, List.length_append, length_stuffRanges,
    List.length_map, hsdl]
  omega

/-- A turn in which the dimensions from `suf` on have these bounds -/
theorem boxBounds_eq {b : Option (Box × Bool)} (hlen : pre.length + suf.length = f.fldDimensions)
    (h : f.boxBounds pre.length pre.length suf = .ok (sdl, b)) :
    f.boxBounds pre.length 0 (pre ++ suf) =
      .ok (stuffRanges 0 (pre.map fixed) ++ sdl, b.map fun box => (pre.map fixed ++ box.1, box.2)) := by
  rw [boxBounds_front (Nat.zero_add _).symm hlen, h]
  rfl

theorem exists_bounds_last (hlen : pre.length + [p].length = f.fldDimensions) (hp : p.1.1 ≤ p.2) :
    ∃ sdl, f.boxBounds pre.length 0 (pre ++ [p]) =
        .ok (sdl, some (pre.map fixed ++ [(p.1.1, p.2)], false)) ∧
      (f.sdlHead ++ sdl ++ f.stuffElement).length = f.getLength :=
  ⟨_, boxBounds_eq hlen (boxBounds_last hlen hp), length_sdl rfl hlen⟩

theorem exists_bounds_merged (hlen : pre.length + [p, next].length = f.fldDimensions)
    (hfull : Full [p, next]) :
    ∃ sdl, f.boxBounds pre.length 0 (pre ++ [p, next]) =
        .ok (sdl, some (pre.map fixed ++ [(p.1.1, p.2), (next.1.1, next.2)], true)) ∧
      (f.sdlHead ++ sdl ++ f.stuffElement).length = f.getLength :=
  ⟨_, boxBounds_eq hlen (boxBounds_merged hlen hfull), length_sdl rfl hlen⟩

/-- A turn without a box, as there is no subscript in front of that of the last element -/
theorem exists_bounds_skip (hlen : pre.length + (p :: suf).length = f.fldDimensions) (hne : suf ≠ [])
    (hfull : ¬Full (p :: suf)) (hmin : p.2 ≠ -2147483648) (hskip : p.2 - 1 < p.1.1) :
    ∃ sdl, f.boxBounds pre.length 0 (pre ++ p :: suf) = .ok (sdl, none) ∧
      (f.sdlHead ++ sdl).length ≤ f.getLength := by
  have hturn := boxBounds_turn hlen hne hfull
  rw [if_neg hmin, if_pos hskip] at hturn
  refine ⟨_, boxBounds_eq hlen hturn, ?_⟩
  rw [getLength, List.length_append, List.length_append, length_stuffRanges, List.length_map]
  show f.sdlHead.length + (12 * pre.length + 8) ≤ _
  rw [List.length_cons] at hlen
  omega

theorem exists_bounds_turn (hlen : pre.length + (p :: suf).length = f.fldDimensions) (hne : suf ≠ [])
    (hfull : ¬Full (p :: suf)) (hmin : p.2 ≠ -2147483648) (hskip : ¬p.2 - 1 < p.1.1) :
    ∃ sdl, f.boxBounds pre.length 0 (pre ++ p :: suf) =
        .ok (sdl, some (pre.map fixed ++ (p.1.1, p.2 - 1) :: suf.map Prod.fst, false)) ∧
      (f.sdlHead ++ sdl ++ f.stuffElement).length = f.getLength := by
  have hturn := boxBounds_turn hlen hne hfull
  rw [if_neg hmin, if_neg hskip] at hturn
  refine ⟨_, boxBounds_eq hlen hturn, length_sdl ?_ hlen⟩
  rw [List.length_append, length_stuffRange, length_stuffRanges, List.length_map, List.length_cons]
  omega

theorem exists_eq_of_full (hfull : Full (p :: suf)) : ∃ next, suf = [next] := by
  rcases suf with - | ⟨next, - | ⟨next', suf⟩⟩
  · exact absurd hfull id
  · exact ⟨next, rfl⟩
  · exact absurd hfull id

/-- A turn without a box -/
theorem putBoxes_skip (hlt : current < f.fldDimensions)
    (hbounds : f.boxBounds current 0 dims = .ok (sdl, none)) (hsdl : (f.sdlHead ++ sdl).length ≤ 200) :
    f.putBoxes dims data (k + 1) current dataAt array =
      f.putBoxes dims data k (current + 1) dataAt array := by
  rw [putBoxes, if_neg (not_le.mpr hlt), hbounds]
  dsimp only
  rw [checkBuffer_of_le hsdl, Outcome.ok_seq]

/-- The boxes from a turn on have the subscripts that are left, in order. -/
theorem putBoxes_ok (hsdl : f.getLength ≤ 200) (hvar : f.fldType ≠ blrVarying)
    (hlen : pre.length + suf.length = f.fldDimensions) (hk : suf.length ≤ k)
    (hle : ∀ p ∈ suf, p.1.1 ≤ p.2) (hlow : ¬Lowest suf)
    (hin : ∀ s ∈ remaining pre suf, s ∈ points f.ranges) :
    ∃ boxes : List Box, boxes.flatMap points = remaining pre suf ∧
      f.putBoxes (pre ++ suf) data k pre.length dataAt array =
        .ok (boxes, f.put (remaining pre suf) (data.drop dataAt) array) := by
  induction suf generalizing pre k dataAt array with
  | nil => exact ⟨[], rfl, putBoxes_done hlen.ge⟩
  | cons p suf ih =>
      obtain ⟨k, rfl⟩ : ∃ m, k = m + 1 := ⟨k - 1, by rw [List.length_cons] at hk; omega⟩
      have hp : p.1.1 ≤ p.2 := hle p List.mem_cons_self
      have hlt : pre.length < f.fldDimensions := hlen ▸ Nat.lt_add_of_pos_right (Nat.succ_pos _)
      by_cases hnil : suf = []
      · -- the last dimension
        subst hnil
        rw [remaining_last] at hin ⊢
        obtain ⟨sdl, hbounds, hlength⟩ := exists_bounds_last hlen hp
        refine ⟨[pre.map fixed ++ [(p.1.1, p.2)]], List.flatMap_singleton _ _, ?_⟩
        have hdone : f.fldDimensions ≤ pre.length + 1 := hlen.ge
        rw [putBoxes_box hlt hbounds (hlength.trans_le hsdl) hvar hin, if_neg Bool.false_ne_true,
          putBoxes_done hdone]
        rfl
      by_cases hfull : Full (p :: suf)
      · -- the last two dimensions at once
        obtain ⟨next, rfl⟩ := exists_eq_of_full hfull
        rw [remaining_merged hfull hp] at hin ⊢
        obtain ⟨sdl, hbounds, hlength⟩ := exists_bounds_merged hlen hfull
        refine ⟨[pre.map fixed ++ [(p.1.1, p.2), (next.1.1, next.2)]], List.flatMap_singleton _ _, ?_⟩
        have hdone : f.fldDimensions ≤ pre.length + 2 := hlen.ge
        rw [putBoxes_box hlt hbounds (hlength.trans_le hsdl) hvar hin, if_pos rfl,
          putBoxes_done hdone]
        rfl
      have hmin : p.2 ≠ -2147483648 := fun h => hlow ⟨hnil, .inl ⟨h, hfull⟩⟩
      have hnext : pre ++ p :: suf = (pre ++ [p]) ++ suf := List.append_cons pre p suf
      have hpre : pre.length + 1 = (pre ++ [p]).length := by
        rw [List.length_append]
        rfl
      rw [remaining_cons hnil] at hin ⊢
      -- the other turns, from where this one leaves the data and the array
      have hrest := fun m a => @ih a (pre ++ [p]) k m
        (by rw [← hpre, ← hlen, List.length_cons, Nat.add_assoc, Nat.add_comm 1])
        (Nat.le_of_succ_le_succ hk) (fun q hq => hle q (List.mem_cons_of_mem p hq))
        (fun h => hlow ⟨hnil, .inr h⟩) (fun s hs => hin s (List.mem_append_right _ hs))
      by_cases hskip : p.2 - 1 < p.1.1
      · obtain ⟨sdl, hbounds, hlength⟩ := exists_bounds_skip hlen hnil hfull hmin hskip
        obtain ⟨boxes, hboxes, hrun⟩ := hrest dataAt array
        have hempty : points (pre.map fixed ++ (p.1.1, p.2 - 1) :: suf.map Prod.fst) = [] := by
          rw [points_fixed, points_of_lt hskip]
          rfl
        refine ⟨boxes, ?_, ?_⟩
        · rw [hempty]
          exact hboxes
        · rw [putBoxes_skip hlt hbounds (hlength.trans hsdl), hempty, hpre, hnext]
          exact hrun
      · obtain ⟨sdl, hbounds, hlength⟩ := exists_bounds_turn hlen hnil hfull hmin hskip
        obtain ⟨boxes, hboxes, hrun⟩ := hrest
          (dataAt + size (pre.map fixed ++ (p.1.1, p.2 - 1) :: suf.map Prod.fst) * f.fieldLength)
          (f.put (points (pre.map fixed ++ (p.1.1, p.2 - 1) :: suf.map Prod.fst)) (data.drop dataAt)
            array)
        refine ⟨(pre.map fixed ++ (p.1.1, p.2 - 1) :: suf.map Prod.fst) :: boxes, ?_, ?_⟩
        · rw [List.flatMap_cons, hboxes]
        · rw [putBoxes_box hlt hbounds (hlength.trans_le hsdl) hvar
            fun s hs => hin s (List.mem_append_left _ hs), if_neg Bool.false_ne_true, hpre, hnext, hrun,
            put_append, length_points, List.drop_drop]
          rfl

/-- A box that has been put: its elements have no more bytes than the slice has for them. -/
theorem of_putBoxes_box {box : Box} {merged : Bool} (hlt : current < f.fldDimensions)
    (hbounds : f.boxBounds current 0 dims = .ok (sdl, some (box, merged)))
    (hpos : ∀ r ∈ box, r.1 ≤ r.2)
    (h : f.putBoxes dims data (k + 1) current dataAt array = .ok r) :
    (f.sdlHead ++ sdl ++ f.stuffElement).length ≤ 200 ∧ f.fldType ≠ blrVarying ∧
      ∃ dataAt array r, f.putBoxes dims data k (if merged then current + 2 else current + 1) dataAt
        array = .ok r := by
  rw [putBoxes, if_neg (not_le.mpr hlt), hbounds] at h
  obtain ⟨hsdl, h⟩ := le_of_checkBuffer h
  obtain ⟨array', hwalk, h⟩ := Outcome.of_bind_eq_ok h
  obtain ⟨r', hrest, -⟩ := Outcome.of_bind_eq_ok h
  refine ⟨hsdl, ?_, _, _, _, hrest⟩
  intro hvar
  have hle := le_of_walk hwalk
  have hlength : f.fieldLength = f.fldLength + 2 := if_pos hvar
  rw [length_points, hlength, Nat.mul_add] at hle
  have hsize := size_pos_of_le hpos
  omega

theorem of_putBoxes_skip (hlt : current < f.fldDimensions)
    (hbounds : f.boxBounds current 0 dims = .ok (sdl, none))
    (h : f.putBoxes dims data (k + 1) current dataAt array = .ok r) :
    f.putBoxes dims data k (current + 1) dataAt array = .ok r := by
  rw [putBoxes, if_neg (not_le.mpr hlt), hbounds] at h
  exact (le_of_checkBuffer h).2

theorem fixed_le (pre : Dims) {b : Box} (h : ∀ r ∈ b, r.1 ≤ r.2) :
    ∀ r ∈ pre.map fixed ++ b, r.1 ≤ r.2 := by
  intro r hr
  rcases List.mem_append.mp hr with hr | hr
  · obtain ⟨p, -, rfl⟩ := List.mem_map.mp hr
    exact le_rfl
  · exact h r hr

/-- What has been put back of a part of an array -/
theorem of_putBoxes_ok (hne : suf ≠ []) (hlen : pre.length + suf.length = f.fldDimensions)
    (hk : suf.length ≤ k) (hle : ∀ p ∈ suf, p.1.1 ≤ p.1.2 ∧ p.1.1 ≤ p.2)
    (h : f.putBoxes (pre ++ suf) data k pre.length dataAt array = .ok r) :
    f.getLength ≤ 200 ∧ f.fldType ≠ blrVarying ∧ ¬Lowest suf := by
  induction suf generalizing pre k dataAt array r with
  | nil => exact absurd rfl hne
  | cons p suf ih =>
      obtain ⟨k, rfl⟩ : ∃ m, k = m + 1 := ⟨k - 1, by rw [List.length_cons] at hk; omega⟩
      have hp : p.1.1 ≤ p.2 := (hle p List.mem_cons_self).2
      have hlt : pre.length < f.fldDimensions := hlen ▸ Nat.lt_add_of_pos_right (Nat.succ_pos _)
      by_cases hnil : suf = []
      · subst hnil
        obtain ⟨sdl, hbounds, hlength⟩ := exists_bounds_last hlen hp
        obtain ⟨hsdl, hvar, -⟩ := of_putBoxes_box hlt hbounds (fixed_le pre (by simpa using hp)) h
        exact ⟨hlength.ge.trans hsdl, hvar, fun hlow => hlow.1 rfl⟩
      by_cases hfull : Full (p :: suf)
      · obtain ⟨next, rfl⟩ := exists_eq_of_full hfull
        have hnext := (hle next (List.mem_cons_of_mem p List.mem_cons_self)).2
        obtain ⟨sdl, hbounds, hlength⟩ := exists_bounds_merged hlen hfull
        obtain ⟨hsdl, hvar, -⟩ := of_putBoxes_box hlt hbounds
          (fixed_le pre (by simpa using ⟨hp, hnext⟩)) h
        refine ⟨hlength.ge.trans hsdl, hvar, ?_⟩
        rintro ⟨-, ⟨-, hnot⟩ | hlow⟩
        · exact hnot hfull
        · exact hlow.1 rfl
      have hmin : p.2 ≠ -2147483648 := by
        intro hmin
        have hturn := boxBounds_turn hlen hnil hfull
        rw [if_pos hmin] at hturn
        rw [putBoxes, if_neg (not_le.mpr hlt), boxBounds_front (Nat.zero_add _).symm hlen, hturn] at h
        cases h
      have hnext : pre ++ p :: suf = (pre ++ [p]) ++ suf := List.append_cons pre p suf
      have hpre : pre.length + 1 = (pre ++ [p]).length := by
        rw [List.length_append]
        rfl
      have hrest := fun m a r => @ih a (pre ++ [p]) k m r hnil
        (by rw [← hpre, ← hlen, List.length_cons, Nat.add_assoc, Nat.add_comm 1])
        (Nat.le_of_succ_le_succ hk) fun q hq => hle q (List.mem_cons_of_mem p hq)
      rw [← hnext, ← hpre] at hrest
      have hlow : ¬Lowest suf → ¬Lowest (p :: suf) := by
        rintro hnot ⟨-, ⟨heq, -⟩ | hlow⟩
        · exact hmin heq
        · exact hnot hlow
      by_cases hskip : p.2 - 1 < p.1.1
      · obtain ⟨sdl, hbounds, -⟩ := exists_bounds_skip hlen hnil hfull hmin hskip
        obtain ⟨hsdl, hvar, hnot⟩ := hrest _ _ _ (of_putBoxes_skip hlt hbounds h)
        exact ⟨hsdl, hvar, hlow hnot⟩
      · obtain ⟨sdl, hbounds, -⟩ := exists_bounds_turn hlen hnil hfull hmin hskip
        have hbox : ∀ r ∈ (p.1.1, p.2 - 1) :: suf.map Prod.fst, r.1 ≤ r.2 := by
          intro r hr
          rcases List.mem_cons.mp hr with rfl | hr
          · exact not_lt.mp hskip
          · obtain ⟨q, hq, rfl⟩ := List.mem_map.mp hr
            exact (hle q (List.mem_cons_of_mem p hq)).1
        obtain ⟨-, -, m, a, r', hrun⟩ := of_putBoxes_box hlt hbounds (fixed_le pre hbox) h
        obtain ⟨hsdl, hvar, hnot⟩ := hrest m a r' hrun
        exact ⟨hsdl, hvar, hlow hnot⟩

/-! ## Arrays -/

variable {n : ℕ} {boxes : List Box}

theorem length_stuffElement : f.stuffElement.length = 6 + 2 * f.fldDimensions := by
  rw [stuffElement, List.length_append, List.length_append, List.length_flatMap]
  show 5 + ((List.range f.fldDimensions).map fun _ => 2).sum + 1 = _
  rw [List.map_const', List.sum_replicate, List.length_range, smul_eq_mul]
  omega

variable (f) in
/-- The descriptions are not longer than their buffers. -/
def Fits : Prop :=
  16 + (if f.hasScale then 1 else 0) + (if f.fldType = blrText ∨ f.fldType = blrVarying then 2 else 0) +
      14 * f.fldDimensions ≤ 200 ∧
    13 + (if f.fldType = blrText ∨ f.fldType = blrVarying then 5 else if f.hasScale then 2 else 1) +
      f.relName.length + f.fldName.length + 14 * f.fldDimensions ≤ 200

instance : Decidable f.Fits := inferInstanceAs (Decidable (_ ∧ _))

theorem fits_iff : f.Fits ↔ f.putSdl.length ≤ 200 ∧ f.getLength ≤ 200 := by
  have hput : f.putSdl.length = 16 + (if f.hasScale then 1 else 0) +
      (if f.fldType = blrText ∨ f.fldType = blrVarying then 2 else 0) + 14 * f.fldDimensions := by
    simp only [putSdl, List.length_append, List.length_cons, length_stuffRanges, length_stuffElement,
      apply_ite List.length, List.length_nil, stuffWord, fldDimensions, zero_add, Nat.reduceAdd]
    omega
  have hget : f.getLength = 13 +
      (if f.fldType = blrText ∨ f.fldType = blrVarying then 5 else if f.hasScale then 2 else 1) +
      f.relName.length + f.fldName.length + 14 * f.fldDimensions := by
    simp only [getLength, sdlHead, List.length_append, List.length_cons, length_stuffElement,
      apply_ite List.length, List.length_nil, stuffWord, stuffString, zero_add, Nat.reduceAdd]
    omega
  rw [Fits, hput, hget]

theorem ranges_le (f : Field) : ∀ r ∈ f.ranges, r.1 ≤ r.2 := fun r hr => (f.le_of_mem r hr).2.1

theorem fieldLength_pos (f : Field) : 0 < f.fieldLength := by
  have hpos := f.length_pos
  unfold fieldLength
  split <;> omega

/-- What `put_array` and `get_array` make of a whole array -/
theorem restore_full (hdata : data.length = size f.ranges * f.fieldLength) :
    f.restore data = (checkBuffer f.putSdl >>= fun _ =>
      checkBuffer (f.sdlHead ++ stuffRanges 0 f.ranges ++ f.stuffElement) >>= fun _ =>
        .ok ([f.ranges], f.put (points f.ranges) data fun _ => none)) := by
  have hlength : (data.length : ℤ) = f.fieldLength * divisor f.ranges := by
    rw [divisor_eq f.ranges_le, hdata, Nat.cast_mul, mul_comm]
  rw [restore, putArray]
  cases checkBuffer f.putSdl with
  | error e => rfl
  | ok u =>
      show f.getArray ⟨if _ then _ else _, data.length, data⟩ = _
      rw [if_pos hlength, getArray, if_neg (not_not_intro hlength), putSlice,
        walk_eq (fun s hs => hs) (by rw [length_points, hdata])]
      rfl

/-- What they make of a part of an array -/
theorem restore_part {k : ℕ} (hk : k + 1 < size f.ranges) (hdata : data.length = (k + 1) * f.fieldLength) :
    f.restore data = (checkBuffer f.putSdl >>= fun _ =>
      f.putBoxes (f.ranges.zip (point f.ranges k)) data f.fldDimensions 0 0 fun _ => none) := by
  have hpos := f.fieldLength_pos
  have hdiv : data.length / f.fieldLength = k + 1 := by rw [hdata, Nat.mul_div_cancel _ hpos]
  have hne : ∀ m : ℤ, m ≠ (k + 1 : ℕ) → (data.length : ℤ) ≠ f.fieldLength * m := by
    intro m hm heq
    rw [hdata, Nat.cast_mul, mul_comm] at heq
    exact hm (mul_left_cancel₀ (by omega) heq).symm
  have hwhole : (data.length : ℤ) ≠ f.fieldLength * divisor f.ranges := by
    refine hne _ ?_
    rw [divisor_eq f.ranges_le]
    omega
  -- the ranges in the file have fewer elements than the file has
  have hpart : (data.length : ℤ) ≠
      f.fieldLength * divisor (corner f.ranges (lastSubscripts f.ranges ((k + 1 : ℕ) - 1))) := by
    refine hne _ ?_
    have hlt := divisor_written_lt (k := k) f.dims_pos f.ranges_le (by omega)
    omega
  rw [restore, putArray]
  cases checkBuffer f.putSdl with
  | error e => rfl
  | ok u =>
      show f.getArray ⟨if _ then _ else corner f.ranges _, data.length, data⟩ = f.putBoxes _ _ _ _ _ _
      rw [if_neg hwhole, hdiv, getArray, if_pos hpart, hdiv, lastSubscripts_eq f.ranges_le]

variable (f) in
/-- The boxes do not meet and have the first `n` subscripts, and each element is stored with its
bytes. -/
def Restored (n : ℕ) (data : List UCHAR) : Prop :=
  ∃ boxes array, f.restore data = .ok (boxes, array) ∧
    boxes.Pairwise (fun b b' => ∀ s ∈ points b, s ∉ points b') ∧
    (∀ s, (∃ b ∈ boxes, s ∈ points b) ↔ s ∈ (points f.ranges).take n) ∧
    ∀ i < n, array (point f.ranges i) =
      some ((data.drop (i * f.fieldLength)).take f.fieldLength)

/-- Boxes with the subscripts in order -/
theorem restored_of_flatMap (hle : n ≤ size f.ranges)
    (hboxes : boxes.flatMap points = (points f.ranges).take n)
    (hrun : f.restore data = .ok (boxes, f.put ((points f.ranges).take n) data fun _ => none)) :
    f.Restored n data := by
  have hnd : ((points f.ranges).take n).Nodup := (nodup_points _).sublist (List.take_sublist _ _)
  refine ⟨boxes, _, hrun, ?_, ?_, ?_⟩
  · rw [← hboxes] at hnd
    exact (List.nodup_flatMap.mp hnd).2.imp fun h s hs hs' => h hs hs'
  · intro s
    rw [← hboxes, List.mem_flatMap]
  · intro i hi
    refine put_getElem? hnd ?_
    rw [List.getElem?_take_of_lt hi]
    exact getElem?_points (hi.trans_le hle)

theorem zip_point_le (h : ∀ r ∈ f.ranges, r.1 ≤ r.2) (k : ℕ) :
    ∀ p ∈ f.ranges.zip (point f.ranges k), p.1.1 ≤ p.1.2 ∧ p.1.1 ≤ p.2 := by
  intro p hp
  refine ⟨h p.1 (List.of_mem_zip hp).1, ?_⟩
  refine corner_le f.ranges k (p.1.1, p.2) ?_
  rw [corner, ← List.map_uncurry_zip_eq_zipWith]
  exact List.mem_map.mpr ⟨p, hp, rfl⟩

/-- An array that has been backed up is put back exactly when the descriptions fit in their buffers
and, if it is a part of the array, the elements are not varying and there is a subscript in front of
each one of the last element. -/
theorem array_restored (hn : 0 < n) (hle : n ≤ size f.ranges)
    (hdata : data.length = n * f.fieldLength) :
    f.Restored n data ↔ f.Fits ∧ (n = size f.ranges ∨
      f.fldType ≠ blrVarying ∧ ¬Lowest (f.ranges.zip (point f.ranges (n - 1)))) := by
  obtain ⟨k, rfl⟩ : ∃ k, n = k + 1 := ⟨n - 1, by omega⟩
  have hzip : (f.ranges.zip (point f.ranges k)).length = f.fldDimensions := by
    rw [List.length_zip, length_point, min_self]
    rfl
  have hbounds := zip_point_le f.ranges_le k
  rw [fits_iff, Nat.add_sub_cancel]
  rcases Nat.lt_or_eq_of_le hle with hlt | heq
  · have hrestore := restore_part hlt hdata
    constructor
    · rintro ⟨boxes, array, hrun, -⟩
      rw [hrestore] at hrun
      obtain ⟨hput, hrun⟩ := le_of_checkBuffer hrun
      have hne : f.ranges.zip (point f.ranges k) ≠ [] := by
        rw [ne_eq, ← List.length_eq_zero_iff, hzip]
        exact fun h => f.dims_pos (List.eq_nil_of_length_eq_zero h)
      obtain ⟨hget, hvar, hlow⟩ := @of_putBoxes_ok f data _ [] _ f.fldDimensions 0 _ hne
        ((Nat.zero_add _).trans hzip) hzip.le hbounds hrun
      exact ⟨⟨hput, hget⟩, .inr ⟨hvar, hlow⟩⟩
    · rintro ⟨⟨hput, hget⟩, hwhole | ⟨hvar, hlow⟩⟩
      · exact absurd hwhole (Nat.ne_of_lt hlt)
      have hremaining : remaining [] (f.ranges.zip (point f.ranges k)) =
          (points f.ranges).take (k + 1) := by
        rw [remaining, List.map_fst_zip (length_point _ _).ge, List.map_snd_zip (length_point _ _).le,
          chop_points f.dims_pos hle]
        exact List.map_id _
      obtain ⟨boxes, hboxes, hrun⟩ := @putBoxes_ok f data (fun _ => none) [] _ f.fldDimensions 0 hget hvar
        ((Nat.zero_add _).trans hzip) hzip.le (fun p hp => (hbounds p hp).2) hlow
        (fun s hs => List.mem_of_mem_take (hremaining ▸ hs))
      rw [hremaining] at hboxes hrun
      refine restored_of_flatMap hle hboxes ?_
      rw [hrestore, checkBuffer_of_le hput]
      exact hrun
  · have hrestore := restore_full (heq ▸ hdata)
    have hlength : (f.sdlHead ++ stuffRanges 0 f.ranges ++ f.stuffElement).length = f.getLength := by
      rw [List.length_append, List.length_append, length_stuffRanges]
      rfl
    constructor
    · rintro ⟨boxes, array, hrun, -⟩
      rw [hrestore] at hrun
      obtain ⟨hput, hrun⟩ := le_of_checkBuffer hrun
      obtain ⟨hget, -⟩ := le_of_checkBuffer hrun
      exact ⟨⟨hput, hlength.ge.trans hget⟩, .inl heq⟩
    · rintro ⟨⟨hput, hget⟩, -⟩
      have htake : (points f.ranges).take (k + 1) = points f.ranges := by
        rw [heq, ← length_points, List.take_length]
      refine restored_of_flatMap hle ((List.flatMap_singleton _ _).trans htake.symm) ?_
      rw [hrestore, checkBuffer_of_le hput, htake, Outcome.ok_seq,
        checkBuffer_of_le (hlength.trans_le hget)]
      rfl

/-- Two rows of two elements of two bytes -/
def smallField : Field where
  fldType := blrShort
  fldLength := 2
  fldScale := 0
  fldCharacterSetId := 0
  fldName := [65]
  fldId := 0
  relName := [84]
  relId := 128
  ranges := [(1, 2), (1, 2)]
  dims_pos := by decide
  dims_le := by decide
  le_of_mem := by decide
  length_pos := Nat.two_pos
  length_lt := by decide
  total_lt := by decide

/-- Three of the elements are put back, in two boxes. -/
theorem array_restored_small : smallField.Restored 3 [1, 0, 2, 0, 3, 0] :=
  (array_restored (by decide) (by decide) (by decide)).mpr
    ⟨by decide, .inr ⟨by decide, by decide⟩⟩

/-- The elements are strings of at most one byte. -/
def varyingField : Field := { smallField with
  fldType := blrVarying
  fldLength := 1
  length_pos := Nat.one_pos
  length_lt := by decide
  total_lt := by decide }

/-- The slice has three bytes for three elements of three bytes each. -/
theorem array_restored_varying :
    ¬varyingField.Restored 3 [1, 0, 65, 1, 0, 66, 1, 0, 67] := by
  rintro ⟨boxes, array, hrun, -⟩
  have hfailed : varyingField.restore [1, 0, 65, 1, 0, 66, 1, 0, 67] = .error .failed := rfl
  rw [hfailed] at hrun
  cases hrun

end Firebird.Burp.ArraySlice.Field
