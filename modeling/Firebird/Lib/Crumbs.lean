import Mathlib.Data.List.Basic
import Mathlib.Tactic.IntervalCases

/-! # Two-bit fields

A vector of two-bit fields, four to a byte, the first one in the low bits. A field is
read with a shift and a mask and written with a mask and a shift; a write leaves the
other fields alone, and a stretch of whole bytes is a stretch of fields.
-/

namespace Crumbs

/-- The shift that brings a field of its byte to the low bits. -/
def shift (i : ℕ) : ℕ := 2 * (i % 4)

/-- The field `i` of its byte. -/
def field (byte : BitVec 8) (i : ℕ) : BitVec 8 := (byte >>> shift i) &&& 3

/-- The byte with field `i` replaced. -/
def put (byte : BitVec 8) (i : ℕ) (x : BitVec 8) : BitVec 8 :=
  (byte &&& ~~~((3 : BitVec 8) <<< shift i)) ||| (x <<< shift i)

/-- The field `i` of a vector, if the vector has it. -/
def get? (v : List (BitVec 8)) (i : ℕ) : Option (BitVec 8) := v[i / 4]?.map (field · i)

/-- The vector with field `i` replaced. -/
def set (v : List (BitVec 8)) (i : ℕ) (x : BitVec 8) : List (BitVec 8) :=
  v.modify (i / 4) (put · i x)

/-! ## Inside a byte -/

theorem getLsbD_three (k : ℕ) : (3 : BitVec 8).getLsbD k = decide (k < 2) := by
  rcases k with _ | _ | k
  · rfl
  · rfl
  · have hno : ¬k + 2 < 2 := by omega
    simp only [hno, decide_false]
    by_cases hk : k + 2 < 8
    · have hk6 : k < 6 := by omega
      interval_cases k <;> rfl
    · exact BitVec.getLsbD_of_ge _ _ (by omega)

theorem getLsbD_field (byte : BitVec 8) (i k : ℕ) :
    (field byte i).getLsbD k = (byte.getLsbD (shift i + k) && decide (k < 2)) := by
  rw [field, BitVec.getLsbD_and, BitVec.getLsbD_ushiftRight, getLsbD_three]

theorem getLsbD_put (byte x : BitVec 8) (i k : ℕ) (hk : k < 8) :
    (put byte i x).getLsbD k =
      (byte.getLsbD k && !(decide (shift i ≤ k) && decide (k - shift i < 2)) ||
        (decide (shift i ≤ k) && x.getLsbD (k - shift i))) := by
  rw [put, BitVec.getLsbD_or, BitVec.getLsbD_and, BitVec.getLsbD_not, BitVec.getLsbD_shiftLeft,
    BitVec.getLsbD_shiftLeft, getLsbD_three]
  by_cases hle : shift i ≤ k
  · have hlt : ¬k < shift i := by omega
    simp [hk, hle, hlt]
  · have hlt : k < shift i := by omega
    simp [hk, hle, hlt]

/-- A field reads what was written, up to its two bits. -/
theorem field_put_self (byte x : BitVec 8) (i : ℕ) : field (put byte i x) i = x &&& 3 := by
  apply BitVec.eq_of_getLsbD_eq
  intro k _
  rw [getLsbD_field, BitVec.getLsbD_and, getLsbD_three]
  by_cases hk2 : k < 2
  · have hlt : shift i + k < 8 := by
      have := Nat.mod_lt i (by decide : 4 > 0)
      rw [shift]
      omega
    rw [getLsbD_put _ _ _ _ hlt]
    simp [hk2]
  · simp [hk2]

/-- Writing a field leaves the other fields of the byte alone. -/
theorem field_put_ne (byte x : BitVec 8) {i j : ℕ} (hx : x &&& 3 = x) (h : i % 4 ≠ j % 4) :
    field (put byte i x) j = field byte j := by
  apply BitVec.eq_of_getLsbD_eq
  intro k _
  rw [getLsbD_field, getLsbD_field]
  by_cases hk2 : k < 2
  · have hi := Nat.mod_lt i (by decide : 4 > 0)
    have hj := Nat.mod_lt j (by decide : 4 > 0)
    have hlt : shift j + k < 8 := by
      rw [shift]
      omega
    rw [getLsbD_put _ _ _ _ hlt]
    -- the two fields share no bit
    have hout : ¬(shift i ≤ shift j + k ∧ shift j + k - shift i < 2) := by
      rw [shift, shift]
      omega
    have hzero : shift i ≤ shift j + k → x.getLsbD (shift j + k - shift i) = false := by
      intro hle
      have hge : ¬shift j + k - shift i < 2 := fun hlt => hout ⟨hle, hlt⟩
      rw [← hx, BitVec.getLsbD_and, getLsbD_three]
      simp [hge]
    by_cases hle : shift i ≤ shift j + k
    · have hge : ¬shift j + k - shift i < 2 := fun hlt => hout ⟨hle, hlt⟩
      simp [hle, hge, hzero hle]
    · simp [hle]
  · simp [hk2]

/-! ## Vectors -/

@[simp] theorem length_set (v : List (BitVec 8)) (i : ℕ) (x : BitVec 8) :
    (set v i x).length = v.length := List.length_modify ..

theorem get?_set (v : List (BitVec 8)) {i : ℕ} (x : BitVec 8) (hx : x &&& 3 = x)
    (hi : i / 4 < v.length) (j : ℕ) : get? (set v i x) j = if i = j then some x else get? v j := by
  rw [get?, set, List.getElem?_modify, get?]
  by_cases hbyte : i / 4 = j / 4
  · rw [← hbyte, List.getElem?_eq_getElem hi]
    by_cases hij : i = j
    · subst hij
      simpa [field_put_self] using hx
    · have hmod : i % 4 ≠ j % 4 := by omega
      simp [hij, field_put_ne _ _ hx hmod]
  · have hij : i ≠ j := by
      rintro rfl
      exact hbyte rfl
    cases hv : v[j / 4]? with
    | none => simp [hij]
    | some byte => simp [hij, hbyte]

theorem get?_isSome (v : List (BitVec 8)) {i : ℕ} : (get? v i).isSome ↔ i / 4 < v.length := by
  simp [get?]

theorem get?_replicate {n i : ℕ} (hi : i / 4 < n) : get? (List.replicate n 0) i = some 0 := by
  rw [get?, List.getElem?_replicate, if_pos hi]
  simp [field]

/-- The fields of whole bytes further on. -/
theorem get?_drop (v : List (BitVec 8)) (k i : ℕ) : get? (v.drop k) i = get? v (4 * k + i) := by
  have hdiv : (4 * k + i) / 4 = k + i / 4 := by omega
  have hmod : shift i = shift (4 * k + i) := by
    rw [shift, shift]
    omega
  rw [get?, get?, List.getElem?_drop, hdiv]
  simp [field, hmod]

theorem get?_take (v : List (BitVec 8)) {k i : ℕ} (h : i / 4 < k) :
    get? (v.take k) i = get? v i := by
  rw [get?, get?, List.getElem?_take_of_lt h]

theorem get?_append_left (v w : List (BitVec 8)) {i : ℕ} (h : i / 4 < v.length) :
    get? (v ++ w) i = get? v i := by
  rw [get?, get?, List.getElem?_append_left h]

theorem get?_append_right (v w : List (BitVec 8)) (i : ℕ) :
    get? (v ++ w) (4 * v.length + i) = get? w i := by
  have hdiv : (4 * v.length + i) / 4 = v.length + i / 4 := by omega
  have hmod : shift (4 * v.length + i) = shift i := by
    rw [shift, shift]
    omega
  rw [get?, get?, hdiv, List.getElem?_append_right (Nat.le_add_right _ _), Nat.add_sub_cancel_left]
  simp [field, hmod]

end Crumbs
