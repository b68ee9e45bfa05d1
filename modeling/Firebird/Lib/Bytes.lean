import Mathlib.Data.List.Lex
import Mathlib.Data.Nat.Notation
import Mathlib.Order.Fin.Basic
import Mathlib.Tactic.Ring
import Firebird.Lib.Lex

/-! # Byte strings in order

Byte strings are ordered bytewise, a prefix before what it is a prefix of. Strings of one
length are in the order of the numbers they are the big-endian digits of, and they stay in
order when their trailing zeros are dropped.
-/

namespace Firebird

/-- `UCHAR`: a byte. -/
abbrev UCHAR := Fin 256

instance UCHAR.neZero : NeZero 256 := ⟨by decide⟩

namespace Bytes

/-- The low byte of a number -/
theorem mod_lt (n : ℕ) : n % 256 < 256 := Nat.mod_lt n (by decide)

/-! A byte can hold the lengths of the shortest strings. -/

theorem zero_le : 0 ≤ 255 := Nat.zero_le 255
theorem one_le : 1 ≤ 255 := by decide
theorem two_le : 2 ≤ 255 := by decide

/-! ## Exclusive or -/

theorem val_xor (x m : UCHAR) : (x ^^^ m).val = x.val ^^^ m.val :=
  Nat.mod_eq_of_lt (Nat.xor_lt_two_pow (n := 8) x.isLt m.isLt)

theorem xor_xor_cancel (x m : UCHAR) : x ^^^ m ^^^ m = x := by
  apply Fin.ext
  rw [val_xor, val_xor, Nat.xor_assoc, Nat.xor_self, Nat.xor_zero]

theorem xor_right_comm (x m k : UCHAR) : x ^^^ m ^^^ k = x ^^^ k ^^^ m := by
  apply Fin.ext
  simp only [val_xor]
  rw [Nat.xor_assoc, Nat.xor_comm m.val, Nat.xor_assoc]

/-! ## The order -/

variable {x y : UCHAR} {l m : List UCHAR}

/-- The number with these digits, the highest one first -/
def ofDigits : List UCHAR → ℕ
  | [] => 0
  | x :: l => x.val * 256 ^ l.length + ofDigits l

theorem ofDigits_lt (l : List UCHAR) : ofDigits l < 256 ^ l.length := by
  induction l with
  | nil => exact Nat.one_pos
  | cons x l ih =>
      rw [ofDigits, List.length_cons, pow_succ]
      have hx : x.val ≤ 255 := Nat.le_of_lt_succ x.isLt
      have hmul := Nat.mul_le_mul_right (256 ^ l.length) hx
      omega

theorem ofDigits_append (l m : List UCHAR) :
    ofDigits (l ++ m) = ofDigits l * 256 ^ m.length + ofDigits m := by
  induction l with
  | nil => rw [List.nil_append, ofDigits, Nat.zero_mul, Nat.zero_add]
  | cons x l ih =>
      rw [List.cons_append, ofDigits, ofDigits, ih, List.length_append, pow_add]
      ring

/-- Byte strings of one length are ordered as numbers. -/
theorem lt_iff_ofDigits (h : l.length = m.length) : l < m ↔ ofDigits l < ofDigits m := by
  induction l generalizing m with
  | nil =>
      cases m with
      | nil => exact ⟨fun h => absurd h (lt_irrefl _), fun h => absurd h (Nat.lt_irrefl _)⟩
      | cons y m => cases h
  | cons x l ih =>
      cases m with
      | nil => cases h
      | cons y m =>
          have hlen : l.length = m.length := Nat.succ.inj h
          have hl := ofDigits_lt l
          have hm := ofDigits_lt m
          rw [List.cons_lt_cons_iff, ofDigits, ofDigits, ih hlen, hlen]
          rw [hlen] at hl
          rcases lt_trichotomy x y with hxy | rfl | hyx
          · have hmul := Nat.mul_le_mul_right (256 ^ m.length) (Nat.succ_le_of_lt (Fin.lt_def.mp hxy))
            rw [Nat.succ_mul] at hmul
            exact ⟨fun _ => by omega, fun _ => .inl hxy⟩
          · constructor
            · rintro (hlt | ⟨-, hlt⟩)
              · exact absurd hlt (lt_irrefl x)
              · omega
            · intro hlt
              exact .inr ⟨rfl, by omega⟩
          · have hmul := Nat.mul_le_mul_right (256 ^ m.length) (Nat.succ_le_of_lt (Fin.lt_def.mp hyx))
            rw [Nat.succ_mul] at hmul
            constructor
            · rintro (hlt | ⟨heq, -⟩)
              · exact absurd hlt (not_lt_of_gt hyx)
              · exact absurd heq (ne_of_gt hyx)
            · intro hlt
              omega

/-- Comparing byte strings of one length byte by byte compares their numbers. -/
theorem compareLex_eq_ofDigits (h : l.length = m.length) :
    l.compareLex cmp m = cmp (ofDigits l) (ofDigits m) := by
  induction l generalizing m with
  | nil =>
      obtain rfl := List.length_eq_zero_iff.mp h.symm
      rw [List.compareLex_nil_nil, cmp_self_eq_eq]
  | cons x l ih =>
      cases m with
      | nil => cases h
      | cons y m =>
          have hlen : l.length = m.length := Nat.succ.inj h
          have hl := ofDigits_lt l
          have hm := ofDigits_lt m
          rw [hlen] at hl
          rw [List.compareLex_cons_cons, ih hlen, ofDigits, ofDigits, hlen]
          rcases lt_trichotomy x y with hxy | rfl | hyx
          · have hmul := Nat.mul_le_mul_right (256 ^ m.length) (Nat.succ_le_of_lt (Fin.lt_def.mp hxy))
            rw [Nat.succ_mul] at hmul
            have hlt : x.val * 256 ^ m.length + ofDigits l < y.val * 256 ^ m.length + ofDigits m := by
              omega
            rw [(cmp_eq_lt_iff x y).mpr hxy, (cmp_eq_lt_iff _ _).mpr hlt]
            rfl
          · rw [cmp_self_eq_eq]
            exact Lex.cmp_congr (by omega) (by omega)
          · have hmul := Nat.mul_le_mul_right (256 ^ m.length) (Nat.succ_le_of_lt (Fin.lt_def.mp hyx))
            rw [Nat.succ_mul] at hmul
            have hlt : y.val * 256 ^ m.length + ofDigits m < x.val * 256 ^ m.length + ofDigits l := by
              omega
            rw [(cmp_eq_gt_iff x y).mpr hyx, (cmp_eq_gt_iff _ _).mpr hlt]
            rfl

/-! ## Trailing zeros -/

/-- Without the trailing zeros -/
def strip : List UCHAR → List UCHAR
  | [] => []
  | x :: l => if x = 0 ∧ strip l = [] then [] else x :: strip l

theorem strip_cons_of_ne (h : ¬(x = 0 ∧ strip l = [])) : strip (x :: l) = x :: strip l := by
  rw [strip, if_neg h]

theorem strip_snoc_zero (l : List UCHAR) : strip (l ++ [0]) = strip l := by
  induction l with
  | nil => rfl
  | cons x l ih => rw [List.cons_append, strip, strip, ih]

theorem strip_snoc_of_ne (h : x ≠ 0) : strip (l ++ [x]) = l ++ [x] := by
  induction l with
  | nil => exact strip_cons_of_ne fun hx => h hx.1
  | cons y l ih =>
      rw [List.cons_append, strip_cons_of_ne, ih]
      rw [ih]
      exact fun hy => List.append_ne_nil_of_right_ne_nil l (List.cons_ne_nil x []) hy.2

/-- Trailing zeros do not matter between strings of one length. -/
theorem strip_lt_strip_iff (h : l.length = m.length) : strip l < strip m ↔ l < m := by
  induction l generalizing m with
  | nil =>
      cases m with
      | nil => rfl
      | cons y m => cases h
  | cons x l ih =>
      cases m with
      | nil => cases h
      | cons y m =>
          have ih := ih (Nat.succ.inj h)
          rw [List.cons_lt_cons_iff]
          by_cases hx : x = 0 ∧ strip l = []
          · by_cases hy : y = 0 ∧ strip m = []
            · rw [strip, if_pos hx, strip, if_pos hy, ← ih, hx.1, hx.2, hy.1, hy.2]
              exact ⟨fun h => .inr ⟨rfl, h⟩, fun h => h.elim (absurd · (lt_irrefl _)) (·.2)⟩
            · rw [strip, if_pos hx, strip_cons_of_ne hy, ← ih, hx.1, hx.2]
              refine ⟨fun _ => ?_, fun _ => List.nil_lt_cons y _⟩
              by_cases hy₀ : y = 0
              · refine .inr ⟨hy₀.symm, ?_⟩
                obtain ⟨z, t, ht⟩ := List.exists_cons_of_ne_nil fun hm => hy ⟨hy₀, hm⟩
                rw [ht]
                exact List.nil_lt_cons z t
              · exact .inl (Fin.pos_iff_ne_zero.mpr hy₀)
          · by_cases hy : y = 0 ∧ strip m = []
            · rw [strip_cons_of_ne hx, strip, if_pos hy, ← ih, hy.1, hy.2]
              constructor
              · exact fun h => absurd h (List.not_lt_nil _)
              · rintro (hlt | ⟨-, hlt⟩)
                · exact absurd hlt (Fin.not_lt_zero x)
                · exact absurd hlt (List.not_lt_nil _)
            · rw [strip_cons_of_ne hx, strip_cons_of_ne hy, List.cons_lt_cons_iff, ih]

end Bytes

end Firebird
