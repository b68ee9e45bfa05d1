import Mathlib.Data.Int.Notation
import Mathlib.Data.List.Basic
import Mathlib.Data.Nat.Notation

/-! # Blocks of memory

A block is read, written and moved within, and an access that leaves it is refused. The offsets
are those of pointers, which may lie before the block. What an access does is stated for a block
that is the parts it is made of, one after the other.
-/

namespace Block

universe u v

variable {ε : Type u} {α : Type v}

/-- The `n` words from the offset on -/
def read (e : ε) (b : List α) (off : ℤ) (n : ℕ) : Except ε (List α) :=
  if 0 ≤ off ∧ off + n ≤ b.length then .ok ((b.drop off.toNat).take n) else .error e

/-- The block with words put at the offset -/
def write (e : ε) (b : List α) (off : ℤ) (ws : List α) : Except ε (List α) :=
  if 0 ≤ off ∧ off + ws.length ≤ b.length then
    .ok (b.take off.toNat ++ ws ++ b.drop (off.toNat + ws.length))
  else .error e

/-- `memmove` within a block: the words are read before one is written. -/
def move (e : ε) (b : List α) (dst src : ℤ) (n : ℕ) : Except ε (List α) := do
  let ws ← read e b src n
  write e b dst ws

example : move () [1, 2, 3, 4] 1 0 3 = .ok [1, 1, 2, 3] := by decide

variable {e : ε} {b p q r ws : List α} {off dst src : ℤ} {n : ℕ}

theorem read_eq (h : 0 ≤ off ∧ off + n ≤ b.length) :
    read e b off n = .ok ((b.drop off.toNat).take n) := if_pos h

/-- A part is read. -/
theorem read_part (hb : b = p ++ q ++ r) (hoff : off = p.length) (hn : n = q.length) :
    read e b off n = .ok q := by
  subst hb hoff hn
  have hin : (0 : ℤ) ≤ p.length ∧ (p.length : ℤ) + q.length ≤ (p ++ q ++ r).length := by
    simp only [List.length_append]
    omega
  rw [read_eq hin, Int.toNat_natCast, List.append_assoc, List.drop_left, List.take_left]

/-- A part is written over. -/
theorem write_part (hb : b = p ++ q ++ r) (hoff : off = p.length) (hws : ws.length = q.length) :
    write e b off ws = .ok (p ++ ws ++ r) := by
  subst hb hoff
  have hin : (0 : ℤ) ≤ p.length ∧ (p.length : ℤ) + ws.length ≤ (p ++ q ++ r).length := by
    simp only [List.length_append, hws]
    omega
  have hdrop : (p ++ q ++ r).drop (p.length + ws.length) = r := by
    rw [hws, ← List.length_append, List.drop_left]
  have htake : (p ++ q ++ r).take p.length = p := by
    rw [List.append_assoc, List.take_left]
  rw [write, if_pos hin, Int.toNat_natCast, hdrop, htake]

/-- A part moves up: a gap is before it, and what is behind it is cut. -/
theorem move_up (k : ℕ) (hb : b = p ++ q ++ r) (hk : k ≤ r.length) (hsrc : src = p.length)
    (hdst : dst = p.length + k) (hn : n = q.length) :
    ∃ gap, gap.length = k ∧ move e b dst src n = .ok (p ++ gap ++ q ++ r.drop k) := by
  -- the part that is written over ends where the rest that is kept begins
  have hparts : b = b.take (p.length + k) ++ (b.drop (p.length + k)).take q.length ++ r.drop k := by
    have hrest : r.drop k = (b.drop (p.length + k)).drop q.length := by
      rw [List.drop_drop, hb, show p.length + k + q.length = (p ++ q).length + k by
        rw [List.length_append]; omega, List.drop_append]
      simp
    rw [List.append_assoc, hrest, List.take_append_drop, List.take_append_drop]
  have hlen : b.length = p.length + q.length + r.length := by
    rw [hb, List.length_append, List.length_append]
  refine ⟨(b.take (p.length + k)).drop p.length, ?_, ?_⟩
  · rw [List.length_drop, List.length_take]
    omega
  · have hpre : b.take (p.length + k) = p ++ (b.take (p.length + k)).drop p.length := by
      conv_lhs => rw [← List.take_append_drop p.length (b.take (p.length + k))]
      rw [List.take_take, Nat.min_eq_left (Nat.le_add_right _ _), hb, List.append_assoc,
        List.take_left]
    rw [move, read_part hb hsrc hn]
    refine (write_part hparts ?_ ?_).trans ?_
    · rw [hdst, List.length_take, Nat.min_eq_left (by omega), Int.natCast_add]
    · rw [List.length_take, List.length_drop]
      omega
    · rw [hpre]
      simp

/-- A part moves down over what is before it. -/
theorem move_down {gap : List α} (hb : b = p ++ gap ++ q ++ r) (hdst : dst = p.length)
    (hsrc : src = p.length + gap.length) (hn : n = q.length) :
    ∃ rest, rest.length = gap.length + r.length ∧ move e b dst src n = .ok (p ++ q ++ rest) := by
  have hread : read e b src n = .ok q := by
    refine read_part (p := p ++ gap) hb ?_ hn
    rw [hsrc, List.length_append, Int.natCast_add]
  -- the words that are written over are as many as those that move
  have hparts : b = p ++ (gap ++ q ++ r).take q.length ++ (gap ++ q ++ r).drop q.length := by
    rw [List.append_assoc, List.take_append_drop, hb]
    simp
  refine ⟨(gap ++ q ++ r).drop q.length, ?_, ?_⟩
  · simp only [List.length_drop, List.length_append]
    omega
  · rw [move, hread]
    refine write_part hparts hdst ?_
    simp only [List.length_take, List.length_append]
    omega

end Block
