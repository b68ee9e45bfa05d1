import Firebird.Lib.Bytes
import Firebird.Lib.Memory
import Firebird.Lib.Wrap

/-! # Long words in a memory of bytes

A signed word of four bytes, the lowest one first. A word that has been put is read back, and it is
not seen in the words that do not meet it.
-/

namespace Firebird.Memory

variable {m m' : Memory UCHAR} {p q : ℕ} {v : ℤ}

/-- The four bytes from `p` on as a signed number -/
def long (m : Memory UCHAR) (p : ℕ) : ℤ :=
  Wrap.toInt32 ((m p).val + 256 * (m (p + 1)).val + 65536 * (m (p + 2)).val +
    16777216 * (m (p + 3)).val)

/-- The low byte of an integer -/
def lowByte (v : ℤ) : UCHAR := Fin.ofNat 256 (v % 256).toNat

def longBytes (v : ℤ) : List UCHAR :=
  [lowByte v, lowByte (v / 256), lowByte (v / 65536), lowByte (v / 16777216)]

def putLong (m : Memory UCHAR) (p : ℕ) (v : ℤ) : Memory UCHAR := m.store p (longBytes v)

theorem lowByte_val (v : ℤ) : ((lowByte v).val : ℤ) = v % 256 := by
  change (((v % 256).toNat % 256 : ℕ) : ℤ) = v % 256
  omega

theorem long_congr (h : ∀ q, p ≤ q → q < p + 4 → m' q = m q) : m'.long p = m.long p := by
  unfold long
  rw [h p le_rfl (by omega), h (p + 1) (by omega) (by omega), h (p + 2) (by omega) (by omega),
    h (p + 3) (by omega) (by omega)]

/-- A word that lies in what is put is of its value. -/
theorem long_putLong (m : Memory UCHAR) (p : ℕ) (v : ℤ) : (m.putLong p v).long p = Wrap.toInt32 v := by
  have h := holds_store m p (longBytes v)
  have h0 := h 0 (show 0 < 4 by decide)
  have h1 := h 1 (show 1 < 4 by decide)
  have h2 := h 2 (show 2 < 4 by decide)
  have h3 := h 3 (show 3 < 4 by decide)
  rw [Nat.add_zero] at h0
  unfold long putLong
  rw [h0, h1, h2, h3]
  simp only [longBytes, List.getElem_cons_zero, List.getElem_cons_succ, lowByte_val,
    Wrap.toInt32_eq]
  omega

theorem putLong_of_outside (h : q < p ∨ p + 4 ≤ q) : m.putLong p v q = m q :=
  store_of_outside h

theorem long_putLong_of_disjoint (h : q + 4 ≤ p ∨ p + 4 ≤ q) :
    (m.putLong p v).long q = m.long q :=
  long_congr fun x hx hx' => putLong_of_outside (by omega)

/-- A word is in the range of a signed one. -/
theorem toInt32_long (m : Memory UCHAR) (p : ℕ) : Wrap.toInt32 (m.long p) = m.long p := by
  unfold long
  simp only [Wrap.toInt32_eq]
  omega

end Firebird.Memory
