import Mathlib.Algebra.Group.Nat.Defs
import Mathlib.Algebra.GroupWithZero.Nat
import Mathlib.Data.List.Lex
import Mathlib.Data.Nat.Notation
import Mathlib.Logic.Equiv.Basic
import Mathlib.Order.Fin.Basic

/-! # The sort of a memoryful of records (`quick`, `sort` in `jrd/sort.cpp`)

The records lie in slots of the sort memory, and what is sorted is an array of pointers to
their keys. Pointer 0 is to `low_key`, pointers 1 to `n` are to the records, and pointer
`n + 1` is to `high_key`. `none` stands for a read behind `high_key` or of a pointer that has
not been set, for more than 50 stacked intervals, and for a loop that has not ended in the
steps it is given.
-/

namespace Firebird.Sort

/-- A longword -/
abbrev ULONG := Fin 4294967296

instance ULONG.neZero : NeZero 4294967296 := ⟨by decide⟩

def MAX_ULONG : ULONG := 4294967295

theorem le_MAX_ULONG (w : ULONG) : w ≤ MAX_ULONG := by
  have h := w.isLt
  exact Fin.le_def.mpr (by change w.val ≤ 4294967295; omega)

/-- `low_key` -/
def lowKey : List ULONG := List.replicate 6 0

/-- `high_key` -/
def highKey : List ULONG := List.replicate 64 MAX_ULONG

/-- The pointers: the slot of the record that each one is to, and the back pointer of the
record in a slot, `sr_bckptr` -/
structure Pointers where
  slot : ℕ → ℕ
  back : ℕ → ℕ

/-- The records in the slots, and what stands behind a record as far as keys are compared:
`scb_longs - 1` longwords are, which on a platform with pointers of two longwords is one more
than the record has, a half of a back pointer. -/
structure Buffer where
  count : ℕ
  longs : ℕ
  data : ℕ → List ULONG
  behind : (ℕ → ℕ) → ℕ → List ULONG

/-- Compare for `tl` longwords at most. -/
def compareLongs : ℕ → List ULONG → List ULONG → Option Ordering
  | 0, _, _ => some .eq
  | tl + 1, p :: ps, q :: qs =>
      if p = q then compareLongs tl ps qs else some (if p < q then .lt else .gt)
  | _ + 1, _, _ => none

namespace Pointers

/-- `exchange`, and the back pointers before -/
def exchange (s : Pointers) (i j : ℕ) : Pointers where
  back := Function.update (Function.update s.back (s.slot i) j) (s.slot j) i
  slot := Function.update (Function.update s.slot i (s.slot j)) j (s.slot i)

end Pointers

namespace Buffer

variable (b : Buffer)

/-- The longwords that a pointer is to -/
def image (s : Pointers) (i : ℕ) : Option (List ULONG) :=
  if i = 0 then some lowKey
  else if i ≤ b.count then some (b.data (s.slot i) ++ b.behind s.back (s.slot i))
  else if i = b.count + 1 then some highKey
  else none

/-- The first longword of the key -/
def first (s : Pointers) (i : ℕ) : Option ULONG := (b.image s i).bind List.head?

/-- The comparison of two keys -/
def compare (s : Pointers) (i j : ℕ) : Option Ordering := do
  let p ← b.image s i
  let q ← b.image s j
  compareLongs (b.longs - 1) p q

/-- `while (**i < key) i++` -/
def whileBelow (s : Pointers) (key : ULONG) : ℕ → ℕ → Option ℕ
  | 0, _ => none
  | fuel + 1, i => do
      let w ← b.first s i
      if w < key then whileBelow s key fuel (i + 1) else some i

/-- The loop that passes the records not above `*r` -/
def whileNotAbove (s : Pointers) (r : ℕ) : ℕ → ℕ → Option ℕ
  | 0, _ => none
  | fuel + 1, i => do
      let o ← b.compare s i r
      if o = .gt then some i else whileNotAbove s r fuel (i + 1)

/-- `while (**j > key) j--` -/
def whileAbove (s : Pointers) (key : ULONG) : ℕ → ℕ → Option ℕ
  | 0, _ => none
  | fuel + 1, j => do
      let w ← b.first s j
      if key < w then whileAbove s key fuel (j - 1) else some j

/-- The loop that passes the records not below `*r`, down to `r` -/
def whileNotBelow (s : Pointers) (r : ℕ) : ℕ → ℕ → Option ℕ
  | 0, _ => none
  | fuel + 1, j =>
      if j = r then some j
      else do
        let o ← b.compare s j r
        if o = .lt then some j else whileNotBelow s r fuel (j - 1)

/-- How far `i` goes up -/
def up (s : Pointers) (r i : ℕ) : Option ℕ := do
  let key ← b.first s r
  let i ← b.whileBelow s key (b.count + 2) i
  let w ← b.first s i
  if w = key then b.whileNotAbove s r (b.count + 2) i else some i

/-- How far `j` goes down -/
def down (s : Pointers) (r j : ℕ) : Option ℕ := do
  let key ← b.first s r
  let j ← b.whileAbove s key (b.count + 2) j
  let w ← b.first s j
  if w = key then b.whileNotBelow s r (b.count + 2) j else some j

/-- "From each end of the interval converge to the middle swapping out of partition records as
we go." -/
def converge (r : ℕ) : ℕ → Pointers → ℕ → ℕ → Option (Pointers × ℕ)
  | 0, _, _, _ => none
  | fuel + 1, s, i, j => do
      let i ← b.up s r i
      let j ← b.down s r j
      if j ≤ i then some (s, j) else converge r fuel (s.exchange i j) (i + 1) (j - 1)

/-- The loop of `quick` over the stacked intervals -/
def quickLoop : ℕ → Pointers → List (ℕ × ℕ) → Option Pointers
  | _, s, [] => some s
  | 0, _, _ :: _ => none
  | fuel + 1, s, (r, u) :: stack =>
      if u - r < 2 then quickLoop fuel s stack
      else do
        -- guard against pre-ordered data
        let s := s.exchange r (r + (u - r) / 2)
        let (s, j) ← b.converge r (b.count + 2) s (r + 1) u
        let s := s.exchange r j
        if 50 < stack.length + 2 then none
        else if u - j + 1 < j - r then
          quickLoop fuel s ((j + 1, u) :: (r, j - 1) :: stack)
        else quickLoop fuel s ((r, j - 1) :: (j + 1, u) :: stack)

/-- `quick` -/
def quick (s : Pointers) : Option Pointers :=
  b.quickLoop (2 * b.count + 1) s [(1, b.count)]

/-- The pass of `sort` that corrects the pairs out of order, from pointer `i` on -/
def pairs : ℕ → Pointers → ℕ → Option Pointers
  | 0, s, _ => some s
  | n + 1, s, i => do
      let p ← b.first s i
      let q ← b.first s (i + 1)
      if q ≤ p then
        let o ← b.compare s i (i + 1)
        if o = .gt then pairs n (s.exchange i (i + 1)) (i + 1) else pairs n s (i + 1)
      else pairs n s (i + 1)

/-- `sort` without a duplicate callback -/
def sort (s : Pointers) : Option Pointers := do
  let s ← b.quick s
  b.pairs b.count s 1

end Buffer

end Firebird.Sort
