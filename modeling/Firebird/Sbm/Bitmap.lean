import Mathlib.Algebra.Group.Nat.Defs
import Mathlib.Logic.Function.Basic
import Mathlib.Data.Nat.Notation

/-! # Sparse bitmaps (`jrd/sbm.cpp`)

A bitmap is a tree of two levels: the slots of the root hold buckets, those of a bucket hold
segments of 1024 bits. The root and a bucket are one type, and one function does the work for both;
what differs is what a slot holds. While only one number is in a bitmap or in a bucket, it stands in
`sbm_number`, and no slot is used.

A segment and a bucket are in one bitmap at a time, so that they are modelled by what is in them;
the lists of free ones in the pool are left out, as what is taken from there is cleared. So are
`sbm_used`, `bms_min` and `bms_max`, which no function reads.
-/

namespace Firebird.Bitmap

/-- `sbm_state` -/
inductive State
  | empty
  | singular
  | plural
  deriving DecidableEq

/-- The type `sbm`; `size` is the size of the vector `sbm_segments`. -/
structure Sbm (α : Type) where
  state : State
  number : ℕ
  count : ℕ
  highWater : ℕ
  size : ℕ
  segments : ℕ → Option α

/-- The first or the second operand of `SBM_and` and `SBM_or` -/
inductive Operand
  | first
  | second
  deriving DecidableEq

/-- What the pointer that is returned points to -/
def Operand.of {β : Type} : Operand → β → β → β
  | .first, x, _ => x
  | .second, _, y => y

/-- What a slot holds, and what the functions do with it -/
class Chunk (α : Type) where
  /-- `1 << SEGMENT_BITS` or `1 << BUCKET_BITS` -/
  width : ℕ
  blank : α
  test : α → ℕ → Bool
  clear : α → ℕ → Bool × α
  set : α → ℕ → α
  /-- One round of the loop of `SBM_and`, for a slot of the shorter bitmap that is used -/
  and : α → Option α → Option α × Option α
  /-- One round of the loop of `SBM_or`, for a slot of the shorter bitmap that is used -/
  or : Option α → α → Option α × Option α

namespace Sbm

variable {α : Type} [Chunk α]

def store (m : Sbm α) (slot : ℕ) (c : Option α) : Sbm α :=
  { m with segments := Function.update m.segments slot c }

/-- `SBM_test` -/
def test (m : Sbm α) (number : ℕ) : Bool :=
  match m.state with
  | .empty => false
  | .singular => number = m.number
  | .plural =>
      let slot := number / Chunk.width α
      if m.highWater < slot then false
      else
        match m.segments slot with
        | none => false
        | some c => Chunk.test c (number % Chunk.width α)

/-- `SBM_clear` -/
def clear (m : Sbm α) (number : ℕ) : Bool × Sbm α :=
  match m.state with
  | .empty => (false, m)
  | .singular => if number = m.number then (true, { m with state := .empty }) else (false, m)
  | .plural =>
      let slot := number / Chunk.width α
      if m.highWater < slot then (false, m)
      else
        match m.segments slot with
        | none => (false, m)
        | some c =>
            let r := Chunk.clear c (number % Chunk.width α)
            (r.1, m.store slot (some r.2))

/-- The part of `SBM_set` that sets the bit in a bucket or a segment -/
def put (m : Sbm α) (number : ℕ) : Sbm α :=
  let slot := number / Chunk.width α
  let relative := number % Chunk.width α
  match m.segments slot with
  | some c => m.store slot (some (Chunk.set c relative))
  | none =>
      { m.store slot (some (Chunk.set Chunk.blank relative)) with
        highWater := if m.highWater < slot then slot else m.highWater }

/-- `SBM_set` for a bucket -/
def set (m : Sbm α) (number : ℕ) : Sbm α :=
  match m.state with
  | .empty => { m with state := .singular, number := number }
  | .plural => m.put number
  | .singular =>
      let m' := { m.put number with state := .plural }
      m'.put m.number

/-- One round of the loop of `SBM_and`; `map1` is the shorter of the two. -/
def andSlot (map1 map2 : Sbm α) (i : ℕ) : Option α × Option α :=
  match map1.segments i with
  | some c => if i ≤ map1.highWater then Chunk.and c (map2.segments i) else (some c, map2.segments i)
  | none => (none, map2.segments i)

/-- The loop of `SBM_and` -/
def andSlots (map1 map2 : Sbm α) : Sbm α × Sbm α :=
  ({ map1 with segments := fun i => (andSlot map1 map2 i).1 },
    { map2 with segments := fun i => (andSlot map1 map2 i).2 })

/-- `SBM_and`: which operand the result is, `none` for `NULL`, and the operands after it -/
def and (map1 map2 : Sbm α) : Option Operand × Sbm α × Sbm α :=
  if map1.state = .empty ∨ map2.state = .empty then (none, map1, map2)
  else if map1.state = .singular then
    (if map2.test map1.number then some .first else none, map1, map2)
  else if map2.state = .singular then
    (if map1.test map2.number then some .second else none, map1, map2)
  else if map2.highWater < map1.highWater then
    let r := andSlots map2 map1
    (some .second, r.2, r.1)
  else (some .first, andSlots map1 map2)

/-- One round of the loop of `SBM_or`; `map1` is the longer of the two. -/
def orSlot (map1 map2 : Sbm α) (i : ℕ) : Option α × Option α :=
  match map2.segments i with
  | some c => if i ≤ map2.highWater then Chunk.or (map1.segments i) c else (map1.segments i, some c)
  | none => (map1.segments i, none)

/-- The loop of `SBM_or` -/
def orSlots (map1 map2 : Sbm α) : Sbm α × Sbm α :=
  ({ map1 with segments := fun i => (orSlot map1 map2 i).1 },
    { map2 with segments := fun i => (orSlot map1 map2 i).2 })

/-- `SBM_or` for operands that are both `SBM_PLURAL` -/
def orPlural (map1 map2 : Sbm α) : Operand × Sbm α × Sbm α :=
  if map1.highWater < map2.highWater then
    let r := orSlots map2 map1
    (.second, r.2, r.1)
  else (.first, orSlots map1 map2)

/-- `SBM_or` for buckets -/
def or (map1 map2 : Sbm α) : Operand × Sbm α × Sbm α :=
  if map1.state = .empty then (.second, map1, map2)
  else if map2.state = .empty then (.first, map1, map2)
  else if map1.state = .singular then (.second, map1, map2.set map1.number)
  else if map2.state = .singular then (.first, map1.set map2.number, map2)
  else orPlural map1 map2

end Sbm

/-! ## Segments -/

/-- The type `bms` -/
structure Bms where
  bits : ℕ → BitVec 32

/-- `(test = ...) && (test & (1 << bit))` -/
def hasBit (test : BitVec 32) (bit : ℕ) : Bool := test ≠ 0 ∧ test &&& 1#32 <<< bit ≠ 0

def Bms.test (segment : Bms) (relative : ℕ) : Bool :=
  hasBit (segment.bits (relative / 32)) (relative % 32)

def Bms.set (segment : Bms) (relative : ℕ) : Bms :=
  let bunch := relative / 32
  let bit := relative % 32
  ⟨Function.update segment.bits bunch (segment.bits bunch ||| 1#32 <<< bit)⟩

def Bms.clear (segment : Bms) (relative : ℕ) : Bool × Bms :=
  let bunch := relative / 32
  let bit := relative % 32
  let test := segment.bits bunch
  if hasBit test bit then
    (true, ⟨Function.update segment.bits bunch (test &&& ~~~(1#32 <<< bit))⟩)
  else (false, segment)

instance : Chunk Bms where
  width := 1024
  blank := ⟨fun _ => 0⟩
  test := Bms.test
  clear := Bms.clear
  set := Bms.set
  and
    | _, none => (none, none)
    | s1, some s2 => (some ⟨fun j => s1.bits j &&& s2.bits j⟩, some s2)
  or
    | none, s2 => (some s2, none)
    | some s1, s2 => (some ⟨fun j => s1.bits j ||| s2.bits j⟩, some s2)

/-! ## Buckets -/

abbrev Bucket := Sbm Bms

/-- `clear_bucket` -/
def clearBucket : Bucket where
  state := .empty
  number := 0
  count := 32
  highWater := 0
  size := 32
  segments _ := none

instance : Chunk Bucket where
  width := 32768
  blank := clearBucket
  test := Sbm.test
  clear := Sbm.clear
  set := Sbm.set
  and
    | b1, none => (none, some b1)
    | b1, some b2 =>
        match b1.and b2 with
        | (none, _, b2') => (none, some b2')
        | (some .first, b1', b2') => (some b1', some b2')
        | (some .second, b1', b2') => (some b2', some b1')
  or
    | none, b2 => (some b2, none)
    | some b1, b2 =>
        match b1.or b2 with
        | (.first, b1', b2') => (some b1', some b2')
        | (.second, b1', b2') => (some b2', some b1')

/-! ## The root -/

abbrev Root := Sbm Bucket

/-- The sizes that `SBM_init` computes `SBM_max_tail` from -/
structure Layout where
  sizeofSbm : ℕ
  sizeofPtr : ℕ
  ptr_le : 4 ≤ sizeofPtr

/-- `SBM_max_tail` -/
def Layout.maxTail (layout : Layout) : ℕ := (65535 - 32 - layout.sizeofSbm) / layout.sizeofPtr + 1

/-- `do end <<= 1; while (end <= slot);` on a `ULONG`. After 32 rounds it is zero, and the loop does
not end. -/
def double (slot : ℕ) : ℕ → ℕ → Option ℕ
  | 0, _ => none
  | k + 1, size =>
      let size := 2 * size % 2 ^ 32
      if size ≤ slot then double slot k size else some size

/-- `sbm_segments.resize(end)`, and `sbm_count`, which is a `USHORT` -/
def Sbm.resize (m : Root) (size : ℕ) : Root :=
  { m with
    size := size
    count := size % 65536
    segments := fun i => if i < min m.size size then m.segments i else none }

/-- The vector made large enough for a slot -/
def Sbm.extend (layout : Layout) (m : Root) (slot : ℕ) : Option Root :=
  if m.count ≤ slot then
    if layout.maxTail ≤ slot then some (m.resize (slot + 5))
    else (double slot 32 m.count).map fun size => m.resize (min size layout.maxTail)
  else some m

/-- The part of `SBM_set` that sets the bit in a bucket -/
def Sbm.rootPut (layout : Layout) (m : Root) (number : ℕ) : Option Root :=
  (m.extend layout (number / Chunk.width Bucket)).map (·.put number)

/-- `SBM_set` for a bitmap; `none` if it does not return -/
def sbmSet (layout : Layout) (bitmap : Option Root) (number : ℕ) : Option Root :=
  match bitmap with
  | none =>
      some { state := .singular, number := number, count := 5, highWater := 0, size := 5,
             segments := fun _ => none }
  | some m =>
      match m.state with
      | .empty => some { m with state := .singular, number := number }
      | .plural => m.rootPut layout number
      | .singular => do
          let m' ← m.rootPut layout number
          Sbm.rootPut layout { m' with state := .plural } m.number

/-- `SBM_reset` -/
def Sbm.reset (m : Root) : Root :=
  if m.state = .empty then m
  else
    { m with
      state := .empty
      highWater := 0
      segments := fun i => if i < m.count then none else m.segments i }

/-- `SBM_test` -/
def sbmTest (bitmap : Option Root) (number : ℕ) : Bool := bitmap.any (·.test number)

/-- `SBM_clear` -/
def sbmClear (bitmap : Option Root) (number : ℕ) : Bool × Option Root :=
  match bitmap with
  | none => (false, none)
  | some m => (m.clear number).map id some

/-- `SBM_and` -/
def sbmAnd (bitmap1 bitmap2 : Option Root) : Option Operand × Option Root × Option Root :=
  match bitmap1, bitmap2 with
  | some map1, some map2 =>
      let r := map1.and map2
      (r.1, some r.2.1, some r.2.2)
  | _, _ => (none, bitmap1, bitmap2)

/-- `SBM_or`; `none` if it does not return -/
def sbmOr (layout : Layout) (bitmap1 bitmap2 : Option Root) :
    Option (Operand × Option Root × Option Root) :=
  match bitmap1, bitmap2 with
  | none, _ => some (.second, bitmap1, bitmap2)
  | some map1, none => some (if map1.state = .empty then .second else .first, bitmap1, bitmap2)
  | some map1, some map2 =>
      if map1.state = .empty then some (.second, bitmap1, bitmap2)
      else if map2.state = .empty then some (.first, bitmap1, bitmap2)
      else if map1.state = .singular then
        (sbmSet layout bitmap2 map1.number).map fun m => (.second, bitmap1, some m)
      else if map2.state = .singular then
        (sbmSet layout bitmap1 map2.number).map fun m => (.first, some m, bitmap2)
      else
        let r := map1.orPlural map2
        some (r.1, some r.2.1, some r.2.2)

end Firebird.Bitmap
