import Mathlib.Data.List.Flatten
import Mathlib.Tactic.Linarith
import Mathlib.Tactic.Ring
import Firebird.Lib.Block
import Firebird.Lib.Bytes
import Firebird.Lib.Outcome
import Firebird.Lib.Wrap

/-! # `Array`

The elements of an array are bytes in a block, which is the inline storage until the first
reallocation. All counts are `int`s, all lengths of copies are of `size_t`. An access outside the
block, and a loop that goes on, are faults of their own.
-/

namespace Firebird.Classes

open Wrap (toInt32)

/-- The element type, the inline storage and the width of `size_t` -/
structure Params where
  /-- `sizeof(T)` -/
  size : ℕ
  /-- `getStorageSize()` -/
  storageSize : ℕ
  bits : ℕ
  size_pos : 0 < size
  bits_le : 32 ≤ bits
  storage_int : storageSize < 2147483648
  storage_fits : size * storageSize < 2 ^ bits

inductive Fault where
  | outside
  | noMemory
  | loops
  deriving DecidableEq

/-- The pool: `none` is an exception, and the bytes of a new block are any. -/
structure Allocator where
  allocate : ℕ → Option (List UCHAR)
  length_eq : ∀ n b, allocate n = some b → b.length = n

/-- The bytes of a value -/
abbrev Elem (p : Params) := {b : List UCHAR // b.length = p.size}

/-- `Array`, with the bytes of its inline storage -/
structure Array (p : Params) where
  storage : List UCHAR
  heap : Option (List UCHAR)
  count : ℤ
  capacity : ℤ
  deriving DecidableEq

variable {p : Params}

namespace Params

/-- `sizeof(T) * n`, as a `size_t` -/
def bytes (p : Params) (n : ℤ) : ℕ := (p.size * n % 2 ^ p.bits).toNat

/-- The offset of `data + index` -/
def off (p : Params) (index : ℤ) : ℤ := p.size * index

end Params

namespace Array

/-- `data` -/
def data (a : Array p) : List UCHAR := a.heap.getD a.storage

/-- The array with other bytes where `data` points -/
def setData (a : Array p) (b : List UCHAR) : Array p :=
  match a.heap with
  | none => { a with storage := b }
  | some _ => { a with heap := some b }

/-- `Array(MemoryPool&)`, on the bytes that are there -/
def construct (p : Params) (storage : List UCHAR) : Array p := ⟨storage, none, 0, p.storageSize⟩

/-! ## Operations -/

def grownTo (capacity newcapacity : ℤ) : ℤ :=
  if newcapacity < toInt32 (capacity * 2) then toInt32 (capacity * 2) else newcapacity

def ensureCapacity (A : Allocator) (a : Array p) (newcapacity : ℤ) : Except Fault (Array p) :=
  if a.capacity < newcapacity then
    let newcapacity := grownTo a.capacity newcapacity
    match A.allocate (p.bytes newcapacity) with
    | none => .error .noMemory
    | some newdata => do
        let kept ← Block.read Fault.outside a.data 0 (p.bytes a.count)
        let newdata ← Block.write Fault.outside newdata 0 kept
        return { a with heap := some newdata, capacity := newcapacity }
  else return a

/-- `Array(MemoryPool&, int)` -/
def constructWith (p : Params) (A : Allocator) (storage : List UCHAR) (initialCapacity : ℤ) :
    Except Fault (Array p) :=
  (construct p storage).ensureCapacity A initialCapacity

/-- `insert(int, const T&)` -/
def insert (A : Allocator) (a : Array p) (index : ℤ) (item : Elem p) : Except Fault (Array p) := do
  let a ← a.ensureCapacity A (toInt32 (a.count + 1))
  let b ← Block.move Fault.outside a.data (p.off (index + 1)) (p.off index)
    (p.bytes (toInt32 (a.count - index)))
  let b ← Block.write Fault.outside b (p.off index) item.val
  return { a.setData b with count := toInt32 (a.count + 1) }

/-- `insert(int, const Array&)`: the length of the second copy is a number of elements. -/
def insertArray (A : Allocator) (a : Array p) (index : ℤ) (l : Array p) :
    Except Fault (Array p) := do
  let a ← a.ensureCapacity A (toInt32 (a.count + l.count))
  let b ← Block.move Fault.outside a.data (p.off (index + l.count)) (p.off index)
    (p.bytes (toInt32 (a.count - index)))
  let ws ← Block.read Fault.outside l.data 0 (l.count % 2 ^ p.bits).toNat
  let b ← Block.write Fault.outside b (p.off index) ws
  return { a.setData b with count := toInt32 (a.count + l.count) }

/-- `add(const T&)` -/
def add (A : Allocator) (a : Array p) (item : Elem p) : Except Fault (Array p) := do
  let a ← a.ensureCapacity A (toInt32 (a.count + 1))
  let b ← Block.write Fault.outside a.data (p.off a.count) item.val
  return { a.setData b with count := toInt32 (a.count + 1) }

/-- Bytes put behind the elements, as `add` of several and `join` do -/
def append (A : Allocator) (a : Array p) (n : ℤ) (source : List UCHAR) :
    Except Fault (Array p) := do
  let a ← a.ensureCapacity A (toInt32 (a.count + n))
  let ws ← Block.read Fault.outside source 0 (p.bytes n)
  let b ← Block.write Fault.outside a.data (p.off a.count) ws
  return { a.setData b with count := toInt32 (a.count + n) }

/-- The bytes of elements that stand one after the other -/
def image (xs : List (Elem p)) : List UCHAR := xs.flatMap Subtype.val

/-- `add(const T*, size_t)` -/
def addItems (A : Allocator) (a : Array p) (items : List (Elem p)) : Except Fault (Array p) :=
  a.append A items.length (image items)

def join (A : Allocator) (a l : Array p) : Except Fault (Array p) := a.append A l.count l.data

/-- `removeRange` -/
def removeRange (a : Array p) (start stop : ℤ) : Except Fault (Array p) := do
  let b ← Block.move Fault.outside a.data (p.off start) (p.off stop)
    (p.bytes (toInt32 (a.count - stop)))
  return { a.setData b with count := toInt32 (a.count - toInt32 (stop - start)) }

/-- `remove(int)`, and `remove(T*)` of the pointer to that element -/
def remove (a : Array p) (index : ℤ) : Except Fault (Array p) := do
  let count := toInt32 (a.count - 1)
  let b ← Block.move Fault.outside a.data (p.off index) (p.off (index + 1))
    (p.bytes (toInt32 (count - index)))
  return { a.setData b with count := count }

def shrink (a : Array p) (newCount : ℤ) : Array p := { a with count := newCount }

def grow (A : Allocator) (a : Array p) (newCount : ℤ) : Except Fault (Array p) := do
  let a ← a.ensureCapacity A newCount
  let b ← Block.write Fault.outside a.data (p.off a.count)
    (List.replicate (p.bytes (toInt32 (newCount - a.count))) 0)
  return { a.setData b with count := newCount }

/-- `assign`, and the operator `=` -/
def assign (A : Allocator) (a l : Array p) : Except Fault (Array p) := do
  let a ← a.ensureCapacity A l.count
  let ws ← Block.read Fault.outside l.data 0 (p.bytes l.count)
  let b ← Block.write Fault.outside a.data 0 ws
  return { a.setData b with count := l.count }

/-- `operator []` -/
def element (a : Array p) (index : ℤ) : Except Fault (List UCHAR) :=
  Block.read Fault.outside a.data (p.off index) p.size

/-- An assignment to `operator []` -/
def set (a : Array p) (index : ℤ) (item : Elem p) : Except Fault (Array p) := do
  let b ← Block.write Fault.outside a.data (p.off index) item.val
  return a.setData b

def pop (a : Array p) : Except Fault (List UCHAR × Array p) := do
  let count := toInt32 (a.count - 1)
  let item ← a.element count
  return (item, { a with count := count })

def getBuffer (A : Allocator) (a : Array p) (capacityL : ℤ) : Except Fault (Array p) := do
  let a ← a.ensureCapacity A capacityL
  return { a with count := capacityL }

/-- `free()` -/
def free (a : Array p) : Array p :=
  { a with count := 0, heap := none, capacity := p.storageSize }

def clear (a : Array p) : Array p := { a with count := 0 }

end Array

end Firebird.Classes
