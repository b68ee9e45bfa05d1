import Mathlib.Data.Int.Notation
import Firebird.Tree.Remove

/-! # Memory pools (`common/classes/alloc.cpp`)

A pool cuts the blocks it gives from extents. The free blocks are in a B+ tree whose pages come from
the pool itself: some spare pages are kept for that, and `updateSpare` gets new ones when they have
been used. A free block that does not get into the tree is pending.

A block is known by the address of its header, and a page by its own one. External memory is not
modelled: what `external_alloc` gives is an argument of the function that calls it. A result `none`
stands for a call that does not return: an exception leaves `updateSpare`, a null pointer is followed
or a loop does not end.
-/

namespace Firebird

open BePlus

/-- `MemoryBlock`, the header of a block -/
structure MemoryBlock where
  used : Bool
  last : Bool
  type : ℤ
  length : ℕ
  prev : Option Addr
deriving Inhabited

/-- An entry of the tree of free blocks -/
structure BlockInfo where
  block : Addr
  length : ℕ
deriving Inhabited, DecidableEq

/-- `BlockInfo::greaterThan` -/
def BlockInfo.greaterThan (i1 i2 : BlockInfo) : Bool :=
  i2.length < i1.length || (i1.length == i2.length && i2.block < i1.block)

/-- The sizes of a build: `ALLOC_ALIGNMENT` and the sizes of the structures -/
structure Platform where
  alignment : ℕ
  memoryBlock : ℕ
  memoryExtent : ℕ
  itemList : ℕ
  nodeList : ℕ

namespace Platform

/-- `MEM_ALIGN` -/
def memAlign (S : Platform) (n : ℕ) : ℕ := (n + S.alignment - 1) / S.alignment * S.alignment

def header (S : Platform) : ℕ := S.memAlign S.memoryBlock

def extentHeader (S : Platform) : ℕ := S.memAlign S.memoryExtent

end Platform

/-- A 32-bit build -/
def win32 : Platform where
  alignment := 4
  memoryBlock := 16
  memoryExtent := 4
  itemList := 816
  nodeList := 420

namespace MemoryPool

def typePool : ℤ := -1
def typeLeafPage : ℤ := -3
def typeTreePage : ℤ := -4

def minExtentSize : ℕ := 16384

/-- The capacity of `spareLeafs` -/
def leafCapacity : ℕ := 2

/-- The free blocks are in the order of their lengths and addresses. -/
def freeParams : Params BlockInfo BlockInfo where
  keyOf := id
  greaterThan := BlockInfo.greaterThan
  leafCount := 100
  nodeCount := 100

/-- What the allocator of the tree works on -/
structure PoolMemory where
  blocks : Addr → MemoryBlock
  spareLeafs : List Addr
  spareNodes : List Addr
  needSpare : Bool
  pendingFree : List Addr

def PoolMemory.modifyBlock (m : PoolMemory) (blk : Addr) (f : MemoryBlock → MemoryBlock) :
    PoolMemory :=
  { m with blocks := Function.update m.blocks blk (f (m.blocks blk)) }

/-- The header behind a block -/
def PoolMemory.nextBlock (S : Platform) (m : PoolMemory) (blk : Addr) : Addr :=
  blk + S.header + (m.blocks blk).length

/-- `MemoryPool::tree_alloc` -/
def treeAlloc (S : Platform) (size : ℕ) (m : PoolMemory) : Option (Addr × PoolMemory) :=
  if size = S.itemList ∧ (S.itemList ≠ S.nodeList ∨ m.spareLeafs ≠ []) then
    m.spareLeafs.getLast?.map fun temp =>
      (temp, { m with spareLeafs := m.spareLeafs.dropLast, needSpare := true })
  else if size = S.nodeList then
    m.spareNodes.getLast?.map fun temp =>
      (temp, { m with spareNodes := m.spareNodes.dropLast, needSpare := true })
  else none

/-- `MemoryPool::tree_free` -/
def treeFree (S : Platform) (block : Addr) (m : PoolMemory) : PoolMemory :=
  { m.modifyBlock (block - S.header) ({ · with used := false }) with
    pendingFree := block :: m.pendingFree
    needSpare := true }

/-- `InternalAllocator` -/
def allocator (S : Platform) : Allocator PoolMemory where
  leafPage := treeAlloc S S.itemList
  nodePage := treeAlloc S S.nodeList
  deallocate := treeFree S

end MemoryPool

open MemoryPool

/-- `MemoryPool` -/
structure MemoryPool where
  freeBlocks : BePlus.Tree BlockInfo
  memory : PoolMemory
  extents : List Addr
  extentsMemory : ℤ
  usedMemory : ℤ
  curMemory : ℤ
  maxMemory : ℤ

namespace MemoryPool

variable (S : Platform)

def modifyBlock (p : MemoryPool) (blk : Addr) (f : MemoryBlock → MemoryBlock) : MemoryPool :=
  { p with memory := p.memory.modifyBlock blk f }

theorem blocks_modifyBlock_self (p : MemoryPool) (blk : Addr) (f : MemoryBlock → MemoryBlock) :
    (p.modifyBlock blk f).memory.blocks blk = f (p.memory.blocks blk) :=
  Function.update_self ..

/-! ## Free blocks -/

/-- `MemoryPool::addFreeBlock` -/
def addFreeBlock (p : MemoryPool) (blk : Addr) : Option MemoryPool :=
  match p.freeBlocks.add freeParams (allocator S) p.memory ⟨blk, (p.memory.blocks blk).length⟩ with
  | .duplicate => some p
  | .added t m => some { p with freeBlocks := t, memory := m }
  | .thrown t m addErrorValue =>
      some { p with
        freeBlocks := t
        memory := { m with pendingFree := (addErrorValue.block + S.header) :: m.pendingFree } }
  | .loops => none

/-- `freeBlocks.fastRemove` -/
def fastRemove (p : MemoryPool) (c : Cursor) : Option MemoryPool :=
  (p.freeBlocks.fastRemove freeParams (allocator S) p.memory c).map fun r =>
    { p with freeBlocks := r.1, memory := r.2 }

/-- `MemoryPool::removeFreeBlock` -/
def removeFreeBlock (p : MemoryPool) (blk : Addr) : Option MemoryPool :=
  let r := p.freeBlocks.locate freeParams .equal ⟨blk, (p.memory.blocks blk).length⟩
  if r.1 then p.fastRemove S r.2
  else
    some { p with memory :=
      { p.memory with pendingFree := p.memory.pendingFree.erase (blk + S.header) } }

/-! ## `internal_alloc` -/

/-- A piece at the end of a free block becomes a used block. -/
def cutEnd (p : MemoryPool) (block : Addr) (size : ℕ) (type : ℤ) : Addr × MemoryPool :=
  let length := (p.memory.blocks block).length - (S.header + size)
  let last := (p.memory.blocks block).last
  let blk := block + S.header + length
  let p := p.modifyBlock block ({ · with length := length, last := false })
  let p := p.modifyBlock blk fun _ => { used := true, last, type, length := size, prev := some block }
  (blk, if last then p else p.modifyBlock (blk + S.header + size) ({ · with prev := some blk }))

/-- The block is counted, and its memory is the result. -/
def taken (p : MemoryPool) (blk : Addr) : Option Addr × MemoryPool :=
  let size : ℤ := (p.memory.blocks blk).length + S.header
  (some (blk + S.header),
    { p with
      usedMemory := p.usedMemory + size
      curMemory := p.curMemory + size
      maxMemory := max p.maxMemory (p.curMemory + size) })

/-- A block that is not much larger than what is needed is taken as it is. -/
def fits (length size : ℕ) : Bool := length - size < S.header + S.alignment

/-- A block that has been found in the tree of free blocks -/
def allocFree (p : MemoryPool) (c : Cursor) (size : ℕ) (type : ℤ) :
    Option (Option Addr × MemoryPool) :=
  let current := p.freeBlocks.current c
  if fits S current.length size then do
    let p := p.modifyBlock current.block ({ · with used := true, type := type })
    let p ← p.fastRemove S c
    some (p.taken S current.block)
  else
    let r := p.cutEnd S current.block size type
    let p := r.2
    let length := (p.memory.blocks current.block).length
    let prev := p.freeBlocks.getPrev c
    if !prev.1 || (p.freeBlocks.current prev.2).length < length then
      -- the entry keeps its place
      let t := match c.curr with
        | some q => p.freeBlocks.modifyLeaf q fun l =>
            { l with data := l.data.set c.curPos { current with length := length } }
        | none => p.freeBlocks
      some ({ p with freeBlocks := t }.taken S r.1)
    else do
      let p ← p.fastRemove S (p.freeBlocks.getNext prev.2).2
      let p ← p.addFreeBlock S current.block
      some (p.taken S r.1)

/-- A pending block that is large enough -/
def allocPending (p : MemoryPool) (itr : Addr) (size : ℕ) (type : ℤ) : Option Addr × MemoryPool :=
  let temp := itr - S.header
  if fits S (p.memory.blocks temp).length size then
    let p := p.modifyBlock temp ({ · with used := true, type := type })
    let m := { p.memory with pendingFree := p.memory.pendingFree.erase itr }
    { p with memory := m }.taken S temp
  else
    let r := p.cutEnd S temp size type
    r.2.taken S r.1

/-- The size of a new extent -/
def allocSize (size : ℕ) : ℕ := max (S.extentHeader + S.header + size) minExtentSize

def addExtent (p : MemoryPool) (extent : Addr) (size : ℕ) : MemoryPool :=
  { p with
    extentsMemory := p.extentsMemory + (allocSize S size - S.extentHeader : ℕ)
    extents := extent :: p.extents }

/-- The first piece of an extent becomes a used block, and the rest is a free block. -/
def cutBegin (p : MemoryPool) (blk : Addr) (space size : ℕ) (type : ℤ) : Addr × MemoryPool :=
  let p := p.modifyBlock blk fun _ =>
    { used := true, last := false, type, length := size, prev := none }
  let rest := blk + S.header + size
  (rest, p.modifyBlock rest fun old =>
    { old with used := false, last := true, length := space - size - S.header, prev := some blk })

/-- A block at the beginning of a new extent -/
def allocExtent (p : MemoryPool) (extent : Addr) (size : ℕ) (type : ℤ) :
    Option (Option Addr × MemoryPool) :=
  let space := allocSize S size - S.extentHeader - S.header
  let p := p.addExtent S extent size
  let blk := extent + S.extentHeader
  if fits S space size then
    some ((p.modifyBlock blk fun _ =>
      { used := true, last := true, type, length := space, prev := none }).taken S blk)
  else
    let r := p.cutBegin S blk space size type
    (r.2.addFreeBlock S r.1).map fun p => p.taken S blk

/-- `MemoryPool::internal_alloc`; `ext` is what `external_alloc` gives, if it is called. -/
def internalAlloc (p : MemoryPool) (size : ℕ) (type : ℤ) (ext : Option Addr) :
    Option (Option Addr × MemoryPool) :=
  let size := S.memAlign size
  let r := p.freeBlocks.locate freeParams .greatEqual ⟨0, size⟩
  if r.1 then p.allocFree S r.2 size type
  else
    let large := fun itr => decide (size ≤ (p.memory.blocks (itr - S.header)).length)
    match p.memory.pendingFree.find? large, ext with
    | some itr, _ => some (p.allocPending S itr size type)
    | none, some extent => p.allocExtent S extent size type
    | none, none => some (none, p)

/-! ## Spare pages -/

/-- A loop of `updateSpare` that gets spare pages; `spare n` is what `external_alloc` gives for the
page `n`. The result tells whether there are enough pages now. -/
def fillSpare (enough : MemoryPool → Bool) (size : ℕ) (type : ℤ)
    (put : Addr → MemoryPool → MemoryPool) (spare : ℕ → Option Addr) :
    ℕ → ℕ → MemoryPool → Option (Bool × ℕ × MemoryPool)
  | 0, _, _ => none
  | k + 1, n, p =>
      if enough p then some (true, n, p)
      else
        match p.internalAlloc S size type (spare n) with
        | none => none
        | some (none, p) => some (false, n + 1, p)
        | some (some temp, p) => fillSpare enough size type put spare k (n + 1) (put temp p)

def addLeaf (temp : Addr) (p : MemoryPool) : MemoryPool :=
  { p with memory := { p.memory with spareLeafs := p.memory.spareLeafs ++ [temp] } }

def addNode (temp : Addr) (p : MemoryPool) : MemoryPool :=
  { p with memory := { p.memory with spareNodes := p.memory.spareNodes ++ [temp] } }

def fillLeafs : (ℕ → Option Addr) → ℕ → ℕ → MemoryPool → Option (Bool × ℕ × MemoryPool) :=
  fillSpare S (fun p => leafCapacity ≤ p.memory.spareLeafs.length) S.itemList typeLeafPage addLeaf

def fillNodes : (ℕ → Option Addr) → ℕ → ℕ → MemoryPool → Option (Bool × ℕ × MemoryPool) :=
  fillSpare S (fun p => p.freeBlocks.level < p.memory.spareNodes.length) S.nodeList typeTreePage
    addNode

/-- The loop of `updateSpare` that moves the pending blocks into the tree. -/
def addPending : ℕ → MemoryPool → Option MemoryPool
  | 0, _ => none
  | k + 1, p =>
      match p.memory.pendingFree with
      | [] => some p
      | temp :: pendingFree =>
          let blk := temp - S.header
          match p.freeBlocks.add freeParams (allocator S) { p.memory with pendingFree := pendingFree }
            ⟨blk, (p.memory.blocks blk).length⟩ with
          | .duplicate =>
              addPending k { p with memory := { p.memory with pendingFree := pendingFree } }
          | .added t m => addPending k { p with freeBlocks := t, memory := m }
          | .thrown .. => none
          | .loops => none

/-- `MemoryPool::updateSpare` -/
def updateSpare (spare : ℕ → Option Addr) : ℕ → ℕ → MemoryPool → Option MemoryPool
  | 0, _, _ => none
  | k + 1, n, p =>
      let p := { p with memory := { p.memory with needSpare := false } }
      match fillLeafs S spare k n p with
      | none => none
      | some (false, _, p) => some p
      | some (true, n, p) =>
          match fillNodes S spare k n p with
          | none => none
          | some (false, _, p) => some p
          | some (true, n, p) =>
              match addPending S k p with
              | none => none
              | some p => if p.memory.needSpare then updateSpare spare k n p else some p

/-- The end of `allocate` and `deallocate` -/
def finish (spare : ℕ → Option Addr) (k : ℕ) (p : MemoryPool) : Option MemoryPool :=
  if p.memory.needSpare then p.updateSpare S spare k 0 else some p

/-! ## The functions of a pool -/

/-- `MemoryPool::allocate`; there is an exception if the result has no address. -/
def allocate (k : ℕ) (spare : ℕ → Option Addr) (size : ℕ) (type : ℤ) (ext : Option Addr)
    (p : MemoryPool) : Option (Option Addr × MemoryPool) := do
  let r ← p.internalAlloc S size type ext
  let p ← r.2.finish S spare k
  some (r.1, p)

/-- `MemoryPool::free_blk_extent` -/
def freeBlkExtent (p : MemoryPool) (blk : Addr) : Option MemoryPool :=
  let extent := blk - S.extentHeader
  if extent ∈ p.extents then
    some { p with
      extents := p.extents.erase extent
      extentsMemory := p.extentsMemory - ((p.memory.blocks blk).length + S.header : ℕ) }
  else none

/-- A free block that is its whole extent goes back, and every other one becomes free. -/
def release (p : MemoryPool) (blk : Addr) : Option MemoryPool :=
  if (p.memory.blocks blk).prev.isNone && (p.memory.blocks blk).last then p.freeBlkExtent S blk
  else p.addFreeBlock S blk

/-- A free block takes the free block `next` behind it. -/
def mergeNext (p : MemoryPool) (blk next : Addr) : Option MemoryPool := do
  let p ← p.removeFreeBlock S next
  let info := p.memory.blocks next
  let p := p.modifyBlock blk fun b =>
    { b with length := b.length + (info.length + S.header), last := info.last }
  some (if info.last then p
    else p.modifyBlock (next + S.header + info.length) ({ · with prev := some blk }))

/-- A block becomes part of the free block `prev` before it. -/
def mergePrev (p : MemoryPool) (prev blk : Addr) : Option MemoryPool := do
  let p ← p.removeFreeBlock S prev
  let info := p.memory.blocks blk
  let p := p.modifyBlock prev fun b => { b with length := b.length + (info.length + S.header) }
  if info.last then some (p.modifyBlock prev ({ · with last := true }))
  else
    let next := p.memory.nextBlock S blk
    if (p.memory.blocks next).used then
      let p := p.modifyBlock next ({ · with prev := some prev })
      some (p.modifyBlock prev ({ · with last := false }))
    else p.mergeNext S prev next

/-- A used block becomes free. -/
def freeBlock (p : MemoryPool) (blk : Addr) : Option MemoryPool :=
  let info := p.memory.blocks blk
  match info.prev.filter fun prev => !(p.memory.blocks prev).used with
  | some prev => do
      let p ← p.mergePrev S prev blk
      p.release S prev
  | none =>
      let p := p.modifyBlock blk ({ · with used := false })
      let next := p.memory.nextBlock S blk
      if !info.last && !(p.memory.blocks next).used then do
        let p ← p.mergeNext S blk next
        p.release S blk
      else p.release S blk

/-- `MemoryPool::deallocate` -/
def deallocate (k : ℕ) (spare : ℕ → Option Addr) (block : Option Addr) (p : MemoryPool) :
    Option MemoryPool :=
  match block with
  | none => some p
  | some block => do
      let blk := block - S.header
      let size : ℤ := (p.memory.blocks blk).length + S.header
      let p := { p with usedMemory := p.usedMemory - size, curMemory := p.curMemory - size }
      let p ← p.freeBlock S blk
      p.finish S spare k

/-- `MemoryPool::internal_create` in the extent `mem` -/
def internalCreate (k : ℕ) (spare : ℕ → Option Addr) (instanceSize : ℕ) (mem : Addr) :
    Option MemoryPool := do
  let used := S.extentHeader + S.header + S.memAlign instanceSize + S.header +
    S.memAlign S.itemList + S.header
  let allocSize := max (used + S.alignment) minExtentSize
  let poolBlk := mem + S.extentHeader
  let hdr := poolBlk + S.header + S.memAlign instanceSize
  let blk := hdr + S.header + S.memAlign S.itemList
  let memory : PoolMemory :=
    { blocks := fun _ => default
      spareLeafs := []
      spareNodes := []
      needSpare := false
      pendingFree := [] }
  let memory := memory.modifyBlock poolBlk fun _ =>
    { used := true, last := false, type := typePool, length := S.memAlign instanceSize, prev := none }
  let memory := memory.modifyBlock hdr fun _ =>
    { used := true, last := false, type := typeLeafPage, length := S.memAlign S.itemList,
      prev := some poolBlk }
  let memory := memory.modifyBlock blk fun _ =>
    { used := false, last := true, type := 0, length := allocSize - used, prev := some hdr }
  let freeBlocks : BePlus.Tree BlockInfo :=
    { leaf := fun _ => { data := [], parent := none, next := none, prev := none }
      node := fun _ => { data := [], level := 0, parent := none, next := none, prev := none }
      root := hdr + S.header
      level := 0 }
  let p : MemoryPool :=
    { freeBlocks
      memory
      extents := [mem]
      extentsMemory := (allocSize - S.extentHeader : ℕ)
      usedMemory := 0
      curMemory := 0
      maxMemory := 0 }
  match p.freeBlocks.add freeParams (allocator S) p.memory ⟨blk, allocSize - used⟩ with
  | .added t m => updateSpare S spare k 0 { p with freeBlocks := t, memory := m }
  | _ => none

/-! ## Runs -/

inductive Action
  | allocate (size : ℕ) (type : ℤ) (ext : Option Addr)
  | deallocate (block : Option Addr)

/-- A call that returns -/
def Step (spare : ℕ → Option Addr) : Action → MemoryPool → MemoryPool → Prop
  | .allocate size type ext, p, p' => ∃ k result, p.allocate S k spare size type ext = some (result, p')
  | .deallocate block, p, p' => ∃ k, p.deallocate S k spare block = some p'

/-- The pools that calls lead to; `Served` says how external memory is given to `updateSpare`. -/
inductive Reachable (Served : (ℕ → Option Addr) → Prop) : MemoryPool → Prop
  | create {k spare instanceSize mem p} : Served spare →
      internalCreate S k spare instanceSize mem = some p → Reachable Served p
  | step {spare a p p'} : Reachable Served p → Served spare → Step S spare a p p' →
      Reachable Served p'

end MemoryPool

end Firebird
