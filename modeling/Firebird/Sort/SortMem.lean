import Firebird.Lib.Extent
import Firebird.Lib.Outcome

/-! # Scratch files in memory and on disk (`jrd/sort_mem.cpp`)

A scratch file is a chain of blocks. A block is in virtual memory, or, where that is used up or
cannot be allocated, a part of the file on disk. More may be allocated than was asked for, so that
the physical size may be beyond the logical one. Input and output on the disk succeed.
-/

namespace Firebird.Virtual

open Extent

variable {β : Type*}

/-- Where a block keeps its bytes -/
inductive Place (β : Type*) where
  /-- `MemoryBlock` -/
  | memory (address : Memory β)
  /-- `FileBlock` -/
  | file (offset : ℕ)

structure Block (β : Type*) where
  size : ℕ
  place : Place β

/-- The limits on the use of virtual memory -/
structure Config where
  memBlockSize : ℕ
  memUpperLimit : ℕ

/-- `SortMem`. The chain is the list of its blocks, `head` first, and `internal` is the file on
disk. `memTotalSize` is shared with other scratch files. -/
structure SortMem (β : Type*) where
  internal : Memory β
  logicalSize : ℕ
  physicalSize : ℕ
  fileSize : ℕ
  blocks : List (Block β)
  memTotalSize : ℕ

/-- How the allocations of one call end: of the memory block, of the smaller one that is tried next,
and of the object for a file block, and what stands in allocated memory -/
structure Allocations (β : Type*) where
  first : Bool
  second : Bool
  fileBlock : Bool
  garbage : Memory β

/-- The exception `std::bad_alloc` -/
inductive BadAlloc where
  | badAlloc
deriving DecidableEq

/-! ## Blocks -/

/-- Input and output on the disk return where they end. -/
def SORT_read_block (file : Memory β) (seek length : ℕ) : List β × ℕ :=
  (file.load seek length, seek + length)

def SORT_write_block (file : Memory β) (seek : ℕ) (address : List β) : Memory β × ℕ :=
  (file.store seek address, seek + address.length)

/-- How much of `length` is in a block from `position` on -/
def Block.portion (b : Block β) (position length : ℕ) : ℕ :=
  if position + length > b.size then b.size - position else length

/-- `read` of a memory block and of a file block: the bytes, and how many they are -/
def Block.read (file : Memory β) (b : Block β) (position length : ℕ) : List β × ℕ :=
  let length := b.portion position length
  match b.place with
  | .memory address => (address.load position length, length)
  | .file offset =>
    let (bytes, seek) := SORT_read_block file (offset + position) length
    (bytes, seek - offset - position)

/-- `write` of a memory block and of a file block -/
def Block.write (file : Memory β) (b : Block β) (position : ℕ) (buffer : List β) :
    Block β × Memory β × ℕ :=
  let length := b.portion position buffer.length
  match b.place with
  | .memory address =>
    ({ b with place := .memory (address.store position (buffer.take length)) }, file, length)
  | .file offset =>
    let (file, seek) := SORT_write_block file (offset + position) (buffer.take length)
    (b, file, seek - offset - position)

/-! ## `allocate` -/

/-- The size of the memory block that `allocate` ends with, if it ends with one -/
def SortMem.memorySize (cfg : Config) (s : SortMem β) (size : ℕ) (a : Allocations β) : Option ℕ :=
  let smart_size := if cfg.memBlockSize > size then cfg.memBlockSize else size
  if s.memTotalSize + smart_size ≤ cfg.memUpperLimit then
    if a.first then some smart_size
    else if smart_size > size then if a.second then some size else none
    else none
  else none

def SortMem.allocate (cfg : Config) (s : SortMem β) (size : ℕ) (a : Allocations β) :
    Except BadAlloc (SortMem β) :=
  if size > 0 then
    let s := { s with logicalSize := s.logicalSize + size }
    if s.logicalSize > s.physicalSize then
      match s.memorySize cfg size a with
      | some smart_size =>
        .ok { s with
          physicalSize := s.physicalSize + smart_size
          memTotalSize := s.memTotalSize + smart_size
          blocks := s.blocks ++ [⟨smart_size, .memory a.garbage⟩] }
      | none =>
        if a.fileBlock then
          .ok { s with
            physicalSize := s.physicalSize + size
            fileSize := s.fileSize + size
            blocks := s.blocks ++ [⟨size, .file s.fileSize⟩] }
        else .error .badAlloc
    else .ok s
  else .ok s

/-- The constructor, for a file on disk with whatever is in it -/
def SortMem.new (cfg : Config) (internal : Memory β) (memTotalSize size : ℕ) (a : Allocations β) :
    Except BadAlloc (SortMem β) :=
  SortMem.allocate cfg ⟨internal, 0, 0, 0, [], memTotalSize⟩ size a

/-! ## `seek` -/

/-- From the head: the number of the block, and the position in it -/
def walkForward : List (Block β) → ℕ → Option (ℕ × ℕ)
  | [], _ => none
  | b :: blocks, position =>
    if position ≥ b.size then
      (walkForward blocks (position - b.size)).map fun (i, position) => (i + 1, position)
    else some (0, position)

/-- From the tail, where the blocks stand in the order of the walk -/
def walkBackward (physicalSize : ℕ) : List (Block β) → ℕ → Option (ℕ × ℕ)
  | [], _ => none
  | b :: blocks, position =>
    if physicalSize - position > b.size then walkBackward physicalSize blocks (position + b.size)
    else some (blocks.length, position + b.size - physicalSize)

def SortMem.seek (s : SortMem β) (position : ℕ) : Option (ℕ × ℕ) :=
  if position < s.physicalSize then
    if position < s.physicalSize / 2 then walkForward s.blocks position
    else walkBackward s.physicalSize s.blocks.reverse position
  else none

/-! ## `read` and `write` -/

/-- The loop over the blocks in `read` -/
def readBlocks (file : Memory β) : List (Block β) → ℕ → ℕ → List β × ℕ
  | [], _, _ => ([], 0)
  | b :: blocks, pos, length =>
    if length > 0 then
      let (bytes, n) := b.read file pos length
      let (rest, copied) := readBlocks file blocks 0 (length - n)
      (bytes ++ rest, n + copied)
    else ([], 0)

def SortMem.read (cfg : Config) (s : SortMem β) (position length : ℕ) : List β × ℕ :=
  if cfg.memUpperLimit = 0 then SORT_read_block s.internal position length
  else if length > 0 then
    match s.seek position with
    | none => ([], position)
    | some (i, pos) =>
      let (bytes, copied) := readBlocks s.internal (s.blocks.drop i) pos length
      (bytes, position + copied)
  else ([], position)

/-- The loop over the blocks in `write` -/
def writeBlocks (file : Memory β) :
    List (Block β) → ℕ → List β → List (Block β) × Memory β × ℕ
  | [], _, _ => ([], file, 0)
  | b :: blocks, pos, address =>
    if address.length > 0 then
      let (b, file, n) := b.write file pos address
      let (blocks, file, copied) := writeBlocks file blocks 0 (address.drop n)
      (b :: blocks, file, n + copied)
    else (b :: blocks, file, 0)

/-- `write`, behind `allocate` -/
def SortMem.put (s : SortMem β) (position : ℕ) (address : List β) : SortMem β × ℕ :=
  if address.length > 0 then
    match s.seek position with
    | none => (s, position)
    | some (i, pos) =>
      let (blocks, file, copied) := writeBlocks s.internal (s.blocks.drop i) pos address
      ({ s with internal := file, blocks := s.blocks.take i ++ blocks }, position + copied)
  else (s, position)

def SortMem.write (cfg : Config) (s : SortMem β) (position : ℕ) (address : List β)
    (a : Allocations β) : Except BadAlloc (SortMem β × ℕ) :=
  if cfg.memUpperLimit = 0 then
    let (internal, seek) := SORT_write_block s.internal position address
    .ok ({ s with internal }, seek)
  else
    (if position + address.length ≥ s.logicalSize then
      s.allocate cfg (position + address.length - s.logicalSize) a
    else .ok s).bind fun s => .ok (s.put position address)

/-! ## The bytes of a chain -/

def total (bs : List (Block β)) : ℕ := (bs.map Block.size).sum

theorem total_cons (b : Block β) (bs : List (Block β)) : total (b :: bs) = b.size + total bs := by
  rw [total, List.map_cons, List.sum_cons, total]

theorem total_append (bs cs : List (Block β)) : total (bs ++ cs) = total bs + total cs := by
  rw [total, List.map_append, List.sum_append, total, total]

/-- The part of the file that a block is -/
def Block.extent (b : Block β) : Option Extent :=
  match b.place with
  | .memory _ => none
  | .file offset => some ⟨offset, b.size⟩

def extents (bs : List (Block β)) : List Extent := bs.filterMap Block.extent

/-- The byte at a position in a block -/
def Block.byte (file : Memory β) (b : Block β) : Memory β :=
  match b.place with
  | .memory address => address
  | .file offset => fun p => file (offset + p)

/-- The byte at a position in the chain -/
def view (file : Memory β) : List (Block β) → Memory β
  | [], p => file p
  | b :: bs, p => if p < b.size then b.byte file p else view file bs (p - b.size)

section

variable {file file' : Memory β} {b : Block β} {bs cs : List (Block β)} {p n : ℕ}

theorem view_cons_of_lt (h : p < b.size) : view file (b :: bs) p = b.byte file p := if_pos h

theorem view_cons_add : view file (b :: bs) (b.size + p) = view file bs p := by
  rw [view, if_neg (Nat.not_lt.mpr (Nat.le_add_right _ _)), Nat.add_sub_cancel_left]

theorem view_append_of_lt (h : p < total bs) : view file (bs ++ cs) p = view file bs p := by
  induction bs generalizing p with
  | nil => exact absurd h (Nat.not_lt_zero p)
  | cons b bs ih =>
    rw [total_cons] at h
    rw [List.cons_append, view, view]
    split
    · rfl
    · exact ih (by omega)

theorem view_append_add : view file (bs ++ cs) (total bs + p) = view file cs p := by
  induction bs with
  | nil => rw [total, List.map_nil, List.sum_nil, Nat.zero_add, List.nil_append]
  | cons b bs ih => rw [total_cons, Nat.add_assoc, List.cons_append, view_cons_add, ih]

/-- The bytes of a block are in its extent, if it is in the file. -/
theorem byte_congr (h : ∀ e ∈ b.extent, ∀ q, e.offset ≤ q → q < e.stop → file' q = file q)
    (hp : p < b.size) : b.byte file' p = b.byte file p := by
  rcases b with ⟨size, place⟩
  cases place with
  | memory address => rfl
  | file offset =>
    exact h ⟨offset, size⟩ rfl _ (Nat.le_add_right _ _) (Nat.add_lt_add_left hp offset)

theorem mem_extents_of_mem {e : Extent} (hb : b ∈ bs) (he : e ∈ b.extent) : e ∈ extents bs :=
  List.mem_filterMap.mpr ⟨b, hb, he⟩

theorem view_congr (h : ∀ e ∈ extents bs, ∀ q, e.offset ≤ q → q < e.stop → file' q = file q)
    (hp : p < total bs) : view file' bs p = view file bs p := by
  induction bs generalizing p with
  | nil => exact absurd hp (Nat.not_lt_zero p)
  | cons b bs ih =>
    rw [total_cons] at hp
    rw [view, view]
    split
    · next hlt =>
      exact byte_congr (fun e he => h e (mem_extents_of_mem List.mem_cons_self he)) hlt
    · refine ih (fun e he => h e ?_) (by omega)
      obtain ⟨c, hc, he⟩ := List.mem_filterMap.mp he
      exact mem_extents_of_mem (List.mem_cons_of_mem b hc) he

end

/-! ## Reading and writing the chain -/

section

variable {file : Memory β} {b : Block β} {bs : List (Block β)} {pos length : ℕ}

theorem Block.read_eq : b.read file pos length =
    ((b.byte file).load pos (b.portion pos length), b.portion pos length) := by
  rcases b with ⟨size, place⟩
  cases place with
  | memory address => rfl
  | file offset =>
    unfold Block.read SORT_read_block Block.byte Memory.load
    simp only [Nat.add_assoc, Nat.add_sub_cancel_left]

theorem portion_le (length : ℕ) (h : pos ≤ b.size) : pos + b.portion pos length ≤ b.size := by
  unfold Block.portion
  split <;> omega

/-- What is left is for the next blocks. -/
theorem sub_portion_le (h : pos ≤ b.size) (hlen : pos + length ≤ total (b :: bs)) :
    length - b.portion pos length ≤ total bs := by
  rw [total_cons] at hlen
  unfold Block.portion
  split <;> omega

theorem portion_cases (length : ℕ) (h : pos ≤ b.size) :
    b.portion pos length = length ∨
      pos + b.portion pos length = b.size ∧ b.portion pos length < length := by
  unfold Block.portion
  split <;> omega

/-- The loop reads the bytes of the chain. -/
theorem readBlocks_eq (hpos : ∀ b ∈ bs.head?, pos ≤ b.size) (h : pos + length ≤ total bs) :
    readBlocks file bs pos length = ((view file bs).load pos length, length) := by
  induction bs generalizing pos length with
  | nil =>
    obtain rfl : length = 0 := Nat.eq_zero_of_le_zero ((Nat.le_add_left _ _).trans h)
    rfl
  | cons b bs ih =>
    have hle := hpos b rfl
    unfold readBlocks
    by_cases hlen : length > 0
    · rw [if_pos hlen, Block.read_eq]
      simp only
      rw [ih (fun _ _ => Nat.zero_le _) (by rw [Nat.zero_add]; exact sub_portion_le hle h)]
      have hfit := portion_le length hle
      have hsplit : b.portion pos length + (length - b.portion pos length) = length := by
        rcases portion_cases length hle with hall | ⟨-, hlt⟩ <;> omega
      simp only [hsplit]
      congr 1
      conv_rhs => rw [← hsplit, Memory.load_add]
      congr 1
      · apply Memory.load_congr
        intro p _ hp
        exact (view_cons_of_lt (hp.trans_le hfit)).symm
      · rcases portion_cases length hle with hall | ⟨hend, -⟩
        · rw [hall, Nat.sub_self]
          rfl
        · -- the rest of the bytes starts with the next block
          rw [hend]
          unfold Memory.load
          simp only [Nat.zero_add, view_cons_add]
    · obtain rfl : length = 0 := Nat.eq_zero_of_not_pos hlen
      rfl

/-- The byte is in none of the extents. -/
def Outside (es : List Extent) (q : ℕ) : Prop := ∀ e ∈ es, ¬(e.offset ≤ q ∧ q < e.stop)

theorem extents_cons (b : Block β) (bs : List (Block β)) :
    extents (b :: bs) = b.extent.toList ++ extents bs := by
  rcases b with ⟨size, place⟩
  cases place with
  | memory address => rfl
  | file offset => rfl

variable {address : List β}

/-- What a write to one block does -/
structure Block.Wrote (file : Memory β) (b : Block β) (pos : ℕ) (address : List β)
    (r : Block β × Memory β × ℕ) : Prop where
  copied : r.2.2 = b.portion pos address.length
  size : r.1.size = b.size
  extent : r.1.extent = b.extent
  bytes : ∀ p < b.size, r.1.byte r.2.1 p = (b.byte file).store pos address p
  frame : ∀ q, Outside b.extent.toList q → r.2.1 q = file q

theorem Block.write_wrote (file : Memory β) (address : List β) (h : pos ≤ b.size) :
    Block.Wrote file b pos address (b.write file pos address) := by
  -- what is cut off is behind the block
  have htake : ∀ (m : Memory β) (p : ℕ), p < b.size →
      m.store pos (address.take (b.portion pos address.length)) p = m.store pos address p := by
    intro m p hp
    apply Memory.store_take
    rcases portion_cases address.length h with hall | ⟨hend, -⟩ <;> omega
  rcases b with ⟨size, place⟩
  cases place with
  | memory m => exact ⟨rfl, rfl, rfl, fun p hp => htake m p hp, fun _ _ => rfl⟩
  | file offset =>
    refine ⟨?_, rfl, rfl, fun p hp => ?_, fun q hq => ?_⟩
    · unfold Block.write SORT_write_block
      simp only [List.length_take]
      rcases portion_cases address.length h with hall | ⟨-, hlt⟩ <;> omega
    · exact (Memory.store_shift file offset pos _ p).symm.trans (htake _ p hp)
    · apply Memory.store_of_outside
      have hfit := portion_le address.length h
      have hout := hq ⟨offset, size⟩ (List.mem_singleton_self _)
      unfold Extent.stop at hout
      rw [List.length_take]
      simp only at hfit hout
      omega

/-- What is left goes to the next blocks. -/
theorem store_view_cons_add (file : Memory β) (bs : List (Block β)) (address : List β) (p : ℕ)
    (h : pos ≤ b.size) :
    (view file (b :: bs)).store pos address (b.size + p) =
      (view file bs).store 0 (address.drop (b.portion pos address.length)) p := by
  have hview : view file bs = fun q => view file (b :: bs) (b.size + q) :=
    funext fun q => view_cons_add.symm
  rw [hview, Memory.store_shift, Nat.add_zero]
  rcases portion_cases address.length h with hall | ⟨hend, -⟩
  · have hfit := portion_le address.length h
    rw [hall, List.drop_length, Memory.store_nil]
    rw [hall] at hfit
    exact Memory.store_of_outside (.inr (hfit.trans (Nat.le_add_right _ _)))
  · rw [← hend]
    exact (Memory.store_drop _ pos _ p).symm

/-- What the loop does -/
structure Wrote (file : Memory β) (bs : List (Block β)) (pos : ℕ) (address : List β)
    (r : List (Block β) × Memory β × ℕ) : Prop where
  copied : r.2.2 = address.length
  sizes : r.1.map Block.size = bs.map Block.size
  extents : Virtual.extents r.1 = Virtual.extents bs
  bytes : ∀ p < total bs, view r.2.1 r.1 p = (view file bs).store pos address p
  frame : ∀ q, Outside (Virtual.extents bs) q → r.2.1 q = file q

theorem writeBlocks_wrote (file : Memory β) (address : List β) (hpos : ∀ b ∈ bs.head?, pos ≤ b.size)
    (h : pos + address.length ≤ total bs) (hapart : (extents bs).Pairwise Apart) :
    Wrote file bs pos address (writeBlocks file bs pos address) := by
  induction bs generalizing file pos address with
  | nil =>
    have hnil : address = [] :=
      List.eq_nil_of_length_eq_zero (Nat.eq_zero_of_le_zero ((Nat.le_add_left _ _).trans h))
    subst hnil
    exact ⟨rfl, rfl, rfl, fun p hp => absurd hp (Nat.not_lt_zero p), fun _ _ => rfl⟩
  | cons b bs ih =>
    unfold writeBlocks
    by_cases hlen : address.length > 0
    · rw [if_pos hlen]
      have hle := hpos b rfl
      -- one block is written, and then the others with what is left
      have hb := Block.write_wrote file address hle
      have hn := hb.copied
      generalize b.write file pos address = r at hb hn
      obtain ⟨b', file₁, n⟩ := r
      simp only at hn ⊢
      subst hn
      rw [extents_cons, List.pairwise_append] at hapart
      obtain ⟨-, hbs, hcross⟩ := hapart
      have hdrop : 0 + (address.drop (b.portion pos address.length)).length ≤ total bs := by
        rw [Nat.zero_add, List.length_drop]
        exact sub_portion_le hle h
      have hrest := ih file₁ _ (fun _ _ => Nat.zero_le _) hdrop hbs
      generalize writeBlocks file₁ bs 0 _ = r at hrest
      obtain ⟨bs', file₂, copied⟩ := r
      have hsize : b'.size = b.size := hb.size
      constructor
      · change b.portion pos address.length + copied = address.length
        have hcopied := hrest.copied
        simp only [List.length_drop] at hcopied
        rcases portion_cases address.length hle with hall | ⟨-, hlt⟩ <;> omega
      · exact congrArg₂ List.cons hb.size hrest.sizes
      · rw [extents_cons, extents_cons, hb.extent, hrest.extents]
      · intro p hp
        by_cases hlt : p < b.size
        · -- the block keeps its bytes while the others are written
          have hkept : b'.byte file₂ p = b'.byte file₁ p := by
            refine byte_congr (fun e he q hlo hhi => hrest.frame q fun e' he' hq => ?_)
              (hlt.trans_eq hsize.symm)
            rw [hb.extent] at he
            exact apart_iff.mp (hcross e (Option.mem_toList.mpr he) e' he') q ⟨⟨hlo, hhi⟩, hq⟩
          rw [view_cons_of_lt (hlt.trans_eq hsize.symm), hkept, hb.bytes p hlt]
          exact Memory.store_congr (view_cons_of_lt hlt).symm
        · obtain ⟨p, rfl⟩ := Nat.exists_eq_add_of_le (Nat.le_of_not_lt hlt)
          rw [total_cons, Nat.add_lt_add_iff_left] at hp
          -- the others keep their bytes while the block is written
          have hkept : view file₁ bs p = view file bs p := by
            refine view_congr (fun e he q hlo hhi => hb.frame q fun e' he' hq => ?_) hp
            exact apart_iff.mp (hcross e' he' e he) q ⟨hq, hlo, hhi⟩
          calc view file₂ (b' :: bs') (b.size + p)
            _ = view file₂ bs' p := by rw [← hsize, view_cons_add]
            _ = (view file₁ bs).store 0 _ p := hrest.bytes p hp
            _ = (view file bs).store 0 _ p := Memory.store_congr hkept
            _ = _ := (store_view_cons_add file bs address p hle).symm
      · intro q hq
        rw [extents_cons] at hq
        have hfirst : Outside b.extent.toList q := fun e he => hq e (List.mem_append_left _ he)
        have hothers : Outside (Virtual.extents bs) q := fun e he =>
          hq e (List.mem_append_right _ he)
        exact (hrest.frame q hothers).trans (hb.frame q hfirst)
    · rw [if_neg hlen]
      obtain rfl : address = [] := List.eq_nil_of_length_eq_zero (Nat.eq_zero_of_not_pos hlen)
      exact ⟨rfl, rfl, rfl, fun p _ => by rw [Memory.store_nil], fun _ _ => rfl⟩

end

/-! ## Where `seek` ends -/

/-- The number of a block and a position in it, which are where `position` is in the chain -/
def Sought (bs : List (Block β)) (position : ℕ) (r : Option (ℕ × ℕ)) : Prop :=
  ∃ pre b post off, bs = pre ++ b :: post ∧ position = total pre + off ∧ off < b.size ∧
    r = some (pre.length, off)

section

variable {bs : List (Block β)} {position physicalSize : ℕ}

theorem walkForward_sought (h : position < total bs) :
    Sought bs position (walkForward bs position) := by
  induction bs generalizing position with
  | nil => exact absurd h (Nat.not_lt_zero position)
  | cons b bs ih =>
    rw [total_cons] at h
    unfold walkForward
    split
    · next hge =>
      obtain ⟨pre, c, post, off, rfl, hoff, hlt, hwalk⟩ := ih
        (show position - b.size < total bs by omega)
      refine ⟨b :: pre, c, post, off, rfl, ?_, hlt, by rw [hwalk]; rfl⟩
      rw [total_cons]
      omega
    · next hlt =>
      exact ⟨[], b, bs, position, rfl, (Nat.zero_add _).symm, Nat.lt_of_not_le hlt, rfl⟩

/-- The position grows by what has been passed, and what is left of the physical size is before
it. -/
theorem walkBackward_sought (hlt : position < physicalSize)
    (h : physicalSize ≤ position + total bs) :
    Sought bs (position + total bs - physicalSize)
      (walkBackward physicalSize bs.reverse position) := by
  induction bs using List.reverseRecOn generalizing position with
  | nil => exact absurd (hlt.trans_le h) (lt_irrefl _)
  | append_singleton bs b ih =>
    have htotal : total (bs ++ [b]) = total bs + b.size := by rw [total_append]; rfl
    rw [htotal] at h ⊢
    rw [List.reverse_append, List.reverse_singleton, List.singleton_append, walkBackward]
    split
    · obtain ⟨pre, c, post, off, hbs, hoff, hsize, hwalk⟩ := ih
        (show position + b.size < physicalSize by omega) (by omega)
      refine ⟨pre, c, post ++ [b], off, ?_, by omega, hsize, hwalk⟩
      rw [hbs, List.append_assoc, List.cons_append]
    · refine ⟨bs, b, [], position + b.size - physicalSize, rfl, by omega, by omega, ?_⟩
      rw [List.length_reverse]

theorem SortMem.seek_sought {s : SortMem β} (position : ℕ)
    (hphysical : s.physicalSize = total s.blocks) (h : position < s.physicalSize) :
    Sought s.blocks position (s.seek position) := by
  unfold SortMem.seek
  rw [if_pos h]
  split
  · exact walkForward_sought (hphysical ▸ h)
  · have hsought := walkBackward_sought h (hphysical.le.trans (Nat.le_add_left _ position))
    rwa [hphysical, Nat.add_sub_cancel, ← hphysical] at hsought

end

/-! ## What the operations keep and do -/

/-- What a scratch file keeps -/
structure SortMem.Inv (s : SortMem β) : Prop where
  physical : s.physicalSize = total s.blocks
  logical : s.logicalSize ≤ s.physicalSize
  file : Within 0 s.fileSize (extents s.blocks)
  disk : s.fileSize ≤ s.logicalSize

/-- The byte at a position -/
def SortMem.byte (s : SortMem β) : Memory β := view s.internal s.blocks

section

variable {cfg : Config} {s s' : SortMem β} {position length size : ℕ} {address : List β}
  {a : Allocations β}

/-- What more is allocated -/
structure SortMem.Grown (s : SortMem β) (size : ℕ) (s' : SortMem β) : Prop where
  inv : s'.Inv
  logical : s'.logicalSize = s.logicalSize + size
  bytes : ∀ p < s.logicalSize, s'.byte p = s.byte p

theorem SortMem.le_memorySize {n : ℕ} (h : s.memorySize cfg size a = some n) : size ≤ n := by
  unfold SortMem.memorySize at h
  grind

/-- The chain with one more block -/
theorem SortMem.Inv.grown (hs : s.Inv) (b : Block β) {logicalSize fileSize memTotalSize : ℕ}
    (hlogical : logicalSize = s.logicalSize + size) (hsize : size ≤ b.size)
    (hdisk : fileSize ≤ logicalSize) (hfile : Within 0 fileSize (extents (s.blocks ++ [b]))) :
    s.Grown size ⟨s.internal, logicalSize, s.physicalSize + b.size, fileSize, s.blocks ++ [b],
      memTotalSize⟩ := by
  refine ⟨⟨?_, ?_, hfile, hdisk⟩, hlogical, fun p hp => ?_⟩
  · rw [total_append, ← hs.physical]
    rfl
  · rw [hlogical]
    exact Nat.add_le_add hs.logical hsize
  · exact view_append_of_lt (hs.physical ▸ hp.trans_le hs.logical)

theorem extents_append (bs cs : List (Block β)) : extents (bs ++ cs) = extents bs ++ extents cs :=
  List.filterMap_append

theorem SortMem.allocate_grown (cfg : Config) (size : ℕ) (a : Allocations β) (hs : s.Inv) :
    (∃ s', s.allocate cfg size a = .ok s' ∧ s.Grown size s') ∨
      a.fileBlock = false ∧ s.allocate cfg size a = .error .badAlloc := by
  unfold SortMem.allocate
  split
  · dsimp only
    split
    · split
      · next n hn =>
        -- in memory there is no part of the file
        refine .inl ⟨_, rfl, hs.grown ⟨n, .memory a.garbage⟩ rfl (SortMem.le_memorySize hn)
          (hs.disk.trans (Nat.le_add_right _ size)) ?_⟩
        rw [extents_append]
        exact hs.file.append within_nil (Nat.zero_le _) le_rfl
      · split
        · refine .inl ⟨_, rfl, hs.grown ⟨size, .file s.fileSize⟩ rfl le_rfl
            (Nat.add_le_add_right hs.disk size) ?_⟩
          rw [extents_append]
          exact hs.file.append (within_singleton le_rfl) (Nat.zero_le _) (Nat.le_add_right _ _)
        · next hfile => exact .inr ⟨Bool.eq_false_iff.mpr hfile, rfl⟩
    · next hle =>
      exact .inl ⟨_, rfl, ⟨hs.physical, Nat.le_of_not_lt hle, hs.file,
        hs.disk.trans (Nat.le_add_right _ _)⟩, rfl, fun _ _ => rfl⟩
  · next hzero =>
    obtain rfl : size = 0 := Nat.eq_zero_of_not_pos hzero
    exact .inl ⟨s, rfl, hs, rfl, fun _ _ => rfl⟩

theorem total_congr {bs cs : List (Block β)} (h : bs.map Block.size = cs.map Block.size) :
    total bs = total cs := by
  rw [total, h, total]

/-- A chain that is written to from a block on -/
theorem view_append_wrote {file file' : Memory β} {pre bs bs' : List (Block β)} {off n p : ℕ}
    (hapart : (extents (pre ++ bs)).Pairwise Apart)
    (hwrote : Wrote file bs off address (bs', file', n)) (hp : p < total (pre ++ bs)) :
    view file' (pre ++ bs') p = (view file (pre ++ bs)).store (total pre + off) address p := by
  rw [extents_append, List.pairwise_append] at hapart
  obtain ⟨-, -, hcross⟩ := hapart
  by_cases hlt : p < total pre
  · rw [view_append_of_lt hlt, Memory.store_of_outside (.inl (hlt.trans_le (Nat.le_add_right _ _))),
      view_append_of_lt hlt]
    refine view_congr (fun e he q hlo hhi => hwrote.frame q fun e' he' hq => ?_) hlt
    exact apart_iff.mp (hcross e he e' he') q ⟨⟨hlo, hhi⟩, hq⟩
  · obtain ⟨p, rfl⟩ := Nat.exists_eq_add_of_le (Nat.le_of_not_lt hlt)
    rw [total_append, Nat.add_lt_add_iff_left] at hp
    have hview : view file bs = fun q => view file (pre ++ bs) (total pre + q) :=
      funext fun q => view_append_add.symm
    rw [view_append_add, hwrote.bytes p hp, hview, Memory.store_shift]

/-- What has been put is there, and what is in other places is as it was. -/
theorem SortMem.put_spec (hs : s.Inv) (h : position + address.length ≤ s.logicalSize) :
    ∃ s', s.put position address = (s', position + address.length) ∧ s'.Inv ∧
      s'.logicalSize = s.logicalSize ∧
      ∀ p < s.logicalSize, s'.byte p = s.byte.store position address p := by
  unfold SortMem.put
  split
  · next hlen =>
    have hle := h.trans hs.logical
    obtain ⟨pre, b, post, off, hbs, hoff, hlt, hseek⟩ :=
      SortMem.seek_sought position hs.physical (by omega)
    have hfit : off + address.length ≤ total (b :: post) := by
      rw [hs.physical, hbs, total_append] at hle
      omega
    have hapart := hs.file.1
    rw [hbs] at hapart
    have hpost : (extents (b :: post)).Pairwise Apart := by
      rw [extents_append] at hapart
      exact (List.pairwise_append.mp hapart).2.1
    -- from the block that is found on, the chain is written to
    have hwrote := writeBlocks_wrote s.internal address
      (fun c hc => by obtain rfl := Option.some.inj hc; exact hlt.le) hfit hpost
    rw [hseek]
    simp only [hbs, List.drop_left, List.take_left]
    generalize writeBlocks s.internal (b :: post) off address = r at hwrote
    obtain ⟨bs', file', n⟩ := r
    obtain rfl : n = address.length := hwrote.copied
    have htotal : total (pre ++ bs') = total s.blocks := by
      rw [hbs, total_append, total_append, total_congr hwrote.sizes]
    refine ⟨_, rfl, ⟨hs.physical.trans htotal.symm, hs.logical, ?_, hs.disk⟩, rfl, fun p hp => ?_⟩
    · rw [extents_append]
      change Within 0 s.fileSize (extents pre ++ extents bs')
      rw [hwrote.extents, ← extents_append, ← hbs]
      exact hs.file
    · have hphysical : p < total (pre ++ b :: post) := by
        rw [← hbs, ← hs.physical]
        exact hp.trans_le hs.logical
      have hview := view_append_wrote hapart hwrote hphysical
      rw [← hoff, ← hbs] at hview
      exact hview
  · next hlen =>
    obtain rfl : address = [] := List.eq_nil_of_length_eq_zero (Nat.eq_zero_of_not_pos hlen)
    exact ⟨s, rfl, hs, rfl, fun p _ => by rw [Memory.store_nil]⟩

/-- What a write does -/
structure SortMem.Written (s : SortMem β) (position : ℕ) (address : List β) (s' : SortMem β) :
    Prop where
  inv : s'.Inv
  logical : s.logicalSize ≤ s'.logicalSize
  fits : position + address.length ≤ s'.logicalSize
  inside : ∀ i, ∀ h : i < address.length, s'.byte (position + i) = address[i]
  outside : ∀ p < s.logicalSize, p < position ∨ position + address.length ≤ p →
    s'.byte p = s.byte p

theorem SortMem.Grown.put {s₁ : SortMem β} (h : s.Grown size s₁)
    (hfits : position + address.length ≤ s₁.logicalSize) :
    ∃ s', s₁.put position address = (s', position + address.length) ∧
      s.Written position address s' := by
  obtain ⟨s', hput, hinv, hlogical, hbytes⟩ := SortMem.put_spec h.inv hfits
  have hle : s.logicalSize ≤ s'.logicalSize := by
    rw [hlogical, h.logical]
    exact Nat.le_add_right _ _
  refine ⟨s', hput, hinv, hle, hlogical ▸ hfits, fun i hi => ?_, fun p hp hout => ?_⟩
  · rw [hbytes _ (by omega)]
    exact Memory.holds_store _ _ _ i hi
  · rw [hbytes p (hlogical ▸ hp.trans_le hle), Memory.store_of_outside hout, h.bytes p hp]

/-- A write returns where it ends, or there is no memory for a file block. -/
theorem SortMem.write_spec (position : ℕ) (address : List β) (a : Allocations β)
    (hcfg : 0 < cfg.memUpperLimit) (hs : s.Inv) :
    (∃ s', s.write cfg position address a = .ok (s', position + address.length) ∧
        s.Written position address s') ∨
      a.fileBlock = false ∧ s.write cfg position address a = .error .badAlloc := by
  unfold SortMem.write
  rw [if_neg (Nat.pos_iff_ne_zero.mp hcfg)]
  split
  · next hge =>
    rcases SortMem.allocate_grown cfg (position + address.length - s.logicalSize) a hs with
      ⟨s₁, hs₁, hgrown⟩ | ⟨hfile, herror⟩
    · have hfits : position + address.length ≤ s₁.logicalSize := by
        rw [hgrown.logical]
        omega
      obtain ⟨s', hput, hwritten⟩ := hgrown.put hfits
      refine .inl ⟨s', ?_, hwritten⟩
      rw [hs₁, Outcome.ok_bind, hput]
    · exact .inr ⟨hfile, by rw [herror]; rfl⟩
  · next hlt =>
    have hgrown : s.Grown 0 s := ⟨hs, rfl, fun _ _ => rfl⟩
    obtain ⟨s', hput, hwritten⟩ := hgrown.put (Nat.le_of_not_le hlt)
    exact .inl ⟨s', by rw [Outcome.ok_bind, hput], hwritten⟩

theorem SortMem.read_spec (hcfg : 0 < cfg.memUpperLimit) (hs : s.Inv)
    (h : length = 0 ∨ position + length ≤ s.logicalSize) :
    s.read cfg position length = (s.byte.load position length, position + length) := by
  unfold SortMem.read
  rw [if_neg (Nat.pos_iff_ne_zero.mp hcfg)]
  split
  · next hlen =>
    have hle : position + length ≤ s.physicalSize := (h.resolve_left hlen.ne').trans hs.logical
    obtain ⟨pre, b, post, off, hbs, hoff, hlt, hseek⟩ :=
      SortMem.seek_sought position hs.physical (by omega)
    have hfit : off + length ≤ total (b :: post) := by
      rw [hs.physical, hbs, total_append] at hle
      omega
    rw [hseek]
    simp only [hbs, List.drop_left]
    rw [readBlocks_eq (fun c hc => by obtain rfl := Option.some.inj hc; exact hlt.le) hfit]
    unfold SortMem.byte Memory.load
    simp only [hbs, hoff, Nat.add_assoc, view_append_add]
  · next hlen =>
    obtain rfl : length = 0 := Nat.eq_zero_of_not_pos hlen
    rfl

end

/-! ## Runs -/

/-- What has last been written to a place, where the last write stands first -/
def lastWritten : List (ℕ × List β) → ℕ → Option β
  | [], _ => none
  | (position, address) :: earlier, p =>
    if position ≤ p ∧ p < position + address.length then address[p - position]?
    else lastWritten earlier p

/-- The scratch files that come about by calls, with what has been written. A read leaves the file
as it is, and other scratch files allocate and free memory. -/
inductive Reachable (cfg : Config) : List (ℕ × List β) → SortMem β → Prop where
  | new {internal memTotalSize size a s} :
    SortMem.new cfg internal memTotalSize size a = .ok s → Reachable cfg [] s
  | write {history s position address a s' n} : Reachable cfg history s →
    s.write cfg position address a = .ok (s', n) → Reachable cfg ((position, address) :: history) s'
  | others {history s} (memTotalSize : ℕ) : Reachable cfg history s →
    Reachable cfg history { s with memTotalSize }

section

variable {cfg : Config} {history : List (ℕ × List β)} {s : SortMem β}

/-- What has been written is in the file. -/
def Holds (history : List (ℕ × List β)) (s : SortMem β) : Prop :=
  ∀ p, ∀ v ∈ lastWritten history p, p < s.logicalSize ∧ s.byte p = v

theorem holds_written {s' : SortMem β} {position : ℕ} {address : List β} (h : Holds history s)
    (hw : s.Written position address s') : Holds ((position, address) :: history) s' := by
  intro p v hv
  unfold lastWritten at hv
  -- the place is in this write, or it has kept what it had
  split at hv
  · next hin =>
    obtain ⟨i, rfl⟩ := Nat.exists_eq_add_of_le hin.1
    rw [Nat.add_sub_cancel_left] at hv
    obtain ⟨hi, rfl⟩ := List.getElem?_eq_some_iff.mp hv
    exact ⟨hin.2.trans_le hw.fits, hw.inside i hi⟩
  · next hout =>
    obtain ⟨hp, hbyte⟩ := h p v hv
    exact ⟨hp.trans_le hw.logical, (hw.outside p hp (by omega)).trans hbyte⟩

/-- The invariant of all runs -/
theorem Reachable.inv (hcfg : 0 < cfg.memUpperLimit) (h : Reachable cfg history s) :
    s.Inv ∧ Holds history s := by
  induction h with
  | @new internal memTotalSize size a s hnew =>
    refine ⟨?_, fun p v hv => by cases hv⟩
    have hempty : SortMem.Inv ⟨internal, 0, 0, 0, [], memTotalSize⟩ :=
      ⟨rfl, le_rfl, within_nil, le_rfl⟩
    rcases SortMem.allocate_grown cfg size a hempty with
      ⟨s', hs', hgrown⟩ | ⟨-, herror⟩
    · obtain rfl := Except.ok.inj (hnew.symm.trans hs')
      exact hgrown.inv
    · cases hnew.symm.trans herror
  | @write history s position address a s' n _ hwrite ih =>
    rcases SortMem.write_spec position address a hcfg ih.1 with
      ⟨s'', hs'', hw⟩ | ⟨-, herror⟩
    · obtain ⟨rfl, -⟩ := Prod.mk.inj (Except.ok.inj (hwrite.symm.trans hs''))
      exact ⟨hw.inv, holds_written ih.2 hw⟩
    · cases hwrite.symm.trans herror
  | others memTotalSize _ ih => exact ⟨⟨ih.1.1, ih.1.2, ih.1.3, ih.1.4⟩, ih.2⟩

/-- A scratch file reads back what was written: over what has been written a read gives for each
byte what was last written there. A call returns the position and the length, where a write finds
memory for a file block, and the blocks on disk are apart. -/
theorem scratch_reads_back (hcfg : 0 < cfg.memUpperLimit) (h : Reachable cfg history s) :
    (∀ position length,
      (∀ p, position ≤ p → p < position + length → (lastWritten history p).isSome) →
      ∃ bytes, s.read cfg position length = (bytes, position + length) ∧ bytes.length = length ∧
        ∀ i < length, bytes[i]? = lastWritten history (position + i)) ∧
    (∀ position address a,
      (∃ s', s.write cfg position address a = .ok (s', position + address.length)) ∨
        a.fileBlock = false ∧ s.write cfg position address a = .error .badAlloc) ∧
    (extents s.blocks).Pairwise Apart := by
  obtain ⟨hinv, hholds⟩ := h.inv hcfg
  refine ⟨fun position length hwritten => ?_, fun position address a => ?_, hinv.file.1⟩
  · -- the last byte has been written, so that the read ends in the file
    have hfits : length = 0 ∨ position + length ≤ s.logicalSize := by
      rcases Nat.eq_zero_or_pos length with hzero | hpos
      · exact .inl hzero
      · obtain ⟨v, hv⟩ := Option.isSome_iff_exists.mp
          (hwritten (position + length - 1) (by omega) (by omega))
        have hlast := (hholds _ v hv).1
        omega
    refine ⟨_, SortMem.read_spec hcfg hinv hfits, Memory.length_load _ _ _, fun i hi => ?_⟩
    obtain ⟨v, hv⟩ := Option.isSome_iff_exists.mp
      (hwritten (position + i) (Nat.le_add_right _ _) (Nat.add_lt_add_left hi _))
    rw [hv, ← (hholds _ v hv).2]
    unfold Memory.load
    rw [List.getElem?_map, List.getElem?_range hi, Option.map_some]
  · rcases SortMem.write_spec position address a hcfg hinv with ⟨s', hs', -⟩ | herror
    · exact .inl ⟨s', hs'⟩
    · exact .inr herror

/-- A file with a block in memory, which has one byte more than was asked for, and one on disk -/
theorem scratch_reads_back_blocks :
    ∃ s : SortMem ℕ, Reachable ⟨4, 4⟩ [(1, [5, 6, 7, 8, 9])] s ∧
      extents s.blocks = [⟨0, 3⟩] ∧
      ∃ bytes, s.read ⟨4, 4⟩ 2 4 = (bytes, 6) ∧ bytes.length = 4 ∧
        ∀ i < 4, bytes[i]? = lastWritten [(1, [5, 6, 7, 8, 9])] (2 + i) := by
  have hnew : SortMem.new ⟨4, 4⟩ (fun _ => 0) 0 3 ⟨true, true, true, fun _ => 0⟩ = .ok _ := rfl
  have hreach : Reachable ⟨4, 4⟩ [(1, [5, 6, 7, 8, 9])] _ :=
    .write (a := ⟨true, true, true, fun _ => 0⟩) (.new hnew) rfl
  refine ⟨_, hreach, rfl, (scratch_reads_back (by decide) hreach).1 2 4 fun p hlo hhi => ?_⟩
  unfold lastWritten
  rw [if_pos ⟨by omega, hhi.trans_eq rfl⟩, List.getElem?_eq_getElem (by change p - 1 < 5; omega)]
  rfl

end

end Firebird.Virtual
