import Firebird.Lib.Longs
import Firebird.Lib.Outcome
import Firebird.Lib.Transition

/-! # The event region (`jrd/event.cpp`)

The blocks of the event manager are in a mapped file, at offsets from its start. Each begins with its
length and its type; the free ones have the offset of the next free block behind these. The region
begins with the header `evh`, which has the offset of the first free block.

An access outside what is mapped stops the process. The watcher thread, which a Windows build waits
for before it maps the file again, is not modelled.
-/

namespace Firebird.Event

open Wrap Transition

/-- The sizes of a build: `sizeof (IPTR)` and `sizeof (struct evh)`. The length and the first free
block are in the header, and the file begins with room for more than the header. -/
structure Build where
  iptr : ℕ
  evh : ℕ
  iptr_eq : iptr = 4 ∨ iptr = 8
  le_evh : 28 ≤ evh
  evh_le : evh + 12 ≤ 32768

/-- A build for 32 bits without threads -/
def build32 : Build := ⟨4, 72, .inl rfl, by decide, by decide⟩

def eventDefaultSize : ℕ := 32768
def eventExtendSize : ℕ := 32768

def sizeofHdr : ℕ := 8
def sizeofFrb : ℕ := 12

/-! Where the fields are -/

def evhLength : ℕ := 0
def evhFree : ℕ := 24
def hdrType : ℕ := 4
def frbNext : ℕ := 8

def typeFrb : UCHAR := 2

/-- `ROUNDUP (length, sizeof (IPTR))` of an unsigned long -/
def Build.roundUp (S : Build) (length : ℕ) : ℕ :=
  (length + S.iptr - 1) / S.iptr * S.iptr % 4294967296

/-- Why a call does not return: an access outside what is mapped, a list without an end, or
"Event table space exhausted" -/
inductive Stop
  | outside
  | endless
  | exhausted
  deriving DecidableEq, Repr

/-- The mapped file and `EVENT_data.sh_mem_length_mapped` -/
structure Region where
  mem : Memory UCHAR
  mapped : ℕ

namespace Region

def get (r : Region) (p : ℕ) : Except Stop ℤ :=
  if p + 4 ≤ r.mapped then .ok (r.mem.long p) else .error .outside

def put (r : Region) (p : ℕ) (v : ℤ) : Except Stop Region :=
  if p + 4 ≤ r.mapped then .ok { r with mem := r.mem.putLong p v } else .error .outside

/-- `memset`, for which a negative size is a very large one -/
def fill (r : Region) (p : ℕ) (x : UCHAR) (n : ℤ) : Except Stop Region :=
  if 0 ≤ n ∧ p + n ≤ r.mapped then
    .ok { r with mem := r.mem.store p (List.replicate n.toNat x) }
  else .error .outside

end Region

/-- `ABS_PTR` -/
def absPtr (offset : ℤ) : Except Stop ℕ :=
  if offset < 0 then .error .outside else .ok offset.toNat

/-! ## `free_global` -/

/-- The loop of `free_global`: the link, the free block in front of it and the one behind it -/
def findFree (r : Region) (block : ℕ) : ℕ → ℕ → Option ℕ → Except Stop (ℕ × Option ℕ × ℕ)
  | 0, _, _ => .error .endless
  | k + 1, ptr, prior => do
      let free ← absPtr (← r.get ptr)
      if free = 0 ∨ block < free then return (ptr, prior, free)
      else findFree r block k (free + frbNext) (some free)

/-- Whether the block is bad: its offset, or that it begins in the free block in front of it -/
def badBlock (r : Region) (block : ℕ) (prior : Option ℕ) : Except Stop Bool := do
  if block = 0 ∨ (← r.get evhLength) < block then return true
  else
    match prior with
    | none => return false
    | some prior => return decide (block < prior + (← r.get prior))

/-- A block takes in the next one if they adjoin. -/
def mergeNext (r : Region) (block next : ℕ) : Except Stop Region := do
  if block + (← r.get block) = next then
    let r ← r.put block ((← r.get block) + (← r.get next))
    r.put (block + frbNext) (← r.get (next + frbNext))
  else return r

/-- `free_global`. At the end of the list `free` is the header of the region, not a null pointer. -/
def freeGlobal (r : Region) (block : ℕ) : Except Stop Region := do
  let r ← r.fill (block + hdrType) typeFrb 1
  let (ptr, prior, free) ← findFree r block r.mapped evhFree none
  if ← badBlock r block prior then return r
  else
    let r ← r.put (block + frbNext) (← r.get ptr)
    let r ← r.put ptr block
    let r ← mergeNext r block free
    match prior with
    | none => return r
    | some prior => mergeNext r prior block

/-! ## `alloc_global` -/

/-- The loop of `alloc_global`: the link to the block that fits best, and what it has more -/
def bestFit (r : Region) (length : ℕ) : ℕ → ℕ → Option (ℕ × ℤ) → Except Stop (Option (ℕ × ℤ))
  | 0, _, _ => .error .endless
  | k + 1, ptr, best => do
      let free ← absPtr (← r.get ptr)
      if free = 0 then return best
      else
        let tail := toInt32 ((← r.get free) - length)
        let best := if 0 ≤ tail ∧ best.all (tail < ·.2) then some (ptr, tail) else best
        bestFit r length k (free + frbNext) best

/-- A free block is taken as it is. -/
def unlink (r : Region) (best free : ℕ) : Except Stop (Region × ℕ) := do
  let r ← r.put best (← r.get (free + frbNext))
  return (r, free)

/-- A block is cut from the end of a free block. -/
def cut (r : Region) (length free : ℕ) : Except Stop (Region × ℕ) := do
  let rest := toInt32 ((← r.get free) - length)
  let r ← r.put free rest
  let block ← absPtr (free + rest)
  let r ← r.put block length
  return (r, block)

/-- What is behind the length of a block is cleared, and the type is set. -/
def clear (r : Region) (type : UCHAR) (block : ℕ) : Except Stop Region := do
  let r ← r.fill (block + sizeofHdr) 0 ((← r.get block) - sizeofHdr)
  r.fill (block + hdrType) type 1

/-- `alloc_global`, when there is a block that fits -/
def take (r : Region) (type : UCHAR) (length : ℕ) (best : ℕ × ℤ) : Except Stop (Region × ℕ) := do
  let free ← absPtr (← r.get best.1)
  let (r, block) ← if best.2 < sizeofFrb then unlink r best.1 free else cut r length free
  let r ← clear r type block
  return (r, block)

/-- `ISC_remap_file` with the length `EVENT_EXTEND_SIZE` more; a length that is negative as a long is
not mapped. -/
def remapFile (r : Region) (available : Bool) : Option Region :=
  let evLength := toInt32 (r.mapped + eventExtendSize)
  if available ∧ 0 < evLength then some { r with mapped := evLength.toNat } else none

/-- What has been mapped behind the old length becomes a free block. -/
def addExtension (r : Region) (oldLength : ℕ) : Except Stop Region := do
  let r ← r.put oldLength (r.mapped - oldLength)
  let r ← r.fill (oldLength + hdrType) typeFrb 1
  let r ← r.put (oldLength + frbNext) 0
  let r ← r.put evhLength r.mapped
  freeGlobal r oldLength

/-- `alloc_global`, with what it does when no block fits -/
def allocFrom (S : Build) (r : Region) (type : UCHAR) (length : ℕ)
    (extend : ℕ → Except Stop (Region × ℕ)) : Except Stop (Region × ℕ) := do
  let length := S.roundUp length
  match ← bestFit r length r.mapped evhFree none with
  | some best => take r type length best
  | none => extend length

/-- `alloc_global` with `recurse` true -/
def allocAgain (S : Build) (r : Region) (type : UCHAR) (length : ℕ) : Except Stop (Region × ℕ) :=
  allocFrom S r type length fun _ => .error .exhausted

/-- `alloc_global` with `recurse` false; `available` tells whether the file can be mapped again. -/
def allocGlobal (S : Build) (r : Region) (type : UCHAR) (length : ℕ) (available : Bool) :
    Except Stop (Region × ℕ) :=
  allocFrom S r type length fun length =>
    match remapFile r available with
    | none => .error .exhausted
    | some r' => do allocAgain S (← addExtension r' r.mapped) type length

/-! ## Runs -/

/-- `init`, on a file with any content -/
def init (S : Build) (mem : Memory UCHAR) : Except Stop Region := do
  let r : Region := ⟨mem, eventDefaultSize⟩
  let r ← r.put evhLength r.mapped
  let r ← r.put S.evh (r.mapped - S.evh)
  let r ← r.fill (S.evh + hdrType) typeFrb 1
  let r ← r.put (S.evh + frbNext) 0
  r.put evhFree S.evh

/-- The region, and the live blocks with the lengths that were asked for -/
structure State where
  region : Region
  live : List (ℕ × ℕ)

/-- The event manager writes in the header of the region, apart from its length and the first free
block, and in the live blocks behind their headers. -/
def Writable (S : Build) (s : State) (p n : ℕ) : Prop :=
  evhLength + 4 ≤ p ∧ p + n ≤ evhFree ∨ evhFree + 4 ≤ p ∧ p + n ≤ S.evh ∨
    ∃ b ∈ s.live, b.1 + sizeofHdr ≤ p ∧ p + n ≤ b.1 + s.region.mem.long b.1

instance (S : Build) (s : State) (p n : ℕ) : Decidable (Writable S s p n) :=
  inferInstanceAs (Decidable (_ ∨ _ ∨ _))

inductive Op
  | alloc (type : UCHAR) (length : ℕ) (available : Bool)
  | free (block : ℕ)
  | write (p : ℕ) (bytes : List UCHAR)

/-- One operation, if it returns. The length is an unsigned long, and the freed block a live one. -/
def next (S : Build) (s : State) : Op → Option State
  | .alloc type length available =>
      if length < 4294967296 then
        (allocGlobal S s.region type length available).toOption.map fun a =>
          ⟨a.1, (a.2, length) :: s.live⟩
      else none
  | .free block =>
      (s.live.find? (·.1 = block)).bind fun b =>
        (freeGlobal s.region block).toOption.map fun r => ⟨r, s.live.erase b⟩
  | .write p bytes =>
      if Writable S s p bytes.length then
        some { s with region := { s.region with mem := s.region.mem.store p bytes } }
      else none

/-- The runs of the event manager from a new region -/
def manager (S : Build) : System State Op where
  init s := s.live = [] ∧ ∃ mem, init S mem = .ok s.region
  step s op s' := next S s op = some s'

end Firebird.Event
