import Firebird.Alloc.Pool
import Firebird.Tree.Pages

/-! # Pending blocks and the flag for them

While `needSpare` is clear there is a spare leaf page and no block is pending. Any page that is taken
or given back sets the flag, and `updateSpare` clears it again. This is right as long as
`updateSpare` is given the external memory that it asks for.
-/

namespace Firebird.MemoryPool

open BePlus

variable {S : Platform} {m m' m₀ : PoolMemory} {p p' : MemoryPool} {spare : ℕ → Option Addr}
  {k n n' size : ℕ} {type : ℤ}

/-- What the flag is for -/
def Ready (m : PoolMemory) : Prop :=
  m.needSpare = false → m.pendingFree = [] ∧ m.spareLeafs ≠ []

/-- The memory is from `m`; if the flag is clear, no page has been taken since. -/
def Kept (m m' : PoolMemory) : Prop :=
  m'.needSpare = false → m.needSpare = false ∧ m'.spareLeafs = m.spareLeafs ∧
    (m.pendingFree = [] → m'.pendingFree = [])

def HasLeaf (m : PoolMemory) : Prop := m.needSpare = false → m.spareLeafs ≠ []

theorem Kept.refl (m : PoolMemory) : Kept m m := fun h => ⟨h, rfl, id⟩

theorem Kept.trans (h : Kept m₀ m) (h' : Kept m m') : Kept m₀ m' := by
  intro hclear
  obtain ⟨hclear', hleafs', hpending'⟩ := h' hclear
  obtain ⟨hclear₀, hleafs, hpending⟩ := h hclear'
  exact ⟨hclear₀, hleafs'.trans hleafs, fun hnil => hpending' (hpending hnil)⟩

theorem Kept.of_set (h : m'.needSpare = true) : Kept m m' := by
  intro hclear
  rw [h] at hclear
  cases hclear

theorem Kept.hasLeaf (h : Kept m m') (hleaf : HasLeaf m) : HasLeaf m' := by
  intro hclear
  obtain ⟨hclear', hleafs, -⟩ := h hclear
  rw [hleafs]
  exact hleaf hclear'

theorem Kept.ready (h : Kept m m') (hready : Ready m) : Ready m' := by
  intro hclear
  obtain ⟨hclear', hleafs, hpending⟩ := h hclear
  obtain ⟨hnil, hne⟩ := hready hclear'
  rw [hleafs]
  exact ⟨hpending hnil, hne⟩

theorem Ready.hasLeaf (h : Ready m) : HasLeaf m := fun hclear => (h hclear).2

/-! ## The pages of the tree -/

theorem needSpare_treeAlloc (size : ℕ) {temp : Addr} (h : treeAlloc S size m = some (temp, m')) :
    m'.needSpare = true := by
  rw [treeAlloc] at h
  split at h
  · obtain ⟨temp, -, heq⟩ := Option.map_eq_some_iff.mp h
    cases heq
    rfl
  · split at h
    · obtain ⟨temp, -, heq⟩ := Option.map_eq_some_iff.mp h
      cases heq
      rfl
    · cases h

/-- A leaf page cannot be taken only if there is no spare one. -/
theorem spareLeafs_of_none (h : treeAlloc S S.itemList m = none) : m.spareLeafs = [] := by
  by_contra hne
  rw [treeAlloc, if_pos ⟨rfl, Or.inr hne⟩, Option.map_eq_none_iff, List.getLast?_eq_none_iff] at h
  exact hne h

theorem needSpare_leafPage {temp : Addr} (h : (allocator S).leafPage m = some (temp, m')) :
    m'.needSpare = true :=
  needSpare_treeAlloc S.itemList h

theorem needSpare_nodePage {temp : Addr} (h : (allocator S).nodePage m = some (temp, m')) :
    m'.needSpare = true :=
  needSpare_treeAlloc S.nodeList h

theorem kept_add {t t' : BePlus.Tree BlockInfo} {item : BlockInfo}
    (h : t.add freeParams (allocator S) m item = .added t' m') : Kept m m' := by
  have hends : (t.add freeParams (allocator S) m item).Ends (Kept m) :=
    Tree.add_kept (fun h _ => Kept.of_set (needSpare_nodePage h)) (fun _ _ _ => Kept.of_set rfl)
      (fun h _ => Kept.of_set (needSpare_leafPage h)) (Kept.refl m)
  exact hends.added h

/-- An exception leaves the flag set, unless there was no spare leaf page. -/
theorem needSpare_thrown {t t' : BePlus.Tree BlockInfo} {item v : BlockInfo} (hleaf : HasLeaf m)
    (h : t.add freeParams (allocator S) m item = .thrown t' m' v) : m'.needSpare = true := by
  obtain ⟨hnone, rfl⟩ | hset := Tree.add_thrown (Q := fun m => m.needSpare = true)
    (fun h _ => needSpare_nodePage h) (fun _ _ _ => rfl) (fun h => needSpare_leafPage h) h
  · by_contra hclear
    rw [Bool.not_eq_true] at hclear
    exact hleaf hclear (spareLeafs_of_none hnone)
  · exact hset

theorem kept_fastRemove {c : Cursor} (h : p.fastRemove S c = some p') : Kept p.memory p'.memory := by
  rw [fastRemove] at h
  obtain ⟨r, hr, rfl⟩ := Option.map_eq_some_iff.mp h
  exact Tree.fastRemove_kept (fun _ _ _ => Kept.of_set rfl) (Kept.refl p.memory) hr

theorem kept_addFreeBlock {blk : Addr} (hleaf : HasLeaf p.memory)
    (h : p.addFreeBlock S blk = some p') : Kept p.memory p'.memory := by
  rw [addFreeBlock] at h
  split at h
  · cases h
    exact Kept.refl p.memory
  · rename_i hadd
    cases h
    exact kept_add hadd
  · rename_i hadd
    cases h
    exact Kept.of_set (needSpare_thrown hleaf hadd :)
  · cases h

theorem kept_erase (m : PoolMemory) (itr : Addr) :
    Kept m { m with pendingFree := m.pendingFree.erase itr } := by
  refine fun hclear => ⟨hclear, rfl, fun hnil => ?_⟩
  rw [hnil]
  rfl

theorem kept_removeFreeBlock {blk : Addr} (h : p.removeFreeBlock S blk = some p') :
    Kept p.memory p'.memory := by
  rw [removeFreeBlock] at h
  dsimp only at h
  split at h
  · exact kept_fastRemove h
  · cases h
    exact kept_erase p.memory (blk + S.header)

/-! ## Allocations -/

theorem kept_modifyBlock (p : MemoryPool) (blk : Addr) (f : MemoryBlock → MemoryBlock) :
    Kept p.memory (p.modifyBlock blk f).memory :=
  fun hclear => ⟨hclear, rfl, id⟩

theorem kept_cutEnd (p : MemoryPool) (block : Addr) (size : ℕ) (type : ℤ) :
    Kept p.memory (p.cutEnd S block size type).2.memory := by
  rw [cutEnd]
  dsimp only
  split <;> exact fun hclear => ⟨hclear, rfl, id⟩

theorem kept_allocFree {c : Cursor} {r : Option Addr × MemoryPool} (hleaf : HasLeaf p.memory)
    (h : p.allocFree S c size type = some r) : Kept p.memory r.2.memory := by
  rw [allocFree] at h
  dsimp only at h
  split at h
  · rw [Option.bind_eq_bind, Option.bind_eq_some_iff] at h
    obtain ⟨p₁, hremove, heq⟩ := h
    cases heq
    have hremoved := kept_fastRemove hremove
    exact (kept_modifyBlock p _ _).trans hremoved
  · have hcut := kept_cutEnd (S := S) p (p.freeBlocks.current c).block size type
    split at h
    · cases h
      exact hcut
    · simp only [Option.bind_eq_bind, Option.bind_eq_some_iff] at h
      obtain ⟨p₁, hremove, p₂, hadd, heq⟩ := h
      cases heq
      have hremoved := hcut.trans (kept_fastRemove hremove)
      have hadded := kept_addFreeBlock (hremoved.hasLeaf hleaf) hadd
      exact hremoved.trans hadded

theorem kept_allocPending (p : MemoryPool) (itr : Addr) (size : ℕ) (type : ℤ) :
    Kept p.memory (p.allocPending S itr size type).2.memory := by
  rw [allocPending]
  dsimp only
  split
  · exact (kept_modifyBlock p _ _).trans (kept_erase _ itr)
  · exact kept_cutEnd p (itr - S.header) size type

theorem kept_allocExtent {extent : Addr} {r : Option Addr × MemoryPool} (hleaf : HasLeaf p.memory)
    (h : p.allocExtent S extent size type = some r) : Kept p.memory r.2.memory := by
  rw [allocExtent] at h
  dsimp only at h
  split at h
  · cases h
    exact fun hclear => ⟨hclear, rfl, id⟩
  · obtain ⟨p₁, hadd, heq⟩ := Option.map_eq_some_iff.mp h
    cases heq
    have hcut : Kept p.memory ((p.addExtent S extent size).cutBegin S (extent + S.extentHeader)
        (allocSize S size - S.extentHeader - S.header) size type).2.memory :=
      fun hclear => ⟨hclear, rfl, id⟩
    have hadded := kept_addFreeBlock (hcut.hasLeaf hleaf) hadd
    exact hcut.trans hadded

/-- `internal_alloc` -/
theorem kept_internalAlloc {ext : Option Addr} {r : Option Addr × MemoryPool}
    (hleaf : HasLeaf p.memory) (h : p.internalAlloc S size type ext = some r) :
    Kept p.memory r.2.memory := by
  rw [internalAlloc] at h
  dsimp only at h
  split at h
  · exact kept_allocFree hleaf h
  · split at h
    · cases h
      exact kept_allocPending p _ _ type
    · exact kept_allocExtent hleaf h
    · cases h
      exact Kept.refl p.memory

/-- External memory that is given is enough. -/
theorem internalAlloc_isSome {extent : Addr} {r : Option Addr × MemoryPool}
    (h : p.internalAlloc S size type (some extent) = some r) : r.1.isSome := by
  rw [internalAlloc] at h
  dsimp only at h
  split at h
  · rw [allocFree] at h
    dsimp only at h
    split at h
    · rw [Option.bind_eq_bind, Option.bind_eq_some_iff] at h
      obtain ⟨p₁, -, heq⟩ := h
      cases heq
      rfl
    · split at h
      · cases h
        rfl
      · simp only [Option.bind_eq_bind, Option.bind_eq_some_iff] at h
        obtain ⟨p₁, -, p₂, -, heq⟩ := h
        cases heq
        rfl
  · split at h
    · rw [allocPending] at h
      dsimp only at h
      split at h <;> cases h <;> rfl
    · rename_i heq
      cases heq
      rw [allocExtent] at h
      dsimp only at h
      split at h
      · cases h
        rfl
      · obtain ⟨p₁, -, heq⟩ := Option.map_eq_some_iff.mp h
        cases heq
        rfl
    · rename_i heq
      cases heq

/-! ## `updateSpare` -/

/-- External memory is always given to `updateSpare`. -/
def Served (spare : ℕ → Option Addr) : Prop := ∀ n, spare n ≠ none

section Fill

variable {enough : MemoryPool → Bool} {put : Addr → MemoryPool → MemoryPool} {r : Bool × ℕ × MemoryPool}

/-- A loop for spare pages ends with enough of them. -/
theorem fillSpare_enough (hserved : Served spare)
    (h : fillSpare S enough size type put spare k n p = some r) : r.1 = true ∧ enough r.2.2 = true := by
  induction k generalizing n p with
  | zero => cases h
  | succ k ih =>
      rw [fillSpare] at h
      split at h
      · rename_i henough
        cases h
        exact ⟨rfl, henough⟩
      · split at h
        · cases h
        · rename_i halloc
          -- memory has been asked for, and it was not given
          obtain ⟨extent, hspare⟩ := Option.ne_none_iff_exists'.mp (hserved n)
          rw [hspare] at halloc
          cases internalAlloc_isSome halloc
        · exact ih h

theorem kept_fillSpare (hput : ∀ temp (p : MemoryPool), Kept p.memory (put temp p).memory)
    (hleaf : HasLeaf p.memory) (h : fillSpare S enough size type put spare k n p = some r) :
    Kept p.memory r.2.2.memory := by
  induction k generalizing n p with
  | zero => cases h
  | succ k ih =>
      rw [fillSpare] at h
      split at h
      · cases h
        exact Kept.refl p.memory
      · split at h
        · cases h
        · rename_i halloc
          cases h
          exact kept_internalAlloc (r := (none, _)) hleaf halloc
        · rename_i temp p₁ halloc
          have hkept : Kept p.memory (put temp p₁).memory :=
            (kept_internalAlloc (r := (some temp, p₁)) hleaf halloc).trans (hput temp p₁)
          exact hkept.trans (ih (hkept.hasLeaf hleaf) h)

end Fill

theorem kept_addNode (temp : Addr) (p : MemoryPool) : Kept p.memory (addNode temp p).memory :=
  fun hclear => ⟨hclear, rfl, id⟩

/-- The loop for the pending blocks ends when there are none. -/
theorem addPending_spec (h : addPending S k p = some p') :
    p'.memory.pendingFree = [] ∧ Kept p.memory p'.memory := by
  induction k generalizing p with
  | zero => cases h
  | succ k ih =>
      rw [addPending] at h
      split at h
      · rename_i hnil
        cases h
        exact ⟨hnil, Kept.refl _⟩
      · rename_i temp pendingFree hcons
        have htail : Kept p.memory { p.memory with pendingFree := pendingFree } := by
          refine fun hclear => ⟨hclear, rfl, fun hnil => ?_⟩
          rw [hcons] at hnil
          cases hnil
        dsimp only at h
        split at h
        · obtain ⟨hnil, hkept⟩ := ih h
          exact ⟨hnil, htail.trans hkept⟩
        · rename_i hadd
          obtain ⟨hnil, hkept⟩ := ih h
          exact ⟨hnil, (htail.trans (kept_add hadd)).trans hkept⟩
        · cases h
        · cases h

/-- `updateSpare` clears the flag rightly. -/
theorem ready_updateSpare (hserved : Served spare) (h : p.updateSpare S spare k n = some p') :
    Ready p'.memory := by
  induction k generalizing n p with
  | zero => cases h
  | succ k ih =>
      rw [updateSpare] at h
      dsimp only at h
      split at h
      · cases h
      · rename_i hleafs
        cases (fillSpare_enough hserved hleafs).1
      · rename_i p₁ hleafs
        have hcount : leafCapacity ≤ p₁.memory.spareLeafs.length :=
          of_decide_eq_true (fillSpare_enough hserved hleafs).2
        have hne : p₁.memory.spareLeafs ≠ [] := by
          intro hnil
          rw [hnil] at hcount
          cases hcount
        split at h
        · cases h
        · rename_i hnodes
          cases (fillSpare_enough hserved hnodes).1
        · rename_i p₂ hnodes
          have hkept : Kept p₁.memory p₂.memory :=
            kept_fillSpare kept_addNode (fun _ => hne) hnodes
          split at h
          · cases h
          · rename_i p₃ hadd
            obtain ⟨hnil, hkept'⟩ := addPending_spec hadd
            split at h
            · exact ih h
            · cases h
              refine fun hclear => ⟨hnil, ?_⟩
              rw [((hkept.trans hkept') hclear).2.1]
              exact hne

/-! ## Runs -/

theorem ready_finish (hserved : Served spare) (hready : Ready p.memory)
    (h : p.finish S spare k = some p') : Ready p'.memory := by
  rw [finish] at h
  split at h
  · exact ready_updateSpare hserved h
  · cases h
    exact hready

theorem kept_mergeNext {blk next : Addr} (h : p.mergeNext S blk next = some p') :
    Kept p.memory p'.memory := by
  rw [mergeNext, Option.bind_eq_bind, Option.bind_eq_some_iff] at h
  obtain ⟨p₁, hremove, heq⟩ := h
  cases heq
  refine (kept_removeFreeBlock hremove).trans ?_
  split <;> exact fun hclear => ⟨hclear, rfl, id⟩

theorem kept_mergePrev {prev blk : Addr} (h : p.mergePrev S prev blk = some p') :
    Kept p.memory p'.memory := by
  rw [mergePrev, Option.bind_eq_bind, Option.bind_eq_some_iff] at h
  obtain ⟨p₁, hremove, h⟩ := h
  refine (kept_removeFreeBlock hremove).trans ?_
  dsimp only at h
  split at h
  · cases h
    exact fun hclear => ⟨hclear, rfl, id⟩
  · split at h
    · cases h
      exact fun hclear => ⟨hclear, rfl, id⟩
    · have hmerged := kept_mergeNext h
      exact fun hclear => hmerged hclear

theorem kept_release {blk : Addr} (hleaf : HasLeaf p.memory) (h : p.release S blk = some p') :
    Kept p.memory p'.memory := by
  rw [release] at h
  split at h
  · rw [freeBlkExtent] at h
    split at h
    · cases h
      exact Kept.refl p.memory
    · cases h
  · exact kept_addFreeBlock hleaf h

theorem kept_freeBlock {blk : Addr} (hleaf : HasLeaf p.memory) (h : p.freeBlock S blk = some p') :
    Kept p.memory p'.memory := by
  rw [freeBlock] at h
  dsimp only at h
  split at h
  · rw [Option.bind_eq_bind, Option.bind_eq_some_iff] at h
    obtain ⟨p₁, hmerge, hrelease⟩ := h
    have hkept := kept_mergePrev hmerge
    exact hkept.trans (kept_release (hkept.hasLeaf hleaf) hrelease)
  · have hkept := kept_modifyBlock p blk ({ · with used := false })
    split at h
    · rw [Option.bind_eq_bind, Option.bind_eq_some_iff] at h
      obtain ⟨p₁, hmerge, hrelease⟩ := h
      have hkept' := hkept.trans (kept_mergeNext hmerge)
      exact hkept'.trans (kept_release (hkept'.hasLeaf hleaf) hrelease)
    · exact hkept.trans (kept_release (hkept.hasLeaf hleaf) h)

/-- A call that returns -/
theorem ready_step {a : Action} (hserved : Served spare) (hready : Ready p.memory)
    (h : Step S spare a p p') : Ready p'.memory := by
  cases a with
  | allocate size type ext =>
      obtain ⟨k, result, h⟩ := h
      simp only [allocate, Option.bind_eq_bind, Option.bind_eq_some_iff] at h
      obtain ⟨r, halloc, p₁, hfinish, heq⟩ := h
      cases heq
      exact ready_finish hserved ((kept_internalAlloc hready.hasLeaf halloc).ready hready) hfinish
  | deallocate block =>
      obtain ⟨k, h⟩ := h
      cases block with
      | none =>
          cases h
          exact hready
      | some block =>
          simp only [deallocate, Option.bind_eq_bind, Option.bind_eq_some_iff] at h
          obtain ⟨p₁, hfree, hfinish⟩ := h
          have hkept := fun hleaf => kept_freeBlock hleaf hfree
          exact ready_finish hserved (Kept.ready (hkept hready.hasLeaf) hready) hfinish

theorem ready_create {instanceSize : ℕ} {mem : Addr} (hserved : Served spare)
    (h : internalCreate S k spare instanceSize mem = some p) : Ready p.memory := by
  rw [internalCreate] at h
  dsimp only at h
  split at h
  · exact ready_updateSpare hserved h
  · cases h

theorem Reachable.ready (h : Reachable S Served p) : Ready p.memory := by
  induction h with
  | create hserved hcreate => exact ready_create hserved hcreate
  | step _ hserved hstep ih => exact ready_step hserved ih hstep

/-- If `updateSpare` is always given external memory, then the flag is set whenever a block is
pending after a call. -/
theorem needSpare_of_served (h : Reachable S Served p) :
    p.memory.pendingFree ≠ [] → p.memory.needSpare = true := by
  intro hpending
  by_contra hclear
  rw [Bool.not_eq_true] at hclear
  exact hpending (h.ready hclear).1

theorem needSpare_of_served_create :
    ∃ p, internalCreate win32 9 (fun n => some (65536 * (n + 2))) 96 65536 = some p ∧
      (p.memory.pendingFree ≠ [] → p.memory.needSpare = true) := by
  have hcreate : (internalCreate win32 9 (fun n => some (65536 * (n + 2))) 96 65536).isSome := by
    decide
  obtain ⟨p, hp⟩ := Option.isSome_iff_exists.mp hcreate
  have hserved : Served fun n => some (65536 * (n + 2)) := fun n => Option.some_ne_none _
  exact ⟨p, hp, needSpare_of_served (Reachable.create hserved hp)⟩

end Firebird.MemoryPool
