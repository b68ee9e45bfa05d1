import Firebird.Alloc.Spare
import Firebird.Tree.Failure

/-! # Pending blocks that are forgotten

Each call takes an extent that leaves one free block behind it, and this block is the last one of the
tree. The pages that the tree needs for them come from the spare pages, and `updateSpare` does not
get new ones.
-/

namespace Firebird.MemoryPool

open BePlus BePlus.Tree

/-! ## Trees that grow at the end -/

/-- The free block behind the block of the extent `i` -/
def info (i : ℕ) : BlockInfo := ⟨65536 * (i + 2) + 16364, 4⟩

/-- A key above the first `n` free blocks -/
def Above (n : ℕ) (key : BlockInfo) : Prop := ∀ i < n, key.greaterThan (info i) = true

theorem above_info (n : ℕ) : Above n (info n) := by
  intro i hi
  rw [BlockInfo.greaterThan, Bool.or_eq_true, Bool.and_eq_true]
  refine Or.inr ⟨rfl, decide_eq_true ?_⟩
  show 65536 * (i + 2) + 16364 < 65536 * (n + 2) + 16364
  omega

theorem above_length (n : ℕ) {size : ℕ} (h : 4 < size) : Above n ⟨0, size⟩ := by
  intro i hi
  rw [BlockInfo.greaterThan, Bool.or_eq_true]
  exact Or.inl (decide_eq_true h)

/-- The first `n` free blocks are in the tree, and `last` is the last leaf page. -/
structure Tail (t : BePlus.Tree BlockInfo) (n count : ℕ) (last : Addr) : Prop where
  descend : ∀ key, Above n key → t.descend freeParams key t.level t.root = last
  items : ∀ x ∈ (t.leaf last).data, ∃ i < n, x = info i
  length : (t.leaf last).data.length = count
  next : (t.leaf last).next = none

variable {t : BePlus.Tree BlockInfo} {n count : ℕ} {last : Addr} {key : BlockInfo}

theorem Tail.findItem (h : Tail t n count last) (hkey : Above n key) :
    t.findItem freeParams last key = (false, count) := by
  rw [Tree.findItem, h.length]
  refine find_all fun i hi => ?_
  rw [← h.length] at hi
  rw [getElem!_pos _ i hi]
  obtain ⟨j, hj, heq⟩ := h.items _ (List.getElem_mem hi)
  rw [heq]
  exact hkey j hj

/-- No free block is large enough. -/
theorem Tail.locate (h : Tail t n count last) (hkey : Above n key) :
    (t.locate freeParams .greatEqual key).1 = false := by
  have hskip : t.skipEnd ⟨some last, count⟩ = ⟨none, 0⟩ := by
    rw [skipEnd]
    dsimp only
    rw [if_pos (Nat.le_of_eq h.length), h.next]
  rw [Tree.locate, h.descend key hkey]
  dsimp only
  rw [h.findItem hkey, hskip]
  rfl

variable {A : Allocator PoolMemory} {m m' : PoolMemory}

theorem Tail.add (h : Tail t n count last) (hcount : count < 100) (hkey : Above n key) :
    t.add freeParams A m key = .added (t.insertItem last count key) m := by
  have hdescend := h.descend key hkey
  rw [Tree.add]
  dsimp only
  rw [show freeParams.keyOf key = key from rfl, hdescend, h.findItem hkey, h.length]
  rw [if_neg Bool.false_ne_true]
  exact if_pos hcount

/-- No page next to the last page has room. -/
theorem leafRoom_eq_none {q : Option Addr}
    (h : ∀ p, q = some p → (t.leaf p).data.length = 100) : t.leafRoom freeParams q = none := by
  rw [leafRoom, Option.filter_eq_none_iff]
  intro p hp
  rw [h p hp]
  exact Bool.false_ne_true

theorem leafRoom_none : t.leafRoom freeParams none = none := rfl

/-- A full last page without a page for its successor -/
theorem Tail.add_thrown (h : Tail t n 100 last) (hkey : Above n key)
    (hprev : ∀ q, (t.leaf last).prev = some q → (t.leaf q).data.length = 100)
    (hpage : A.leafPage m = none) : t.add freeParams A m key = .thrown t m key := by
  have hdescend := h.descend key hkey
  rw [Tree.add]
  dsimp only
  rw [show freeParams.keyOf key = key from rfl, hdescend, h.findItem hkey, h.length]
  rw [if_neg Bool.false_ne_true, if_neg (show ¬ 100 < freeParams.leafCount from Nat.lt_irrefl 100)]
  rw [h.next, leafRoom_eq_none hprev, leafRoom_none, hpage]

/-- A full last page and a page for its successor -/
theorem Tail.add_climb {newLeaf : Addr} (h : Tail t n 100 last) (hkey : Above n key)
    (hprev : ∀ q, (t.leaf last).prev = some q → (t.leaf q).data.length = 100)
    (hpage : A.leafPage m = some (newLeaf, m')) :
    t.add freeParams A m key =
      let t := (t.linkLeaf newLeaf last).insertItem newLeaf 0 key
      climb freeParams A (t.level + 1) t m' newLeaf (t.leaf last).parent 0 := by
  have hdescend := h.descend key hkey
  rw [Tree.add]
  dsimp only
  rw [show freeParams.keyOf key = key from rfl, hdescend, h.findItem hkey, h.length]
  rw [if_neg Bool.false_ne_true, if_neg (show ¬ 100 < freeParams.leafCount from Nat.lt_irrefl 100)]
  rw [h.next, leafRoom_eq_none hprev, leafRoom_none, hpage]
  dsimp only
  rw [splitLeaf, if_pos (show 100 = freeParams.leafCount from rfl)]

/-! ## One leaf page -/

/-- The root is the only page. -/
structure Single (t : BePlus.Tree BlockInfo) (n : ℕ) (last : Addr) : Prop where
  level : t.level = 0
  root : t.root = last
  items : ∀ x ∈ (t.leaf last).data, ∃ i < n, x = info i
  length : (t.leaf last).data.length = n
  next : (t.leaf last).next = none
  prev : (t.leaf last).prev = none
  parent : (t.leaf last).parent = none

theorem Single.tail (h : Single t n last) : Tail t n n last where
  descend key _ := by
    rw [h.level]
    exact h.root
  items := h.items
  length := h.length
  next := h.next

theorem mem_insertItem {x : BlockInfo} (hitems : ∀ x ∈ (t.leaf last).data, ∃ i < n, x = info i)
    (hx : x ∈ ((t.insertItem last count (info n)).leaf last).data) : ∃ i < n + 1, x = info i := by
  rw [insertItem, leaf_modifyLeaf_self] at hx
  obtain rfl | hx := List.eq_or_mem_of_mem_insertIdx hx
  · exact ⟨n, Nat.lt_succ_self n, rfl⟩
  · obtain ⟨i, hi, heq⟩ := hitems x hx
    exact ⟨i, Nat.lt_succ_of_lt hi, heq⟩

theorem length_insertItem (h : (t.leaf last).data.length = count) :
    ((t.insertItem last count (info n)).leaf last).data.length = count + 1 := by
  rw [insertItem, leaf_modifyLeaf_self, List.length_insertIdx_of_le_length (Nat.le_of_eq h.symm), h]

theorem Single.insertItem (h : Single t n last) :
    Single (t.insertItem last n (info n)) (n + 1) last where
  level := h.level
  root := h.root
  items _ hx := mem_insertItem h.items hx
  length := length_insertItem h.length
  next := (modifyLeaf_field ItemList.next rfl).trans h.next
  prev := (modifyLeaf_field ItemList.prev rfl).trans h.prev
  parent := (modifyLeaf_field ItemList.parent rfl).trans h.parent

/-! ## A row of leaf pages -/

/-- The first items of the pages below the node page `q` -/
structure Branch (t : BePlus.Tree BlockInfo) (n : ℕ) (q : Addr) (pages : List Addr) : Prop where
  level : (t.node q).level = 0
  data : (t.node q).data = pages
  heads : ∀ p ∈ pages, ∃ i < n, (t.leaf p).data.head! = info i

variable {q newLeaf : Addr} {pages : List Addr} {t' : BePlus.Tree BlockInfo}

theorem Branch.generate (h : Branch t n q pages) (p : Addr) :
    t.generate freeParams q p = (t.leaf p).data.head! := by
  rw [Tree.generate, h.level]
  rfl

theorem Branch.findNode (h : Branch t n q pages) (hkey : Above n key) :
    t.findNode freeParams q key = (false, pages.length) := by
  rw [Tree.findNode, h.data]
  refine find_all fun i hi => ?_
  rw [getElem!_pos pages i hi, h.generate]
  obtain ⟨j, hj, heq⟩ := h.heads _ (List.getElem_mem hi)
  rw [heq]
  exact hkey j hj

/-- The pages keep their first items. -/
theorem Branch.congr (h : Branch t n q pages) (hnode : t'.node q = t.node q)
    (hleaf : ∀ p ∈ pages, (t'.leaf p).data = (t.leaf p).data) : Branch t' n q pages where
  level := by rw [hnode, h.level]
  data := by rw [hnode, h.data]
  heads p hp := by
    rw [hleaf p hp]
    exact h.heads p hp

theorem leaf_addNode (t : BePlus.Tree BlockInfo) (q p : Addr) :
    (t.addNode freeParams q p).leaf = t.leaf :=
  rfl

/-- A page for the next free block goes to the end of the row. -/
theorem Branch.addNode (h : Branch t n q pages) (hdata : (t.leaf newLeaf).data = [info n]) :
    Branch (t.addNode freeParams q newLeaf) (n + 1) q (pages ++ [newLeaf]) := by
  have hkey : t.generate freeParams q newLeaf = info n := by
    rw [h.generate, hdata]
    rfl
  have hnode : (t.addNode freeParams q newLeaf).node q =
      { t.node q with data := pages ++ [newLeaf] } := by
    rw [Tree.addNode, hkey, h.findNode (above_info n), insertNode, node_modifyNode_self, h.data]
    rw [List.insertIdx_length_self]
  refine ⟨?_, ?_, ?_⟩
  · rw [hnode]
    exact h.level
  · rw [hnode]
  · intro p hp
    show ∃ i < n + 1, (t.leaf p).data.head! = info i
    obtain hp | hp := List.mem_append.mp hp
    · obtain ⟨i, hi, heq⟩ := h.heads p hp
      exact ⟨i, Nat.lt_succ_of_lt hi, heq⟩
    · rw [List.mem_singleton.mp hp, hdata]
      exact ⟨n, Nat.lt_succ_self n, rfl⟩

/-- The leaf pages are below the root, and all but the last one are full. -/
structure Row (t : BePlus.Tree BlockInfo) (n count : ℕ) (pages : List Addr) (last : Addr) : Prop where
  level : t.level = 1
  branch : Branch t n t.root (pages ++ [last])
  nodup : (pages ++ [last]).Nodup
  items : ∀ x ∈ (t.leaf last).data, ∃ i < n, x = info i
  pos : 0 < count
  length : (t.leaf last).data.length = count
  next : (t.leaf last).next = none
  prev : ∀ q, (t.leaf last).prev = some q → q ∈ pages ∧ (t.leaf q).data.length = 100
  parent : (t.leaf last).parent = some t.root

theorem Row.tail (h : Row t n count pages last) : Tail t n count last where
  descend key hkey := by
    rw [h.level, Tree.descend, h.branch.findNode hkey, h.branch.data]
    dsimp only
    rw [if_neg Bool.false_ne_true, List.length_append, List.length_singleton, Nat.add_sub_cancel]
    rw [Tree.descend, getElem!_pos _ _ (by simp)]
    exact List.getElem_concat_length rfl (by simp)
  items := h.items
  length := h.length
  next := h.next

theorem Row.ne_last (h : Row t n count pages last) (hq : q ∈ pages) : q ≠ last := by
  rintro rfl
  exact (List.nodup_append.mp h.nodup).2.2 q hq q (List.mem_singleton_self q) rfl

/-- The next free block has room on the last page. -/
theorem Row.insertItem (h : Row t n count pages last) :
    Row (t.insertItem last count (info n)) (n + 1) (count + 1) pages last where
  level := h.level
  branch :=
    { level := h.branch.level
      data := h.branch.data
      heads := by
        intro p hp
        obtain ⟨i, hi, heq⟩ := h.branch.heads p hp
        refine ⟨i, Nat.lt_succ_of_lt hi, ?_⟩
        rw [← heq]
        by_cases hne : p = last
        · -- the first item stays in front
          rw [hne, Tree.insertItem, leaf_modifyLeaf_self]
          obtain ⟨x, data, hdata⟩ := List.exists_cons_of_length_pos (h.length.symm ▸ h.pos)
          obtain ⟨k, rfl⟩ := Nat.exists_eq_succ_of_ne_zero (Nat.ne_of_gt h.pos)
          rw [hdata]
          rfl
        · rw [Tree.insertItem, leaf_modifyLeaf_of_ne hne] }
  nodup := h.nodup
  items _ hx := mem_insertItem h.items hx
  pos := Nat.succ_pos count
  length := length_insertItem h.length
  next := (modifyLeaf_field ItemList.next rfl).trans h.next
  prev := by
    intro q hq
    obtain ⟨hmem, hlength⟩ := h.prev q ((modifyLeaf_field ItemList.prev rfl).symm.trans hq)
    refine ⟨hmem, ?_⟩
    rw [Tree.insertItem, leaf_modifyLeaf_of_ne (h.ne_last hmem)]
    exact hlength
  parent := (modifyLeaf_field ItemList.parent rfl).trans h.parent

/-! ## A new leaf page -/

/-- The tree `t'` has a leaf page for the next free block behind the last one. -/
structure Appended (t t' : BePlus.Tree BlockInfo) (n : ℕ) (last newLeaf : Addr) : Prop where
  node_eq : t'.node = t.node
  root_eq : t'.root = t.root
  level_eq : t'.level = t.level
  new : t'.leaf newLeaf = { data := [info n], parent := none, next := none, prev := some last }
  old : t'.leaf last = { t.leaf last with next := some newLeaf }
  other : ∀ r, r ≠ newLeaf → r ≠ last → t'.leaf r = t.leaf r

theorem appended (hnext : (t.leaf last).next = none) (hne : newLeaf ≠ last) :
    Appended t ((t.linkLeaf newLeaf last).insertItem newLeaf 0 (info n)) n last newLeaf := by
  have hlink : t.linkLeaf newLeaf last =
      (t.modifyLeaf newLeaf fun _ =>
        { data := [], parent := none, next := none, prev := some last }).modifyLeaf last
          ({ · with next := some newLeaf }) := by
    rw [linkLeaf, hnext]
  rw [hlink, Tree.insertItem]
  refine ⟨rfl, rfl, rfl, ?_, ?_, ?_⟩
  · rw [leaf_modifyLeaf_self, leaf_modifyLeaf_of_ne hne, leaf_modifyLeaf_self]
    rfl
  · rw [leaf_modifyLeaf_of_ne hne.symm, leaf_modifyLeaf_self, leaf_modifyLeaf_of_ne hne.symm]
  · intro r hr hr'
    rw [leaf_modifyLeaf_of_ne hr, leaf_modifyLeaf_of_ne hr', leaf_modifyLeaf_of_ne hr]

/-- The items of the old pages are kept. -/
theorem Appended.data_eq (h : Appended t t' n last newLeaf) {r : Addr} (hr : r ≠ newLeaf) :
    (t'.leaf r).data = (t.leaf r).data := by
  by_cases hlast : r = last
  · rw [hlast, h.old]
  · rw [h.other r hr hlast]

theorem Appended.not_mem (h : Row t n count pages last) (hnew : newLeaf ∉ pages ++ [last]) :
    newLeaf ≠ last ∧ ∀ p ∈ pages ++ [last], p ≠ newLeaf := by
  refine ⟨?_, fun p hp heq => hnew (heq ▸ hp)⟩
  rintro rfl
  exact hnew (List.mem_append_right pages (List.mem_singleton_self newLeaf))

/-- A row that has just got its last page -/
theorem Row.of_new (pages : List Addr) (hlevel : t.level = 1)
    (hbranch : Branch t (n + 1) t.root (pages ++ [last] ++ [newLeaf]))
    (hnodup : (pages ++ [last]).Nodup) (hnew : newLeaf ∉ pages ++ [last])
    (hleaf : t.leaf newLeaf =
      { data := [info n], parent := some t.root, next := none, prev := some last })
    (hfull : (t.leaf last).data.length = 100) :
    Row t (n + 1) 1 (pages ++ [last]) newLeaf where
  level := hlevel
  branch := hbranch
  nodup := by
    rw [List.nodup_append]
    refine ⟨hnodup, List.pairwise_singleton _ newLeaf, ?_⟩
    rintro p hp q hq rfl
    exact hnew (List.mem_singleton.mp hq ▸ hp)
  items := by
    intro x hx
    rw [hleaf, List.mem_singleton] at hx
    exact ⟨n, Nat.lt_succ_self n, hx⟩
  pos := Nat.one_pos
  length := by
    rw [hleaf]
    rfl
  next := by rw [hleaf]
  prev := by
    intro q hq
    rw [hleaf, Option.some.injEq] at hq
    rw [← hq]
    exact ⟨List.mem_append_right pages (List.mem_singleton_self last), hfull⟩
  parent := by rw [hleaf]

/-- The root page has room for one more leaf page. -/
theorem Row.add_split (h : Row t n 100 pages last) (hnew : newLeaf ∉ pages ++ [last])
    (hroom : pages.length + 1 < 100) (hpage : A.leafPage m = some (newLeaf, m')) :
    ∃ t', t.add freeParams A m (info n) = .added t' m' ∧
      Row t' (n + 1) 1 (pages ++ [last]) newLeaf := by
  obtain ⟨hne, hmem⟩ := Appended.not_mem h hnew
  have happ := appended (n := n) h.next hne
  rw [h.tail.add_climb (above_info n) (fun q hq => (h.prev q hq).2) hpage]
  generalize (t.linkLeaf newLeaf last).insertItem newLeaf 0 (info n) = t₁ at happ ⊢
  dsimp only
  have hparent : (t₁.leaf last).parent = some t.root := by
    rw [happ.old]
    exact h.parent
  have hfree : (t₁.node t.root).data.length < freeParams.nodeCount := by
    rw [happ.node_eq, h.branch.data, List.length_append]
    exact hroom
  rw [hparent, climb, if_pos hfree]
  refine ⟨_, rfl, ?_⟩
  have hset : t₁.setNodeParentAndLevel newLeaf 0 t.root =
      t₁.modifyLeaf newLeaf ({ · with parent := some t.root }) := if_pos rfl
  rw [hset]
  have hbranch : Branch (t₁.modifyLeaf newLeaf ({ · with parent := some t.root })) n t.root
      (pages ++ [last]) := by
    refine h.branch.congr (congrFun happ.node_eq t.root) fun p hp => ?_
    rw [leaf_modifyLeaf_of_ne (hmem p hp)]
    exact happ.data_eq (hmem p hp)
  have hleaf : (t₁.modifyLeaf newLeaf ({ · with parent := some t.root })).leaf newLeaf =
      { data := [info n], parent := some t.root, next := none, prev := some last } := by
    rw [leaf_modifyLeaf_self, happ.new]
  have hadd := hbranch.addNode (by rw [hleaf])
  rw [← happ.root_eq] at hadd hleaf ⊢
  refine Row.of_new pages (happ.level_eq.trans h.level) hadd h.nodup hnew ?_ ?_
  · rw [leaf_addNode]
    exact hleaf
  · rw [leaf_addNode, leaf_modifyLeaf_of_ne hne.symm, happ.old]
    exact h.length

theorem growRoot_eq (hlevel : t.level = 0) (q p : Addr) :
    t.growRoot freeParams q p =
      { Tree.addNode (((t.modifyNode q fun _ =>
          { data := [t.root], level := 0, parent := none, next := none, prev := none }).modifyLeaf p
            ({ · with parent := some q })).modifyLeaf t.root ({ · with parent := some q }))
          freeParams q p with root := q, level := 1 } := by
  obtain ⟨leaf, node, root, level⟩ := t
  obtain rfl := hlevel
  rfl

/-- The root page is full, and it gets a page above. -/
theorem Single.add_split (h : Single t 100 last) (hne : newLeaf ≠ last) {m₁ : PoolMemory}
    (hpage : A.leafPage m = some (newLeaf, m₁)) (hroot : A.nodePage m₁ = some (q, m')) :
    ∃ t', t.add freeParams A m (info 100) = .added t' m' ∧ Row t' 101 1 [last] newLeaf := by
  have happ := appended (n := 100) h.next hne
  have hprev : ∀ q, (t.leaf last).prev = some q → (t.leaf q).data.length = 100 := by
    intro q hq
    rw [h.prev] at hq
    cases hq
  rw [h.tail.add_climb (above_info 100) hprev hpage]
  generalize (t.linkLeaf newLeaf last).insertItem newLeaf 0 (info 100) = t₁ at happ ⊢
  dsimp only
  have hparent : (t₁.leaf last).parent = none := by
    rw [happ.old]
    exact h.parent
  rw [hparent, climb_none, hroot]
  refine ⟨_, rfl, ?_⟩
  rw [growRoot_eq (happ.level_eq.trans h.level), happ.root_eq, h.root]
  obtain ⟨t₂, ht₂, hnode, hlast, hleaf⟩ : ∃ t₂, ((t₁.modifyNode q fun _ =>
      { data := [last], level := 0, parent := none, next := none, prev := none }).modifyLeaf newLeaf
        ({ · with parent := some q })).modifyLeaf last ({ · with parent := some q }) = t₂ ∧
      t₂.node q = { data := [last], level := 0, parent := none, next := none, prev := none } ∧
      (t₂.leaf last).data = (t.leaf last).data ∧
      t₂.leaf newLeaf =
        { data := [info 100], parent := some q, next := none, prev := some last } := by
    refine ⟨_, rfl, ?_, ?_, ?_⟩
    · show (t₁.modifyNode q fun _ => _).node q = _
      rw [node_modifyNode_self]
    · rw [leaf_modifyLeaf_self, leaf_modifyLeaf_of_ne hne.symm]
      exact happ.data_eq hne.symm
    · rw [leaf_modifyLeaf_of_ne hne, leaf_modifyLeaf_self]
      show { t₁.leaf newLeaf with parent := some q } = _
      rw [happ.new]
  rw [ht₂]
  have hbranch : Branch t₂ 100 q [last] := by
    refine ⟨by rw [hnode], by rw [hnode], fun p hp => ?_⟩
    rw [List.mem_singleton.mp hp, hlast]
    have hpos : 0 < (t.leaf last).data.length := by
      rw [h.length]
      exact Nat.succ_pos 99
    obtain ⟨x, data, hdata⟩ := List.exists_cons_of_length_pos hpos
    obtain ⟨i, hi, heq⟩ := h.items x (by rw [hdata]; exact List.mem_cons_self)
    refine ⟨i, hi, ?_⟩
    rw [hdata, ← heq]
    rfl
  have hadd := hbranch.addNode (by rw [hleaf])
  refine Row.of_new [] rfl ⟨hadd.level, hadd.data, hadd.heads⟩ (List.pairwise_singleton _ last) ?_
    hleaf ?_
  · rw [List.nil_append, List.mem_singleton]
    exact hne
  · rw [leaf_addNode, hlast]
    exact h.length

/-! ## Calls in low memory -/

/-- The flag and the spare pages; no block is pending. -/
structure Flags (m : PoolMemory) (needSpare : Bool) (leafs nodes : List Addr) : Prop where
  needSpare_eq : m.needSpare = needSpare
  pendingFree_eq : m.pendingFree = []
  spareLeafs_eq : m.spareLeafs = leafs
  spareNodes_eq : m.spareNodes = nodes

variable {p : MemoryPool} {leafs nodes : List Addr} {size : ℕ} {type : ℤ}

theorem Flags.leafPage_nil (h : Flags m false [] nodes) : (allocator win32).leafPage m = none := by
  show treeAlloc win32 816 m = none
  rw [treeAlloc, h.spareLeafs_eq]
  rfl

theorem Flags.leafPage (leafs : List Addr) {temp : Addr} (h : Flags m false (leafs ++ [temp]) nodes) :
    ∃ m', (allocator win32).leafPage m = some (temp, m') ∧ Flags m' true leafs nodes := by
  refine ⟨{ m with spareLeafs := leafs, needSpare := true }, ?_, rfl, h.pendingFree_eq, rfl,
    h.spareNodes_eq⟩
  show treeAlloc win32 816 m = _
  rw [treeAlloc, h.spareLeafs_eq, List.getLast?_concat, List.dropLast_concat]
  rfl

theorem Flags.nodePage (nodes : List Addr) {temp : Addr} {set : Bool}
    (h : Flags m set leafs (nodes ++ [temp])) :
    ∃ m', (allocator win32).nodePage m = some (temp, m') ∧ Flags m' true leafs nodes := by
  refine ⟨{ m with spareNodes := nodes, needSpare := true }, ?_, rfl, h.pendingFree_eq,
    h.spareLeafs_eq, rfl⟩
  show treeAlloc win32 420 m = _
  rw [treeAlloc, h.spareNodes_eq, List.getLast?_concat, List.dropLast_concat]
  rfl

/-- What is asked for is taken from a new extent. -/
theorem internalAlloc_tail (h : Tail p.freeBlocks n count last) (hpending : p.memory.pendingFree = [])
    (hsize : 4 < win32.memAlign size) (ext : Option Addr) :
    p.internalAlloc win32 size type ext =
      match ext with
      | some extent => p.allocExtent win32 extent (win32.memAlign size) type
      | none => some (none, p) := by
  rw [internalAlloc]
  dsimp only
  rw [h.locate (above_length n hsize), if_neg Bool.false_ne_true, hpending, List.find?_nil]
  cases ext <;> rfl

/-- A loop for spare pages ends when external memory is refused. -/
theorem fillSpare_none {enough : MemoryPool → Bool} {put : Addr → MemoryPool → MemoryPool}
    {spare : ℕ → Option Addr} {size k i : ℕ} {type : ℤ} (henough : enough p = false)
    (halloc : p.internalAlloc win32 size type (spare i) = some (none, p)) :
    fillSpare win32 enough size type put spare (k + 1) i p = some (false, i + 1, p) := by
  rw [fillSpare, henough, if_neg Bool.false_ne_true, halloc]

theorem fillLeafs_none {spare : ℕ → Option Addr} {k i : ℕ} (h : p.memory.spareLeafs.length < 2)
    (halloc : p.internalAlloc win32 816 typeLeafPage (spare i) = some (none, p)) :
    fillLeafs win32 spare (k + 1) i p = some (false, i + 1, p) := by
  have henough : decide (leafCapacity ≤ p.memory.spareLeafs.length) = false := by
    rw [decide_eq_false_iff_not, Nat.not_le]
    exact h
  exact fillSpare_none henough halloc

/-- No spare page is got. -/
theorem finish_tail (h : Tail p.freeBlocks n count last) {set : Bool}
    (hflags : Flags p.memory set leafs nodes) (hset : set = true → leafs.length < 2) :
    ∃ p', p.finish win32 (fun _ => none) 2 = some p' ∧ p'.freeBlocks = p.freeBlocks ∧
      Flags p'.memory false leafs nodes := by
  cases set with
  | false =>
      refine ⟨p, ?_, rfl, hflags⟩
      rw [finish, hflags.needSpare_eq, if_neg Bool.false_ne_true]
  | true =>
      obtain ⟨p', hp', htree, hflags'⟩ : ∃ p', p' =
          { p with memory := { p.memory with needSpare := false } } ∧
          p'.freeBlocks = p.freeBlocks ∧ Flags p'.memory false leafs nodes :=
        ⟨_, rfl, rfl, rfl, hflags.pendingFree_eq, hflags.spareLeafs_eq, hflags.spareNodes_eq⟩
      refine ⟨p', ?_, htree, hflags'⟩
      rw [← htree] at h
      have hleafs : p'.memory.spareLeafs.length < 2 := by
        rw [hflags'.spareLeafs_eq]
        exact hset rfl
      have hfill : fillLeafs win32 (fun _ => none) 1 0 p' = some (false, 1, p') :=
        fillLeafs_none hleafs (internalAlloc_tail h hflags'.pendingFree_eq (by decide) none)
      rw [finish, hflags.needSpare_eq, if_pos rfl, updateSpare]
      dsimp only
      rw [← hp', hfill]

/-- The free block behind the block of a new extent goes into the tree. -/
theorem allocExtent_info (p : MemoryPool) (n : ℕ) (type : ℤ) : ∃ p₁ : MemoryPool,
    p₁.freeBlocks = p.freeBlocks ∧
    (∀ {leafs nodes}, Flags p.memory false leafs nodes → Flags p₁.memory false leafs nodes) ∧
    (p₁.memory.blocks (info n).block).length = 4 ∧
    p.allocExtent win32 (65536 * (n + 2)) 16344 type =
      (p₁.addFreeBlock win32 (info n).block).map fun p₂ =>
        p₂.taken win32 (65536 * (n + 2) + 4) := by
  have hrest : 65536 * (n + 2) + 4 + win32.header + 16344 = (info n).block := by
    show 65536 * (n + 2) + 4 + 16 + 16344 = 65536 * (n + 2) + 16364
    omega
  refine ⟨((p.addExtent win32 (65536 * (n + 2)) 16344).cutBegin win32 (65536 * (n + 2) + 4) 16364
    16344 type).2, rfl, fun h => ⟨h.1, h.2, h.3, h.4⟩, ?_, ?_⟩
  · rw [cutBegin, ← hrest]
    dsimp only
    rw [blocks_modifyBlock_self]
    show 16364 - 16344 - win32.header = 4
    decide
  · have hfits : fits win32 16364 16344 = false := by decide
    have hspace : allocSize win32 16344 - win32.extentHeader - win32.header = 16364 := by decide
    have hheader : win32.extentHeader = 4 := by decide
    rw [allocExtent]
    dsimp only
    rw [hspace, hfits, hheader, if_neg Bool.false_ne_true, ← hrest]
    rfl

theorem step_allocate {S : Platform} {p p' : MemoryPool} {spare : ℕ → Option Addr} {k : ℕ}
    {ext : Option Addr} {r : Option Addr × MemoryPool}
    (halloc : p.internalAlloc S size type ext = some r) (hfinish : r.2.finish S spare k = some p') :
    Step S spare (.allocate size type ext) p p' := by
  refine ⟨k, r.1, ?_⟩
  rw [allocate, halloc]
  show (r.2.finish S spare k).bind (fun p => some (r.1, p)) = some (r.1, p')
  rw [hfinish]
  rfl

/-- A call that takes a whole extent -/
def call (n : ℕ) : Action := .allocate 16344 0 (some (65536 * (n + 2)))

/-- The call adds one free block to the tree, and `updateSpare` does not get a page. -/
theorem exists_step (htail : Tail p.freeBlocks n count last)
    (hflags : Flags p.memory false leafs nodes) (Q : BePlus.Tree BlockInfo → Prop) (set : Bool)
    (leafs' nodes' : List Addr)
    (hadd : ∀ m, Flags m false leafs nodes → ∃ t' m',
      p.freeBlocks.add freeParams (allocator win32) m (info n) = .added t' m' ∧ Q t' ∧
        Flags m' set leafs' nodes')
    (hnext : ∀ t', Q t' → ∃ n count last, Tail t' n count last)
    (hset : set = true → leafs'.length < 2) :
    ∃ p', Step win32 (fun _ => none) (call n) p p' ∧ Q p'.freeBlocks ∧
      Flags p'.memory false leafs' nodes' := by
  obtain ⟨p₁, htree, hflags₁, hlength, halloc⟩ := allocExtent_info p n 0
  obtain ⟨t', m', hadd, hQ, hflags'⟩ := hadd p₁.memory (hflags₁ hflags)
  obtain ⟨n', count', last', htail'⟩ := hnext t' hQ
  have hfree : p₁.addFreeBlock win32 (info n).block =
      some { p₁ with freeBlocks := t', memory := m' } := by
    rw [addFreeBlock, hlength, htree, show (⟨(info n).block, 4⟩ : BlockInfo) = info n from rfl, hadd]
  rw [hfree, Option.map_some] at halloc
  obtain ⟨p', hfinish, htree', hflags''⟩ := finish_tail (p := ({ p₁ with
    freeBlocks := t', memory := m' }.taken win32 (65536 * (n + 2) + 4)).2) htail' hflags' hset
  refine ⟨p', step_allocate ?_ hfinish, ?_, hflags''⟩
  · rw [internalAlloc_tail htail hflags.pendingFree_eq (by decide)]
    exact halloc
  · rw [htree']
    exact hQ

/-! ## The run -/

/-- A pool that external memory can be refused to -/
def Run (p : MemoryPool) : Prop := Reachable win32 (fun _ => True) p

theorem Run.step {p' : MemoryPool} (h : Run p) (hstep : Step win32 (fun _ => none) (call n) p p') :
    Run p' :=
  Reachable.step h trivial hstep

/-- A new pool that has given away its free block -/
theorem run_start : ∃ p, Run p ∧ Single p.freeBlocks 0 65668 ∧
    Flags p.memory false [81104, 80272] [79836] := by
  have hrun : ((internalCreate win32 9 (fun _ => none) 96 65536).bind fun p =>
      (p.allocate win32 9 (fun _ => none) 13320 0 none).map fun r =>
        let t := r.2.freeBlocks
        let m := r.2.memory
        decide ((t.level = 0 ∧ t.root = 65668 ∧ (t.leaf 65668).data = [] ∧
            (t.leaf 65668).next = none ∧ (t.leaf 65668).prev = none ∧
            (t.leaf 65668).parent = none) ∧
          m.needSpare = false ∧ m.pendingFree = [] ∧ m.spareLeafs = [81104, 80272] ∧
            m.spareNodes = [79836])) = some true := by
    decide +kernel
  obtain ⟨p₀, hcreate, hrun⟩ := Option.bind_eq_some_iff.mp hrun
  obtain ⟨⟨r, p⟩, halloc, hfacts⟩ := Option.map_eq_some_iff.mp hrun
  obtain ⟨⟨hlevel, hroot, hdata, hnext, hprev, hparent⟩, hset, hpending, hleafs, hnodes⟩ :=
    of_decide_eq_true hfacts
  refine ⟨p, ?_, ?_, hset, hpending, hleafs, hnodes⟩
  · exact Reachable.step (Reachable.create trivial hcreate) trivial
      (a := .allocate 13320 0 none) ⟨9, r, halloc⟩
  · refine ⟨hlevel, hroot, ?_, ?_, hnext, hprev, hparent⟩
    · rw [hdata]
      exact fun _ hx => nomatch hx
    · rw [hdata]
      rfl

/-- The only leaf page is filled. -/
theorem run_single (hn : n ≤ 100) : ∃ p, Run p ∧ Single p.freeBlocks n 65668 ∧
    Flags p.memory false [81104, 80272] [79836] := by
  induction n with
  | zero => exact run_start
  | succ n ih =>
      obtain ⟨p, hrun, hsingle, hflags⟩ := ih (Nat.le_of_succ_le hn)
      obtain ⟨p', hstep, hsingle', hflags'⟩ := exists_step hsingle.tail hflags
        (fun t => Single t (n + 1) 65668) false _ _
        (fun m hm => ⟨_, m, hsingle.tail.add hn (above_info n), hsingle.insertItem, hm⟩)
        (fun t ht => ⟨_, _, _, ht.tail⟩) nofun
      exact ⟨p', hrun.step hstep, hsingle', hflags'⟩

/-- The last leaf page of a row is filled. -/
theorem run_row (hrun : Run p) (hrow : Row p.freeBlocks n 1 pages last)
    (hflags : Flags p.memory false leafs nodes) (hcount : count < 100) :
    ∃ p, Run p ∧ Row p.freeBlocks (n + count) (1 + count) pages last ∧
      Flags p.memory false leafs nodes := by
  induction count with
  | zero => exact ⟨p, hrun, hrow, hflags⟩
  | succ count ih =>
      obtain ⟨p, hrun, hrow, hflags⟩ := ih (Nat.lt_of_succ_lt hcount)
      have hroom : 1 + count < 100 := by omega
      obtain ⟨p', hstep, hrow', hflags'⟩ := exists_step hrow.tail hflags
        (fun t => Row t (n + count + 1) (1 + count + 1) pages last) false _ _
        (fun m hm => ⟨_, m, hrow.tail.add hroom (above_info _), hrow.insertItem, hm⟩)
        (fun t ht => ⟨_, _, _, ht.tail⟩) nofun
      exact ⟨p', hrun.step hstep, hrow', hflags'⟩

/-- The first spare pages are used. -/
theorem run_split : ∃ p, Run p ∧ Row p.freeBlocks 101 1 [65668] 80272 ∧
    Flags p.memory false [81104] [] := by
  obtain ⟨p, hrun, hsingle, hflags⟩ := run_single (Nat.le_refl 100)
  obtain ⟨p', hstep, hrow, hflags'⟩ := exists_step hsingle.tail hflags
    (fun t => Row t 101 1 [65668] 80272) true [81104] []
    (fun m hm => by
      obtain ⟨m₁, hpage, hm₁⟩ := Flags.leafPage [81104] hm
      obtain ⟨m₂, hroot, hm₂⟩ := Flags.nodePage [] hm₁
      obtain ⟨t', hadd, hrow⟩ := hsingle.add_split (by decide) hpage hroot
      exact ⟨t', m₂, hadd, hrow, hm₂⟩)
    (fun t ht => ⟨_, _, _, ht.tail⟩) (fun _ => Nat.lt_succ_self 1)
  exact ⟨p', hrun.step hstep, hrow, hflags'⟩

/-- The last spare leaf page is used. -/
theorem run_split_last : ∃ p, Run p ∧ Row p.freeBlocks 201 1 [65668, 80272] 81104 ∧
    Flags p.memory false [] [] := by
  obtain ⟨p, hrun, hrow, hflags⟩ := run_split
  obtain ⟨p, hrun, hrow, hflags⟩ := run_row hrun hrow hflags (Nat.lt_succ_self 99)
  obtain ⟨p', hstep, hrow', hflags'⟩ := exists_step hrow.tail hflags
    (fun t => Row t 201 1 [65668, 80272] 81104) true [] []
    (fun m hm => by
      obtain ⟨m₁, hpage, hm₁⟩ := Flags.leafPage [] hm
      obtain ⟨t', hadd, hrow'⟩ := hrow.add_split (by decide) (by decide) hpage
      exact ⟨t', m₁, hadd, hrow', hm₁⟩)
    (fun t ht => ⟨_, _, _, ht.tail⟩) (fun _ => Nat.zero_lt_two)
  exact ⟨p', hrun.step hstep, hrow', hflags'⟩

/-- `updateSpare` has cleared the flag without getting a page, so no page is there when the tree
needs the next one: the block is pending, and nothing tells that it is. -/
theorem needSpare_forgotten : ∃ p, Reachable win32 (fun _ => True) p ∧
    p.memory.pendingFree = [(info 300).block + 16] ∧ p.memory.needSpare = false := by
  obtain ⟨p, hrun, hrow, hflags⟩ := run_split_last
  obtain ⟨p, hrun, hrow, hflags⟩ := run_row hrun hrow hflags (Nat.lt_succ_self 99)
  obtain ⟨p₁, htree, hflags₁, hlength, halloc⟩ := allocExtent_info p 300 0
  have hadd := hrow.tail.add_thrown (above_info 300) (fun q hq => (hrow.prev q hq).2)
    (hflags₁ hflags).leafPage_nil
  obtain ⟨p₂, hfree, hpending, hclear⟩ : ∃ p₂, p₁.addFreeBlock win32 (info 300).block = some p₂ ∧
      p₂.memory.pendingFree = [(info 300).block + 16] ∧ p₂.memory.needSpare = false := by
    rw [addFreeBlock, hlength, htree, show (⟨(info 300).block, 4⟩ : BlockInfo) = info 300 from rfl,
      hadd]
    refine ⟨_, rfl, ?_, (hflags₁ hflags).needSpare_eq⟩
    dsimp only
    rw [(hflags₁ hflags).pendingFree_eq]
    rfl
  rw [hfree, Option.map_some] at halloc
  refine ⟨(p₂.taken win32 (65536 * (300 + 2) + 4)).2, ?_, hpending, hclear⟩
  refine hrun.step (step_allocate (k := 0) ((internalAlloc_tail hrow.tail hflags.pendingFree_eq
    (by decide) _).trans halloc) ?_)
  rw [finish, if_neg]
  rw [show (p₂.taken win32 (65536 * (300 + 2) + 4)).2.memory = p₂.memory from rfl, hclear]
  exact Bool.false_ne_true

end Firebird.MemoryPool
