import Firebird.Btr.Delete

/-! # Merging a page with its left sibling (`garbage_collect` in `jrd/btr.cpp`)

The pages have been fetched and locked. The nodes of the page go behind those of its left
sibling, in place of the marker there; the first of them is compressed again.
-/

namespace Firebird.Btr

namespace Bucket

/-- Find the last node and save the key before it: the node, the key, and its length. -/
def lastNode (b : Bucket) : ℕ → ℕ → Memory UCHAR → ℕ → Option (ℕ × Memory UCHAR × ℕ)
  | 0, _, _, _ => none
  | fuel + 1, node, key, p =>
      if (btnNumber b.page node).Negative then some (node, key, p)
      else if btnLength b.page node = 0 then lastNode b fuel (nextNode b.page node) key p
      else
        lastNode b fuel (nextNode b.page node)
          (key.store (btnPrefix b.page node) (btnData b.page node))
          (btnPrefix b.page node + btnLength b.page node)

/-- Move all nodes of the page to its left sibling: `some none` when there is not enough room
there, and for one more key. -/
def merge (left gc : Bucket) (pageSize rightPage : ℕ) (lastKey : Memory UCHAR) :
    Option (Option Bucket) :=
  match left.lastNode left.length btrNodes lastKey 0 with
  | none => none
  | some (last, key, keyLength) =>
      let pfx := common (key.load 0 keyLength) (btnData gc.page btrNodes)
      if (left.length + gc.length - pfx - btnLength left.page last - 6 - btrNodes : ℤ) >
          (pageSize - 256 : ℤ) then
        some none
      else
        let total := left.prefixTotal + (gc.prefixTotal + pfx - btnPrefix left.page last)
        let page := putPrefix left.page last pfx
        let page := putLength page last (btnLength gc.page btrNodes - pfx)
        let page := putNumber page last (btnNumber gc.page btrNodes)
        let q := btrNodes + 6 + pfx
        let l := gc.length - q
        some (some { left with
          sibling := rightPage, prefixTotal := total, length := last + 6 + l
          page := page.store (last + 6) (gc.page.load q l) })

/-- The pages that `garbage_collect` rewrites, when it has found the node for the page in the
parent: the parent, the right sibling and the left sibling -/
def garbageCollect (parent : Bucket) (parentNode : ℕ) (left gc : Bucket) (right : Option Bucket)
    (pageSize leftPage rightPage : ℕ) (lastKey : Memory UCHAR) : Option (List Bucket) :=
  -- never a page which is the first one on its parent
  if parentNode = btrNodes then some []
  else
    match left.merge gc pageSize (if right.isSome then rightPage else 0) lastKey with
    | none => none
    | some none => some []
    | some (some left') =>
        some (parent.deleteNode parentNode ::
          (right.toList.map fun b => { b with leftSibling := leftPage }) ++ [left'])

end Bucket

/-- The first node of the page, behind the last key of its left sibling -/
def Node.join (n : Node) (pfx : ℕ) : Node where
  btnPrefix := uchar pfx
  btnNumber := n.btnNumber
  btnData := n.btnData.drop pfx
  length_le := n.length_drop_le pfx

namespace Bucket

variable {b left gc left' : Bucket} {pre es rest : List Node} {n t : Node}
  {fuel pageSize rightPage : ℕ} {key : Memory UCHAR}

/-- The last node is the marker. -/
theorem lastNode_eq (pre : List Node) (hb : b.Lays (pre ++ (es ++ [t])))
    (hes : ∀ n ∈ es, ¬n.btnNumber.Negative)
    (ht : t.btnNumber.Negative) (hfuel : es.length < fuel) (key : Memory UCHAR) (p : ℕ) :
    ∃ key' p', b.lastNode fuel (btrNodes + size pre) key p =
      some (btrNodes + size (pre ++ es), key', p') := by
  induction es generalizing pre fuel key p with
  | nil =>
      obtain ⟨fuel, rfl⟩ := Nat.exists_eq_add_of_le' (Nat.zero_lt_of_lt hfuel)
      rw [lastNode, btnNumber_eq hb.node, if_pos ht, List.append_nil]
      exact ⟨key, p, rfl⟩
  | cons n es ih =>
      obtain ⟨fuel, rfl⟩ := Nat.exists_eq_add_of_le' (Nat.zero_lt_of_lt hfuel)
      have hsplit : pre ++ (n :: es ++ [t]) = pre ++ [n] ++ (es ++ [t]) :=
        List.append_cons pre n (es ++ [t])
      have hassoc : pre ++ n :: es = pre ++ [n] ++ es := List.append_cons pre n es
      have hnext : nextNode b.page (btrNodes + size pre) = btrNodes + size (pre ++ [n]) := by
        rw [nextNode_eq hb.node, size_append, size_cons, size_nil, Nat.add_zero, Nat.add_assoc]
      rw [lastNode, btnNumber_eq hb.node, if_neg (hes n List.mem_cons_self), hnext, hassoc]
      rw [hsplit] at hb
      have ih := fun key p => ih _ hb (fun m hm => hes m (List.mem_cons_of_mem _ hm))
        (Nat.lt_of_succ_lt_succ hfuel) key p
      split
      · exact ih _ _
      · exact ih _ _

theorem Lays.first (hb : b.Lays (n :: rest)) : b.page.Holds btrNodes n.bytes := by
  have hnodes := hb.nodes
  rw [List.flatMap_cons, Memory.holds_append] at hnodes
  exact hnodes.1

/-- The nodes of the left sibling after the merge, and its total -/
theorem merge_eq (hl : left.Lays (es ++ [t])) (hes : ∀ n ∈ es, ¬n.btnNumber.Negative)
    (ht : t.btnNumber.Negative) (hg : gc.Lays (n :: rest))
    (h : left.merge gc pageSize rightPage key = some (some left')) :
    ∃ pfx, pfx ≤ n.btnData.length ∧ left'.Lays (es ++ n.join pfx :: rest) ∧
      left'.prefixTotal = left.prefixTotal + (gc.prefixTotal + pfx - t.btnPrefix.val) := by
  obtain ⟨key', p', hlast⟩ := lastNode_eq [] hl hes ht hl.length_lt key 0
  rw [size_nil, Nat.add_zero, List.nil_append] at hlast
  have hlast' := hl.node
  have hfirst : gc.page.Holds btrNodes n.bytes := hg.first
  obtain ⟨last, hat⟩ : ∃ last, last = btrNodes + size es := ⟨_, rfl⟩
  obtain ⟨pfx, hpfx⟩ : ∃ pfx, pfx = common (key'.load 0 p') n.btnData := ⟨_, rfl⟩
  have hle : pfx ≤ n.btnData.length := hpfx ▸ common_le_right _ _
  rw [← hat] at hlast hlast'
  rw [merge, hlast] at h
  simp only [btnData_eq hfirst, btnLength_eq hfirst, btnNumber_eq hfirst, btnPrefix_eq hlast',
    btnLength_eq hlast', ← hpfx] at h
  split at h
  · cases h
  · cases h
    refine ⟨pfx, hle, ⟨?_, ?_⟩, rfl⟩
    · -- what is behind the shared bytes of the first node
      have hbehind : gc.page.Holds (btrNodes + 6 + pfx)
          (n.btnData.drop pfx ++ rest.flatMap Node.bytes) := by
        have hnodes := hg.nodes
        rw [List.flatMap_cons, Node.bytes_eq, List.append_assoc, Memory.holds_append, length_head,
          ← List.take_append_drop pfx n.btnData, List.append_assoc, Memory.holds_append,
          List.length_take_of_le hle] at hnodes
        exact hnodes.2.2
      have hl' : gc.length - (btrNodes + 6 + pfx) =
          (n.btnData.drop pfx ++ rest.flatMap Node.bytes).length := by
        rw [hg.length, List.length_append, length_flatMap_bytes, List.length_drop, size_cons,
          Node.size]
        omega
      have hload := hbehind.load_of_length hl'.symm
      have hhead := holds_putNumber (holds_putLength (holds_putPrefix
        (Memory.holds_append.mp hlast').1 pfx) (n.btnData.length - pfx)) n.btnNumber
      have hend : btrNodes + (es.flatMap Node.bytes).length ≤ last := by
        rw [length_flatMap_bytes, hat]
      have hbefore : (putNumber (putLength (putPrefix left.page last pfx) last
          (n.btnData.length - pfx)) last n.btnNumber).Holds btrNodes (es.flatMap Node.bytes) :=
        holds_putNumber_of_disjoint (holds_putLength_of_disjoint
          (holds_putPrefix_of_disjoint hl.take (.inl hend) pfx) (.inl hend) _) (.inl hend) _
      have hbytes : (es ++ n.join pfx :: rest).flatMap Node.bytes = es.flatMap Node.bytes ++
          (head (uchar pfx) (uchar (n.btnData.length - pfx)) n.btnNumber ++
            (n.btnData.drop pfx ++ rest.flatMap Node.bytes)) := by
        rw [List.flatMap_append, List.flatMap_cons, Node.bytes_eq, Node.join, List.length_drop,
          List.append_assoc]
      rw [hbytes, hload]
      refine Memory.holds_append.mpr ⟨hbefore.store_of_disjoint (.inl ?_), ?_⟩
      · exact hend.trans (Nat.le_add_right _ _)
      · rw [length_flatMap_bytes, ← hat]
        exact Memory.holds_append.mpr
          ⟨hhead.store_of_disjoint (.inl (Nat.le_refl _)), Memory.holds_store _ _ _⟩
    · change last + 6 + (gc.length - (btrNodes + 6 + pfx)) = _
      rw [hg.length, size_append, size_cons, size_cons, Node.size, Node.size, Node.join,
        List.length_drop]
      omega

theorem merge_isSome (hl : left.Lays (es ++ [t])) (hes : ∀ n ∈ es, ¬n.btnNumber.Negative)
    (ht : t.btnNumber.Negative) (gc : Bucket) (pageSize rightPage : ℕ) (key : Memory UCHAR) :
    ∃ r, left.merge gc pageSize rightPage key = some r := by
  obtain ⟨key', p', hlast⟩ := lastNode_eq [] hl hes ht hl.length_lt key 0
  rw [size_nil, Nat.add_zero] at hlast
  rw [merge, hlast]
  dsimp only
  split
  · exact ⟨none, rfl⟩
  · exact ⟨some _, rfl⟩

/-- The first node has its share of the total again. -/
theorem prefixSum_join {pfx : ℕ} (hpfx : pfx ≤ 255) :
    prefixSum (es ++ n.join pfx :: rest) = prefixSum es + pfx + prefixSum rest := by
  have hval : ((n.join pfx).btnPrefix.val : ℤ) = pfx := congrArg Nat.cast (val_uchar hpfx)
  rw [prefixSum_append, prefixSum_cons, hval, add_assoc]

end Bucket

end Firebird.Btr
