import Firebird.Lib.LinkedTree
import Firebird.Lib.Outcome

/-! # The tree of dirty pages (`jrd/cch.cpp`)

The buffers of pages to be written are in a binary tree by page number. `btc_insert` puts a buffer
below a leaf, `btc_remove` puts the left child of a buffer in its place and hangs the right one
below the last page of the left.
-/

namespace Firebird.Btc

open LinkedTree

universe u

variable {ι : Type u}

/-- `MIN_PAGE_NUMBER` -/
def minPageNumber : ℤ := -5

/-- `bdb`: what does not change of the buffers while they are in the tree. The page numbers in use
are above `MIN_PAGE_NUMBER`. -/
structure Buffers (ι : Type u) where
  page : ι → ℤ
  length : ι → ℕ
  lt_page : ∀ x, minPageNumber < page x

/-- The buffers in the tree (`bcb_btree`, `bdb_left`, `bdb_right`, `bdb_parent`), the bits `BDB_dirty`,
`BDB_must_write` and `BDB_system_dirty` of `bdb_flags`, the transactions that changed the pages, and
the pages that have been written, the latest first -/
structure Cache (ι : Type u) where
  links : Links ι
  dirty : ι → Bool
  mustWrite : ι → Bool
  systemDirty : ι → Bool
  transactions : ι → BitVec 32
  written : List ι

/-- What stops the code: `cache_bugcheck`, or a loop that does not end -/
inductive Stop where
  | bugcheck (number : ℕ)
  | endless
deriving DecidableEq

section Definitions

variable [Fintype ι] [DecidableEq ι] (b : Buffers ι)

/-- The loop of `btc_insert` -/
def insertLoop (s : Links ι) (bdb : ι) : ℕ → ι → Except Stop (Links ι)
  | 0, _ => .error .endless
  | turns + 1, node =>
      if b.page bdb = b.page node then .ok s
      else if b.page bdb < b.page node then
        match s.left node with
        | none => .ok { s with
            left := Function.update s.left node (some bdb)
            parent := Function.update s.parent bdb (some node) }
        | some left => insertLoop s bdb turns left
      else
        match s.right node with
        | none => .ok { s with
            right := Function.update s.right node (some bdb)
            parent := Function.update s.parent bdb (some node) }
        | some right => insertLoop s bdb turns right

/-- `btc_insert` -/
def insert (s : Links ι) (bdb : ι) : Except Stop (Links ι) :=
  if s.parent bdb ≠ none then .ok s
  else
    match s.root with
    | none => .ok { s with root := some bdb }
    | some node => insertLoop b s bdb (Fintype.card ι) node

/-- The parent of a child, if there is one -/
def setParent (s : Links ι) (child parent : Option ι) : Links ι :=
  match child with
  | none => s
  | some c => { s with parent := Function.update s.parent c parent }

/-- `btc_remove`: a new child out of the left and right children -/
def makeChild (s : Links ι) (bdb : ι) : Except Stop (Links ι × Option ι) :=
  match s.left bdb with
  | none => .ok (s, s.right bdb)
  | some newChild =>
      match s.rightmost (Fintype.card ι) newChild with
      | none => .error .endless
      | some ptr => .ok (setParent { s with right := Function.update s.right ptr (s.right bdb) }
          (s.right bdb) (some ptr), some newChild)

/-- `btc_remove`: the parent, or the root, with the new child -/
def linkParent (s : Links ι) (bdb : ι) (newChild : Option ι) : Links ι :=
  match s.parent bdb with
  | none => { s with root := newChild }
  | some parent =>
      if s.left parent = some bdb then
        { s with left := Function.update s.left parent newChild }
      else { s with right := Function.update s.right parent newChild }

/-- `btc_remove`: the node initialized for next usage -/
def clear (s : Links ι) (bdb : ι) : Links ι :=
  { s with
    left := Function.update s.left bdb none
    right := Function.update s.right bdb none
    parent := Function.update s.parent bdb none }

/-- `btc_remove` of a buffer in the tree -/
def unlink (s : Links ι) (bdb : ι) : Except Stop (Links ι) :=
  (makeChild s bdb).bind fun (s, newChild) =>
    .ok (clear (setParent (linkParent s bdb newChild) newChild (s.parent bdb)) bdb)

/-- `btc_remove` -/
def remove (s : Cache ι) (bdb : ι) : Except Stop (Cache ι) :=
  if s.links.root = none ∨ (s.links.parent bdb = none ∧ s.links.left bdb = none ∧
      s.links.right bdb = none ∧ s.links.root ≠ some bdb) then
    if s.mustWrite bdb ∨ s.dirty bdb = false then .ok s else .error (.bugcheck 211)
  else (unlink s.links bdb).map fun links => { s with links := links }

end Definitions

open BinaryTree (nil node)

/-- The links are those of a tree in the order of the pages, and the links of the other buffers are
empty. -/
structure Holds (b : Buffers ι) (s : Links ι) (t : BinaryTree ι) : Prop where
  tree : s.IsTree t
  ordered : Ordered b.page t
  left_none : ∀ x, x ∉ inorder t → s.left x = none
  right_none : ∀ x, x ∉ inorder t → s.right x = none
  parent_none : ∀ x, x ∉ inorder t → s.parent x = none

/-- The buffers are in a search tree by page number, with exact parent links. -/
def WellLinked (b : Buffers ι) (s : Links ι) : Prop := ∃ t, Holds b s t

section Unlink

variable {b : Buffers ι} {s : Links ι} {t : BinaryTree ι}

theorem Holds.left_eq (h : Holds b s t) {y z : ι} (hy : s.left y = some z) :
    y ∈ inorder t ∧ z ∈ inorder t ∧ s.parent z = some y := by
  have hmem : y ∈ inorder t := by
    by_contra hno
    rw [h.left_none y hno] at hy
    exact Option.some_ne_none z hy.symm
  exact ⟨hmem, h.tree.mem_of_child hmem (.inl hy), h.tree.parent_of_child hmem (.inl hy)⟩

theorem Holds.right_eq (h : Holds b s t) {y z : ι} (hy : s.right y = some z) :
    y ∈ inorder t ∧ z ∈ inorder t ∧ s.parent z = some y := by
  have hmem : y ∈ inorder t := by
    by_contra hno
    rw [h.right_none y hno] at hy
    exact Option.some_ne_none z hy.symm
  exact ⟨hmem, h.tree.mem_of_child hmem (.inr hy), h.tree.parent_of_child hmem (.inr hy)⟩

/-- A node in the tree has its place. -/
theorem Holds.exists_place (h : Holds b s t) {x : ι} (hx : x ∈ inorder t) :
    ∃ (up : Path ι) (l r : BinaryTree ι), t = up.zip (node x l r) ∧ up.Linked s (some x) (s.parent x) ∧
      Linked s (s.left x) (some x) l ∧ Linked s (s.right x) (some x) r := by
  obtain ⟨up, l, r, rfl⟩ := Path.exists_zip hx .top
  obtain ⟨q, par, hup, rfl, rfl, hl, hr⟩ := Path.isTree_zip.mp h.tree
  exact ⟨up, l, r, rfl, hup, hl, hr⟩

theorem Holds.child_of_parent (h : Holds b s t) {x p : ι} (hp : s.parent x = some p) :
    s.left p = some x ∨ s.right p = some x := by
  have hx : x ∈ inorder t := by
    by_contra hno
    rw [h.parent_none x hno] at hp
    exact Option.some_ne_none p hp.symm
  obtain ⟨up, l, r, rfl, hup, -, -⟩ := h.exists_place hx
  rw [hp] at hup
  cases up with
  | top => exact (Option.some_ne_none p hup.2).elim
  | left y r' up =>
    obtain ⟨hy, hleft, -, -⟩ := hup
    obtain rfl := Option.some.inj hy
    exact .inl hleft
  | right y l' up =>
    obtain ⟨hy, hright, -, -⟩ := hup
    obtain rfl := Option.some.inj hy
    exact .inr hright

theorem Holds.root_eq {bdb : ι} (h : Holds b s t) (hb : bdb ∈ inorder t) (hpar : s.parent bdb = none) :
    s.root = some bdb := by
  obtain ⟨up, l, r, rfl, hup, -, -⟩ := h.exists_place hb
  rw [hpar] at hup
  cases up with
  | top => exact hup.1
  | left y r' up => exact (Option.some_ne_none y hup.1.symm).elim
  | right y l' up => exact (Option.some_ne_none y hup.1.symm).elim

/-- A buffer is in the tree if it has a parent or is the root. -/
theorem Holds.mem_iff {bdb : ι} (h : Holds b s t) :
    bdb ∈ inorder t ↔ s.parent bdb ≠ none ∨ s.root = some bdb := by
  constructor
  · intro hb
    by_cases hpar : s.parent bdb = none
    · exact .inr (h.root_eq hb hpar)
    · exact .inl hpar
  · rintro (hpar | hroot)
    · by_contra hb
      exact hpar (h.parent_none bdb hb)
    · exact Linked.mem_of_eq h.tree hroot

theorem Holds.left_ne_right (h : Holds b s t) {x y : ι} (hx : s.left y = some x) :
    s.right y ≠ some x := by
  intro hright
  obtain ⟨up, l, r, rfl, -, hl, hr⟩ := h.exists_place (h.left_eq hx).1
  have hnd := h.ordered.nodup
  rw [Path.inorder_zip, List.nodup_append, List.nodup_append, inorder_node, List.nodup_append]
    at hnd
  exact hnd.2.1.1.2.2 x (hl.mem_of_eq hx) x (List.mem_cons_of_mem _ (hr.mem_of_eq hright)) rfl

variable [DecidableEq ι]

/-- The link to `z` leads to the new child; the other links stay. -/
theorem linkParent_eq {s₁ : Links ι} {z : ι} {c : Option ι} (h : Holds b s t)
    (hl : s₁.left = s.left) (hp : s₁.parent z = s.parent z) (hroot : s₁.root = s.root) :
    linkParent s₁ z c = {
      root := if s.parent z = none then c else s.root
      left := fun y => if s.left y = some z then c else s.left y
      right := fun y => if s.right y = some z then c else s₁.right y
      parent := s₁.parent } := by
  cases hz : s.parent z with
  | none =>
    have hleft : ∀ y, s.left y ≠ some z := fun y hy =>
      Option.some_ne_none y ((h.left_eq hy).2.2.symm.trans hz)
    have hright : ∀ y, s.right y ≠ some z := fun y hy =>
      Option.some_ne_none y ((h.right_eq hy).2.2.symm.trans hz)
    rw [linkParent, hp, hz]
    simp only [hleft, hright, if_true, if_false, hl]
  | some p =>
    have heq : ∀ {y}, s.left y = some z ∨ s.right y = some z → y = p := by
      intro y hy
      have hpar := hy.elim (fun hy => (h.left_eq hy).2.2) fun hy => (h.right_eq hy).2.2
      exact (Option.some.inj (hz.symm.trans hpar)).symm
    rw [linkParent, hp, hz]
    dsimp only
    rw [hl, hroot, if_neg (Option.some_ne_none p)]
    split_ifs with hleft
    · have hright : ∀ y, s.right y ≠ some z := by
        intro y hy
        obtain rfl := heq (.inr hy)
        exact h.left_ne_right hleft hy
      congr 1
      · funext y
        rw [Function.update_apply]
        by_cases hy : y = p
        · subst hy
          rw [if_pos rfl, if_pos hleft]
        · rw [if_neg hy, if_neg fun h => hy (heq (.inl h))]
      · funext y
        rw [if_neg (hright y)]
    · have hright := (h.child_of_parent hz).resolve_left hleft
      congr 1
      · funext y
        rw [if_neg]
        intro hy
        obtain rfl := heq (.inl hy)
        exact hleft hy
      · funext y
        rw [Function.update_apply]
        by_cases hy : y = p
        · subst hy
          rw [if_pos rfl, if_pos hright]
        · rw [if_neg hy, if_neg fun h => hy (heq (.inr h))]

/-- The links without `z`, after the subtrees of `z` have been joined below `c` -/
def spliced (s s₁ : Links ι) (z : ι) (c : Option ι) : Links ι where
  root := if s.parent z = none then c else s.root
  left := fun y => if y = z then none else if s.left y = some z then c else s.left y
  right := fun y => if y = z then none else if s.right y = some z then c else s₁.right y
  parent := fun y => if y = z then none else if c = some y then s.parent z else s₁.parent y

theorem setParent_eq (s : Links ι) (c par : Option ι) :
    setParent s c par = { s with parent := fun y => if c = some y then par else s.parent y } := by
  cases c with
  | none =>
    rw [setParent]
    simp only [reduceCtorEq, if_false]
  | some c =>
    rw [setParent]
    congr 1
    funext y
    simp only [Function.update_apply, Option.some.injEq, eq_comm (a := c)]

theorem clear_eq {s₁ : Links ι} {z : ι} {c : Option ι} (h : Holds b s t)
    (hl : s₁.left = s.left) (hp : s₁.parent z = s.parent z) (hroot : s₁.root = s.root) :
    clear (setParent (linkParent s₁ z c) c (s₁.parent z)) z = spliced s s₁ z c := by
  rw [linkParent_eq h hl hp hroot, setParent_eq, clear, spliced]
  congr 1
  · funext y
    exact Function.update_apply ..
  · funext y
    exact Function.update_apply ..
  · funext y
    rw [Function.update_apply, hp]

/-- The links are those of the tree without `z`, when the joined subtrees are in order. -/
theorem holds_spliced {s₁ : Links ι} {c : Option ι} {up : Path ι} {z : ι} {l r : BinaryTree ι}
    (h : Holds b s (up.zip (node z l r))) (hr : ∀ y, y ∉ inorder l → s₁.right y = s.right y)
    (hp : ∀ y, y ∉ inorder r → s₁.parent y = s.parent y)
    (hc : ∀ y, c = some y → y ∈ inorder l ∨ y ∈ inorder r)
    (hsub : Linked (spliced s s₁ z c) c (s.parent z) (hang l r)) :
    Holds b (spliced s s₁ z c) (up.zip (hang l r)) := by
  obtain ⟨hz, -, -, hout⟩ := Path.nodup_zip h.ordered.nodup
  obtain ⟨q, par, hup, rfl, rfl, hlt, hrt⟩ := Path.isTree_zip.mp h.tree
  have hmem : ∀ y, y ∉ inorder (up.zip (hang l r)) → y = z ∨ y ∉ inorder (up.zip (node z l r)) := by
    intro y hy
    rw [Path.mem_zip, inorder_hang, List.mem_append] at hy
    rw [Path.mem_zip, inorder_node, List.mem_append, List.mem_cons]
    tauto
  have hlr : ∀ y, y ∉ inorder (up.zip (node z l r)) → y ∉ inorder l ∧ y ∉ inorder r := by
    intro y hy
    rw [Path.mem_zip, inorder_node, List.mem_append, List.mem_cons] at hy
    tauto
  have hne : ∀ y, y ∉ inorder (up.zip (node z l r)) → y ≠ z := by
    rintro y hy rfl
    exact hy ((Path.mem_zip _).mpr (.inr (.inl (List.mem_append_right _ List.mem_cons_self))))
  refine ⟨Path.isTree_zip.mpr ⟨c, s.parent z, hup.replace ?_ ?_ ?_ ?_ ?_ ?_ ?_ ?_, hsub⟩,
    ?_, ?_, ?_, ?_⟩
  · exact fun hz => (hout z hz).1 rfl
  · exact fun hpar => if_pos hpar
  · exact fun hpar => if_neg hpar
  · intro y hy hleft
    exact (if_neg (hout y hy).1).trans (if_neg hleft)
  · intro y hleft
    have hyz : y ≠ z := by
      rintro rfl
      exact hz.1 (hlt.mem_of_eq hleft)
    exact (if_neg hyz).trans (if_pos hleft)
  · intro y hy hright
    exact ((if_neg (hout y hy).1).trans (if_neg hright)).trans (hr y (hout y hy).2.1)
  · intro y hright
    have hyz : y ≠ z := by
      rintro rfl
      exact hz.2 (hrt.mem_of_eq hright)
    exact (if_neg hyz).trans (if_pos hright)
  · intro y hy
    have hne : c ≠ some y := fun h => (hc y h).elim (hout y hy).2.1 (hout y hy).2.2
    exact ((if_neg (hout y hy).1).trans (if_neg hne)).trans (hp y (hout y hy).2.2)
  · exact h.ordered.sublist (Path.zip_hang_sublist up z l r)
  · intro y hy
    rcases hmem y hy with rfl | hy
    · exact if_pos rfl
    · have hno := h.left_none y hy
      refine (if_neg (hne y hy)).trans ((if_neg ?_).trans hno)
      rw [hno]
      exact (Option.some_ne_none z).symm
  · intro y hy
    rcases hmem y hy with rfl | hy
    · exact if_pos rfl
    · have hno := h.right_none y hy
      refine (if_neg (hne y hy)).trans ((if_neg ?_).trans ((hr y (hlr y hy).1).trans hno))
      rw [hno]
      exact (Option.some_ne_none z).symm
  · intro y hy
    rcases hmem y hy with rfl | hy
    · exact if_pos rfl
    · have hno : c ≠ some y := fun h => (hc y h).elim (hlr y hy).1 (hlr y hy).2
      exact (if_neg (hne y hy)).trans ((if_neg hno).trans ((hp y (hlr y hy).2).trans
        (h.parent_none y hy)))

variable [Fintype ι]

omit [DecidableEq ι] in
theorem Holds.length_le (h : Holds b s t) : (inorder t).length ≤ Fintype.card ι :=
  h.ordered.nodup.length_le_card

/-- The new child, and the links of the rest: `ptr` is the last node of the left subtree. -/
theorem makeChild_eq {up : Path ι} {z : ι} {l r : BinaryTree ι}
    (h : Holds b s (up.zip (node z l r))) :
    (l = nil ∧ makeChild s z = .ok (s, s.right z)) ∨
      ∃ c ptr, s.left z = some c ∧ (inorder l).getLast? = some ptr ∧
        makeChild s z = .ok (setParent { s with right := Function.update s.right ptr (s.right z) }
          (s.right z) (some ptr), some c) := by
  obtain ⟨q, par, hup, hq, hpar, hl, hr⟩ := Path.isTree_zip.mp h.tree
  cases hz : s.left z with
  | none =>
    rw [hz] at hl
    exact .inl ⟨hl.eq_nil, by rw [makeChild, hz]⟩
  | some c =>
    rw [hz] at hl
    have hlen := h.length_le
    rw [Path.inorder_zip, inorder_node] at hlen
    simp only [List.length_append, List.length_cons] at hlen
    have hlast := hl.rightmost (Fintype.card ι) (by omega)
    obtain ⟨x, y, rfl⟩ := hl.exists_node
    obtain ⟨ptr, hptr⟩ := Option.isSome_iff_exists.mp
      (List.getLast?_isSome.mpr (inorder_ne_nil c x y))
    refine .inr ⟨c, ptr, rfl, hptr, ?_⟩
    rw [makeChild, hz]
    dsimp only
    rw [hlast, hptr]

/-- `btc_remove` leaves the links of the tree without the page; it keeps the links elsewhere. -/
theorem unlink_spec {up : Path ι} {z : ι} {l r : BinaryTree ι}
    (h : Holds b s (up.zip (node z l r))) :
    ∃ s', unlink s z = .ok s' ∧ Holds b s' (up.zip (hang l r)) := by
  obtain ⟨hz, ⟨hndl, hndr⟩, hdis, -⟩ := Path.nodup_zip h.ordered.nodup
  obtain ⟨q, par, -, -, rfl, hlt, hrt⟩ := Path.isTree_zip.mp h.tree
  -- the node is not a child within its own subtrees
  have hin : ∀ y, y ∈ inorder l ∨ y ∈ inorder r → s.left y ≠ some z ∧ s.right y ≠ some z := by
    intro y hy
    have hno : ¬(s.left y = some z ∨ s.right y = some z) := by
      intro hchild
      exact hy.elim (fun hy => hz.1 (hlt.mem_of_child hy hchild))
        fun hy => hz.2 (hrt.mem_of_child hy hchild)
    exact not_or.mp hno
  have hyz : ∀ y, y ∈ inorder l ∨ y ∈ inorder r → y ≠ z := by
    rintro y hy rfl
    exact hy.elim hz.1 hz.2
  rcases makeChild_eq h with ⟨rfl, hmake⟩ | ⟨c, ptr, hc, hptr, hmake⟩
  · refine ⟨_, by rw [unlink, hmake]; rfl, ?_⟩
    rw [clear_eq h rfl rfl rfl]
    refine holds_spliced h (fun _ _ => rfl) (fun _ _ => rfl)
      (fun y hy => .inr (hrt.mem_of_eq hy)) ?_
    rw [nil_hang]
    refine hrt.reparent hndr ?_ ?_ ?_ ?_
    · intro y hy
      exact (if_neg (hyz y (.inr hy))).trans (if_neg (hin y (.inr hy)).1)
    · intro y hy
      exact (if_neg (hyz y (.inr hy))).trans (if_neg (hin y (.inr hy)).2)
    · intro y hy hne
      exact (if_neg (hyz y (.inr hy))).trans (if_neg hne)
    · intro y hy
      exact (if_neg (hyz y (.inr (hrt.mem_of_eq hy)))).trans (if_pos hy)
  · have hmem : ptr ∈ inorder l := List.mem_of_getLast? hptr
    have hcl : c ∈ inorder l := hlt.mem_of_eq hc
    rw [setParent_eq] at hmake
    refine ⟨_, by rw [unlink, hmake]; rfl, ?_⟩
    have hroot : s.right z ≠ some z := fun hr => hz.2 (hrt.mem_of_eq hr)
    have hnot : ∀ y, y ∉ inorder r → s.right z ≠ some y := fun y hy hr => hy (hrt.mem_of_eq hr)
    rw [clear_eq h]
    rotate_left
    · rfl
    · exact if_neg hroot
    · rfl
    refine holds_spliced h (fun y hy => ?_) (fun y hy => if_neg (hnot y hy)) (fun y hy => ?_) ?_
    · refine Function.update_of_ne ?_ ..
      rintro rfl
      exact hy hmem
    · obtain rfl := Option.some.inj hy
      exact .inl hcl
    -- the left subtree below its new parent, then the right one below its last node
    have hl : Linked { s with parent := Function.update s.parent c (s.parent z) } (some c)
        (s.parent z) l := by
      rw [hc] at hlt
      refine hlt.reparent hndl (fun _ _ => rfl) (fun _ _ => rfl) ?_ ?_
      · intro y _ hne
        exact Function.update_of_ne (fun h => hne (congrArg some h.symm)) ..
      · intro y hy
        obtain rfl := Option.some.inj hy
        exact Function.update_self ..
    refine hl.hang hndl hptr ?_ ?_ (q := s.right z) ?_ ?_ ?_
    · intro y hy
      exact (if_neg (hyz y (.inl hy))).trans (if_neg (hin y (.inl hy)).1)
    · intro y hy hne
      exact ((if_neg (hyz y (.inl hy))).trans (if_neg (hin y (.inl hy)).2)).trans
        (Function.update_of_ne hne ..)
    · exact ((if_neg (hyz ptr (.inl hmem))).trans (if_neg (hin ptr (.inl hmem)).2)).trans
        (Function.update_self ..)
    · intro y hy
      refine (if_neg (hyz y (.inl hy))).trans ?_
      dsimp only
      rw [Function.update_apply, if_neg (hnot y (hdis y hy))]
      simp only [Option.some.injEq, eq_comm (a := c)]
    · refine hrt.reparent hndr ?_ ?_ ?_ ?_
      · intro y hy
        exact (if_neg (hyz y (.inr hy))).trans (if_neg (hin y (.inr hy)).1)
      · intro y hy
        have hne : y ≠ ptr := by
          rintro rfl
          exact hdis y hmem hy
        exact ((if_neg (hyz y (.inr hy))).trans (if_neg (hin y (.inr hy)).2)).trans
          (Function.update_of_ne hne ..)
      · intro y hy hne
        have hcy : some c ≠ some y := by
          rintro h
          obtain rfl := Option.some.inj h
          exact hdis c hcl hy
        exact ((if_neg (hyz y (.inr hy))).trans (if_neg hcy)).trans (if_neg hne)
      · intro y hy
        have hyr := hrt.mem_of_eq hy
        have hcy : some c ≠ some y := by
          rintro h
          obtain rfl := Option.some.inj h
          exact hdis c hcl hyr
        exact ((if_neg (hyz y (.inr hyr))).trans (if_neg hcy)).trans (if_pos hy)

end Unlink

section Insert

variable {b : Buffers ι} {s : Links ι} {t : BinaryTree ι} {bdb : ι}

/-- A page at a place where there is none -/
theorem holds_attach {s' : Links ι} (up : Path ι) {par : Option ι} (h : Holds b s (up.zip nil))
    (hb : bdb ∉ inorder (up.zip nil)) (hbefore : ∀ y ∈ up.before, b.page y < b.page bdb)
    (hafter : ∀ y ∈ up.after, b.page bdb < b.page y) (hup : up.Linked s' (some bdb) par)
    (hpar : s'.parent bdb = par) (hl : ∀ y, y ∉ inorder (up.zip nil) → s'.left y = s.left y)
    (hr : ∀ y, y ∉ inorder (up.zip nil) → s'.right y = s.right y)
    (hp : ∀ y, y ∉ inorder (up.zip nil) → y ≠ bdb → s'.parent y = s.parent y) :
    Holds b s' (up.zip (node bdb nil nil)) := by
  have hmem : ∀ y, y ∉ inorder (up.zip (node bdb nil nil)) → y ∉ inorder (up.zip nil) ∧ y ≠ bdb := by
    intro y hy
    rw [Path.mem_zip, inorder_node, inorder_nil, List.nil_append, List.mem_singleton] at hy
    rw [Path.mem_zip, inorder_nil]
    have hno : y ∉ ([] : List ι) := List.not_mem_nil
    tauto
  have hleft := (hl bdb hb).trans (h.left_none bdb hb)
  have hright := (hr bdb hb).trans (h.right_none bdb hb)
  refine ⟨Path.isTree_zip.mpr ⟨_, _, hup, rfl, hpar, hleft, hright⟩, ?_, ?_, ?_, ?_⟩
  · have hord := h.ordered
    rw [Ordered, Path.inorder_zip, inorder_nil, List.nil_append, List.pairwise_append] at hord
    obtain ⟨hb, ha, hba⟩ := hord
    rw [Ordered, Path.inorder_zip, inorder_node, inorder_nil, List.nil_append,
      List.pairwise_append, List.cons_append, List.nil_append, List.pairwise_cons]
    refine ⟨hb, ⟨hafter, ha⟩, fun y hy z hz => ?_⟩
    rcases List.mem_cons.mp hz with rfl | hz
    · exact hbefore y hy
    · exact hba y hy z hz
  · exact fun y hy => (hl y (hmem y hy).1).trans (h.left_none y (hmem y hy).1)
  · exact fun y hy => (hr y (hmem y hy).1).trans (h.right_none y (hmem y hy).1)
  · exact fun y hy => (hp y (hmem y hy).1 (hmem y hy).2).trans (h.parent_none y (hmem y hy).1)

variable [DecidableEq ι]

/-- The loop links the page at a place where the pages before are less and those after are
greater. -/
theorem insertLoop_spec (hb : bdb ∉ inorder t) (up : Path ι) {x : ι} {l r : BinaryTree ι}
    {turns : ℕ} (h : Holds b s t) (ht : t = up.zip (node x l r))
    (hbefore : ∀ y ∈ up.before, b.page y < b.page bdb)
    (hafter : ∀ y ∈ up.after, b.page bdb < b.page y)
    (hturns : (inorder (node x l r)).length ≤ turns) :
    ∃ s', insertLoop b s bdb turns x = .ok s' ∧ WellLinked b s' := by
  induction turns generalizing up x l r with
  | zero => exact absurd (List.length_eq_zero_iff.mp (Nat.le_zero.mp hturns)) (inorder_ne_nil x l r)
  | succ turns ih =>
    rw [inorder_node, List.length_append, List.length_cons] at hturns
    have hnd := h.ordered.nodup
    have htree := h.tree
    rw [ht] at hnd htree
    obtain ⟨hz, -, -, hout⟩ := Path.nodup_zip hnd
    have hxup : ¬(x ∈ up.before ∨ x ∈ up.after) := fun hx => (hout x hx).1 rfl
    obtain ⟨q, par, hup, rfl, rfl, hl, hr⟩ := Path.isTree_zip.mp htree
    have hord := h.ordered
    rw [ht, Ordered, Path.inorder_zip, inorder_node] at hord
    simp only [List.pairwise_append, List.pairwise_cons, List.mem_append, List.mem_cons] at hord
    obtain ⟨-, ⟨⟨-, ⟨hxr, -⟩, hlx⟩, -, -⟩, -⟩ := hord
    have hbt : ∀ y ∈ inorder t, y ≠ bdb := fun y hy hyb => hb (hyb ▸ hy)
    rw [insertLoop]
    split_ifs with heq hlt
    · exact ⟨s, rfl, t, h⟩
    · -- into the left subtree
      have hbefore' : ∀ y ∈ (Path.left x r up).before, b.page y < b.page bdb := hbefore
      have hafter' : ∀ y ∈ (Path.left x r up).after, b.page bdb < b.page y := by
        intro y hy
        rw [Path.after, List.cons_append, List.mem_cons, List.mem_append] at hy
        rcases hy with rfl | hy | hy
        · exact hlt
        · exact hlt.trans (hxr y hy)
        · exact hafter y hy
      have hpath : (Path.left x r up).Linked s (s.left x) (some x) := ⟨rfl, rfl, hr, hup⟩
      cases hleft : s.left x with
      | some y =>
        rw [hleft] at hl
        obtain ⟨a, c, rfl⟩ := hl.exists_node
        exact ih (.left x r up) ht hbefore' hafter' (by omega)
      | none =>
        rw [hleft] at hl
        obtain rfl := hl.eq_nil
        subst ht
        have hx : ∀ y, y ∉ inorder ((Path.left x r up).zip nil) → y ≠ x := by
          rintro y hy rfl
          exact hy ((Path.mem_zip _).mpr (.inr (.inr (List.mem_append_left _ List.mem_cons_self))))
        refine ⟨_, rfl, _, holds_attach (.left x r up) h hb hbefore' hafter'
          (hpath.set_left rfl (Function.update_self ..) ?_ rfl ?_ hz.2 hxup) ?_ ?_ ?_ ?_⟩
        · exact fun y hy => Function.update_of_ne hy ..
        · intro y hy
          refine Function.update_of_ne (hbt y ?_) ..
          exact (Path.left x r up).mem_zip.mpr (hy.imp_right .inr)
        · exact Function.update_self ..
        · exact fun y hy => Function.update_of_ne (hx y hy) ..
        · exact fun y hy => rfl
        · exact fun y _ hy => Function.update_of_ne hy ..
    · -- into the right subtree
      have hgt : b.page x < b.page bdb := lt_of_le_of_ne (not_lt.mp hlt) (Ne.symm heq)
      have hbefore' : ∀ y ∈ (Path.right x l up).before, b.page y < b.page bdb := by
        intro y hy
        rw [Path.before, List.mem_append, List.mem_append, List.mem_singleton] at hy
        rcases hy with hy | hy | rfl
        · exact hbefore y hy
        · exact (hlx y hy x (.inl rfl)).trans hgt
        · exact hgt
      have hafter' : ∀ y ∈ (Path.right x l up).after, b.page bdb < b.page y := hafter
      have hpath : (Path.right x l up).Linked s (s.right x) (some x) := ⟨rfl, rfl, hl, hup⟩
      cases hright : s.right x with
      | some y =>
        rw [hright] at hr
        obtain ⟨a, c, rfl⟩ := hr.exists_node
        exact ih (.right x l up) ht hbefore' hafter' (by omega)
      | none =>
        rw [hright] at hr
        obtain rfl := hr.eq_nil
        subst ht
        have hx : ∀ y, y ∉ inorder ((Path.right x l up).zip nil) → y ≠ x := by
          rintro y hy rfl
          exact hy ((Path.mem_zip _).mpr (.inl (List.mem_append_right _ (List.mem_append_right _
            List.mem_cons_self))))
        refine ⟨_, rfl, _, holds_attach (.right x l up) h hb hbefore' hafter'
          (hpath.set_right rfl (Function.update_self ..) ?_ rfl ?_ hz.1 hxup) ?_ ?_ ?_ ?_⟩
        · exact fun y hy => Function.update_of_ne hy ..
        · intro y hy
          refine Function.update_of_ne (hbt y ?_) ..
          exact (Path.right x l up).mem_zip.mpr (hy.imp_right .inr)
        · exact Function.update_self ..
        · exact fun y hy => rfl
        · exact fun y hy => Function.update_of_ne (hx y hy) ..
        · exact fun y _ hy => Function.update_of_ne hy ..

/-- A page in the tree is found again at the root only. -/
theorem insertLoop_self {turns : ℕ} (hturns : 0 < turns) : insertLoop b s bdb turns bdb = .ok s := by
  obtain ⟨n, rfl⟩ : ∃ n, turns = n + 1 := ⟨turns - 1, by omega⟩
  rw [insertLoop, if_pos rfl]

variable [Fintype ι]

/-- `btc_insert` keeps the tree. -/
theorem insert_spec (bdb : ι) (h : WellLinked b s) : ∃ s', insert b s bdb = .ok s' ∧ WellLinked b s' := by
  obtain ⟨t, ht⟩ := h
  rw [insert]
  split_ifs with hpar
  · exact ⟨s, rfl, t, ht⟩
  · rw [not_not] at hpar
    by_cases hb : bdb ∈ inorder t
    · rw [ht.root_eq hb hpar]
      exact ⟨s, insertLoop_self (Fintype.card_pos_iff.mpr ⟨bdb⟩), t, ht⟩
    · have htree := ht.tree
      rw [Links.IsTree] at htree
      cases hroot : s.root with
      | none =>
        rw [hroot] at htree
        obtain rfl := htree.eq_nil
        refine ⟨_, rfl, _, holds_attach .top ht hb ?_ ?_ ⟨rfl, rfl⟩ hpar ?_ ?_ ?_⟩
        · exact fun y hy => (List.not_mem_nil hy).elim
        · exact fun y hy => (List.not_mem_nil hy).elim
        · exact fun _ _ => rfl
        · exact fun _ _ => rfl
        · exact fun _ _ _ => rfl
      | some node =>
        rw [hroot] at htree
        obtain ⟨l, r, rfl⟩ := htree.exists_node
        exact insertLoop_spec hb .top ht rfl (fun y hy => (List.not_mem_nil hy).elim)
          (fun y hy => (List.not_mem_nil hy).elim) ht.length_le

end Insert

section Remove

variable [Fintype ι] [DecidableEq ι] {b : Buffers ι} {c : Cache ι} {t : BinaryTree ι} {bdb : ι}

theorem remove_of_mem {up : Path ι} {l r : BinaryTree ι}
    (h : Holds b c.links (up.zip (node bdb l r))) :
    ∃ links, remove c bdb = .ok { c with links := links } ∧ Holds b links (up.zip (hang l r)) := by
  have hb : bdb ∈ inorder (up.zip (node bdb l r)) :=
    (Path.mem_zip _).mpr (.inr (.inl (List.mem_append_right _ List.mem_cons_self)))
  obtain ⟨links, hlinks, hlinked⟩ := unlink_spec h
  refine ⟨links, ?_, hlinked⟩
  rw [remove, if_neg, hlinks]
  · rfl
  · rintro (hroot | ⟨hpar, -, -, hroot⟩)
    · have htree := h.tree
      rw [Links.IsTree, hroot] at htree
      rw [htree.eq_nil] at hb
      exact List.not_mem_nil hb
    · exact (h.mem_iff.mp hb).elim (fun hno => hno hpar) hroot

theorem remove_of_not_mem (h : Holds b c.links t) (hb : bdb ∉ inorder t) :
    remove c bdb =
      if c.mustWrite bdb ∨ c.dirty bdb = false then .ok c else .error (.bugcheck 211) := by
  rw [remove, if_pos]
  refine .inr ⟨h.parent_none bdb hb, h.left_none bdb hb, h.right_none bdb hb, fun hroot => ?_⟩
  exact hb (h.mem_iff.mpr (.inr hroot))

/-- `btc_remove` keeps the tree; it stops at a dirty page that is not there. -/
theorem remove_spec (h : WellLinked b c.links) :
    Outcome.Holds (fun c' => WellLinked b c'.links) (fun e => e = .bugcheck 211)
      (remove c bdb) := by
  obtain ⟨t, ht⟩ := h
  by_cases hb : bdb ∈ inorder t
  · obtain ⟨up, l, r, rfl, -⟩ := ht.exists_place hb
    obtain ⟨links, hlinks, hlinked⟩ := remove_of_mem ht
    rw [hlinks]
    exact ⟨_, hlinked⟩
  · rw [remove_of_not_mem ht hb]
    split_ifs
    · exact ⟨t, ht⟩
    · exact rfl

end Remove

section Runs

variable [Fintype ι] [DecidableEq ι] (b : Buffers ι)

/-- A call on the tree, or a change of the buffers by other code -/
inductive Op (ι : Type u) where
  | insert (bdb : ι)
  | remove (bdb : ι)
  | flags (dirty mustWrite systemDirty : ι → Bool) (transactions : ι → BitVec 32)

/-- The effect of a call -/
def Op.exec (c : Cache ι) : Op ι → Except Stop (Cache ι)
  | .insert bdb => (Btc.insert b c.links bdb).map fun links => { c with links := links }
  | .remove bdb => Btc.remove c bdb
  | .flags dirty mustWrite systemDirty transactions =>
      .ok { c with dirty, mustWrite, systemDirty, transactions }

/-- No tree, and no buffer has been marked. -/
def empty : Cache ι where
  links := ⟨none, fun _ => none, fun _ => none, fun _ => none⟩
  dirty := fun _ => false
  mustWrite := fun _ => false
  systemDirty := fun _ => false
  transactions := fun _ => 0
  written := []

omit [Fintype ι] [DecidableEq ι] in
theorem wellLinked_empty : WellLinked b (empty (ι := ι)).links :=
  ⟨nil, rfl, List.Pairwise.nil, fun _ _ => rfl, fun _ _ => rfl, fun _ _ => rfl⟩

variable {b}

/-- One call keeps the tree. -/
theorem Op.exec_spec {c : Cache ι} (h : WellLinked b c.links) (op : Op ι) :
    Outcome.Holds (fun c' => WellLinked b c'.links) (fun e => e = .bugcheck 211)
      (op.exec b c) := by
  cases op with
  | insert bdb =>
    obtain ⟨s', hs', hlinked⟩ := insert_spec bdb h
    rw [Op.exec, hs']
    exact hlinked
  | remove bdb => exact remove_spec h
  | flags => exact h

/-- Every sequence of calls keeps the tree. -/
theorem wellLinked_run {c : Cache ι} (h : WellLinked b c.links) (ops : List (Op ι)) :
    Outcome.Holds (fun c' => WellLinked b c'.links) (fun e => e = .bugcheck 211)
      (ops.foldlM (Op.exec b) c) := by
  induction ops generalizing c with
  | nil => exact h
  | cons op ops ih =>
    rw [List.foldlM_cons]
    exact (op.exec_spec h).bind fun c' hc' => ih hc'

end Runs

end Firebird.Btc
