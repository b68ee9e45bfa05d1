import Firebird.Tree.Valid

/-! # Insertions that fail

A page that is allocated is linked behind the page that is split, and the handler gives the pages
back without taking them out of the links. Only if the allocation of the leaf page is the one that
fails, no link has been set.
-/

namespace Firebird.BePlus

namespace Tree

variable {V K σ : Type} {P : Params V K} {A : Ledger σ} {t t' t₀ : Tree V}
  {s s' s₀ : σ} {p q r newNode newList : Addr} {d k pos curLevel : ℕ} {v item : V}

/-! ## What is not changed -/

theorem node_modifyNode_of_ne (h : r ≠ p) (f : NodeList → NodeList) :
    (t.modifyNode p f).node r = t.node r :=
  Function.update_of_ne h _ _

theorem node_modifyNode_self (f : NodeList → NodeList) :
    (t.modifyNode p f).node p = f (t.node p) :=
  Function.update_self ..

theorem leaf_modifyLeaf_of_ne (h : r ≠ p) (f : ItemList V → ItemList V) :
    (t.modifyLeaf p f).leaf r = t.leaf r :=
  Function.update_of_ne h _ _

theorem leaf_modifyLeaf_self (f : ItemList V → ItemList V) :
    (t.modifyLeaf p f).leaf p = f (t.leaf p) :=
  Function.update_self ..

/-- A field that is kept -/
theorem modifyNode_field {β : Type} (g : NodeList → β) {f : NodeList → NodeList}
    (hf : g (f (t.node p)) = g (t.node p)) : g ((t.modifyNode p f).node r) = g (t.node r) := by
  by_cases h : r = p
  · rw [h, node_modifyNode_self, hf]
  · rw [node_modifyNode_of_ne h]

theorem modifyLeaf_field {β : Type} (g : ItemList V → β) {f : ItemList V → ItemList V}
    (hf : g (f (t.leaf p)) = g (t.leaf p)) : g ((t.modifyLeaf p f).leaf r) = g (t.leaf r) := by
  by_cases h : r = p
  · rw [h, leaf_modifyLeaf_self, hf]
  · rw [leaf_modifyLeaf_of_ne h]

theorem setNodeParent_field {β : Type} (g : NodeList → β) {parent : Option Addr}
    (hg : ∀ n : NodeList, g { n with parent := parent } = g n) :
    g ((t.setNodeParent p curLevel parent).node r) = g (t.node r) := by
  rw [setNodeParent]
  split
  · rfl
  · exact modifyNode_field g (hg _)

theorem setNodeParentAndLevel_field {β : Type} (g : NodeList → β) {parent : Addr}
    (hg : ∀ n : NodeList, ∀ l, g { n with parent := some parent, level := l } = g n) :
    g ((t.setNodeParentAndLevel p curLevel parent).node r) = g (t.node r) := by
  rw [setNodeParentAndLevel]
  split
  · rfl
  · exact modifyNode_field g (hg _ _)

/-- Node pages that are not below keep their parents. -/
theorem parent_setNodeParent (h : curLevel ≠ 0 → r ≠ p) (q : Option Addr) :
    ((t.setNodeParent p curLevel q).node r).parent = (t.node r).parent := by
  rw [setNodeParent]
  split
  · rfl
  · rename_i hlevel
    rw [node_modifyNode_of_ne (h hlevel)]

theorem parent_setNodeParentAndLevel (h : curLevel ≠ 0 → r ≠ p) (q : Addr) :
    ((t.setNodeParentAndLevel p curLevel q).node r).parent = (t.node r).parent := by
  rw [setNodeParentAndLevel]
  split
  · rfl
  · rename_i hlevel
    rw [node_modifyNode_of_ne (h hlevel)]

theorem next_linkNode (t : Tree V) (p q : Addr) : ((t.linkNode p q).node q).next = some p := by
  rw [linkNode, node_modifyNode_self]

/-- A field other than the links is kept on every page but the new one. -/
theorem linkNode_field {β : Type} (g : NodeList → β) (hnext : ∀ n : NodeList, ∀ q,
    g { n with next := q } = g n) (hprev : ∀ n : NodeList, ∀ q, g { n with prev := q } = g n)
    (h : r ≠ p) : g ((t.linkNode p q).node r) = g (t.node r) := by
  rw [linkNode]
  refine (modifyNode_field g (hnext _ _)).trans ?_
  rw [node_modifyNode_of_ne h]
  split
  · exact modifyNode_field g (hprev _ _)
  · rfl

/-- No page that is not the top one changes where the root is. -/
theorem top_setNodeParent (p : Addr) (q : Option Addr) :
    (t.setNodeParent p curLevel q).root = t.root ∧
      (t.setNodeParent p curLevel q).level = t.level := by
  rw [setNodeParent]
  split <;> exact ⟨rfl, rfl⟩

theorem top_setNodeParentAndLevel (p : Addr) (q : Addr) :
    (t.setNodeParentAndLevel p curLevel q).root = t.root ∧
      (t.setNodeParentAndLevel p curLevel q).level = t.level := by
  rw [setNodeParentAndLevel]
  split <;> exact ⟨rfl, rfl⟩

theorem top_linkNode (p q : Addr) :
    (t.linkNode p q).root = t.root ∧ (t.linkNode p q).level = t.level := by
  rw [linkNode]
  cases (t.node q).next <;> exact ⟨rfl, rfl⟩

theorem top_spillNext (nodeList list : Addr) :
    (t.spillNext P nodeList list newNode pos curLevel).root = t.root ∧
      (t.spillNext P nodeList list newNode pos curLevel).level = t.level := by
  rw [spillNext]
  split
  · exact top_setNodeParentAndLevel newNode list
  · constructor
    · exact (top_setNodeParentAndLevel newNode nodeList).1.trans (top_setNodeParent _ (some list)).1
    · exact (top_setNodeParentAndLevel newNode nodeList).2.trans (top_setNodeParent _ (some list)).2

/-- The links of a page are kept where pages are moved. -/
theorem next_spillNext (nodeList list : Addr) :
    ((t.spillNext P nodeList list newNode pos curLevel).node r).next = (t.node r).next := by
  rw [spillNext]
  split
  · refine (modifyNode_field NodeList.next rfl).trans ?_
    exact setNodeParentAndLevel_field NodeList.next fun _ _ => rfl
  · refine (modifyNode_field NodeList.next rfl).trans ?_
    refine (setNodeParentAndLevel_field NodeList.next fun _ _ => rfl).trans ?_
    refine (modifyNode_field NodeList.next rfl).trans ?_
    refine (modifyNode_field NodeList.next rfl).trans ?_
    exact setNodeParent_field NodeList.next fun _ => rfl

/-- Pages above keep the pages below them. -/
theorem data_spillNext {nodeList list : Addr} (hne : r ≠ nodeList) (hne' : r ≠ list) :
    ((t.spillNext P nodeList list newNode pos curLevel).node r).data = (t.node r).data := by
  rw [spillNext]
  split
  · rw [insertNode, node_modifyNode_of_ne hne']
    exact setNodeParentAndLevel_field NodeList.data fun _ _ => rfl
  · rw [insertNode, node_modifyNode_of_ne hne]
    refine (setNodeParentAndLevel_field NodeList.data fun _ _ => rfl).trans ?_
    rw [shrinkNode, node_modifyNode_of_ne hne, insertNode, node_modifyNode_of_ne hne']
    exact setNodeParent_field NodeList.data fun _ => rfl

theorem parent_spillNext {nodeList list : Addr} (hnew : curLevel ≠ 0 → r ≠ newNode)
    (hlast : curLevel ≠ 0 → r ≠ (t.node nodeList).data[P.nodeCount - 1]!) :
    ((t.spillNext P nodeList list newNode pos curLevel).node r).parent = (t.node r).parent := by
  rw [spillNext]
  split
  · refine (modifyNode_field NodeList.parent rfl).trans ?_
    exact parent_setNodeParentAndLevel hnew list
  · refine (modifyNode_field NodeList.parent rfl).trans ?_
    refine (parent_setNodeParentAndLevel hnew nodeList).trans ?_
    refine (modifyNode_field NodeList.parent rfl).trans ?_
    refine (modifyNode_field NodeList.parent rfl).trans ?_
    exact parent_setNodeParent hlast (some list)

/-! ## The handler -/

theorem owns_unwind [Inhabited V] (h : A.owns s q = false) (lev : ℕ) (newNode : Addr) :
    A.owns (t.unwind A lev newNode s).1 q = false := by
  have hfree : A.owns (A.deallocate newNode s) q = false := by
    rw [A.owns_deallocate]
    by_cases hq : q = newNode
    · rw [hq, Function.update_self]
    · rw [Function.update_of_ne hq, h]
  induction lev generalizing newNode s with
  | zero => exact hfree
  | succ lev ih =>
      rw [unwind]
      refine ih hfree _ ?_
      rw [A.owns_deallocate]
      by_cases hq : q = (t.node newNode).data.head!
      · rw [hq, Function.update_self]
      · rw [Function.update_of_ne hq, hfree]

/-- The page that is given back first -/
theorem owns_unwind_self [Inhabited V] (lev : ℕ) (newNode : Addr) (s : σ) :
    A.owns (t.unwind A lev newNode s).1 newNode = false := by
  have hfree : A.owns (A.deallocate newNode s) newNode = false := by
    rw [A.owns_deallocate, Function.update_self]
  cases lev with
  | zero => exact hfree
  | succ lev => exact owns_unwind hfree lev _

/-- The loop is at the parent of a page that links to the new page. Above nothing has changed. -/
structure Climbing (A : Ledger σ) (t₀ : Tree V) (s₀ : σ) (t : Tree V) (s : σ) (newNode : Addr)
    (nodeList : Option Addr) (curLevel d : ℕ) : Prop where
  root_eq : t.root = t₀.root
  level_eq : t.level = t₀.level
  depth : d + curLevel = t₀.level
  data_eq : ∀ d' < d, ∀ q ∈ t₀.row d', (t.node q).data = (t₀.node q).data
  parent_eq : ∀ d' < d, ∀ q ∈ t₀.row d', (t.node q).parent = (t₀.node q).parent
  below : ∃ p ∈ t₀.row d, t.nextAt d p = some newNode ∧ t₀.parentAt d p = nodeList
  fresh : A.owns s₀ newNode = false
  owned : ∀ q, A.owns s₀ q = true → A.owns s q = true

/-- The link to the new page stays when the page is given back. -/
theorem Climbing.not_valid [Inhabited V] {nodeList : Option Addr}
    (h : Climbing A t₀ s₀ t s newNode nodeList curLevel d) (lev : ℕ) :
    ¬ Valid P A t (t.unwind A lev newNode s).1 := by
  intro hvalid
  obtain ⟨p, hp, hnext, -⟩ := h.below
  rw [← row_congr h.root_eq h.data_eq] at hp
  have hd : d ≤ t.level := by
    rw [h.level_eq, ← h.depth]
    exact Nat.le_add_right d curLevel
  have howned := hvalid.owned_next hd hp hnext
  rw [owns_unwind_self] at howned
  cases howned

/-- A page that is in use is not one that is allocated. -/
theorem ne_of_owned (hq : A.owns s q = true) (hp : A.owns s p = false) : q ≠ p := by
  rintro rfl
  rw [hq] at hp
  cases hp

/-- One more level is split. -/
theorem Climbing.step {nodeList : Addr} (hvalid : Valid P A t₀ s₀)
    (h : Climbing A t₀ s₀ t s newNode (some nodeList) curLevel (d + 1))
    (hmem : nodeList ∈ t₀.row d) (hfull : P.nodeCount ≤ (t.node nodeList).data.length)
    (halloc : A.nodePage s = some (newList, s')) (pos : ℕ) :
    Climbing A t₀ s₀
      ((t.linkNode newList nodeList).spillNext P nodeList newList newNode pos curLevel) s' newList
      ((((t.linkNode newList nodeList).spillNext P nodeList newList newNode pos curLevel).node
        nodeList).parent) (curLevel + 1) d := by
  have hdepth := h.depth
  have hd : d < t₀.level := by omega
  have hfresh : A.owns s₀ newList = false := by
    by_contra howns
    rw [Bool.not_eq_false] at howns
    exact ne_of_owned (h.owned _ howns) (A.nodePage_fresh halloc) rfl
  -- pages of the rows above are neither new nor below
  have hnew : ∀ d' ≤ d, ∀ q ∈ t₀.row d', q ≠ newNode ∧ q ≠ newList := by
    intro d' hd' q hq
    have howned := hvalid.owned d' (by omega) q hq
    exact ⟨ne_of_owned howned h.fresh, ne_of_owned howned hfresh⟩
  have hdata : ((t.linkNode newList nodeList).node nodeList).data = (t₀.node nodeList).data := by
    rw [linkNode_field NodeList.data (fun _ _ => rfl) (fun _ _ => rfl)
      (hnew d (Nat.le_refl d) nodeList hmem).2]
    exact h.data_eq d (Nat.lt_succ_self d) nodeList hmem
  have hlast : ∀ d' ≤ d, ∀ q ∈ t₀.row d', curLevel ≠ 0 →
      q ≠ ((t.linkNode newList nodeList).node nodeList).data[P.nodeCount - 1]! := by
    intro d' hd' q hq hlevel
    rw [h.data_eq d (Nat.lt_succ_self d) nodeList hmem] at hfull
    obtain ⟨hne, -⟩ := hvalid.node_count d hd nodeList hmem
    have hlen := List.length_pos_of_ne_nil hne
    rw [hdata]
    refine (hvalid.ne_of_lt (Nat.lt_succ_of_le hd') (by omega) hq ?_).symm
    exact mem_row_succ.mpr ⟨nodeList, hmem, getElem!_mem (by omega)⟩
  have hparent : ∀ d' ≤ d, ∀ q ∈ t₀.row d',
      (((t.linkNode newList nodeList).spillNext P nodeList newList newNode pos curLevel).node
        q).parent = (t₀.node q).parent := by
    intro d' hd' q hq
    rw [parent_spillNext (fun _ => (hnew d' hd' q hq).1) (hlast d' hd' q hq),
      linkNode_field NodeList.parent (fun _ _ => rfl) (fun _ _ => rfl) (hnew d' hd' q hq).2]
    exact h.parent_eq d' (Nat.lt_succ_of_le hd') q hq
  refine
    { root_eq := ?_
      level_eq := ?_
      depth := by omega
      data_eq := ?_
      parent_eq := fun d' hd' => hparent d' (Nat.le_of_lt hd')
      below := ⟨nodeList, hmem, ?_, ?_⟩
      fresh := hfresh
      owned := ?_ }
  · exact ((top_spillNext nodeList newList).1.trans (top_linkNode newList nodeList).1).trans h.root_eq
  · exact ((top_spillNext nodeList newList).2.trans (top_linkNode newList nodeList).2).trans
      h.level_eq
  · intro d' hd' q hq
    rw [data_spillNext (hvalid.ne_of_lt hd' hd hq hmem).symm (hnew d' (Nat.le_of_lt hd') q hq).2,
      linkNode_field NodeList.data (fun _ _ => rfl) (fun _ _ => rfl) (hnew d' (Nat.le_of_lt hd') q hq).2]
    exact h.data_eq d' (Nat.lt_succ_of_lt hd') q hq
  · have hlevel : ((t.linkNode newList nodeList).spillNext P nodeList newList newNode pos
        curLevel).level = (t.linkNode newList nodeList).level :=
      (top_spillNext nodeList newList).2
    rw [nextAt, if_neg, next_spillNext, next_linkNode]
    rw [hlevel, (top_linkNode newList nodeList).2, h.level_eq]
    exact Nat.ne_of_lt hd
  · rw [hparent d (Nat.le_refl d) nodeList hmem, parentAt, if_neg (Nat.ne_of_lt hd)]
  · intro q hq
    rw [A.owns_nodePage halloc]
    by_cases heq : q = newList
    · rw [heq, Function.update_self]
    · rw [Function.update_of_ne heq]
      exact h.owned q hq

/-! ## The leaf page -/

theorem node_linkLeaf (p q : Addr) : (t.linkLeaf p q).node = t.node := by
  rw [linkLeaf]
  cases (t.leaf q).next <;> rfl

theorem top_linkLeaf (p q : Addr) :
    (t.linkLeaf p q).root = t.root ∧ (t.linkLeaf p q).level = t.level := by
  rw [linkLeaf]
  cases (t.leaf q).next <;> exact ⟨rfl, rfl⟩

theorem next_linkLeaf (p q : Addr) : ((t.linkLeaf p q).leaf q).next = some p := by
  rw [linkLeaf, leaf_modifyLeaf_self]

theorem parent_linkLeaf (h : q ≠ p) : ((t.linkLeaf p q).leaf q).parent = (t.leaf q).parent := by
  rw [linkLeaf]
  refine (modifyLeaf_field ItemList.parent rfl).trans ?_
  rw [leaf_modifyLeaf_of_ne h]
  split
  · exact modifyLeaf_field ItemList.parent rfl
  · rfl

section SplitLeaf

variable [Inhabited V]

theorem node_splitLeaf (leaf newLeaf : Addr) :
    (t.splitLeaf P leaf newLeaf pos item).node = t.node := by
  rw [splitLeaf]
  split <;> rfl

theorem top_splitLeaf (leaf newLeaf : Addr) :
    (t.splitLeaf P leaf newLeaf pos item).root = t.root ∧
      (t.splitLeaf P leaf newLeaf pos item).level = t.level := by
  rw [splitLeaf]
  split <;> exact ⟨rfl, rfl⟩

/-- Only items are moved. -/
theorem splitLeaf_field {β : Type} (g : ItemList V → β)
    (hg : ∀ l : ItemList V, ∀ data, g { l with data := data } = g l) (leaf newLeaf : Addr) :
    g ((t.splitLeaf P leaf newLeaf pos item).leaf r) = g (t.leaf r) := by
  rw [splitLeaf]
  split
  · exact modifyLeaf_field g (hg _ _)
  · refine (modifyLeaf_field g (hg _ _)).trans ?_
    refine (modifyLeaf_field g (hg _ _)).trans ?_
    exact modifyLeaf_field g (hg _ _)

/-- The loop starts at the parent of the leaf page that is split. -/
theorem Valid.climbing {leaf newLeaf : Addr} (hvalid : Valid P A t s) (hleaf : leaf ∈ t.row t.level)
    (halloc : A.leafPage s = some (newLeaf, s')) (pos : ℕ) (item : V) :
    Climbing A t s ((t.linkLeaf newLeaf leaf).splitLeaf P leaf newLeaf pos item) s' newLeaf
      ((((t.linkLeaf newLeaf leaf).splitLeaf P leaf newLeaf pos item).leaf leaf).parent) 0
      t.level := by
  have hfresh := A.leafPage_fresh halloc
  have hne : leaf ≠ newLeaf := ne_of_owned (hvalid.owned _ (Nat.le_refl t.level) leaf hleaf) hfresh
  have hnode : ((t.linkLeaf newLeaf leaf).splitLeaf P leaf newLeaf pos item).node = t.node :=
    (node_splitLeaf leaf newLeaf).trans (node_linkLeaf newLeaf leaf)
  have hlevel : ((t.linkLeaf newLeaf leaf).splitLeaf P leaf newLeaf pos item).level = t.level :=
    (top_splitLeaf leaf newLeaf).2.trans (top_linkLeaf newLeaf leaf).2
  refine
    { root_eq := (top_splitLeaf leaf newLeaf).1.trans (top_linkLeaf newLeaf leaf).1
      level_eq := hlevel
      depth := rfl
      data_eq := fun _ _ _ _ => by rw [hnode]
      parent_eq := fun _ _ _ _ => by rw [hnode]
      below := ⟨leaf, hleaf, ?_, ?_⟩
      fresh := hfresh
      owned := ?_ }
  · rw [nextAt, if_pos hlevel.symm, splitLeaf_field ItemList.next fun _ _ => rfl, next_linkLeaf]
  · rw [splitLeaf_field ItemList.parent fun _ _ => rfl, parent_linkLeaf hne, parentAt, if_pos rfl]
  · intro q hq
    rw [A.owns_leafPage halloc]
    by_cases heq : q = newLeaf
    · rw [heq, Function.update_self]
    · rw [Function.update_of_ne heq]
      exact hq

end SplitLeaf

/-! ## The loop -/

/-- The page of a loop step is in the row above. -/
theorem Climbing.exists_mem {nodeList : Addr} (hvalid : Valid P A t₀ s₀)
    (h : Climbing A t₀ s₀ t s newNode (some nodeList) curLevel d) :
    ∃ d', d = d' + 1 ∧ nodeList ∈ t₀.row d' := by
  obtain ⟨p, hp, -, hparent⟩ := h.below
  cases d with
  | zero =>
      rw [row, List.mem_singleton] at hp
      rw [hp, hvalid.parent_root] at hparent
      cases hparent
  | succ d =>
      have hdepth := h.depth
      obtain ⟨q, hq, -, hparent'⟩ := hvalid.exists_parent (by omega) hp
      rw [hparent', Option.some.injEq] at hparent
      exact ⟨d, rfl, hparent ▸ hq⟩

/-- The tree stays as it was where the leaf page cannot be allocated. -/
theorem Valid.items_failure (hvalid : Valid P A t s) (hitem : item ∉ t.items) :
    Valid P A t s ∧ ∀ x, x ∈ t.items ↔ (x ∈ t.items ∨ x = item) ∧ x ≠ item := by
  refine ⟨hvalid, fun x => ?_⟩
  constructor
  · intro hx
    refine ⟨Or.inl hx, ?_⟩
    rintro rfl
    exact hitem hx
  · rintro ⟨hx | hx, hne⟩
    · exact hx
    · exact absurd hx hne

section Loop

variable [Inhabited V]

/-- The handler leaves a link to a page that is not in use. -/
theorem Climbing.fail {nodeList : Option Addr}
    (h : Climbing A t₀ s₀ t s newNode nodeList curLevel d)
    (hthrown : t.fail A s curLevel newNode = .thrown t' s' v) : ¬ Valid P A t' s' := by
  rw [Tree.fail, Outcome.thrown.injEq] at hthrown
  obtain ⟨rfl, rfl, -⟩ := hthrown
  exact h.not_valid curLevel

/-- At the top -/
theorem Climbing.climb_none (h : Climbing A t₀ s₀ t s newNode none curLevel d) (k : ℕ) :
    climb P A k t s newNode none curLevel ≠ .loops ∧ ∀ t' s' v,
      climb P A k t s newNode none curLevel = .thrown t' s' v → ¬ Valid P A t' s' := by
  rw [Tree.climb_none]
  split
  · exact ⟨nofun, fun _ _ _ => h.fail⟩
  · exact ⟨nofun, nofun⟩

/-- The loop ends, and what it leaves after an exception is not valid. -/
theorem Climbing.climb {nodeList : Option Addr} (hvalid : Valid P A t₀ s₀)
    (h : Climbing A t₀ s₀ t s newNode nodeList curLevel d) (hk : d ≤ k) :
    climb P A k t s newNode nodeList curLevel ≠ .loops ∧ ∀ t' s' v,
      climb P A k t s newNode nodeList curLevel = .thrown t' s' v → ¬ Valid P A t' s' := by
  induction k generalizing t s newNode nodeList curLevel d with
  | zero =>
      cases nodeList with
      | none => exact h.climb_none 0
      | some nodeList =>
          -- a root page has no parent
          obtain ⟨d', rfl, -⟩ := h.exists_mem hvalid
          exact absurd hk (Nat.not_succ_le_zero d')
  | succ k ih =>
      cases nodeList with
      | none => exact h.climb_none (k + 1)
      | some nodeList =>
          obtain ⟨d', rfl, hmem⟩ := h.exists_mem hvalid
          rw [Tree.climb]
          split
          · exact ⟨nofun, nofun⟩
          · rename_i hfull
            rw [Nat.not_lt] at hfull
            dsimp only
            split
            · exact ⟨nofun, nofun⟩
            · exact ⟨nofun, nofun⟩
            · split
              · exact ⟨nofun, fun _ _ _ => h.fail⟩
              · rename_i halloc
                exact ih (h.step hvalid hmem hfull halloc _) (Nat.le_of_succ_le_succ hk)

/-- An insertion that an exception ends leaves a valid tree with the right items if and only if it
is the leaf page that could not be allocated. -/
theorem add_failure_iff (hvalid : Valid P A t s) (hitem : item ∉ t.items) :
    t.add P A s item ≠ .loops ∧ ∀ t' s' v, t.add P A s item = .thrown t' s' v →
      ((Valid P A t' s' ∧ ∀ x, x ∈ t'.items ↔ (x ∈ t.items ∨ x = item) ∧ x ≠ v) ↔
        A.leafPage s = none) := by
  have hroot : t.root ∈ t.row 0 := List.mem_singleton_self t.root
  have hleaf := hvalid.descend_mem (P.keyOf item) (Nat.zero_add t.level) hroot
  rw [add]
  dsimp only
  split
  · exact ⟨nofun, nofun⟩
  split
  · exact ⟨nofun, nofun⟩
  split
  · split <;> exact ⟨nofun, nofun⟩
  · split <;> exact ⟨nofun, nofun⟩
  split
  · rename_i halloc
    refine ⟨nofun, fun t' s' v hthrown => ?_⟩
    rw [Outcome.thrown.injEq] at hthrown
    obtain ⟨rfl, rfl, rfl⟩ := hthrown
    exact iff_of_true (hvalid.items_failure hitem) halloc
  · rename_i newLeaf s₁ halloc
    have hclimbing := hvalid.climbing hleaf halloc (t.findItem P (t.descend P (P.keyOf item) t.level
      t.root) (P.keyOf item)).2 item
    have hk : t.level ≤ ((t.linkLeaf newLeaf (t.descend P (P.keyOf item) t.level t.root)).splitLeaf P
        (t.descend P (P.keyOf item) t.level t.root) newLeaf (t.findItem P (t.descend P
          (P.keyOf item) t.level t.root) (P.keyOf item)).2 item).level + 1 := by
      rw [hclimbing.level_eq]
      exact Nat.le_succ t.level
    obtain ⟨hloops, hthrown⟩ := hclimbing.climb hvalid hk
    refine ⟨hloops, fun t' s' v h => iff_of_false (fun hgood => hthrown t' s' v h hgood.1) ?_⟩
    rw [halloc]
    nofun

end Loop

/-! ## A page that stays linked -/

/-- The default sizes of pages -/
def byValue : Params ℕ ℕ where
  keyOf := id
  greaterThan a b := decide (b < a)
  leafCount := 100
  nodeCount := 100

/-- Pages that are in use, and spare ones -/
structure Spare where
  owns : Addr → Bool
  spareLeafs : List Addr
  spareNodes : List Addr

/-- The pages that can be taken -/
def takeSpare (owns : Addr → Bool) : List Addr → Option (Addr × List Addr)
  | [] => none
  | p :: spare => if owns p then none else some (p, spare)

theorem takeSpare_eq_some {owns : Addr → Bool} {spare spare' : List Addr} {p : Addr}
    (h : takeSpare owns spare = some (p, spare')) : owns p = false := by
  cases spare with
  | nil => cases h
  | cons q spare =>
      rw [takeSpare] at h
      split at h
      · cases h
      · rename_i hq
        rw [Option.some.injEq, Prod.mk.injEq] at h
        rw [← h.1, ← Bool.not_eq_true]
        exact hq

/-- An allocator with spare pages only -/
def spareAllocator : Ledger Spare where
  owns s := s.owns
  leafPage s := (takeSpare s.owns s.spareLeafs).map fun r =>
    (r.1, { s with owns := Function.update s.owns r.1 true, spareLeafs := r.2 })
  nodePage s := (takeSpare s.owns s.spareNodes).map fun r =>
    (r.1, { s with owns := Function.update s.owns r.1 true, spareNodes := r.2 })
  deallocate p s := { s with owns := Function.update s.owns p false }
  leafPage_fresh h := by
    obtain ⟨r, hr, heq⟩ := Option.map_eq_some_iff.mp h
    cases heq
    exact takeSpare_eq_some hr
  owns_leafPage h := by
    obtain ⟨r, hr, heq⟩ := Option.map_eq_some_iff.mp h
    cases heq
    rfl
  nodePage_fresh h := by
    obtain ⟨r, hr, heq⟩ := Option.map_eq_some_iff.mp h
    cases heq
    exact takeSpare_eq_some hr
  owns_nodePage h := by
    obtain ⟨r, hr, heq⟩ := Option.map_eq_some_iff.mp h
    cases heq
    rfl
  owns_deallocate _ _ := rfl

/-- One leaf page that is full -/
def fullLeaf : Tree ℕ where
  leaf _ := { data := List.range 100, parent := none, next := none, prev := none }
  node _ := { data := [], level := 0, parent := none, next := none, prev := none }
  root := 0
  level := 0

/-- A leaf page can be taken, and no node page. -/
def oneSpareLeaf : Spare where
  owns p := p = 0
  spareLeafs := [1]
  spareNodes := []

theorem items_fullLeaf : fullLeaf.items = List.range 100 := List.append_nil (List.range 100)

theorem valid_fullLeaf : Valid byValue spareAllocator fullLeaf oneSpareLeaf where
  owned := by
    intro d hd p hp
    obtain rfl := Nat.le_zero.mp hd
    rw [row, List.mem_singleton] at hp
    rw [hp]
    rfl
  nodup := List.pairwise_singleton _ 0
  level_eq := fun d hd => absurd hd (Nat.not_lt_zero d)
  node_count := fun d hd => absurd hd (Nat.not_lt_zero d)
  leaf_count := fun p _ => ⟨Nat.le_of_eq List.length_range, fun h => absurd h (Nat.lt_irrefl 0)⟩
  parent_root := rfl
  parent_eq := fun d hd => absurd hd (Nat.not_lt_zero d)
  linked := by
    intro d hd i hi
    obtain rfl := Nat.le_zero.mp hd
    obtain rfl := Nat.lt_one_iff.mp hi
    exact ⟨rfl, rfl⟩
  sorted := by
    rw [items_fullLeaf]
    exact List.pairwise_lt_range.imp fun h => decide_eq_true h

theorem not_mem_fullLeaf : 100 ∉ fullLeaf.items := by
  rw [items_fullLeaf, List.mem_range]
  exact Nat.lt_irrefl 100

theorem add_failure_fullLeaf :
    Valid byValue spareAllocator fullLeaf oneSpareLeaf ∧ 100 ∉ fullLeaf.items ∧
    fullLeaf.add byValue spareAllocator oneSpareLeaf 100 ≠ .loops ∧ ∀ t' s' v,
      fullLeaf.add byValue spareAllocator oneSpareLeaf 100 = .thrown t' s' v →
        ((Valid byValue spareAllocator t' s' ∧
          ∀ x, x ∈ t'.items ↔ (x ∈ fullLeaf.items ∨ x = 100) ∧ x ≠ v) ↔
            spareAllocator.leafPage oneSpareLeaf = none) :=
  ⟨valid_fullLeaf, not_mem_fullLeaf, add_failure_iff valid_fullLeaf not_mem_fullLeaf⟩

/-- The new root page cannot be allocated: the first leaf page stays linked to the page that is
given back. -/
theorem add_failure_not_valid : ∃ t' s' v,
    Valid byValue spareAllocator fullLeaf oneSpareLeaf ∧ 100 ∉ fullLeaf.items ∧
    fullLeaf.add byValue spareAllocator oneSpareLeaf 100 = .thrown t' s' v ∧
    ¬ (Valid byValue spareAllocator t' s' ∧
      ∀ x, x ∈ t'.items ↔ (x ∈ fullLeaf.items ∨ x = 100) ∧ x ≠ v) := by
  refine ⟨_, _, _, valid_fullLeaf, not_mem_fullLeaf, rfl, ?_⟩
  rintro ⟨hvalid, -⟩
  have howned := hvalid.owned_next (Nat.le_refl 0) (List.mem_singleton_self 0) (q := 1) rfl
  cases howned

end Tree

end Firebird.BePlus
