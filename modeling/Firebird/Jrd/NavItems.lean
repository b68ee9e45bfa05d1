import Firebird.Jrd.NavWalk

/-! # The nodes of a walk

The nodes from a position on, the keys that are built from them, and what a node shows of a change
of the key.
-/

namespace Firebird.Nav

open Btr (Node Quad Compressed entries lastKey)

variable {page i : ℕ} {handoff : Bool} {ns : List Node} {pre xs rest : List Item} {x : Item}
  {prev : List UCHAR} {key : Key} {w : Index}

/-! ## Positions -/

theorem pageItems_next (h : Index.pageItems page handoff i ns = pre ++ x :: rest) :
    ∃ k, x.index = i + k ∧ x.page = page ∧
      rest = Index.pageItems page false (i + k + 1) (ns.drop (k + 1)) := by
  induction ns generalizing handoff i pre with
  | nil =>
      cases pre <;> cases h
  | cons n ns ih =>
      cases pre with
      | nil =>
          obtain ⟨rfl, rfl⟩ := List.cons.inj h
          exact ⟨0, rfl, rfl, rfl⟩
      | cons y pre =>
          obtain ⟨k, hindex, hpage, hrest⟩ := ih (List.cons.inj h).2
          refine ⟨k + 1, by omega, hpage, ?_⟩
          rw [hrest, List.drop_succ_cons, Nat.add_right_comm i 1 k]
          rfl

theorem laterItems_next {leaves : List Leaf} (hpages : w.pages.drop page = leaves)
    (h : Index.laterItems page leaves = pre ++ x :: rest) :
    rest = w.itemsFrom x.page (x.index + 1) := by
  induction leaves generalizing page pre with
  | nil => cases pre <;> cases h
  | cons leaf leaves ih =>
      rw [Index.laterItems, List.append_eq_append_iff] at h
      rcases h with ⟨pre', rfl, hlater⟩ | ⟨xs, hpage, hrest⟩
      · refine ih ?_ hlater
        rw [← List.drop_drop, hpages]
        rfl
      · cases xs with
        | nil =>
            refine @ih _ [] ?_ hrest.symm
            rw [← List.drop_drop, hpages]
            rfl
        | cons y ys =>
            obtain ⟨rfl, rfl⟩ := List.cons.inj hrest
            obtain ⟨k, hindex, rfl, rfl⟩ := pageItems_next hpage
            rw [Index.itemsFrom, hpages, hindex, Nat.zero_add]
            rfl

/-- The nodes behind one of the nodes from a position on -/
theorem itemsFrom_next (h : w.itemsFrom page i = pre ++ x :: rest) :
    rest = w.itemsFrom x.page (x.index + 1) := by
  unfold Index.itemsFrom at h
  split at h
  · cases pre <;> cases h
  · rename_i leaf leaves hpages
    have hnext : w.pages.drop (page + 1) = leaves := by
      rw [← List.drop_drop, hpages]
      rfl
    rcases List.append_eq_append_iff.mp h with ⟨pre', rfl, hlater⟩ | ⟨xs, hpage, hrest⟩
    · exact laterItems_next hnext hlater
    · cases xs with
      | nil => exact @laterItems_next _ [] _ _ _ _ hnext hrest.symm
      | cons y ys =>
          obtain ⟨rfl, rfl⟩ := List.cons.inj hrest
          obtain ⟨k, hindex, rfl, rfl⟩ := pageItems_next hpage
          rw [Index.itemsFrom, hpages, hindex, List.drop_drop]
          rfl

/-! ## Keys -/

/-- A node on the same page has the prefix that it shares with the node in front of it, and the
first one on a page has none. -/
def Laid (prev : List UCHAR) : List Item → Prop
  | [] => True
  | x :: xs =>
      x.node.btnPrefix.val = (if x.handoff then 0 else common prev (x.node.key prev)) ∧
        Laid (x.node.key prev) xs

theorem laid_append : Laid prev (pre ++ xs) ↔
    Laid prev pre ∧ Laid (lastKey prev (pre.map Item.node)) xs := by
  induction pre generalizing prev with
  | nil => exact (iff_of_eq (true_and _)).symm
  | cons x pre ih => rw [List.cons_append, Laid, Laid, ih, List.map_cons, lastKey, and_assoc]

theorem laid_page (h : Compressed prev ns) : Laid prev (Index.pageItems page false i ns) := by
  induction ns generalizing prev i with
  | nil => trivial
  | cons n ns ih => exact ⟨h.1, ih h.2⟩

/-- A page that the walk is handed over to -/
theorem laid_handoff (h : Compressed [] ns) : Laid prev (Index.pageItems page true i ns) := by
  cases ns with
  | nil => trivial
  | cons n ns =>
      obtain ⟨hnone, hrest⟩ := h
      rw [common_nil_left] at hnone
      have hkey : n.key prev = n.key [] := by rw [Node.key, Node.key, hnone, List.take_zero,
        List.take_zero]
      refine ⟨hnone, ?_⟩
      rw [hkey]
      exact laid_page hrest

theorem laid_later (leaves : List Leaf) : Laid prev (Index.laterItems page leaves) := by
  induction leaves generalizing prev page with
  | nil => trivial
  | cons leaf leaves ih => exact laid_append.mpr ⟨laid_handoff leaf.compressed, ih⟩

theorem laid_items (w : Index) : Laid [] (w.itemsFrom 0 0) := by
  unfold Index.itemsFrom
  split
  · trivial
  · rename_i leaf leaves _
    exact laid_append.mpr ⟨laid_page leaf.compressed, laid_later leaves⟩

/-- The buffer begins with the key in front of the node. -/
def Key.Has (key : Key) (prev : List UCHAR) : Prop := key.data.load 0 prev.length = prev

theorem prefix_le (h : Laid prev (x :: xs)) : x.node.btnPrefix.val ≤ prev.length := by
  rw [h.1]
  split
  · exact Nat.zero_le _
  · exact common_le_left _ _

/-- The key is built behind the prefix. -/
theorem value_build (hkey : key.Has prev) (h : Laid prev (x :: xs)) :
    (Index.build key x.node).value = x.node.key prev := by
  have hle := prefix_le h
  rw [Key.value, Index.build, Memory.load_add, Nat.zero_add, Memory.load_store,
    Memory.load_store_of_disjoint (.inl (Nat.zero_add _).le), Node.key]
  congr 1
  have hparts : prev.length = x.node.btnPrefix.val + (prev.length - x.node.btnPrefix.val) := by omega
  rw [Key.Has, hparts, Memory.load_add] at hkey
  rw [← hkey, List.take_left' (Memory.length_load _ _ _)]

theorem has_of_value {k : List UCHAR} (h : key.value = k) : key.Has k ∧ key.length = k.length := by
  have hlen : key.length = k.length := by rw [← h, Key.value, Memory.length_load]
  refine ⟨?_, hlen⟩
  rw [Key.Has, ← hlen]
  exact h

theorem key_eq_data (h : Laid prev (x :: xs)) (hhandoff : x.handoff = true) :
    x.node.key prev = x.node.btnData := by
  have hprefix := h.1
  rw [hhandoff, if_pos rfl] at hprefix
  rw [Node.key, hprefix, List.take_zero, List.nil_append]

/-- On the same page a node has data when its key does not begin the one in front. -/
theorem changes_same (h : Laid prev (x :: xs)) (hsame : x.handoff = false) :
    Index.changes key x = true ↔ ¬x.node.key prev <+: prev := by
  have hprefix := h.1
  rw [hsame, if_neg Bool.false_ne_true] at hprefix
  have hlen : (x.node.key prev).length = x.node.btnPrefix.val + x.node.btnData.length :=
    Node.length_key (prefix_le h)
  have hdata : x.node.btnData = [] ↔ x.node.key prev <+: prev := by
    constructor
    · intro hnil
      rw [Node.key, hnil, List.append_nil]
      exact List.take_prefix _ prev
    · rintro ⟨t, ht⟩
      have hall : common prev (x.node.key prev) = (x.node.key prev).length := by
        have hself := common_append_append (x.node.key prev) t []
        rwa [ht, List.append_nil, common_nil_right, Nat.add_zero] at hself
      exact List.eq_nil_of_length_eq_zero (by omega)
  rw [Index.changes, hsame, if_neg Bool.false_ne_true, decide_eq_true_iff, ne_eq, hdata]

/-- Behind a page the keys are compared. -/
theorem changes_handoff (h : Laid prev (x :: xs)) (hhandoff : x.handoff = true)
    (hkey : key.value = prev) : Index.changes key x = true ↔ x.node.key prev ≠ prev := by
  rw [key_eq_data h hhandoff, Index.changes, hhandoff, if_pos rfl, decide_eq_true_iff, hkey,
    (has_of_value hkey).2]
  constructor
  · rintro (hlen | hne)
    · exact fun heq => hlen (congrArg List.length heq)
    · exact hne.symm
  · intro hne
    exact .inr hne.symm

end Firebird.Nav
