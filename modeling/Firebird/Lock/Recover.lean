import Mathlib.Order.Nat
import Firebird.Lock.Que

/-! # What recovery makes of the queues

In every run in which no word of an earlier death is left when a process dies between the stores
to `shb_insert_que` and `shb_insert_prior`, and in which `remove_que` is called only where its own
consistency checks hold, the queues have the nodes of the operations that were done.
-/

namespace Firebird.Que

open Ring (Links IsRings Nodes)
open Transition (Reachable)

variable {H : Set ℕ} {Q Q' : ℕ → List ℕ} {m m' : Memory} {L L' : Links ℕ} {que node p : ℕ}

/-! ## Removing a node -/

/-- `que->srq_backward = node->srq_backward` for the next node -/
def relinkNext (L : Links ℕ) (node : ℕ) : Links ℕ :=
  { L with prev := Function.update L.prev (L.next node) (L.prev node) }

/-- `que->srq_forward = node->srq_forward` for the previous node -/
def relinkPrior (L : Links ℕ) (node : ℕ) : Links ℕ :=
  { L with next := Function.update L.next (L.prev node) (L.next node) }

theorem prev_relinkNext (L : Links ℕ) (node : ℕ) : (relinkNext L node).prev node = L.prev node := by
  change Function.update L.prev (L.next node) (L.prev node) node = L.prev node
  rw [Function.update_apply, ite_eq_right_iff]
  exact fun _ => rfl

/-- Both stores make what removes the node. -/
theorem relinkPrior_relinkNext (L : Links ℕ) (node : ℕ) :
    relinkPrior (relinkNext L node) node = L.unlink node := by
  rw [relinkPrior, prev_relinkNext]
  rfl

theorem unlink_relinkNext (L : Links ℕ) (node : ℕ) :
    (relinkNext L node).unlink node = L.unlink node := by
  rw [Links.unlink, prev_relinkNext]
  change Links.mk _ (Function.update (Function.update L.prev (L.next node) (L.prev node))
    (L.next node) (L.prev node)) = L.unlink node
  rw [Function.update_idem]
  rfl

/-- The checks of `remove_que`: "The next link might point back to us, or our prior link should the
backlink change occur before a crash", and the same for the prior link. -/
def Checks (L : Links ℕ) (node : ℕ) : Prop :=
  (L.prev (L.next node) = node ∨ L.prev (L.next node) = L.prev node) ∧
    (L.next (L.prev node) = node ∨ L.next (L.prev node) = L.next node)

theorem Checks.relinkNext (hc : Checks L node) : Checks (relinkNext L node) node := by
  rw [Checks, prev_relinkNext]
  exact ⟨.inr (Function.update_self ..), hc.2⟩

theorem Checks.unlink (L : Links ℕ) (node : ℕ) : Checks (L.unlink node) node := by
  rw [Checks, Links.next_unlink_self, Links.prev_unlink_self]
  exact ⟨.inr (Function.update_self ..), .inr (Function.update_self ..)⟩

section

variable (hr : IsRings L H Q) (hn : ¬Nodes H Q node) (hc : Checks L node)

include hr hn hc

/-- A node that is in no queue leaves the queues alone where its checks hold. -/
theorem rings_relinkNext : IsRings (relinkNext L node) H Q := by
  refine hr.congr (fun x _ => rfl) fun x hx => ?_
  change Function.update L.prev (L.next node) (L.prev node) x = L.prev x
  rw [Function.update_apply]
  split
  · rename_i heq
    subst heq
    -- the next node is in a queue, so it is not linked back to this one
    refine (hc.1.resolve_left fun hback => hn ?_).symm
    rw [← hback]
    exact (hr.next_prev hx).1
  · rfl

theorem rings_relinkPrior : IsRings (relinkPrior L node) H Q := by
  refine hr.congr (fun x hx => ?_) fun x _ => rfl
  change Function.update L.next (L.prev node) (L.next node) x = L.next x
  rw [Function.update_apply]
  split
  · rename_i heq
    subst heq
    refine (hc.2.resolve_left fun hback => hn ?_).symm
    rw [← hback]
    exact (hr.prev_next hx).1
  · rfl

end

/-- `remove_que` has been started for a node and will leave the queues `Q`: the node was in none, or
is between two nodes that will be linked to each other. -/
structure Removing (H : Set ℕ) (L : Links ℕ) (node : ℕ) (Q : ℕ → List ℕ) : Prop where
  notMem : ¬Nodes H Q node
  rings : IsRings L H Q ∧ Checks L node ∨ IsRings (L.unlink node) H Q

namespace Removing

theorem relinkNext (h : Removing H L node Q) : Removing H (relinkNext L node) node Q where
  notMem := h.notMem
  rings := by
    rcases h.rings with ⟨hr, hc⟩ | hr
    · exact .inl ⟨rings_relinkNext hr h.notMem hc, hc.relinkNext⟩
    · rw [unlink_relinkNext]
      exact .inr hr

theorem rings_unlink (h : Removing H L node Q) : IsRings (L.unlink node) H Q := by
  rcases h.rings with ⟨hr, hc⟩ | hr
  · rw [← relinkPrior_relinkNext]
    exact rings_relinkPrior (rings_relinkNext hr h.notMem hc) h.notMem hc.relinkNext
  · exact hr

theorem unlink (h : Removing H L node Q) : Removing H (L.unlink node) node Q where
  notMem := h.notMem
  rings := .inl ⟨h.rings_unlink, Checks.unlink L node⟩

/-- `remove_que` is called for a node that is in a queue, or leaves all of them alone. -/
theorem start (hr : IsRings L H Q) (hH : node ∉ H) (hc : Checks L node) :
    Removing H L node (Ring.removeQue node Q) where
  notMem hnode := ((hr.nodes_removeQue hH).mp hnode).1 rfl
  rings := by
    by_cases hn : Nodes H Q node
    · exact .inr (hr.unlink hn hH)
    · refine .inl ⟨hr.congr_lists fun h hh => ?_, hc⟩
      exact List.erase_of_not_mem fun hmem => hn ⟨h, hh, List.mem_cons_of_mem h hmem⟩

end Removing

/-! ## Memory that `acquire` puts in order -/

/-- The links that `acquire` makes to undo an insertion before `que` -/
def restore (L : Links ℕ) (que prior : ℕ) : Links ℕ where
  next := Function.update L.next prior que
  prev := Function.update L.prev que prior

theorem restore_restore (L : Links ℕ) (que prior : ℕ) :
    restore (restore L que prior) que prior = restore L que prior := by
  change Links.mk (Function.update (Function.update L.next prior que) prior que)
    (Function.update (Function.update L.prev que prior) que prior) = restore L que prior
  rw [Function.update_idem, Function.update_idem, restore]

/-- The queues are whole, and no recovery would do anything. -/
structure Settled (H : Set ℕ) (m : Memory) (Q : ℕ → List ℕ) : Prop where
  rings : IsRings m.links H Q
  removeNode : m.removeNode = 0
  insert : m.insertQue = 0 ∨ m.insertPrior = 0

/-- Recovery will leave the queues `Q`. -/
inductive Recoverable (H : Set ℕ) (m : Memory) (Q : ℕ → List ℕ) : Prop
  | settled (h : Settled H m Q)
  | removing (h : Removing H m.links m.removeNode Q) (hremove : m.removeNode ≠ 0)
      (hinsert : m.insertQue = 0 ∨ m.insertPrior = 0)
  | inserting (h : IsRings (restore m.links m.insertQue m.insertPrior) H Q)
      (hremove : m.removeNode = 0) (hque : m.insertQue ≠ 0) (hprior : m.insertPrior ≠ 0)

/-! ## The stores of `remove_que` -/

section Remove

variable (h : Removing H m.links node Q) (hinsert : m.insertQue = 0 ∨ m.insertPrior = 0)

include h hinsert

/-- The node's own links are in no queue then. -/
theorem removed (k : ℕ) (hk : 4 ≤ k) (hle : k ≤ 6) :
    Settled H (stores (removeQueStore node) m k) Q := by
  have hrings : IsRings (stores (removeQueStore node) m 4).links H Q := by
    change IsRings (relinkPrior (relinkNext m.links node) node) H Q
    rw [relinkPrior_relinkNext]
    exact h.rings_unlink
  have hne : ∀ x, Nodes H Q x → x ≠ node := by
    rintro x hx rfl
    exact h.notMem hx
  have hback : IsRings (stores (removeQueStore node) m 5).links H Q :=
    hrings.congr (fun _ _ => rfl) fun x hx => Function.update_of_ne (hne x hx) ..
  obtain rfl | rfl | rfl : k = 4 ∨ k = 5 ∨ k = 6 := by omega
  · exact ⟨hrings, rfl, hinsert⟩
  · exact ⟨hback, rfl, hinsert⟩
  · exact ⟨hback.congr (fun x hx => Function.update_of_ne (hne x hx) ..) fun _ _ => rfl, rfl,
      hinsert⟩

/-- A death after the first store -/
theorem recoverable_removeQue (hnode : node ≠ 0) (k : ℕ) (hk : 1 ≤ k) (hle : k ≤ 6) :
    Recoverable H (stores (removeQueStore node) m k) Q := by
  rcases Nat.lt_or_ge k 4 with hlt | hge
  · obtain rfl | rfl | rfl : k = 1 ∨ k = 2 ∨ k = 3 := by omega
    · exact .removing h hnode hinsert
    · exact .removing h.relinkNext hnode hinsert
    · refine .removing ?_ hnode hinsert
      change Removing H (relinkPrior (relinkNext m.links node) node) node Q
      rw [relinkPrior_relinkNext]
      exact h.unlink
  · exact .settled (removed h hinsert k hge hle)

end Remove

/-! ## The stores of `insert_tail` -/

section Insert

/-- Undoing an insertion leaves the queues as they were. -/
theorem rings_restore (hr : IsRings L H Q) (hq : Nodes H Q que)
    (hnext : ∀ x, Nodes H Q x → x ≠ L.prev que → L'.next x = L.next x)
    (hprev : ∀ x, Nodes H Q x → x ≠ que → L'.prev x = L.prev x) :
    IsRings (restore L' que (L.prev que)) H Q := by
  refine hr.congr (fun x hx => ?_) fun x hx => ?_
  · change Function.update L'.next (L.prev que) que x = L.next x
    rw [Function.update_apply]
    split
    · rename_i heq
      rw [heq, (hr.next_prev hq).2]
    · rename_i hne
      exact hnext x hx hne
  · change Function.update L'.prev que (L.prev que) x = L.prev x
    rw [Function.update_apply]
    split
    · rename_i heq
      rw [heq]
    · rename_i hne
      exact hprev x hx hne

/-- What an insertion is to do. -/
structure Insertable (H : Set ℕ) (Q : ℕ → List ℕ) (que node : ℕ) : Prop where
  que_mem : Nodes H Q que
  node_notMem : ¬Nodes H Q node

theorem Insertable.ne (h : Insertable H Q que node) : que ≠ node := by
  rintro rfl
  exact h.node_notMem h.que_mem

/-- The memory after the link of the prior node is stored -/
theorem stores_insertTail_five (hne : que ≠ node) (m : Memory) :
    stores (insertTailStore que node) m 5 =
      ⟨⟨Function.update (Function.update m.links.next node que) (m.links.prev que) node,
        Function.update m.links.prev node (m.links.prev que)⟩, m.removeNode, que,
        m.links.prev que⟩ := by
  change Memory.mk ⟨Function.update (Function.update m.links.next node que)
    (Function.update m.links.prev node (m.links.prev que) que) node, _⟩ _ _ _ = _
  rw [Function.update_of_ne hne]
  rfl

theorem stores_insertTail_six (hne : que ≠ node) (m : Memory) :
    stores (insertTailStore que node) m 6 =
      ⟨m.links.insert que node, m.removeNode, que, m.links.prev que⟩ := by
  rw [stores, stores_insertTail_five hne]
  rfl

theorem inserted (hs : Settled H m Q) (h : Insertable H Q que node) (k : ℕ) (hk : 7 ≤ k)
    (hle : k ≤ 8) : Settled H (stores (insertTailStore que node) m k) (Ring.insertQue que node Q) := by
  have hsix := stores_insertTail_six h.ne m
  have hrings := hs.rings.insert h.que_mem h.node_notMem
  obtain rfl | rfl : k = 7 ∨ k = 8 := by omega
  · rw [stores, hsix]
    exact ⟨hrings, hs.removeNode, .inl rfl⟩
  · rw [stores, stores, hsix]
    exact ⟨hrings, hs.removeNode, .inl rfl⟩

/-- A death between the third and the seventh store: the insertion will be undone. -/
theorem recoverable_insertTail (hs : Settled H m Q) (h : Insertable H Q que node)
    (hzero : ¬Nodes H Q 0) (k : ℕ) (hk : 2 ≤ k) (hle : k ≤ 6) :
    Recoverable H (stores (insertTailStore que node) m k) Q := by
  have hque : que ≠ 0 := by
    rintro rfl
    exact hzero h.que_mem
  have hprior : m.links.prev que ≠ 0 := fun heq =>
    hzero (heq ▸ (hs.rings.next_prev h.que_mem).1)
  have hne : ∀ x, Nodes H Q x → x ≠ node := by
    rintro x hx rfl
    exact h.node_notMem hx
  have hnext : ∀ x, Nodes H Q x →
      Function.update m.links.next node que x = m.links.next x := fun x hx =>
    Function.update_of_ne (hne x hx) ..
  have hprev : ∀ x, Nodes H Q x →
      Function.update m.links.prev node (m.links.prev que) x = m.links.prev x := fun x hx =>
    Function.update_of_ne (hne x hx) ..
  obtain rfl | rfl | rfl | rfl | rfl : k = 2 ∨ k = 3 ∨ k = 4 ∨ k = 5 ∨ k = 6 := by omega
  · exact .inserting (rings_restore hs.rings h.que_mem (fun _ _ _ => rfl) fun _ _ _ => rfl)
      hs.removeNode hque hprior
  · exact .inserting (rings_restore hs.rings h.que_mem (fun x hx _ => hnext x hx)
      fun _ _ _ => rfl) hs.removeNode hque hprior
  · exact .inserting (rings_restore hs.rings h.que_mem (fun x hx _ => hnext x hx)
      fun x hx _ => hprev x hx) hs.removeNode hque hprior
  · rw [stores_insertTail_five h.ne]
    refine .inserting (rings_restore hs.rings h.que_mem (fun x hx hx' => ?_)
      fun x hx _ => hprev x hx) hs.removeNode hque hprior
    exact (Function.update_of_ne hx' ..).trans (hnext x hx)
  · rw [stores_insertTail_six h.ne]
    refine .inserting (rings_restore hs.rings h.que_mem (fun x hx hx' => ?_)
      fun x hx hx' => ?_) hs.removeNode hque hprior
    · exact (Function.update_of_ne hx' ..).trans (hnext x hx)
    · exact (Function.update_of_ne hx' ..).trans (hprev x hx)

end Insert

/-! ## The stores that undo an insertion -/

section Undo

variable (h : IsRings (restore m.links m.insertQue m.insertPrior) H Q) (hremove : m.removeNode = 0)

include h hremove

theorem undone (k : ℕ) (hk : 3 ≤ k) (hle : k ≤ 4) :
    Settled H (stores undoInsertStore m k) Q := by
  obtain rfl | rfl : k = 3 ∨ k = 4 := by omega
  · exact ⟨h, hremove, .inl rfl⟩
  · exact ⟨h, hremove, .inl rfl⟩

/-- A death before the words are cleared -/
theorem recoverable_undoInsert (hque : m.insertQue ≠ 0) (hprior : m.insertPrior ≠ 0) (k : ℕ)
    (hle : k ≤ 4) : Recoverable H (stores undoInsertStore m k) Q := by
  rcases Nat.lt_or_ge k 3 with hlt | hge
  · obtain rfl | rfl | rfl : k = 0 ∨ k = 1 ∨ k = 2 := by omega
    · exact .inserting h hremove hque hprior
    · refine .inserting ?_ hremove hque hprior
      change IsRings ⟨_, Function.update (Function.update m.links.prev m.insertQue m.insertPrior)
        m.insertQue m.insertPrior⟩ H Q
      rw [Function.update_idem]
      exact h
    · refine .inserting ?_ hremove hque hprior
      change IsRings (restore (restore m.links m.insertQue m.insertPrior) m.insertQue
        m.insertPrior) H Q
      rw [restore_restore]
      exact h
  · exact .settled (undone h hremove k hge hle)

end Undo

/-! ## Every run -/

/-- An operation can be started, and `remove_que` where its checks hold. -/
def Startable (H : Set ℕ) (L : Links ℕ) (Q : ℕ → List ℕ) : Op → Prop
  | .insertTail que node => Insertable H Q que node ∧ node ≠ 0
  | .removeQue node => node ∉ H ∧ node ≠ 0 ∧ Checks L node

/-- What the process in the lock table is at, and the memory from which it started -/
def InPhase (H : Set ℕ) (Q : ℕ → List ℕ) (m : Memory) : Phase → Prop
  | .free => Settled H m Q
  | .busy op k => k < op.length ∧
      ∃ b, m = stores op.store b k ∧ Settled H b Q ∧ Startable H b.links Q op
  | .dead => Recoverable H m Q
  | .redo node k => k < 6 ∧
      ∃ b, m = stores (removeQueStore node) b k ∧ Removing H b.links node Q ∧ node ≠ 0 ∧
        b.removeNode = node ∧ (b.insertQue = 0 ∨ b.insertPrior = 0)
  | .undo k => k < 4 ∧
      ∃ b, m = stores undoInsertStore b k ∧
        IsRings (restore b.links b.insertQue b.insertPrior) H Q ∧ b.removeNode = 0 ∧
        b.insertQue ≠ 0 ∧ b.insertPrior ≠ 0

/-- The queues that the history explains, as far as the process in the lock table leaves them -/
def Inv (H : Set ℕ) (s : State) : Prop :=
  ∃ Q, Explains s.history Q ∧ ¬Nodes H Q 0 ∧ InPhase H Q s.memory s.phase

/-- Between the stores to `shb_insert_que` and `shb_insert_prior`, no word of an earlier death is
left in the second one, unless it is the right one. -/
def Unmixed (m : Memory) : Phase → Prop
  | .busy (.insertTail que _) 1 => m.insertPrior = 0 ∨ m.insertPrior = m.links.prev que
  | _ => True

/-- No process dies where the words are mixed, and `remove_que` is called where its checks hold. -/
def Apt (s : State) : Action → Prop
  | .start (.removeQue node) => Checks s.memory.links node
  | .die => Unmixed s.memory s.phase
  | _ => True

section

variable {s s' : State} {op : Op} {k : ℕ}

/-- The queues without the node 0, which stands for none -/
theorem notZero_apply (hr : IsRings L H Q) (hstart : Startable H L Q op) (hzero : ¬Nodes H Q 0) :
    ¬Nodes H (op.apply Q) 0 := by
  cases op with
  | insertTail que node =>
      intro hmem
      rcases (IsRings.nodes_insertQue hstart.1.que_mem).mp hmem with heq | hmem
      · exact hstart.2 heq.symm
      · exact hzero hmem
  | removeQue node => exact fun hmem => hzero ((hr.nodes_removeQue hstart.1).mp hmem).2

/-- An operation that is done -/
theorem settled_stores (hs : Settled H m Q) (hstart : Startable H m.links Q op) :
    Settled H (stores op.store m op.length) (op.apply Q) := by
  cases op with
  | insertTail que node => exact inserted hs hstart.1 8 (by decide) (le_refl 8)
  | removeQue node =>
      exact removed (Removing.start hs.rings hstart.1 hstart.2.2) hs.insert 6 (by decide)
        (le_refl 6)

/-- An operation that is interrupted by a death -/
theorem recoverable_stores (hs : Settled H m Q) (hstart : Startable H m.links Q op)
    (hzero : ¬Nodes H Q 0) (hk : k < op.length)
    (hapt : Unmixed (stores op.store m k) (.busy op k)) :
    ∃ Q', (Q' = Q ∨ Q' = op.apply Q) ∧ Recoverable H (stores op.store m k) Q' := by
  rcases Nat.eq_zero_or_pos k with rfl | hpos
  · exact ⟨Q, .inl rfl, .settled hs⟩
  cases op with
  | insertTail que node =>
      obtain ⟨hins, hnode⟩ := hstart
      have hlt : k < 8 := hk
      obtain rfl | hmid | rfl : k = 1 ∨ (2 ≤ k ∧ k ≤ 6) ∨ k = 7 := by omega
      · refine ⟨Q, .inl rfl, ?_⟩
        -- only `shb_insert_que` has been stored
        have hprior : m.insertPrior = 0 ∨ m.insertPrior = m.links.prev que := hapt
        rcases hprior with hprior | hprior
        · exact .settled ⟨hs.rings, hs.removeNode, .inr hprior⟩
        · have hque : que ≠ 0 := fun heq => hzero (heq ▸ hins.que_mem)
          have hne : m.insertPrior ≠ 0 := fun heq =>
            hzero (heq ▸ hprior ▸ (hs.rings.next_prev hins.que_mem).1)
          refine .inserting ?_ hs.removeNode hque hne
          change IsRings (restore m.links que m.insertPrior) H Q
          rw [hprior]
          exact rings_restore hs.rings hins.que_mem (fun _ _ _ => rfl) fun _ _ _ => rfl
      · exact ⟨Q, .inl rfl, recoverable_insertTail hs hins hzero k hmid.1 hmid.2⟩
      · exact ⟨_, .inr rfl, .settled (inserted hs hins 7 (le_refl 7) (by decide))⟩
  | removeQue node =>
      have hlt : k < 6 := hk
      exact ⟨_, .inr rfl, recoverable_removeQue (Removing.start hs.rings hstart.1 hstart.2.2)
        hs.insert hstart.2.1 k hpos hlt.le⟩

theorem inv_start (h : Inv H s) (hallowed : Allowed H s (.start op)) (hapt : Apt s (.start op))
    (hstep : s.step (.start op) = some s') : Inv H s' := by
  obtain ⟨Q, hexplains, hzero, hin⟩ := h
  rw [State.step] at hstep
  split at hstep
  · rename_i hphase
    cases hstep
    rw [hphase] at hin
    refine ⟨Q, hexplains, hzero, ?_, s.memory, rfl, hin, ?_⟩
    · cases op with
      | insertTail que node => exact Nat.succ_pos 7
      | removeQue node => exact Nat.succ_pos 5
    · cases op with
      | insertTail que node =>
          obtain ⟨hque, hnode, hne⟩ := hallowed
          exact ⟨⟨hin.rings.nodes_iff.mpr hque, fun hmem => hnode (hin.rings.nodes_iff.mp hmem)⟩,
            hne⟩
      | removeQue node => exact ⟨hallowed.1, hallowed.2, hapt⟩
  · cases hstep

theorem inv_store (h : Inv H s) (hstep : s.step .store = some s') : Inv H s' := by
  obtain ⟨Q, hexplains, hzero, hin⟩ := h
  obtain ⟨m, phase, history⟩ := s
  cases phase with
  | free => cases hstep
  | dead => cases hstep
  | busy op k =>
      cases hstep
      obtain ⟨hk, b, rfl, hs, hstart⟩ := hin
      rw [State.storeOp]
      split
      · rename_i hlt
        exact ⟨Q, hexplains, hzero, hlt, b, rfl, hs, hstart⟩
      · -- the last store
        obtain hlast : k + 1 = op.length := by omega
        refine ⟨op.apply Q, .done op hexplains, notZero_apply hs.rings hstart hzero, ?_⟩
        change Settled H (stores op.store b (k + 1)) (op.apply Q)
        rw [hlast]
        exact settled_stores hs hstart
  | redo node k =>
      cases hstep
      obtain ⟨hk, b, rfl, hr, hnode, hremove, hinsert⟩ := hin
      rw [State.storeRedo]
      refine ⟨Q, hexplains, hzero, ?_⟩
      dsimp only
      split
      · rename_i hlt
        exact ⟨hlt, b, rfl, hr, hnode, hremove, hinsert⟩
      · obtain rfl : k = 5 := by omega
        exact removed hr hinsert 6 (by decide) (le_refl 6)
  | undo k =>
      cases hstep
      obtain ⟨hk, b, rfl, hr, hremove, hque, hprior⟩ := hin
      rw [State.storeUndo]
      refine ⟨Q, hexplains, hzero, ?_⟩
      dsimp only
      split
      · rename_i hlt
        exact ⟨hlt, b, rfl, hr, hremove, hque, hprior⟩
      · obtain rfl : k = 3 := by omega
        exact undone hr hremove 4 (by decide) (le_refl 4)

theorem inv_die (h : Inv H s) (hapt : Apt s .die) (hstep : s.step .die = some s') : Inv H s' := by
  obtain ⟨Q, hexplains, hzero, hin⟩ := h
  obtain ⟨m, phase, history⟩ := s
  cases phase with
  | dead => cases hstep
  | free =>
      cases hstep
      exact ⟨Q, hexplains, hzero, .settled hin⟩
  | busy op k =>
      cases hstep
      obtain ⟨hk, b, rfl, hs, hstart⟩ := hin
      obtain ⟨Q', hwhich, hrecover⟩ := recoverable_stores hs hstart hzero hk hapt
      rcases hwhich with rfl | rfl
      · exact ⟨_, .undone op hexplains, hzero, hrecover⟩
      · exact ⟨_, .redone op hexplains, notZero_apply hs.rings hstart hzero, hrecover⟩
  | redo node k =>
      cases hstep
      obtain ⟨hk, b, rfl, hr, hnode, hremove, hinsert⟩ := hin
      refine ⟨Q, hexplains, hzero, ?_⟩
      change Recoverable H _ Q
      rcases Nat.eq_zero_or_pos k with rfl | hpos
      · refine .removing ?_ ?_ hinsert
        · change Removing H b.links b.removeNode Q
          rwa [hremove]
        · change b.removeNode ≠ 0
          rwa [hremove]
      · exact recoverable_removeQue hr hinsert hnode k hpos hk.le
  | undo k =>
      cases hstep
      obtain ⟨hk, b, rfl, hr, hremove, hque, hprior⟩ := hin
      exact ⟨Q, hexplains, hzero, recoverable_undoInsert hr hremove hque hprior k hk.le⟩

theorem inv_acquire (h : Inv H s) (hstep : s.step .acquire = some s') : Inv H s' := by
  obtain ⟨Q, hexplains, hzero, hin⟩ := h
  rw [State.step] at hstep
  split at hstep
  · rename_i hphase
    cases hstep
    rw [hphase] at hin
    refine ⟨Q, hexplains, hzero, ?_⟩
    change InPhase H Q s.memory (recovery s.memory)
    rw [recovery]
    cases hin with
    | settled hs =>
        rw [if_neg fun hne => hne hs.removeNode, if_neg]
        · exact hs
        · rintro ⟨hque, hprior⟩
          exact hs.insert.elim hque hprior
    | removing hr hremove hinsert =>
        rw [if_pos hremove]
        exact ⟨by decide, s.memory, rfl, hr, hremove, rfl, hinsert⟩
    | inserting hr hremove hque hprior =>
        rw [if_neg fun hne => hne hremove, if_pos ⟨hque, hprior⟩]
        exact ⟨by decide, s.memory, rfl, hr, hremove, hque, hprior⟩
  · cases hstep

theorem inv_step {a : Action} (h : Inv H s) (hallowed : Allowed H s a) (hapt : Apt s a)
    (hstep : s.step a = some s') : Inv H s' := by
  cases a with
  | start op => exact inv_start h hallowed hapt hstep
  | store => exact inv_store h hstep
  | die => exact inv_die h hapt hstep
  | acquire => exact inv_acquire h hstep

theorem inv_init (hH : 0 ∉ H) (h : (system H).init s) : Inv H s := by
  obtain ⟨hself, hremove, hque, hprior, hphase, hhistory⟩ := h
  refine ⟨fun _ => [], ?_, ?_, ?_⟩
  · rw [hhistory]
    exact .init
  · rintro ⟨h, hh, hmem⟩
    rw [List.mem_singleton.mp hmem] at hH
    exact hH hh
  · rw [hphase]
    refine ⟨⟨fun h hh => ⟨List.nodup_singleton h, ?_⟩, fun h hh h' hh' hne => ?_⟩, hremove, .inl hque⟩
    · exact List.isChain_pair.mpr (hself h hh)
    · intro x hx hx'
      exact hne ((List.mem_singleton.mp hx).symm.trans (List.mem_singleton.mp hx'))

/-- In every run without such a death, the queues of a lock table that no operation or recovery is
at work on are circular lists of the nodes that the history explains. -/
theorem queues_survive (hH : 0 ∉ H) (h : Reachable ((system H).restrict Apt) s)
    (hfree : s.phase = .free) : ∃ Q, Explains s.history Q ∧ IsRings s.memory.links H Q := by
  have hinv : Inv H s := Reachable.invariant (S := (system H).restrict Apt) (fun _ => inv_init hH)
    (fun s a s' hs hstep => inv_step hs hstep.1.1 hstep.2 hstep.1.2) h
  obtain ⟨Q, hexplains, -, hin⟩ := hinv
  rw [hfree] at hin
  exact ⟨Q, hexplains, hin.rings⟩

end

/-! ## A run with a death, and one with two -/

instance (L : Links ℕ) (node : ℕ) : Decidable (Checks L node) :=
  inferInstanceAs (Decidable (_ ∧ _))

instance (m : Memory) (phase : Phase) : Decidable (Unmixed m phase) :=
  match phase with
  | .busy (.insertTail que _) 1 =>
      inferInstanceAs (Decidable (m.insertPrior = 0 ∨ m.insertPrior = m.links.prev que))
  | .busy (.insertTail _ _) 0 => .isTrue trivial
  | .busy (.insertTail _ _) (_ + 2) => .isTrue trivial
  | .busy (.removeQue _) _ => .isTrue trivial
  | .free => .isTrue trivial
  | .dead => .isTrue trivial
  | .redo _ _ => .isTrue trivial
  | .undo _ => .isTrue trivial

instance (s : State) (a : Action) : Decidable (Apt s a) :=
  match a with
  | .start (.removeQue node) => inferInstanceAs (Decidable (Checks s.memory.links node))
  | .start (.insertTail _ _) => .isTrue trivial
  | .die => inferInstanceAs (Decidable (Unmixed s.memory s.phase))
  | .store => .isTrue trivial
  | .acquire => .isTrue trivial

/-- A node that no link is to can be inserted before a header. All addresses are below 30. -/
def Free30 (headers : List ℕ) (L : Links ℕ) (que node : ℕ) : Prop :=
  que ∈ headers ∧ node ∉ headers ∧ node ≠ 0 ∧ (∀ h ∈ headers, h < 30) ∧
    ∀ x < 30, x ≠ node → L.next x < 30 ∧ L.next x ≠ node

instance (headers : List ℕ) (L : Links ℕ) (que node : ℕ) : Decidable (Free30 headers L que node) :=
  inferInstanceAs (Decidable (_ ∧ _))

def step30 (headers : List ℕ) (s : State) : Action → Option State
  | .start (.insertTail que node) =>
      if Free30 headers s.memory.links que node then s.step (.start (.insertTail que node))
      else none
  | .start (.removeQue _) => none
  | a => s.step a

theorem step30_spec {headers : List ℕ} {s s' : State} {a : Action}
    (h : step30 headers s a = some s') : (system {x | x ∈ headers}).step s a s' := by
  cases a with
  | start op =>
      cases op with
      | insertTail que node =>
          rw [step30] at h
          split at h
          · rename_i hall
            obtain ⟨hque, hnode, hzero, hbound, hclosed⟩ := hall
            refine ⟨⟨⟨que, hque, 0, rfl⟩, ?_, hzero⟩, h⟩
            -- the links do not lead to the node
            rintro ⟨x, hx, k, hk⟩
            have hout : ∀ k, s.memory.links.next^[k] x < 30 ∧ s.memory.links.next^[k] x ≠ node := by
              intro k
              induction k with
              | zero => exact ⟨hbound x hx, fun heq => hnode (heq ▸ hx)⟩
              | succ k ih =>
                  rw [Function.iterate_succ_apply']
                  exact hclosed _ ih.1 ih.2
            exact (hout k).2 hk
          · cases h
      | removeQue node => cases h
  | store => exact ⟨trivial, h⟩
  | die => exact ⟨trivial, h⟩
  | acquire => exact ⟨trivial, h⟩

/-- All nodes are linked to themselves. -/
def unlinked : State := ⟨⟨⟨fun x => x, fun x => x⟩, 0, 0, 0⟩, .free, []⟩

/-- An insertion that is undone after five stores -/
def undoneRun : List Action :=
  .start (.insertTail 10 1) :: List.replicate 5 .store ++ [.die, .acquire] ++
    List.replicate 4 .store

theorem queues_survive_undone : ∃ s, Reachable ((system {x | x ∈ [10]}).restrict Apt) s ∧
    s.phase = .free ∧ s.history = [.interrupted (.insertTail 10 1)] ∧
      ∃ Q, Explains s.history Q ∧ IsRings s.memory.links {x | x ∈ [10]} Q := by
  have hview : (undoneRun.foldlM (fun s a => if Apt s a then step30 [10] s a else none)
      unlinked).map (fun s => (s.phase, s.history)) =
        some (.free, [.interrupted (.insertTail 10 1)]) := by decide
  obtain ⟨s, hrun, heq⟩ := Option.map_eq_some_iff.mp hview
  simp only [Prod.mk.injEq] at heq
  have hreach : Reachable ((system {x | x ∈ [10]}).restrict Apt) s := by
    refine Reachable.of_foldlM (fun a _ t t' ht => ?_)
      (.init ⟨fun _ _ => ⟨rfl, rfl⟩, rfl, rfl, rfl, rfl, rfl⟩) hrun
    split at ht
    · exact ⟨step30_spec ht, by assumption⟩
    · cases ht
  have hzero : 0 ∉ {x | x ∈ [10]} := fun hmem => absurd (List.mem_singleton.mp hmem) (by decide)
  exact ⟨s, hreach, heq.1, heq.2, queues_survive hzero hreach heq.1⟩

/-- A process dies before the last store of an insertion, and another one after the first store of
an insertion into another queue. -/
def mixedRun : List Action :=
  .start (.insertTail 10 1) :: List.replicate 7 .store ++ [.die, .acquire] ++
    .start (.insertTail 20 2) :: [.store, .die, .acquire] ++ List.replicate 4 .store

/-- Then recovery links the headers of both queues to each other. -/
theorem queues_mixed : ∃ s, Reachable (system {x | x ∈ [10, 20]}) s ∧ s.phase = .free ∧
    ¬∃ Q, Explains s.history Q ∧ IsRings s.memory.links {x | x ∈ [10, 20]} Q := by
  have hview : (mixedRun.foldlM (step30 [10, 20]) unlinked).map
      (fun s => (s.phase, s.memory.links.next 10)) = some (.free, 20) := by decide
  obtain ⟨s, hrun, heq⟩ := Option.map_eq_some_iff.mp hview
  simp only [Prod.mk.injEq] at heq
  refine ⟨s, Reachable.of_foldlM (fun _ _ _ _ ht => step30_spec ht)
    (.init ⟨fun _ _ => ⟨rfl, rfl⟩, rfl, rfl, rfl, rfl, rfl⟩) hrun, heq.1, ?_⟩
  rintro ⟨Q, -, hrings⟩
  have hten : 10 ∈ {x | x ∈ [10, 20]} := List.mem_cons_self
  have htwenty : 20 ∈ {x | x ∈ [10, 20]} := List.mem_cons_of_mem _ List.mem_cons_self
  have hnext := ((hrings.ring 10 hten).next_mem List.mem_cons_self).1
  rw [heq.2] at hnext
  have hsame : 10 = 20 := hrings.eq_of_mem hten htwenty hnext List.mem_cons_self
  omega

end Firebird.Que
