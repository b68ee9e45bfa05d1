import Firebird.Tree.Remove

/-! # The pages that a tree takes and gives back

A tree does nothing to its allocator but take pages and give them back: what these keep is kept by
an insertion and by a removal.
-/

namespace Firebird.BePlus.Tree

variable {V K σ : Type} [Inhabited V] {P : Params V K} {A : Allocator σ} {t t' : Tree V}
  {s s' : σ} {newNode : Addr} {k curLevel : ℕ} {item v : V} {Q : σ → Prop}

/-- The state of the allocator after an insertion -/
def Outcome.Ends : Outcome V σ → (σ → Prop) → Prop
  | .added _ s, Q => Q s
  | .thrown _ s _, Q => Q s
  | .duplicate, _ => True
  | .loops, _ => True

omit [Inhabited V] in
theorem Outcome.Ends.added {o : Outcome V σ} (h : o.Ends Q) (ho : o = .added t' s') : Q s' := by
  rw [ho] at h
  exact h

omit [Inhabited V] in
theorem Outcome.Ends.thrown {o : Outcome V σ} (h : o.Ends Q) (ho : o = .thrown t' s' v) : Q s' := by
  rw [ho] at h
  exact h

section Kept

variable (hnode : ∀ {s p s'}, A.nodePage s = some (p, s') → Q s → Q s')
  (hfree : ∀ p {s}, Q s → Q (A.deallocate p s))

include hfree

theorem unwind_kept (hs : Q s) : Q (t.unwind A curLevel newNode s).1 := by
  induction curLevel generalizing newNode s with
  | zero => exact hfree newNode hs
  | succ curLevel ih =>
      rw [unwind]
      exact ih (hfree newNode hs)

theorem fail_kept (hs : Q s) : (t.fail A s curLevel newNode).Ends Q := unwind_kept hfree hs

include hnode

theorem climb_none_kept (hs : Q s) : (climb P A k t s newNode none curLevel).Ends Q := by
  rw [climb_none]
  split
  · exact fail_kept hfree hs
  · rename_i halloc
    exact hnode halloc hs

/-- The loop up the tree -/
theorem climb_kept {nodeList : Option Addr} (hs : Q s) :
    (climb P A k t s newNode nodeList curLevel).Ends Q := by
  induction k generalizing t s newNode nodeList curLevel with
  | zero =>
      cases nodeList with
      | none => exact climb_none_kept hnode hfree hs
      | some nodeList => exact trivial
  | succ k ih =>
      cases nodeList with
      | none => exact climb_none_kept hnode hfree hs
      | some nodeList =>
          rw [climb]
          split
          · exact hs
          · dsimp only
            split
            · exact hs
            · exact hs
            · split
              · exact fail_kept hfree hs
              · rename_i halloc
                exact ih (hnode halloc hs)

/-- An insertion -/
theorem add_kept (hleaf : ∀ {s p s'}, A.leafPage s = some (p, s') → Q s → Q s') (hs : Q s) :
    (t.add P A s item).Ends Q := by
  rw [add]
  dsimp only
  split
  · exact trivial
  split
  · exact hs
  split
  · split <;> exact hs
  · split <;> exact hs
  split
  · exact hs
  · rename_i halloc
    exact climb_kept hnode hfree (hleaf halloc hs)

/-- An insertion that an exception ends: the first page cannot be taken, or it has been taken. -/
theorem add_thrown (hleaf : ∀ {s p s'}, A.leafPage s = some (p, s') → Q s')
    (h : t.add P A s item = .thrown t' s' v) : (A.leafPage s = none ∧ s' = s) ∨ Q s' := by
  rw [add] at h
  dsimp only at h
  split at h
  · cases h
  split at h
  · cases h
  split at h
  · split at h <;> cases h
  · split at h <;> cases h
  split at h
  · rename_i halloc
    rw [Outcome.thrown.injEq] at h
    exact Or.inl ⟨halloc, h.2.1.symm⟩
  · rename_i halloc
    exact Or.inr ((climb_kept hnode hfree (hleaf halloc)).thrown h)

end Kept

/-! ## Removals -/

section Removal

variable (hfree : ∀ p {s}, Q s → Q (A.deallocate p s)) {r : Tree V × σ}

include hfree

theorem removeFrom_kept {nodeLevel : ℕ} {list node : Addr}
    {up : Tree V → Addr → Option (Tree V × σ)} (hs : Q s)
    (hup : ∀ {t page r}, up t page = some r → Q r.2)
    (h : t.removeFrom P A s nodeLevel list node up = some r) : Q r.2 := by
  rw [removeFrom] at h
  split at h
  · split at h
    · cases h
      exact hs
    · exact hup h
  · dsimp only at h
    split at h
    · cases h
      exact hfree list hs
    · split at h
      · exact hup h
      · exact hup h
      · cases h
        exact hs

theorem removePage_kept {nodeLevel : ℕ} {node : Addr} (hs : Q s)
    (h : removePage P A s k t nodeLevel node = some r) : Q r.2 := by
  induction k generalizing t nodeLevel node r with
  | zero => cases h
  | succ k ih =>
      rw [removePage] at h
      split at h
      · rename_i hr
        cases h
        obtain ⟨list, -, hr⟩ := Option.bind_eq_some_iff.mp hr
        exact hfree node (removeFrom_kept hfree hs (fun h => ih h) hr)
      · cases h

/-- A removal -/
theorem fastRemove_kept {c : Cursor} (hs : Q s) (h : t.fastRemove P A s c = some r) : Q r.2 := by
  rw [fastRemove] at h
  split at h
  · cases h
  split at h
  · cases h
    exact hs
  split at h
  · split at h
    · cases h
      exact hs
    · exact removePage_kept hfree hs h
  · dsimp only at h
    split at h
    · exact removePage_kept hfree hs h
    · exact removePage_kept hfree hs h
    · cases h
      exact hs

end Removal

end Firebird.BePlus.Tree
