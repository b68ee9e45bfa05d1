import Mathlib.Data.List.Basic
import Mathlib.Data.List.Perm.Subperm
import Mathlib.Logic.Relation

/-! # Depth-first search for a cycle

The search keeps two kinds of marks across its recursive calls: nodes that are
finished, and nodes on the current path. A node that is met again on the path
closes a cycle; a node whose successors are all finished is finished too.
-/

namespace CycleSearch

open Relation (ReflTransGen TransGen)

universe u

variable {α : Type u}

/-- The marks: `scanned` nodes are finished, `path` nodes are being visited. -/
structure Marks (α : Type u) where
  scanned : List α
  path : List α

/-- Visits the nodes in turn, up to the first one that closes a cycle. -/
def visitAll (f : α → Marks α → Option (Option α × Marks α)) :
    List α → Marks α → Option (Option α × Marks α)
  | [], m => some (none, m)
  | x :: xs, m =>
      match f x m with
      | some (none, m) => visitAll f xs m
      | r => r

/-- Visits a node: the node at which a cycle closes, if one is found, and the marks;
`none` when the fuel runs out. -/
def visit [DecidableEq α] (succ : α → List α) : ℕ → α → Marks α → Option (Option α × Marks α)
  | 0, _, _ => none
  | fuel + 1, x, m =>
      if x ∈ m.scanned then some (none, m)
      else if x ∈ m.path then some (some x, m)
      else
        match visitAll (visit succ fuel) (succ x) ⟨m.scanned, x :: m.path⟩ with
        | some (none, m) => some (none, ⟨x :: m.scanned, m.path.erase x⟩)
        | r => r

/-- Every descent from the node ends. -/
def Finished (succ : α → List α) : α → Prop := Acc fun b a => b ∈ succ a

/-- A cycle can be reached. -/
def ReachesCycle (succ : α → List α) (x : α) : Prop :=
  ∃ y, ReflTransGen (fun a b => b ∈ succ a) x y ∧ TransGen (fun a b => b ∈ succ a) y y

theorem ReachesCycle.of_succ {succ : α → List α} {x y : α} (hy : y ∈ succ x)
    (h : ReachesCycle succ y) : ReachesCycle succ x := by
  obtain ⟨z, hyz, hz⟩ := h
  exact ⟨z, .head hy hyz, hz⟩

/-- From a finished node no cycle can be reached. -/
theorem Finished.not_reachesCycle {succ : α → List α} {x : α} (h : Finished succ x) :
    ¬ReachesCycle succ x := by
  induction h with
  | intro x _ ih =>
      rintro ⟨y, hxy, hy⟩
      rcases ReflTransGen.cases_head hxy with rfl | ⟨z, hxz, hzy⟩
      · -- the cycle goes through `x`: take it up at the next node
        obtain ⟨z, hxz, hzx⟩ := TransGen.head'_iff.mp hy
        exact ih z hxz ⟨z, .refl, TransGen.tail' hzx hxz⟩
      · exact ih z hxz ⟨y, hzy, hy⟩

/-- A cycle reached from `a` is reached along every relation that follows the steps from
the nodes of a closed set `P`. -/
theorem exists_cycle_of_agree {P : α → Prop} {R S : α → α → Prop}
    (h : ∀ a b, P a → R a b → S a b ∧ P b) {a : α} (ha : P a)
    (hcycle : ∃ c, ReflTransGen R a c ∧ TransGen R c c) :
    ∃ c, ReflTransGen S a c ∧ TransGen S c c := by
  obtain ⟨c, hac, hcc⟩ := hcycle
  have hreach : ReflTransGen S a c ∧ P c := by
    clear hcc
    induction hac with
    | refl => exact ⟨.refl, ha⟩
    | tail _ hbc ih =>
        obtain ⟨hstep, hc⟩ := h _ _ ih.2 hbc
        exact ⟨ih.1.tail hstep, hc⟩
  have hround : ∀ d, TransGen R c d → TransGen S c d ∧ P d := by
    intro d hcd
    induction hcd with
    | single hcb =>
        obtain ⟨hstep, hb⟩ := h _ _ hreach.2 hcb
        exact ⟨.single hstep, hb⟩
    | tail _ hbd ih =>
        obtain ⟨hstep, hd⟩ := h _ _ ih.2 hbd
        exact ⟨ih.1.tail hstep, hd⟩
  exact ⟨c, hreach.1, (hround c hcc).1⟩

section Search

variable [DecidableEq α] {succ : α → List α}

/-- The marks before a visit of `x`: what is scanned is finished, the path leads to `x`. -/
structure Ready (succ : α → List α) (nodes : List α) (m : Marks α) (x : α) : Prop where
  finished : ∀ s ∈ m.scanned, Finished succ s
  leads : ∀ p ∈ m.path, TransGen (fun a b => b ∈ succ a) p x
  nodup : m.path.Nodup
  within : m.path ⊆ nodes
  mem : x ∈ nodes

/-- The outcome of a visit of the nodes `xs`. -/
def Outcome (succ : α → List α) (m : Marks α) (xs : List α) : Option α × Marks α → Prop
  | (some _, _) => ∃ x ∈ xs, ReachesCycle succ x
  | (none, m') => m'.path = m.path ∧ (∀ s ∈ m.scanned, s ∈ m'.scanned) ∧
      (∀ x ∈ xs, x ∈ m'.scanned) ∧ ∀ s ∈ m'.scanned, Finished succ s

omit [DecidableEq α] in
theorem visitAll_spec {f : α → Marks α → Option (Option α × Marks α)} {nodes : List α}
    {xs : List α} {m : Marks α} (h : ∀ x ∈ xs, Ready succ nodes m x)
    (hm : ∀ s ∈ m.scanned, Finished succ s)
    (hf : ∀ x m', m'.path = m.path → Ready succ nodes m' x →
      ∃ r, f x m' = some r ∧ Outcome succ m' [x] r) :
    ∃ r, visitAll f xs m = some r ∧ Outcome succ m xs r := by
  induction xs generalizing m with
  | nil => exact ⟨(none, m), rfl, rfl, fun _ h => h, by simp, hm⟩
  | cons x xs ih =>
      obtain ⟨⟨r, m'⟩, hrun, hout⟩ := hf x m rfl (h x (by simp))
      cases r with
      | some v =>
          obtain ⟨y, hy, hcycle⟩ := hout
          refine ⟨(some v, m'), by rw [visitAll, hrun], y, ?_, hcycle⟩
          simp [List.mem_singleton.mp hy]
      | none =>
          obtain ⟨hpath, hmono, hx, hfin⟩ := hout
          have hready : ∀ y ∈ xs, Ready succ nodes m' y := by
            intro y hy
            have hold := h y (by simp [hy])
            exact ⟨hfin, by rw [hpath]; exact hold.leads, by rw [hpath]; exact hold.nodup,
              by rw [hpath]; exact hold.within, hold.mem⟩
          obtain ⟨⟨r, m''⟩, hrun', hout'⟩ := ih hready hfin (fun y k hk => hf y k (hk.trans hpath))
          refine ⟨(r, m''), by rw [visitAll, hrun]; exact hrun', ?_⟩
          cases r with
          | some v =>
              obtain ⟨y, hy, hcycle⟩ := hout'
              exact ⟨y, by simp [hy], hcycle⟩
          | none =>
              obtain ⟨hpath', hmono', hxs, hfin'⟩ := hout'
              refine ⟨hpath'.trans hpath, fun s hs => hmono' s (hmono s hs), ?_, hfin'⟩
              intro y hy
              rcases List.mem_cons.mp hy with rfl | hy
              · exact hmono' y (hx y (by simp))
              · exact hxs y hy

/-- With fuel for every node off the path the visit returns. -/
theorem visit_spec {nodes : List α} (hclosed : ∀ x ∈ nodes, succ x ⊆ nodes) {fuel : ℕ} {x : α}
    {m : Marks α} (h : Ready succ nodes m x) (hfuel : nodes.length < fuel + m.path.length) :
    ∃ r, visit succ fuel x m = some r ∧ Outcome succ m [x] r := by
  induction fuel generalizing x m with
  | zero =>
      have := (List.subperm_of_subset h.nodup h.within).length_le
      omega
  | succ fuel ih =>
      rw [visit]
      split
      · rename_i hscanned
        exact ⟨_, rfl, rfl, fun _ h => h, by simpa using hscanned, h.finished⟩
      · split
        · rename_i hpath
          exact ⟨_, rfl, x, by simp, x, .refl, h.leads x hpath⟩
        · rename_i hpath
          have hready : ∀ y ∈ succ x, Ready succ nodes ⟨m.scanned, x :: m.path⟩ y := by
            intro y hy
            refine ⟨h.finished, ?_, List.nodup_cons.mpr ⟨hpath, h.nodup⟩,
              List.cons_subset.mpr ⟨h.mem, h.within⟩, hclosed x h.mem hy⟩
            intro p hp
            rcases List.mem_cons.mp hp with rfl | hp
            · exact .single hy
            · exact (h.leads p hp).tail hy
          obtain ⟨⟨r, m'⟩, hrun, hout⟩ :=
            @visitAll_spec _ succ (visit succ fuel) nodes _ _ hready h.finished
            (fun y k hk hy => ih hy (by rw [hk, List.length_cons]; omega))
          rw [hrun]
          cases r with
          | some v =>
              obtain ⟨y, hy, hcycle⟩ := hout
              exact ⟨_, rfl, x, by simp, hcycle.of_succ hy⟩
          | none =>
              obtain ⟨hpath', hmono, hsucc, hfin⟩ := hout
              have hx : Finished succ x := ⟨_, fun y hy => hfin y (hsucc y hy)⟩
              refine ⟨_, rfl, by simp [hpath'], fun s hs => ?_, by simp, fun s hs => ?_⟩
              · exact List.mem_cons_of_mem _ (hmono s hs)
              · rcases List.mem_cons.mp hs with rfl | hs
                · exact hx
                · exact hfin s hs

/-- The search from a node returns, and it finds something exactly when the node
reaches a cycle. -/
theorem visit_isSome_iff {nodes : List α} (hclosed : ∀ x ∈ nodes, succ x ⊆ nodes) {x : α}
    (hx : x ∈ nodes) {fuel : ℕ} (hfuel : nodes.length < fuel) :
    ∃ r m, visit succ fuel x ⟨[], []⟩ = some (r, m) ∧ (r.isSome ↔ ReachesCycle succ x) := by
  obtain ⟨⟨r, m⟩, hrun, hout⟩ := visit_spec hclosed
    (⟨by simp, by simp, by simp, by simp, hx⟩ : Ready succ nodes ⟨[], []⟩ x) (by simpa using hfuel)
  refine ⟨r, m, hrun, ?_⟩
  cases r with
  | some v =>
      obtain ⟨y, hy, hcycle⟩ := hout
      obtain rfl := List.mem_singleton.mp hy
      simpa using hcycle
  | none =>
      obtain ⟨-, -, hmem, hfin⟩ := hout
      simpa using (hfin x (hmem x (by simp))).not_reachesCycle

end Search

end CycleSearch
