import Mathlib.Data.List.Chain
import Mathlib.Data.List.Nodup
import Mathlib.Data.Set.Defs
import Mathlib.Logic.Function.Iterate

/-! # Circular doubly linked lists

Each node has a link to the next and one to the previous node. A list starts at a header, and the
links of its last node are to the header again. The links of any number of lists are in one
memory, and a store to one of them must leave the others alone.
-/

namespace Ring

universe u

variable {α : Type u}

/-- The links of all nodes -/
structure Links (α : Type u) where
  next : α → α
  prev : α → α

namespace Links

/-- Two nodes that are linked both ways -/
def Follows (m : Links α) (x y : α) : Prop := m.next x = y ∧ m.prev y = x

/-- A node that is linked to itself -/
def Alone (m : Links α) (x : α) : Prop := m.next x = x ∧ m.prev x = x

variable [DecidableEq α]

/-- The links with `n` before `q` -/
def insert (m : Links α) (q n : α) : Links α where
  next := Function.update (Function.update m.next n q) (m.prev q) n
  prev := Function.update (Function.update m.prev n (m.prev q)) q n

/-- The links around `n` -/
def unlink (m : Links α) (n : α) : Links α where
  next := Function.update m.next (m.prev n) (m.next n)
  prev := Function.update m.prev (m.next n) (m.prev n)

/-- The links of `n` to itself -/
def init (m : Links α) (n : α) : Links α where
  next := Function.update m.next n n
  prev := Function.update m.prev n n

section

variable (m : Links α) (q n x : α)

theorem next_insert : (m.insert q n).next x =
    if x = m.prev q then n else if x = n then q else m.next x := by
  change Function.update (Function.update m.next n q) (m.prev q) n x = _
  rw [Function.update_apply, Function.update_apply]

theorem prev_insert : (m.insert q n).prev x =
    if x = q then n else if x = n then m.prev q else m.prev x := by
  change Function.update (Function.update m.prev n (m.prev q)) q n x = _
  rw [Function.update_apply, Function.update_apply]

theorem next_unlink : (m.unlink n).next x = if x = m.prev n then m.next n else m.next x :=
  Function.update_apply ..

theorem prev_unlink : (m.unlink n).prev x = if x = m.next n then m.prev n else m.prev x :=
  Function.update_apply ..

theorem next_init : (m.init n).next x = if x = n then n else m.next x := Function.update_apply ..

theorem prev_init : (m.init n).prev x = if x = n then n else m.prev x := Function.update_apply ..

/-- The node itself stays linked as it was. -/
theorem next_unlink_self : (m.unlink n).next n = m.next n := by
  rw [next_unlink, ite_eq_right_iff]
  exact fun _ => rfl

theorem prev_unlink_self : (m.unlink n).prev n = m.prev n := by
  rw [prev_unlink, ite_eq_right_iff]
  exact fun _ => rfl

end

end Links

/-! ## Chains of links -/

section Chain

variable {m m' : Links α} {l A B : List α} {p q n : α}

/-- A chain reads the links to the next node of all but the last, and those to the previous one of
all but the first. -/
theorem chain_congr (h : l.IsChain m.Follows) (hnext : ∀ x ∈ l.dropLast, m'.next x = m.next x)
    (hprev : ∀ x ∈ l.tail, m'.prev x = m.prev x) : l.IsChain m'.Follows := by
  induction l with
  | nil => exact .nil
  | cons x l ih =>
      cases l with
      | nil => exact .singleton x
      | cons y l =>
          rw [List.isChain_cons_cons] at h ⊢
          rw [List.dropLast_cons_cons] at hnext
          refine ⟨⟨?_, ?_⟩, ih h.2 (fun z hz => hnext z (List.mem_cons_of_mem x hz)) ?_⟩
          · rw [hnext x List.mem_cons_self, h.1.1]
          · rw [hprev y List.mem_cons_self, h.1.2]
          · exact fun z hz => hprev z (List.mem_cons_of_mem y hz)

/-- The links to the next node lead to all nodes of a chain. -/
theorem chain_iterate {x y : α} (h : (x :: l).IsChain m.Follows) (hy : y ∈ x :: l) :
    ∃ k, m.next^[k] x = y := by
  induction l generalizing x with
  | nil =>
      rw [List.mem_singleton] at hy
      exact ⟨0, hy.symm⟩
  | cons z l ih =>
      rw [List.isChain_cons_cons] at h
      rcases List.mem_cons.mp hy with rfl | hy
      · exact ⟨0, rfl⟩
      · obtain ⟨k, hk⟩ := ih h.2 hy
        refine ⟨k + 1, ?_⟩
        rw [Function.iterate_succ_apply, h.1.1, hk]

/-- The nodes `l` that are passed from `x` on, up to `h` -/
inductive Path (f : α → α) (h : α) : α → List α → Prop
  | nil : Path f h h []
  | cons {x : α} {l : List α} : Path f h (f x) l → Path f h x (x :: l)

theorem path_of_chain {f : α → α} {h x : α} (hchain : (x :: (l ++ [h])).IsChain fun x y => f x = y) :
    Path f h (f x) l := by
  induction l generalizing x with
  | nil =>
      rw [List.nil_append, List.isChain_pair] at hchain
      rw [hchain]
      exact .nil
  | cons y l ih =>
      rw [List.cons_append, List.isChain_cons_cons] at hchain
      rw [hchain.1]
      exact .cons (ih hchain.2)

/-- Both ends of a chain, with other links in between -/
theorem chain_ends (m' : Links α) (hleft : (A ++ [p]).IsChain m.Follows)
    (hright : (q :: B).IsChain m.Follows)
    (hnext : ∀ x ∈ A ++ (q :: B).dropLast, m'.next x = m.next x)
    (hprev : ∀ x ∈ (A ++ [p]).tail ++ B, m'.prev x = m.prev x) :
    (A ++ [p]).IsChain m'.Follows ∧ (q :: B).IsChain m'.Follows := by
  refine ⟨chain_congr hleft (fun x hx => hnext x ?_) fun x hx => hprev x ?_,
    chain_congr hright (fun x hx => hnext x ?_) fun x hx => hprev x ?_⟩
  · rw [List.dropLast_concat] at hx
    exact List.mem_append_left _ hx
  · exact List.mem_append_left _ hx
  · exact List.mem_append_right _ hx
  · exact List.mem_append_right _ hx

/-- Where a chain comes to a node, and where it goes on from one, there is no other such place. -/
theorem seam_unique {M : List α} (hs : (A ++ p :: (M ++ q :: B)).dropLast.Nodup)
    (ht : (A ++ p :: (M ++ q :: B)).tail.Nodup) :
    p ∉ A ++ (M ++ q :: B).dropLast ∧ q ∉ (A ++ p :: M).tail ++ B := by
  have hne : M ++ q :: B ≠ [] := List.append_ne_nil_of_right_ne_nil M (List.cons_ne_nil q B)
  rw [List.dropLast_append_of_ne_nil (List.cons_ne_nil _ _), List.dropLast_cons_of_ne_nil hne,
    List.nodup_middle, List.nodup_cons] at hs
  rw [← List.cons_append, ← List.append_assoc, List.tail_append_of_ne_nil
    (List.append_ne_nil_of_right_ne_nil A (List.cons_ne_nil p M)), List.nodup_middle,
    List.nodup_cons] at ht
  exact ⟨hs.1, ht.1⟩

variable [DecidableEq α]

theorem chain_insert (h : (A ++ p :: q :: B).IsChain m.Follows)
    (hs : (A ++ p :: q :: B).dropLast.Nodup) (ht : (A ++ p :: q :: B).tail.Nodup)
    (hn : n ∉ A ++ p :: q :: B) : (A ++ p :: n :: q :: B).IsChain (m.insert q n).Follows := by
  rw [List.isChain_append_cons_cons] at h
  obtain ⟨hleft, ⟨-, hp⟩, hright⟩ := h
  obtain ⟨hpu, hqu⟩ := seam_unique (M := []) hs ht
  have hne : ∀ x ∈ A ++ p :: q :: B, x ≠ n := fun x hx heq => hn (heq ▸ hx)
  have hends := chain_ends (m.insert q n) hleft hright ?_ ?_
  · rw [List.isChain_append_cons_cons, List.isChain_cons_cons]
    refine ⟨hends.1, ⟨?_, ?_⟩, ⟨?_, ?_⟩, hends.2⟩
    · rw [Links.next_insert, hp, if_pos rfl]
    · rw [Links.prev_insert, if_neg (hne q (by simp)).symm, if_pos rfl, hp]
    · rw [Links.next_insert, hp, if_neg (hne p (by simp)).symm, if_pos rfl]
    · rw [Links.prev_insert, if_pos rfl]
  · intro x hx
    have hmem : x ∈ A ++ p :: q :: B := by
      rcases List.mem_append.mp hx with hx | hx
      · exact List.mem_append_left _ hx
      · exact List.mem_append_right _ (List.mem_cons_of_mem _ (List.dropLast_subset _ hx))
    have hxp : x ≠ p := by
      rintro rfl
      exact hpu hx
    rw [Links.next_insert, hp, if_neg hxp, if_neg (hne x hmem)]
  · intro x hx
    have hmem : x ∈ A ++ p :: q :: B := by
      rw [List.append_cons]
      rcases List.mem_append.mp hx with hx | hx
      · exact List.mem_append_left _ (List.mem_of_mem_tail hx)
      · exact List.mem_append_right _ (List.mem_cons_of_mem _ hx)
    have hxq : x ≠ q := by
      rintro rfl
      exact hqu hx
    rw [Links.prev_insert, if_neg hxq, if_neg (hne x hmem)]

theorem chain_unlink (h : (A ++ p :: n :: q :: B).IsChain m.Follows)
    (hs : (A ++ p :: n :: q :: B).dropLast.Nodup) (ht : (A ++ p :: n :: q :: B).tail.Nodup) :
    (A ++ p :: q :: B).IsChain (m.unlink n).Follows := by
  rw [List.isChain_append_cons_cons, List.isChain_cons_cons] at h
  obtain ⟨hleft, ⟨-, hp⟩, ⟨hq, -⟩, hright⟩ := h
  obtain ⟨hpu, hqu⟩ := seam_unique (M := [n]) hs ht
  have hends := chain_ends (m.unlink n) hleft hright ?_ ?_
  · rw [List.isChain_append_cons_cons]
    refine ⟨hends.1, ⟨?_, ?_⟩, hends.2⟩
    · rw [Links.next_unlink, hp, hq, if_pos rfl]
    · rw [Links.prev_unlink, hp, hq, if_pos rfl]
  · intro x hx
    rw [Links.next_unlink, hp, if_neg]
    rintro rfl
    refine hpu ?_
    rw [List.singleton_append, List.dropLast_cons_of_ne_nil (List.cons_ne_nil _ _)]
    rcases List.mem_append.mp hx with hx | hx
    · exact List.mem_append_left _ hx
    · exact List.mem_append_right _ (List.mem_cons_of_mem _ hx)
  · intro x hx
    rw [Links.prev_unlink, hq, if_neg]
    rintro rfl
    refine hqu ?_
    rw [List.append_cons, List.tail_append_of_ne_nil
      (List.append_ne_nil_of_right_ne_nil A (List.cons_ne_nil p []))]
    rcases List.mem_append.mp hx with hx | hx
    · exact List.mem_append_left _ (List.mem_append_left _ hx)
    · exact List.mem_append_right _ hx

end Chain

/-! ## Lists of nodes -/

section Lists

variable [DecidableEq α] {l l₁ l₂ : List α} {q n x : α}

/-- The list with `n` before `q`, or at its end if `q` is not in it -/
def insertAt (q n : α) : List α → List α
  | [] => [n]
  | x :: l => if x = q then n :: x :: l else x :: insertAt q n l

@[simp] theorem insertAt_nil (q n : α) : insertAt q n [] = [n] := rfl

theorem insertAt_cons (q n x : α) (l : List α) :
    insertAt q n (x :: l) = if x = q then n :: x :: l else x :: insertAt q n l := rfl

theorem insertAt_append (h : q ∉ l₁) : insertAt q n (l₁ ++ q :: l₂) = l₁ ++ n :: q :: l₂ := by
  induction l₁ with
  | nil => rw [List.nil_append, insertAt_cons, if_pos rfl, List.nil_append]
  | cons x l₁ ih =>
      rw [List.mem_cons, not_or] at h
      rw [List.cons_append, insertAt_cons, if_neg (Ne.symm h.1), ih h.2, List.cons_append]

theorem insertAt_of_notMem (h : q ∉ l) : insertAt q n l = l ++ [n] := by
  induction l with
  | nil => rfl
  | cons x l ih =>
      rw [List.mem_cons, not_or] at h
      rw [insertAt_cons, if_neg (Ne.symm h.1), ih h.2, List.cons_append]

theorem mem_insertAt : x ∈ insertAt q n l ↔ x = n ∨ x ∈ l := by
  induction l with
  | nil => rw [insertAt_nil, List.mem_singleton, or_iff_left List.not_mem_nil]
  | cons y l ih =>
      rw [insertAt_cons]
      split
      · rw [List.mem_cons]
      · rw [List.mem_cons, ih, List.mem_cons]
        exact or_left_comm

theorem nodup_insertAt (h : l.Nodup) (hn : n ∉ l) : (insertAt q n l).Nodup := by
  induction l with
  | nil => exact List.nodup_singleton n
  | cons y l ih =>
      rw [insertAt_cons]
      split
      · exact List.nodup_cons.mpr ⟨hn, h⟩
      · rw [List.mem_cons, not_or] at hn
        rw [List.nodup_cons] at h ⊢
        refine ⟨fun hy => ?_, ih h.2 hn.2⟩
        rcases mem_insertAt.mp hy with heq | hmem
        · exact hn.1 heq.symm
        · exact h.1 hmem

end Lists

/-! ## Rings -/

/-- From the header `h` the links are through the nodes `l` and back to it. -/
structure IsRing (m : Links α) (h : α) (l : List α) : Prop where
  nodup : (h :: l).Nodup
  chain : (h :: l ++ [h]).IsChain m.Follows

namespace IsRing

variable {m m' : Links α} {h x y q n : α} {l : List α}

theorem congr (hr : IsRing m h l) (hnext : ∀ x ∈ h :: l, m'.next x = m.next x)
    (hprev : ∀ x ∈ h :: l, m'.prev x = m.prev x) : IsRing m' h l where
  nodup := hr.nodup
  chain := by
    refine chain_congr hr.chain (fun x hx => hnext x ?_) fun x hx => hprev x ?_
    · rwa [List.dropLast_concat] at hx
    · rw [List.cons_append, List.tail_cons] at hx
      rcases List.mem_append.mp hx with hx | hx
      · exact List.mem_cons_of_mem h hx
      · exact List.mem_cons.mpr (.inl (List.mem_singleton.mp hx))

/-- Each node stands between two. -/
theorem exists_around (hx : x ∈ l) : ∃ A B p q, h :: l ++ [h] = A ++ p :: x :: q :: B ∧
    p ∈ h :: l ∧ q ∈ h :: l ∧
      ∃ l₁ l₂, l = l₁ ++ x :: l₂ ∧ h :: (l₁ ++ l₂) ++ [h] = A ++ p :: q :: B := by
  obtain ⟨l₁, l₂, rfl⟩ := List.append_of_mem hx
  obtain ⟨A, p, hA⟩ := (List.eq_nil_or_concat' (h :: l₁)).resolve_left (List.cons_ne_nil h l₁)
  obtain ⟨q, B, hB⟩ := List.exists_cons_of_ne_nil
    (List.append_ne_nil_of_right_ne_nil l₂ (List.cons_ne_nil h []))
  have hp : p ∈ h :: l₁ := hA ▸ List.mem_append_right A (List.mem_singleton_self p)
  have hq : q ∈ l₂ ++ [h] := by
    rw [hB]
    exact List.mem_cons_self
  refine ⟨A, B, p, q, ?_, ?_, ?_, l₁, l₂, rfl, ?_⟩
  · rw [← List.cons_append, hA]
    simp only [List.append_assoc, List.cons_append, List.nil_append, hB]
  · rw [← List.cons_append]
    exact List.mem_append_left _ hp
  · rcases List.mem_append.mp hq with hq | hq
    · simp [hq]
    · rw [List.mem_singleton.mp hq]
      exact List.mem_cons_self
  · rw [← List.cons_append, hA]
    simp only [List.append_assoc, List.cons_append, List.nil_append, hB]

/-- Where a node can be inserted -/
theorem exists_before [DecidableEq α] (hr : IsRing m h l) (hq : q ∈ h :: l) :
    ∃ A B p, h :: l ++ [h] = A ++ p :: q :: B ∧ p ∈ h :: l ∧
      ∀ n, h :: insertAt q n l ++ [h] = A ++ p :: n :: q :: B := by
  have hnodup := hr.nodup
  rcases List.mem_cons.mp hq with rfl | hmem
  · obtain ⟨A, p, hA⟩ := (List.eq_nil_or_concat' (q :: l)).resolve_left (List.cons_ne_nil q l)
    refine ⟨A, [], p, ?_, ?_, fun n => ?_⟩
    · rw [hA, List.append_assoc, List.singleton_append]
    · exact hA ▸ List.mem_append_right A (List.mem_singleton_self p)
    · rw [insertAt_of_notMem (List.nodup_cons.mp hnodup).1, ← List.cons_append, hA]
      simp only [List.append_assoc, List.cons_append, List.nil_append]
  · obtain ⟨l₁, l₂, rfl⟩ := List.append_of_mem hmem
    obtain ⟨A, p, hA⟩ := (List.eq_nil_or_concat' (h :: l₁)).resolve_left (List.cons_ne_nil h l₁)
    have hq₁ : q ∉ l₁ := by
      rw [List.nodup_cons, List.nodup_middle, List.nodup_cons] at hnodup
      exact fun hq₁ => hnodup.2.1 (List.mem_append_left _ hq₁)
    refine ⟨A, l₂ ++ [h], p, ?_, ?_, fun n => ?_⟩
    · rw [← List.cons_append, hA]
      simp only [List.append_assoc, List.cons_append, List.nil_append]
    · rw [← List.cons_append, hA]
      simp
    · rw [insertAt_append hq₁, ← List.cons_append, hA]
      simp only [List.append_assoc, List.cons_append, List.nil_append]

section

variable [DecidableEq α]

omit [DecidableEq α] in
/-- The list without its first and without its last node has no node twice. -/
theorem nodup_ends (hr : IsRing m h l) :
    (h :: l ++ [h]).dropLast.Nodup ∧ (h :: l ++ [h]).tail.Nodup := by
  have hnodup := hr.nodup
  refine ⟨?_, ?_⟩
  · rwa [List.dropLast_concat]
  · rw [List.cons_append, List.tail_cons]
    exact (List.perm_append_singleton h l).nodup_iff.mpr hnodup

theorem prev_mem (hr : IsRing m h l) (hq : q ∈ h :: l) : m.prev q ∈ h :: l := by
  obtain ⟨A, B, p, hl, hp, -⟩ := hr.exists_before hq
  have hchain := hr.chain
  rw [hl, List.isChain_append_cons_cons] at hchain
  rw [hchain.2.1.2]
  exact hp

theorem next_prev (hr : IsRing m h l) (hq : q ∈ h :: l) : m.next (m.prev q) = q := by
  obtain ⟨A, B, p, hl, hp, -⟩ := hr.exists_before hq
  have hchain := hr.chain
  rw [hl, List.isChain_append_cons_cons] at hchain
  rw [hchain.2.1.2, hchain.2.1.1]

omit [DecidableEq α] in
theorem next_mem (hr : IsRing m h l) (hx : x ∈ h :: l) :
    m.next x ∈ h :: l ∧ m.prev (m.next x) = x := by
  -- the first node of the rest, up to the header again
  obtain ⟨l₁, l₂, hl⟩ := List.append_of_mem hx
  obtain ⟨y, B, hB⟩ := List.exists_cons_of_ne_nil
    (List.append_ne_nil_of_right_ne_nil l₂ (List.cons_ne_nil h []))
  have hchain := hr.chain
  rw [hl, List.append_assoc, List.cons_append, hB, List.isChain_append_cons_cons] at hchain
  obtain ⟨-, ⟨hnext, hprev⟩, -⟩ := hchain
  rw [hnext, hprev]
  refine ⟨?_, rfl⟩
  have hy : y ∈ l₂ ++ [h] := hB ▸ List.mem_cons_self
  rcases List.mem_append.mp hy with hy | hy
  · rw [hl]
    exact List.mem_append_right _ (List.mem_cons_of_mem x hy)
  · rw [List.mem_singleton.mp hy]
    exact List.mem_cons_self

omit [DecidableEq α] in
/-- The nodes of a ring are those that the links lead to. -/
theorem mem_iff_iterate (hr : IsRing m h l) : x ∈ h :: l ↔ ∃ k, m.next^[k] h = x := by
  constructor
  · intro hx
    exact chain_iterate hr.chain.left_of_append hx
  · rintro ⟨k, rfl⟩
    induction k with
    | zero => exact List.mem_cons_self
    | succ k ih =>
        rw [Function.iterate_succ_apply']
        exact (hr.next_mem ih).1

omit [DecidableEq α] in
/-- All nodes are passed on the way forward. -/
theorem path_next (hr : IsRing m h l) : Path m.next h (m.next h) l :=
  path_of_chain (hr.chain.imp fun _ _ hxy => hxy.1)

omit [DecidableEq α] in
/-- And on the way back -/
theorem path_prev (hr : IsRing m h l) : Path m.prev h (m.prev h) l.reverse := by
  have hback := List.isChain_reverse.mpr (hr.chain.imp fun _ _ hxy => hxy.2)
  rw [List.reverse_append, List.reverse_singleton, List.reverse_cons] at hback
  exact path_of_chain hback

theorem insert (hr : IsRing m h l) (hq : q ∈ h :: l) (hn : n ∉ h :: l) :
    IsRing (m.insert q n) h (insertAt q n l) := by
  obtain ⟨A, B, p, hl, hp, hins⟩ := hr.exists_before hq
  have hchain := hr.chain
  obtain ⟨hs, ht⟩ := hr.nodup_ends
  have hn' : n ∉ h :: l ++ [h] := fun hmem => by
    rcases List.mem_append.mp hmem with hmem | hmem
    · exact hn hmem
    · rw [List.mem_singleton.mp hmem] at hn
      exact hn List.mem_cons_self
  rw [hl] at hchain hs ht hn'
  refine ⟨?_, ?_⟩
  · have hnodup := List.nodup_cons.mp hr.nodup
    rw [List.mem_cons, not_or] at hn
    refine List.nodup_cons.mpr ⟨fun hmem => ?_, nodup_insertAt hnodup.2 hn.2⟩
    rcases mem_insertAt.mp hmem with heq | hmem
    · exact hn.1 heq.symm
    · exact hnodup.1 hmem
  · rw [hins]
    exact chain_insert hchain hs ht hn'

theorem unlink (hr : IsRing m h l) (hn : n ∈ l) : IsRing (m.unlink n) h (l.erase n) := by
  obtain ⟨A, B, p, q, hl, hp, hq, l₁, l₂, rfl, hrest⟩ := exists_around (h := h) hn
  have hchain := hr.chain
  obtain ⟨hs, ht⟩ := hr.nodup_ends
  have hnodup := hr.nodup
  have hn₁ : n ∉ l₁ := by
    rw [List.nodup_cons, List.nodup_middle, List.nodup_cons] at hnodup
    exact fun hn₁ => hnodup.2.1 (List.mem_append_left _ hn₁)
  rw [hl] at hchain hs ht
  rw [List.erase_append_right _ hn₁, List.erase_cons_head]
  refine ⟨?_, ?_⟩
  · rw [List.nodup_cons, List.nodup_middle, List.nodup_cons] at hnodup
    refine List.nodup_cons.mpr ⟨fun hmem => hnodup.1 ?_, hnodup.2.2⟩
    rcases List.mem_append.mp hmem with hmem | hmem
    · exact List.mem_append_left _ hmem
    · exact List.mem_append_right _ (List.mem_cons_of_mem n hmem)
  · rw [hrest]
    exact chain_unlink hchain hs ht

end

end IsRing

/-! ## Many rings -/

/-- The rings of all headers in `H` have the nodes that `Q` says, and none in common. -/
structure IsRings (m : Links α) (H : Set α) (Q : α → List α) : Prop where
  ring : ∀ h ∈ H, IsRing m h (Q h)
  disjoint : ∀ h ∈ H, ∀ h' ∈ H, h ≠ h' → (h :: Q h).Disjoint (h' :: Q h')

/-- The nodes of all rings -/
def Nodes (H : Set α) (Q : α → List α) (x : α) : Prop := ∃ h ∈ H, x ∈ h :: Q h

section

variable [DecidableEq α]

/-- `n` comes before `q`, in the list of `q`. -/
def insertQue (q n : α) (Q : α → List α) : α → List α := fun h =>
  if q ∈ h :: Q h then insertAt q n (Q h) else Q h

/-- `n` is taken out. -/
def removeQue (n : α) (Q : α → List α) : α → List α := fun h => (Q h).erase n

end

namespace IsRings

variable {m m' : Links α} {H : Set α} {Q : α → List α} {h h' x q n : α}

theorem congr (hr : IsRings m H Q) (hnext : ∀ x, Nodes H Q x → m'.next x = m.next x)
    (hprev : ∀ x, Nodes H Q x → m'.prev x = m.prev x) : IsRings m' H Q where
  ring h hh := (hr.ring h hh).congr (fun x hx => hnext x ⟨h, hh, hx⟩) fun x hx => hprev x ⟨h, hh, hx⟩
  disjoint := hr.disjoint

/-- Only the lists of the headers count. -/
theorem congr_lists {Q' : α → List α} (hr : IsRings m H Q) (heq : ∀ h ∈ H, Q' h = Q h) :
    IsRings m H Q' where
  ring h hh := by
    rw [heq h hh]
    exact hr.ring h hh
  disjoint h hh h' hh' := by
    rw [heq h hh, heq h' hh']
    exact hr.disjoint h hh h' hh'

/-- A node is in one ring only. -/
theorem eq_of_mem (hr : IsRings m H Q) (hh : h ∈ H) (hh' : h' ∈ H) (hx : x ∈ h :: Q h)
    (hx' : x ∈ h' :: Q h') : h = h' := by
  by_contra hne
  exact hr.disjoint h hh h' hh' hne hx hx'

theorem next_prev (hr : IsRings m H Q) [DecidableEq α] (hq : Nodes H Q q) :
    Nodes H Q (m.prev q) ∧ m.next (m.prev q) = q := by
  obtain ⟨h, hh, hq⟩ := hq
  exact ⟨⟨h, hh, (hr.ring h hh).prev_mem hq⟩, (hr.ring h hh).next_prev hq⟩

theorem prev_next (hr : IsRings m H Q) (hq : Nodes H Q q) :
    Nodes H Q (m.next q) ∧ m.prev (m.next q) = q := by
  obtain ⟨h, hh, hq⟩ := hq
  obtain ⟨hmem, hprev⟩ := (hr.ring h hh).next_mem hq
  exact ⟨⟨h, hh, hmem⟩, hprev⟩

/-- The links lead from the headers to the nodes of the rings. -/
theorem nodes_iff (hr : IsRings m H Q) : Nodes H Q x ↔ ∃ h ∈ H, ∃ k, m.next^[k] h = x :=
  exists_congr fun h => and_congr_right fun hh => (hr.ring h hh).mem_iff_iterate

variable [DecidableEq α]

omit [DecidableEq α] in
theorem notMem_of_ne (hr : IsRings m H Q) (hh : h ∈ H) (hh' : h' ∈ H) (hx : x ∈ h :: Q h)
    (hne : h ≠ h') : x ∉ h' :: Q h' :=
  fun hx' => hne (hr.eq_of_mem hh hh' hx hx')

/-! ### Insertion -/

theorem mem_insertQue : x ∈ insertQue q n Q h ↔ (x = n ∧ q ∈ h :: Q h) ∨ x ∈ Q h := by
  rw [insertQue]
  split
  · rename_i hq
    rw [and_iff_left hq, mem_insertAt]
  · rename_i hq
    rw [iff_false_intro hq, and_false, false_or]

theorem mem_cons_insertQue :
    x ∈ h :: insertQue q n Q h ↔ (x = n ∧ q ∈ h :: Q h) ∨ x ∈ h :: Q h := by
  rw [List.mem_cons, mem_insertQue, List.mem_cons (a := x)]
  exact or_left_comm

theorem nodes_insertQue (hq : Nodes H Q q) : Nodes H (insertQue q n Q) x ↔ x = n ∨ Nodes H Q x := by
  constructor
  · rintro ⟨h, hh, hx⟩
    rcases mem_cons_insertQue.mp hx with ⟨heq, -⟩ | hx
    · exact .inl heq
    · exact .inr ⟨h, hh, hx⟩
  · rintro (rfl | ⟨h, hh, hx⟩)
    · obtain ⟨h, hh, hq⟩ := hq
      exact ⟨h, hh, mem_cons_insertQue.mpr (.inl ⟨rfl, hq⟩)⟩
    · exact ⟨h, hh, mem_cons_insertQue.mpr (.inr hx)⟩

theorem insert (hr : IsRings m H Q) (hq : Nodes H Q q) (hn : ¬Nodes H Q n) :
    IsRings (m.insert q n) H (insertQue q n Q) := by
  obtain ⟨h₀, hh₀, hq₀⟩ := hq
  refine ⟨fun h hh => ?_, fun h hh h' hh' hne x hx hx' => ?_⟩
  · have hn' : n ∉ h :: Q h := fun hmem => hn ⟨h, hh, hmem⟩
    rw [insertQue]
    split
    · rename_i hmem
      exact (hr.ring h hh).insert hmem hn'
    · -- the ring of another header
      rename_i hmem
      have hne : h₀ ≠ h := by
        rintro rfl
        exact hmem hq₀
      have hprev := hr.notMem_of_ne hh₀ hh ((hr.ring h₀ hh₀).prev_mem hq₀) hne
      refine (hr.ring h hh).congr (fun x hx => ?_) fun x hx => ?_
      · rw [Links.next_insert, if_neg (ne_of_mem_of_not_mem hx hprev),
          if_neg (ne_of_mem_of_not_mem hx hn')]
      · rw [Links.prev_insert, if_neg (ne_of_mem_of_not_mem hx hmem),
          if_neg (ne_of_mem_of_not_mem hx hn')]
  · rcases mem_cons_insertQue.mp hx with ⟨rfl, hq⟩ | hold
    · rcases mem_cons_insertQue.mp hx' with ⟨-, hq'⟩ | hold'
      · exact hne (hr.eq_of_mem hh hh' hq hq')
      · exact hn ⟨h', hh', hold'⟩
    · rcases mem_cons_insertQue.mp hx' with ⟨rfl, -⟩ | hold'
      · exact hn ⟨h, hh, hold⟩
      · exact hne (hr.eq_of_mem hh hh' hold hold')

/-! ### Removal -/

theorem mem_removeQue (hr : IsRing m h (Q h)) (hn : n ≠ h) :
    x ∈ h :: removeQue n Q h ↔ x ≠ n ∧ x ∈ h :: Q h := by
  have hnodup := (List.nodup_cons.mp hr.nodup).2
  rw [removeQue, List.mem_cons, hnodup.mem_erase_iff, List.mem_cons]
  constructor
  · rintro (rfl | hx)
    · exact ⟨hn.symm, .inl rfl⟩
    · exact ⟨hx.1, .inr hx.2⟩
  · rintro ⟨hne, rfl | hx⟩
    · exact .inl rfl
    · exact .inr ⟨hne, hx⟩

theorem nodes_removeQue (hr : IsRings m H Q) (hn : n ∉ H) :
    Nodes H (removeQue n Q) x ↔ x ≠ n ∧ Nodes H Q x := by
  constructor
  · rintro ⟨h, hh, hx⟩
    obtain ⟨hne, hx⟩ :=
      (mem_removeQue (hr.ring h hh) (ne_of_mem_of_not_mem hh hn).symm).mp hx
    exact ⟨hne, h, hh, hx⟩
  · rintro ⟨hne, h, hh, hx⟩
    exact ⟨h, hh, (mem_removeQue (hr.ring h hh) (ne_of_mem_of_not_mem hh hn).symm).mpr ⟨hne, hx⟩⟩

theorem unlink (hr : IsRings m H Q) (hn : Nodes H Q n) (hH : n ∉ H) :
    IsRings (m.unlink n) H (removeQue n Q) := by
  obtain ⟨h₀, hh₀, hn₀⟩ := hn
  refine ⟨fun h hh => ?_, fun h hh h' hh' hne x hx hx' => ?_⟩
  · have hnh : n ≠ h := (ne_of_mem_of_not_mem hh hH).symm
    by_cases hmem : n ∈ Q h
    · exact (hr.ring h hh).unlink hmem
    · have hnot : n ∉ h :: Q h := fun hin => (List.mem_cons.mp hin).elim hnh hmem
      have hne : h₀ ≠ h := by
        rintro rfl
        exact hnot hn₀
      have hprev := hr.notMem_of_ne hh₀ hh ((hr.ring h₀ hh₀).prev_mem hn₀) hne
      have hnext := hr.notMem_of_ne hh₀ hh ((hr.ring h₀ hh₀).next_mem hn₀).1 hne
      rw [removeQue, List.erase_of_not_mem hmem]
      refine (hr.ring h hh).congr (fun x hx => ?_) fun x hx => ?_
      · rw [Links.next_unlink, if_neg (ne_of_mem_of_not_mem hx hprev)]
      · rw [Links.prev_unlink, if_neg (ne_of_mem_of_not_mem hx hnext)]
  · have hx := ((mem_removeQue (hr.ring h hh) (ne_of_mem_of_not_mem hh hH).symm).mp hx).2
    have hx' := ((mem_removeQue (hr.ring h' hh') (ne_of_mem_of_not_mem hh' hH).symm).mp hx').2
    exact hne (hr.eq_of_mem hh hh' hx hx')

/-- A node outside the rings may get any links. -/
theorem init (hr : IsRings m H Q) (hn : ¬Nodes H Q n) : IsRings (m.init n) H Q := by
  have hne : ∀ x, Nodes H Q x → x ≠ n := by
    rintro x hx rfl
    exact hn hx
  refine hr.congr (fun x hx => ?_) fun x hx => ?_
  · rw [Links.next_init, if_neg (hne x hx)]
  · rw [Links.prev_init, if_neg (hne x hx)]

/-- A node is taken out of its ring, or out of none if it is linked to itself. -/
theorem remove (hr : IsRings m H Q) (hH : n ∉ H)
    (hn : Nodes H Q n ∨ m.Alone n) :
    IsRings ((m.unlink n).init n) H (removeQue n Q) := by
  have hnot : ¬Nodes H (removeQue n Q) n := fun hmem => ((hr.nodes_removeQue hH).mp hmem).1 rfl
  refine IsRings.init ?_ hnot
  by_cases hmem : Nodes H Q n
  · exact hr.unlink hmem hH
  · obtain ⟨hnext, hprev⟩ := hn.resolve_left hmem
    have hne : ∀ x, Nodes H Q x → x ≠ n := by
      rintro x hx rfl
      exact hmem hx
    refine (hr.congr (fun x hx => ?_) fun x hx => ?_).congr_lists fun h hh => ?_
    · rw [Links.next_unlink, hprev, if_neg (hne x hx)]
    · rw [Links.prev_unlink, hnext, if_neg (hne x hx)]
    · exact List.erase_of_not_mem fun hin => hmem ⟨h, hh, List.mem_cons_of_mem h hin⟩

/-! ### Nodes in no ring -/

theorem alone_init (m : Links α) (n : α) : (m.init n).Alone n := by
  rw [Links.Alone, Links.next_init, Links.prev_init, if_pos rfl, if_pos rfl]
  exact ⟨rfl, rfl⟩

theorem alone_init_of_ne (hx : m.Alone x) (hne : x ≠ n) : (m.init n).Alone x := by
  rw [Links.Alone, Links.next_init, Links.prev_init, if_neg hne, if_neg hne]
  exact hx

theorem alone_insert (hr : IsRings m H Q) (hq : Nodes H Q q) (hx : m.Alone x)
    (hmem : ¬Nodes H Q x) (hne : x ≠ n) : (m.insert q n).Alone x := by
  have hxq : x ≠ q := by
    rintro rfl
    exact hmem hq
  have hxp : x ≠ m.prev q := by
    rintro rfl
    exact hmem (hr.next_prev hq).1
  rw [Links.Alone, Links.next_insert, Links.prev_insert, if_neg hxp, if_neg hne, if_neg hxq,
    if_neg hne]
  exact hx

theorem alone_remove (hr : IsRings m H Q) (hn : Nodes H Q n ∨ m.Alone n) (hx : m.Alone x)
    (hmem : ¬Nodes H Q x) : ((m.unlink n).init n).Alone x := by
  by_cases hne : x = n
  · rw [hne]
    exact alone_init _ n
  · refine alone_init_of_ne ?_ hne
    have hxp : x ≠ m.prev n := by
      rintro rfl
      rcases hn with hn | hn
      · exact hmem (hr.next_prev hn).1
      · exact hne hn.2
    have hxs : x ≠ m.next n := by
      rintro rfl
      rcases hn with hn | hn
      · exact hmem (hr.prev_next hn).1
      · exact hne hn.1
    rw [Links.Alone, Links.next_unlink, Links.prev_unlink, if_neg hxp, if_neg hxs]
    exact hx

end IsRings

end Ring
