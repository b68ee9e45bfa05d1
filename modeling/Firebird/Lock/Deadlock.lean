import Firebird.Lock.Grantable

/-! # Deadlock detection

The walk of a deadlock scan is a depth-first search of the requests that wait, so it
returns and it finds a victim exactly when a cycle can be reached along the edges it
follows. These are the edges of the wait-for graph, unless a request behind a waiting
one blocks it, or a conversion between protected read and shared write waits before it.
-/

namespace Firebird.Lock

open CycleSearch (Marks visit visitAll ReachesCycle)
open Relation (ReflTransGen TransGen)
open Transition (Reachable)

variable {ordering : Bool} {t : Table} {busy : ℕ → Bool}

/-! ## The walk is a depth-first search -/

/-- The requests that the loop of `deadlock_walk` pursues. -/
def Table.pursued (ordering : Bool) (t : Table) (busy : ℕ → Bool) (request : Lrq) :
    List Lrq → List Ref
  | [] => []
  | block :: queue =>
      let next := Table.pursued ordering t busy request queue
      if !ordering || request.conversion then
        if request.ptr = block.ptr then next
        else if compatible request.requested block.state then next
        else (t.target busy block).toList ++ next
      else if request.ptr = block.ptr then []
      else if compatible request.requested (block.state.max block.requested) then next
      else (t.target busy block).toList ++ next

/-- The requests that the walk pursues from a request. -/
def Table.successors (ordering : Bool) (t : Table) (busy : ℕ → Bool) (r : Ref) : List Ref :=
  match t.getRequest r with
  | none => []
  | some request => t.pursued ordering busy request (t.lbl r.lock).requests

theorem deadlockLoop_eq {walk : Ref → Marks Ref → Option (Option Ref × Marks Ref)} {request : Lrq}
    {queue : List Lrq} {m : Marks Ref} :
    t.deadlockLoop ordering busy walk request queue m =
      visitAll walk (t.pursued ordering busy request queue) m := by
  induction queue generalizing m with
  | nil => rfl
  | cons block queue ih =>
      have hpursue : pursue walk (t.deadlockLoop ordering busy walk request queue) m (t.target busy block) =
          visitAll walk ((t.target busy block).toList ++ t.pursued ordering busy request queue) m := by
        cases t.target busy block with
        | none => exact ih
        | some target =>
            simp only [pursue, Option.toList_some, List.singleton_append, visitAll, ih]
            rcases walk target m with _ | ⟨_ | v, m'⟩ <;> rfl
      rw [Table.deadlockLoop, Table.pursued]
      split_ifs
      · exact ih
      · exact ih
      · exact hpursue
      · rfl
      · exact ih
      · exact hpursue

theorem pending_of_pursued {request : Lrq} {queue : List Lrq} {r : Ref}
    (h : r ∈ t.pursued ordering busy request queue) : t.Pending r := by
  induction queue with
  | nil => cases h
  | cons block queue ih =>
      have hpursue : r ∈ (t.target busy block).toList ++ t.pursued ordering busy request queue →
          t.Pending r := by
        intro h
        rcases List.mem_append.mp h with h | h
        · exact pending_of_target (Option.mem_toList.mp h)
        · exact ih h
      rw [Table.pursued] at h
      split_ifs at h
      · exact ih h
      · exact ih h
      · exact hpursue h
      · cases h
      · exact ih h
      · exact hpursue h

theorem pending_of_successors {r s : Ref} (h : s ∈ t.successors ordering busy r) : t.Pending s := by
  rw [Table.successors] at h
  split at h
  · cases h
  · exact pending_of_pursued h

theorem visitAll_congr {f g : Ref → Marks Ref → Option (Option Ref × Marks Ref)} {xs : List Ref}
    (h : ∀ x ∈ xs, f x = g x) (m : Marks Ref) : visitAll f xs m = visitAll g xs m := by
  induction xs generalizing m with
  | nil => rfl
  | cons x xs ih =>
      have hrest := ih fun y hy => h y (List.mem_cons_of_mem _ hy)
      rw [visitAll, visitAll, h x List.mem_cons_self]
      split
      · exact hrest _
      · rfl

theorem deadlockWalk_eq {fuel : ℕ} {r : Ref} (hr : t.Pending r) :
    t.deadlockWalk ordering busy fuel r = visit (t.successors ordering busy) fuel r := by
  induction fuel generalizing r with
  | zero => rfl
  | succ fuel ih =>
      funext m
      obtain ⟨q, hget, -⟩ := hr
      have hsucc : t.successors ordering busy r =
          t.pursued ordering busy q (t.lbl r.lock).requests := by
        rw [Table.successors, hget]
      rw [Table.deadlockWalk, visit, hget, hsucc]
      dsimp only
      rw [deadlockLoop_eq, @visitAll_congr _ (visit (t.successors ordering busy) fuel) _ fun s hs =>
        ih (pending_of_pursued hs)]
      rcases visitAll _ (t.pursued ordering busy q (t.lbl r.lock).requests) _ with _ | ⟨_ | v, m'⟩ <;> rfl

theorem Sound.mem_refs (h : Sound t) {r : Ref} {q : Lrq} (hget : t.getRequest r = some q) :
    r ∈ t.refs := by
  obtain ⟨hq, hr⟩ := mem_of_getRequest hget
  refine List.mem_flatMap.mpr ⟨r.lock, h.mem_hash hq, List.mem_map.mpr ⟨q, hq, hr.symm⟩⟩

/-- A deadlock scan returns, and it finds a victim exactly when a cycle can be reached
along the edges that the walk follows. -/
theorem deadlockScan_spec (h : Sound t) {r : Ref} (hr : t.Pending r) :
    ∃ v, t.deadlockScan ordering busy r = some v ∧
      (v.isSome ↔ ReachesCycle (t.successors ordering busy) r) := by
  have hmem : ∀ s, t.Pending s → s ∈ t.refs := fun s ⟨_, hget, _⟩ => h.mem_refs hget
  obtain ⟨v, m, hvisit, hcycle⟩ := @CycleSearch.visit_isSome_iff _ _
    (t.successors ordering busy) t.refs
    (fun x _ s hs => hmem s (pending_of_successors hs)) r (hmem r hr) _ (Nat.lt_succ_self _)
  refine ⟨v, ?_, hcycle⟩
  rw [Table.deadlockScan, deadlockWalk_eq hr, hvisit]
  rfl

/-! ## The wait-for graph -/

/-- The request `s` is what the owner waits for. -/
def Table.PendingOf (t : Table) (owner : ℕ) (s : Ref) : Prop :=
  ∃ q, t.getRequest s = some q ∧ q.pending = true ∧ q.owner = owner

/-- `post_pending` cannot grant `p`, behind `pre` in the queue, before the owner of `q` acts. -/
def Hinders (ordering : Bool) (pre : List Lrq) (p q : Lrq) : Prop :=
  compatible p.requested q.state = false ∨
    (ordering = true ∧ p.conversion = false ∧ q ∈ pre ∧ q.pending = true ∧
      compatible p.requested q.requested = false)

/-- A pending request waits for the pending request of an owner that hinders it. -/
def WaitsFor (ordering : Bool) (t : Table) (r s : Ref) : Prop :=
  ∃ pre p post q, (t.lbl r.lock).requests = pre ++ p :: post ∧ p.ptr = r.lrq ∧ p.pending = true ∧
    q ∈ pre ++ post ∧ Hinders ordering pre p q ∧ t.PendingOf q.owner s

/-- A cycle of the wait-for graph can be reached. -/
def Deadlocked (ordering : Bool) (t : Table) (r : Ref) : Prop :=
  ∃ c, ReflTransGen (WaitsFor ordering t) r c ∧ TransGen (WaitsFor ordering t) c c

/-- With ordering, a request that waits and is no conversion is not hindered by a waiting
owner's request behind it, and does not ask for shared write behind a conversion between
protected read and shared write. -/
def WalkSees (ordering : Bool) (t : Table) : Prop :=
  ordering = true → ∀ b pre p post, (t.lbl b).requests = pre ++ p :: post → p.pending = true →
    p.conversion = false →
      (∀ q ∈ post, (∃ s, t.PendingOf q.owner s) → compatible p.requested q.state = true) ∧
        ∀ q ∈ pre, q.pending = true → p.requested = .SW → ¬crosses q.state q.requested

/-- No owner is busy with its blocking ASTs. -/
def idle : ℕ → Bool := fun _ => false

theorem target_iff (h : Sound t) {q : Lrq} {s : Ref} :
    t.target idle q = some s ↔ t.PendingOf q.owner s := by
  constructor
  · intro htarget
    obtain ⟨p, hget, hp⟩ := pending_of_target htarget
    refine ⟨p, hget, hp, ?_⟩
    have hpr : (t.own q.owner).pendingRequest = some s := by
      rw [Table.target, if_neg (by simp [idle])] at htarget
      split at htarget
      · cases htarget
      · rename_i r hr
        rw [hr]
        split at htarget
        · cases htarget
        · split at htarget
          · exact htarget
          · cases htarget
    obtain ⟨hin, haw⟩ := (h.linked.own q.owner).2 trivial
    obtain ⟨p', hp', hptr, howner⟩ := h.linked.requests q.owner s (hin s (haw s hpr))
    have hget' := h.linked.getRequest hp'
    rw [hptr] at hget'
    obtain rfl := Option.some.inj (hget.symm.trans hget')
    exact howner
  · rintro ⟨p, hget, hp, howner⟩
    obtain ⟨hmem, hs⟩ := mem_of_getRequest hget
    have hpr := ((h.linked.good s.lock p hmem).pending trivial hp).1
    rw [← hs, howner] at hpr
    rw [Table.target, if_neg (by simp [idle]), hpr]
    simp only [hget, hp, if_true]

/-- The merged state decides as both states do. -/
theorem compatible_max {s a b : Lck} (h : ¬(s = .SW ∧ crosses a b)) :
    compatible s (a.max b) = true ↔ compatible s a = true ∧ compatible s b = true := by
  have hle : ∀ {a b : Lck}, a.toNat ≤ b.toNat → ¬(s = .SW ∧ crosses a b) → compatible s b = true →
      compatible s a = true := by
    intro a b hab hne hb
    by_cases hpr : a = .PR ∧ b = .SW
    · obtain ⟨rfl, rfl⟩ := hpr
      cases s <;> first | rfl | exact absurd hb (by decide) | exact absurd ⟨rfl, .inl ⟨rfl, rfl⟩⟩ hne
    · exact compatible_of_le s hab hpr hb
  rw [Lck.max]
  split
  · rename_i hlt
    refine ⟨fun ha => ⟨ha, hle (le_of_lt hlt) ?_ ha⟩, fun hab => hab.1⟩
    exact fun hcross => h ⟨hcross.1, hcross.2.symm.imp And.symm And.symm⟩
  · rename_i hlt
    exact ⟨fun hb => ⟨hle (not_lt.mp hlt) h hb, hb⟩, fun hab => hab.2⟩

theorem mem_pursued_conversion {p : Lrq} (hp : (!ordering || p.conversion) = true) {queue : List Lrq}
    {s : Ref} : s ∈ t.pursued ordering busy p queue ↔
      ∃ q ∈ queue, q.ptr ≠ p.ptr ∧ compatible p.requested q.state = false ∧ t.target busy q = some s := by
  induction queue with
  | nil => simp [Table.pursued]
  | cons block queue ih =>
      rw [Table.pursued, if_pos hp]
      split_ifs with hself hcomp
      · rw [ih]
        simp [hself]
      · rw [ih]
        simp [hcomp]
      · rw [List.mem_append, ih, Option.mem_toList]
        simp [hcomp, Ne.symm hself]

theorem mem_pursued_fair {p : Lrq} (hp : ¬(!ordering || p.conversion) = true) {pre post : List Lrq}
    (hne : ∀ q ∈ pre, q.ptr ≠ p.ptr) {s : Ref} :
    s ∈ t.pursued ordering busy p (pre ++ p :: post) ↔
      ∃ q ∈ pre, compatible p.requested (q.state.max q.requested) = false ∧ t.target busy q = some s := by
  induction pre with
  | nil => simp [Table.pursued, hp]
  | cons block pre ih =>
      have ih := ih fun q hq => hne q (List.mem_cons_of_mem _ hq)
      have hself : ¬p.ptr = block.ptr := fun heq => hne block List.mem_cons_self heq.symm
      rw [List.cons_append, Table.pursued, if_neg hp, if_neg hself]
      split_ifs with hcomp
      · rw [ih]
        simp [hcomp]
      · rw [List.mem_append, ih, Option.mem_toList]
        simp [hcomp]

/-- What the walk compares for a request before `p` is what hinders `p`. -/
theorem hinders_iff (h : Sound t) (hsees : WalkSees ordering t) {b : ℕ} {pre post : List Lrq} {p q : Lrq}
    (hsplit : (t.lbl b).requests = pre ++ p :: post) (hp : p.pending = true) (hord : ordering = true)
    (hconv : p.conversion = false) (hq : q ∈ pre) {s : Ref} (hs : t.PendingOf q.owner s) :
    compatible p.requested (q.state.max q.requested) = false ↔ Hinders ordering pre p q := by
  cases hpending : q.pending with
  | true =>
      have hmax := compatible_max (s := p.requested) (a := q.state) (b := q.requested) fun hcross =>
        (hsees hord b pre p post hsplit hp hconv).2 q hq hpending hcross.1 hcross.2
      rw [← Bool.not_eq_true, hmax, Hinders]
      constructor
      · intro hno
        by_cases hstate : compatible p.requested q.state = true
        · exact .inr ⟨hord, hconv, hq, hpending, by simpa [hstate] using hno⟩
        · exact .inl (by simpa using hstate)
      · rintro (hno | ⟨-, -, -, -, hno⟩) hboth
        · rw [hboth.1] at hno
          cases hno
        · rw [hboth.2] at hno
          cases hno
  | false =>
      -- the owner waits for another request, so this one is settled
      have hmem : q ∈ (t.lbl b).requests := by
        rw [hsplit]
        exact List.mem_append_left _ hq
      have hgood := h.linked.good b q hmem
      have hreq : q.requested = q.state := by
        refine (hgood.settled trivial hpending).resolve_right ?_
        rintro ⟨-, haw⟩
        obtain ⟨p', hget, hp', howner⟩ := hs
        obtain ⟨hmem', hs⟩ := mem_of_getRequest hget
        have haw' := ((h.linked.good s.lock p' hmem').pending trivial hp').2
        rw [howner, haw, ← hs, Option.some.injEq] at haw'
        rw [← haw', h.linked.getRequest hmem, Option.some.injEq] at hget
        rw [hget, hp'] at hpending
        cases hpending
      have hmax : q.state.max q.requested = q.state := by
        rw [hreq, Lck.max]
        split <;> rfl
      rw [hmax, Hinders, hpending]
      simp

/-- The walk pursues the edges of the wait-for graph. -/
theorem mem_pursued_iff (h : Sound t) (hsees : WalkSees ordering t) {b : ℕ} {pre post : List Lrq} {p : Lrq}
    (hsplit : (t.lbl b).requests = pre ++ p :: post) (hp : p.pending = true) {s : Ref} :
    s ∈ t.pursued ordering idle p (pre ++ p :: post) ↔
      ∃ q ∈ pre ++ post, Hinders ordering pre p q ∧ t.PendingOf q.owner s := by
  have hd := h.linked.distinct b
  rw [hsplit] at hd
  by_cases hconv : (!ordering || p.conversion) = true
  · rw [mem_pursued_conversion hconv]
    constructor
    · rintro ⟨q, hq, hne, hcomp, htarget⟩
      refine ⟨q, ?_, .inl hcomp, (target_iff h).mp htarget⟩
      rw [List.mem_append, List.mem_cons] at hq
      rw [List.mem_append]
      rcases hq with hq | rfl | hq
      · exact .inl hq
      · exact absurd rfl hne
      · exact .inr hq
    · rintro ⟨q, hq, hhinders, hs⟩
      have hcomp : compatible p.requested q.state = false := by
        rcases hhinders with hcomp | ⟨hord, hno, -⟩
        · exact hcomp
        · rw [hord, hno] at hconv
          cases hconv
      refine ⟨q, ?_, hd.ne q hq, hcomp, (target_iff h).mpr hs⟩
      rw [List.mem_append] at hq
      rw [List.mem_append, List.mem_cons]
      exact hq.imp_right .inr
  · have hord : ordering = true := by
      cases ordering with
      | true => rfl
      | false => exact absurd rfl hconv
    have hno : p.conversion = false := by
      cases hp' : p.conversion with
      | false => rfl
      | true => exact absurd (by simp [hp']) hconv
    rw [mem_pursued_fair hconv fun q hq => hd.ne q (List.mem_append_left _ hq)]
    constructor
    · rintro ⟨q, hq, hcomp, htarget⟩
      have hs := (target_iff h).mp htarget
      exact ⟨q, List.mem_append_left _ hq, (hinders_iff h hsees hsplit hp hord hno hq hs).mp hcomp, hs⟩
    · rintro ⟨q, hq, hhinders, hs⟩
      have hpre : q ∈ pre := by
        rcases List.mem_append.mp hq with hq | hq
        · exact hq
        · rcases hhinders with hcomp | ⟨-, -, hpre, -⟩
          · rw [(hsees hord b pre p post hsplit hp hno).1 q hq ⟨s, hs⟩] at hcomp
            cases hcomp
          · exact hpre
      exact ⟨q, hpre, (hinders_iff h hsees hsplit hp hord hno hpre hs).mpr hhinders, (target_iff h).mpr hs⟩

theorem successors_iff (h : Sound t) (hsees : WalkSees ordering t) {r s : Ref} (hr : t.Pending r) :
    s ∈ t.successors ordering idle r ↔ WaitsFor ordering t r s := by
  obtain ⟨p, hget, hp⟩ := hr
  obtain ⟨hmem, hptr⟩ := mem_of_getRequest hget
  have hsucc : t.successors ordering idle r = t.pursued ordering idle p (t.lbl r.lock).requests := by
    rw [Table.successors, hget]
  rw [hsucc]
  constructor
  · intro hs
    obtain ⟨pre, post, hsplit⟩ := List.append_of_mem hmem
    rw [hsplit] at hs
    obtain ⟨q, hq, hhinders, hpending⟩ := (mem_pursued_iff h hsees hsplit hp).mp hs
    exact ⟨pre, p, post, q, hsplit, (congrArg Ref.lrq hptr).symm, hp, hq, hhinders, hpending⟩
  · rintro ⟨pre, p', post, q, hsplit, hptr', -, hq, hhinders, hpending⟩
    have hmem' : p' ∈ (t.lbl r.lock).requests := by
      rw [hsplit]
      simp
    obtain rfl : p' = p := h.linked.eq_of_ptr hmem hmem' (hptr'.trans (congrArg Ref.lrq hptr))
    rw [hsplit]
    exact (mem_pursued_iff h hsees hsplit hp).mpr ⟨q, hq, hhinders, hpending⟩

theorem pending_of_waitsFor {r s : Ref} (h : WaitsFor ordering t r s) : t.Pending s := by
  obtain ⟨-, -, -, -, -, -, -, -, -, q, hget, hq, -⟩ := h
  exact ⟨q, hget, hq⟩

/-- From a pending request both graphs lead to the same requests. -/
theorem reachesCycle_iff (h : Sound t) (hsees : WalkSees ordering t) {r : Ref} (hr : t.Pending r) :
    ReachesCycle (t.successors ordering idle) r ↔ Deadlocked ordering t r := by
  constructor
  · exact CycleSearch.exists_cycle_of_agree (P := t.Pending) (S := WaitsFor ordering t)
      (fun a b ha hab => ⟨(successors_iff h hsees ha).mp hab, pending_of_successors hab⟩) hr
  · exact CycleSearch.exists_cycle_of_agree (P := t.Pending)
      (S := fun a b => b ∈ t.successors ordering idle a)
      (fun a b ha hab => ⟨(successors_iff h hsees ha).mpr hab, pending_of_waitsFor hab⟩) hr

/-! ## Main result -/

end Firebird.Lock
