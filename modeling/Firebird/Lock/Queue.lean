import Mathlib.Data.List.Forall2
import Firebird.Lock.Lbl

/-! # The queue of a lock

What the lock manager is for, without counts: a lock is the queue of its requests,
and a request may hold a state that is compatible with the states of all others.
-/

namespace Firebird.Lock

/-- The state is compatible with the states of these requests. -/
def Admits (queue : List Lrq) (s : Lck) : Prop := ∀ r ∈ queue, compatible s r.state

instance (queue : List Lrq) (s : Lck) : Decidable (Admits queue s) := by
  unfold Admits
  infer_instance

namespace Queue

variable (ordering : Bool)

/-- One pass over the rest of the queue: every pending request that can be granted is,
and with ordering the pass ends at the first one that cannot. -/
def pass : List Lrq → List Lrq → List Lrq
  | done, [] => done
  | done, q :: queue =>
      if q.pending then
        if Admits (done ++ queue) q.requested then pass (done ++ [q.granted]) queue
        else if ordering then done ++ q :: queue
        else pass (done ++ [q]) queue
      else pass (done ++ [q]) queue

/-- `post_pending` -/
def postPending (queue : List Lrq) : List Lrq := pass ordering [] queue

/-- `wait_for_request` -/
def waitForRequest (q : Lrq) (queue : List Lrq) : List Lrq :=
  if ordering ∧ q.state = .none then removeLrq q queue ++ [q.waiting] else setLrq q.waiting queue

/-- `release_request` -/
def releaseRequest (q : Lrq) (queue : List Lrq) : List Lrq :=
  postPending ordering (removeLrq q queue)

/-- `grant_or_que` -/
def grantOrQue (q : Lrq) (wait : Bool) (queue : List Lrq) : Reply × List Lrq :=
  if Admits (removeLrq q queue) q.requested ∧
      (ordering = false ∨ q.requested = .null ∨ ∀ r ∈ queue, r.pending = false) then
    (.granted, postPending ordering (setLrq q.granted queue))
  else if wait then (.waits, waitForRequest ordering q queue)
  else (.denied, releaseRequest ordering q queue)

/-- `convert` -/
def convert (q : Lrq) (type : Lck) (wait : Bool) (queue : List Lrq) : Reply × List Lrq :=
  let q := { q with requested := type }
  if Admits (removeLrq q queue) type then
    (.granted, postPending ordering (setLrq q.granted queue))
  else if wait then (.waits, waitForRequest ordering q (setLrq q queue))
  else (.denied, setLrq { q with requested := q.state } queue)

end Queue

/-! ## The queue around a request -/

/-- No two requests at one address. -/
abbrev Distinct (queue : List Lrq) : Prop := (queue.map Lrq.ptr).Nodup

theorem Distinct.ne {pre post : List Lrq} {q : Lrq} (h : Distinct (pre ++ q :: post)) :
    ∀ r ∈ pre ++ post, r.ptr ≠ q.ptr := by
  intro r hr heq
  rw [Distinct, List.map_append, List.map_cons, List.nodup_middle, List.nodup_cons,
    ← List.map_append] at h
  exact h.1 (heq ▸ List.mem_map_of_mem hr)

theorem setLrq_of_ne {q : Lrq} {queue : List Lrq} (h : ∀ r ∈ queue, r.ptr ≠ q.ptr) :
    setLrq q queue = queue := by
  rw [setLrq, List.map_congr_left (fun r hr => if_neg (h r hr)), List.map_id']

theorem removeLrq_of_ne {q : Lrq} {queue : List Lrq} (h : ∀ r ∈ queue, r.ptr ≠ q.ptr) :
    removeLrq q queue = queue := List.filter_eq_self.mpr (by simpa using h)

theorem setLrq_setLrq {q q' : Lrq} (queue : List Lrq) (hp : q'.ptr = q.ptr) :
    setLrq q' (setLrq q queue) = setLrq q' queue := by
  rw [setLrq, setLrq, List.map_map, setLrq]
  refine List.map_congr_left fun r _ => ?_
  simp only [Function.comp_apply]
  split <;> simp_all

theorem setLrq_split {pre post : List Lrq} {q q' : Lrq} (h : Distinct (pre ++ q :: post))
    (hp : q'.ptr = q.ptr) : setLrq q' (pre ++ q :: post) = pre ++ q' :: post := by
  have hne := h.ne
  have hpre : setLrq q' pre = pre := setLrq_of_ne fun r hr => by
    rw [hp]
    exact hne r (List.mem_append_left _ hr)
  have hpost : setLrq q' post = post := setLrq_of_ne fun r hr => by
    rw [hp]
    exact hne r (List.mem_append_right _ hr)
  rw [setLrq, List.map_append, List.map_cons, ← setLrq, ← setLrq, hpre, hpost, if_pos hp.symm]

theorem removeLrq_split {pre post : List Lrq} {q q' : Lrq} (h : Distinct (pre ++ q :: post))
    (hp : q'.ptr = q.ptr) : removeLrq q' (pre ++ q :: post) = pre ++ post := by
  have hne := h.ne
  have hpre : removeLrq q' pre = pre := removeLrq_of_ne fun r hr => by
    rw [hp]
    exact hne r (List.mem_append_left _ hr)
  have hpost : removeLrq q' post = post := removeLrq_of_ne fun r hr => by
    rw [hp]
    exact hne r (List.mem_append_right _ hr)
  rw [removeLrq, List.filter_append, List.filter_cons_of_neg (by simp [hp]), ← removeLrq,
    ← removeLrq, hpre, hpost]

theorem Distinct.set {pre post : List Lrq} {q : Lrq} (h : Distinct (pre ++ q :: post)) (q' : Lrq)
    (hp : q'.ptr = q.ptr) : Distinct (pre ++ q' :: post) := by
  rw [Distinct, List.map_append, List.map_cons] at h ⊢
  rwa [hp]

theorem Distinct.remove {pre post : List Lrq} {q : Lrq} (h : Distinct (pre ++ q :: post)) :
    Distinct (pre ++ post) := by
  rw [Distinct, List.map_append] at h ⊢
  rw [List.map_cons, List.nodup_middle] at h
  exact (List.nodup_cons.mp h).2

/-! ## Compatible requests -/

/-- The states of these requests are compatible with each other. -/
def AllCompatible (queue : List Lrq) : Prop :=
  queue.Pairwise fun a b => compatible a.state b.state

theorem AllCompatible.of_mem {queue : List Lrq} (h : AllCompatible queue) {a b : Lrq}
    (ha : a ∈ queue) (hb : b ∈ queue) (hne : a ≠ b) : compatible a.state b.state := by
  have hsymm : Std.Symm fun a b : Lrq => compatible a.state b.state = true :=
    ⟨fun a b hab => by rwa [compatible_comm]⟩
  exact List.Pairwise.forall h ha hb hne

/-- A request in the queue against all others. -/
theorem allCompatible_split {pre post : List Lrq} {q : Lrq} :
    AllCompatible (pre ++ q :: post) ↔ AllCompatible (pre ++ post) ∧ Admits (pre ++ post) q.state := by
  rw [AllCompatible, List.pairwise_middle fun {a b} hab => by rwa [compatible_comm],
    List.pairwise_cons, and_comm]
  rfl

theorem admits_none (queue : List Lrq) : Admits queue .none := fun _ _ => compatible_none_left _

/-! ## What a pass does -/

/-- Some pending requests have been granted. -/
def Advanced (queue queue' : List Lrq) : Prop :=
  List.Forall₂ (fun r r' => r' = r ∨ (r.pending = true ∧ r' = r.granted)) queue queue'

theorem advanced_refl (queue : List Lrq) : Advanced queue queue :=
  List.forall₂_same.mpr fun _ _ => .inl rfl

theorem Advanced.map_ptr {queue queue' : List Lrq} (h : Advanced queue queue') :
    queue'.map Lrq.ptr = queue.map Lrq.ptr := by
  induction h with
  | nil => rfl
  | cons hr _ ih =>
      rw [List.map_cons, List.map_cons, ih]
      rcases hr with rfl | ⟨-, rfl⟩ <;> rfl

theorem pass_of_not_pending (ordering : Bool) {done queue : List Lrq}
    (h : ∀ r ∈ queue, r.pending = false) : Queue.pass ordering done queue = done ++ queue := by
  induction queue generalizing done with
  | nil => simp [Queue.pass]
  | cons q queue ih =>
      have hq : ¬q.pending = true := by simp [h q (by simp)]
      rw [Queue.pass, if_neg hq, ih fun r hr => h r (by simp [hr])]
      simp

end Firebird.Lock
