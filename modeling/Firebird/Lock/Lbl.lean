import Mathlib.Data.List.Basic
import Mathlib.Data.List.Nodup
import Mathlib.Data.List.Pairwise
import Mathlib.Logic.Function.Basic
import Mathlib.Tactic.Linarith

/-! # Lock blocks (`lock/lock.cpp`)

A lock block keeps the queue of its requests, granted and waiting, the number of
requests in each state, its own state and the number of pending requests. This
module has what the lock manager does to one lock block.
-/

namespace Firebird.Lock

/-! ## Lock states -/

/-- `LCK_none` … `LCK_EX`, in this order. -/
inductive Lck where
  | none
  | null
  | SR
  | PR
  | SW
  | PW
  | EX
deriving DecidableEq, Repr

namespace Lck

/-- The number of a state. -/
def toNat : Lck → ℕ
  | none => 0
  | null => 1
  | SR => 2
  | PR => 3
  | SW => 4
  | PW => 5
  | EX => 6

/-- `MAX(a, b)` -/
def max (a b : Lck) : Lck := if b.toNat < a.toNat then a else b

end Lck

/-- The rows of `compatibility`. -/
def compatibility : Lck → List Bool
  | .none => [true, true, true, true, true, true, true]
  | .null => [true, true, true, true, true, true, true]
  | .SR => [true, true, true, true, true, true, false]
  | .PR => [true, true, true, true, false, false, false]
  | .SW => [true, true, true, false, true, false, false]
  | .PW => [true, true, true, false, false, false, false]
  | .EX => [true, true, false, false, false, false, false]

/-- `COMPATIBLE(st1, st2)` -/
def compatible (st1 st2 : Lck) : Bool := (compatibility st1).getD st2.toNat false

theorem compatible_comm (a b : Lck) : compatible a b = compatible b a := by
  cases a <;> cases b <;> rfl

@[simp] theorem compatible_none_left (a : Lck) : compatible .none a = true := by cases a <;> rfl

@[simp] theorem compatible_none_right (a : Lck) : compatible a .none = true := by cases a <;> rfl

@[simp] theorem compatible_null_left (a : Lck) : compatible .null a = true := by cases a <;> rfl

theorem eq_none_of_toNat_le {a : Lck} (h : a.toNat ≤ 0) : a = .none := by
  cases a <;> simp [Lck.toNat] at h ⊢

/-- What is compatible with a state is compatible with every lower one, but for
protected read below shared write. -/
theorem compatible_of_le {a b : Lck} (s : Lck) (h : a.toNat ≤ b.toNat)
    (hne : ¬(a = .PR ∧ b = .SW)) (hs : compatible s b) : compatible s a := by
  cases a <;> cases b <;> cases s <;> simp_all [Lck.toNat, compatible, compatibility]

/-! ## Requests and lock blocks -/

/-- A request block, at the address `ptr`: `lrq_owner`, `lrq_state`, `lrq_requested`,
and the flags `LRQ_pending` and `LRQ_rejected`. -/
structure Lrq where
  ptr : ℕ
  owner : ℕ
  state : Lck
  requested : Lck
  pending : Bool
  rejected : Bool
deriving DecidableEq, Repr

/-- `lbl_parent`, `lbl_series` and `lbl_key`. -/
structure Key where
  parent : ℕ
  series : ℕ
  value : List UInt8
deriving DecidableEq, Repr

/-- A lock block: the queue `lbl_requests`, `lbl_counts`, `lbl_state` and
`lbl_pending_lrq_count`. -/
structure Lbl where
  key : Key
  requests : List Lrq
  counts : Lck → UInt16
  state : Lck
  pendingCount : UInt16

/-- `++lock->lbl_counts[s]` -/
def incr (counts : Lck → UInt16) (s : Lck) : Lck → UInt16 :=
  Function.update counts s (counts s + 1)

/-- `--lock->lbl_counts[s]` -/
def decr (counts : Lck → UInt16) (s : Lck) : Lck → UInt16 :=
  Function.update counts s (counts s - 1)

theorem incr_decr (counts : Lck → UInt16) (s : Lck) : incr (decr counts s) s = counts := by
  funext t
  by_cases h : t = s
  · subst h
    simp [incr, decr]
  · simp [incr, decr, h]

/-- `lock_state` -/
def lockState (counts : Lck → UInt16) : Lck :=
  if counts .EX ≠ 0 then .EX
  else if counts .PW ≠ 0 then .PW
  else if counts .SW ≠ 0 then .SW
  else if counts .PR ≠ 0 then .PR
  else if counts .SR ≠ 0 then .SR
  else if counts .null ≠ 0 then .null
  else .none

/-- The queue with a request block rewritten. -/
def setLrq (q : Lrq) (queue : List Lrq) : List Lrq :=
  queue.map fun r => if r.ptr = q.ptr then q else r

/-- The queue without a request. -/
def removeLrq (q : Lrq) (queue : List Lrq) : List Lrq := queue.filter fun r => r.ptr ≠ q.ptr

/-- Writes a request block. -/
def Lbl.put (l : Lbl) (q : Lrq) : Lbl := { l with requests := setLrq q l.requests }

/-- The request, once granted. -/
def Lrq.granted (q : Lrq) : Lrq := { q with state := q.requested, pending := false }

/-- `grant` -/
def Lbl.grant (l : Lbl) (q : Lrq) : Lbl :=
  let l := ({ l with counts := incr l.counts q.requested } : Lbl).put q.granted
  let l := { l with state := lockState l.counts }
  if q.pending then { l with pendingCount := l.pendingCount - 1 } else l

/-- The loop of `post_pending` over the rest of the queue. -/
def postPendingLoop (ordering : Bool) : List Lrq → Lbl → Lbl
  | [], l => l
  | q :: queue, l =>
      if !q.pending then postPendingLoop ordering queue l
      else if q.state ≠ .none then
        let l' := { l with counts := decr l.counts q.state }
        if compatible q.requested (lockState l'.counts) then
          postPendingLoop ordering queue (l'.grant q)
        else
          let l := { l' with counts := incr l'.counts q.state }
          if ordering then l else postPendingLoop ordering queue l
      else if compatible q.requested l.state then postPendingLoop ordering queue (l.grant q)
      else if ordering then l
      else postPendingLoop ordering queue l

/-- `post_pending` -/
def Lbl.postPending (ordering : Bool) (l : Lbl) : Lbl :=
  if l.pendingCount = 0 then l else postPendingLoop ordering l.requests l

/-- The request, once its owner waits for it. -/
def Lrq.waiting (q : Lrq) : Lrq := { q with pending := true, rejected := false }

/-- What `wait_for_request` does to the lock block before it goes to sleep. -/
def Lbl.waitForRequest (ordering : Bool) (l : Lbl) (q : Lrq) : Lbl :=
  let l := { l.put q.waiting with pendingCount := l.pendingCount + 1 }
  if ordering && q.state = .none then
    { l with requests := removeLrq q l.requests ++ [q.waiting] }
  else l

/-- Takes a pending request back from the queue of those that wait, as a timeout or a
deadlock does. -/
def Lbl.reject (l : Lbl) (q : Lrq) : Lbl :=
  { l.put { q with pending := false, rejected := true } with pendingCount := l.pendingCount - 1 }

/-- `release_request`; with no request left the block is not brought up to date. -/
def Lbl.releaseRequest (ordering : Bool) (l : Lbl) (q : Lrq) : Lbl :=
  let l := { l with requests := removeLrq q l.requests }
  let l := if q.pending then { l with pendingCount := l.pendingCount - 1 } else l
  if l.requests = [] then l
  else if q.state ≠ .none then
    let l := { l with counts := decr l.counts q.state }
    let l := if l.counts q.state = 0 then { l with state := lockState l.counts } else l
    l.postPending ordering
  else l.postPending ordering

/-- How `grant_or_que` and `convert` end: at once, or in `wait_for_request`. -/
inductive Reply where
  | granted
  | denied
  | waits
deriving DecidableEq, Repr

/-- `grant_or_que`; the request is at the end of the queue. -/
def Lbl.grantOrQue (ordering : Bool) (l : Lbl) (q : Lrq) (wait : Bool) : Reply × Lbl :=
  if compatible q.requested l.state && (!ordering || q.requested = .null || l.pendingCount = 0) then
    (.granted, (l.grant q).postPending ordering)
  else if wait then (.waits, l.waitForRequest ordering q)
  else (.denied, l.releaseRequest ordering q)

theorem Lbl.wait_of_grantOrQue {ordering : Bool} {l : Lbl} {q : Lrq} {wait : Bool}
    (h : (l.grantOrQue ordering q wait).1 = .waits) : wait = true := by
  rw [Lbl.grantOrQue] at h
  split at h
  · cases h
  · split at h
    · assumption
    · cases h

/-- `convert` -/
def Lbl.convert (ordering : Bool) (l : Lbl) (q : Lrq) (type : Lck) (wait : Bool) : Reply × Lbl :=
  let q := { q with requested := type }
  let l' := { l.put q with counts := decr l.counts q.state }
  if compatible type (lockState l'.counts) then
    (.granted, (l'.grant q).postPending ordering)
  else
    let l := { l' with counts := incr l'.counts q.state }
    if wait then (.waits, l.waitForRequest ordering q)
    else (.denied, l.put { q with requested := q.state })

/-- A denied conversion leaves the counts alone. -/
theorem Lbl.convert_eq_ite (ordering : Bool) (l : Lbl) (q : Lrq) (type : Lck) (wait : Bool) :
    l.convert ordering q type wait =
      if compatible type (lockState (decr l.counts q.state)) then
        (.granted, (({ l.put { q with requested := type } with
          counts := decr l.counts q.state } : Lbl).grant
            { q with requested := type }).postPending ordering)
      else if wait then
        (.waits, (l.put { q with requested := type }).waitForRequest ordering
          { q with requested := type })
      else (.denied, (l.put { q with requested := type }).put { q with requested := q.state }) := by
  rw [Lbl.convert]
  simp only [Lbl.put, incr_decr]

theorem Lbl.wait_of_convert {ordering : Bool} {l : Lbl} {q : Lrq} {type : Lck} {wait : Bool}
    (h : (l.convert ordering q type wait).1 = .waits) : wait = true := by
  rw [Lbl.convert_eq_ite] at h
  split at h
  · cases h
  · split at h
    · assumption
    · cases h

/-- The highest state requested by a pending request other than `q`. -/
def Lbl.pendingState (l : Lbl) (q : Lrq) : Lck :=
  (l.requests.filter fun r => r.pending && r.ptr ≠ q.ptr).foldl (fun s r => s.max r.requested) .none

/-- `for (state = …; state > LCK_none && !COMPATIBLE(pending_state, state); --state);` -/
def downgradeState (pendingState state : Lck) : Lck :=
  ([.EX, .PW, .SW, .PR, .SR, .null].find? fun s =>
    s.toNat ≤ state.toNat && compatible pendingState s).getD .none

end Firebird.Lock
