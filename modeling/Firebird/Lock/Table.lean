import Firebird.Lib.CycleSearch
import Firebird.Lib.Transition
import Firebird.Lock.Lbl

/-! # The lock table (`lock/lock.cpp`)

The lock blocks, the owners with the requests they hold and the one they wait for,
and the calls of the lock manager as steps from one table to the next. The waiting
of an owner spans several steps: the call that starts it, the steps of others, and
what its own thread does when it wakes up.
-/

namespace Firebird.Lock

open CycleSearch (Marks)

/-! ## Tables -/

/-- The address of a request, with that of its lock (`lrq_lock`). -/
structure Ref where
  lock : ℕ
  lrq : ℕ
deriving DecidableEq, Repr

/-- The call in which an owner waits: `grant_or_que` or `convert`. -/
inductive Call where
  | enq
  | convert
deriving DecidableEq, Repr

/-- An owner block: `own_requests` and `own_pending_request`, and the request its thread
is in `wait_for_request` for, up to the end of the clean-up that follows a rejection. -/
structure Own where
  requests : List Ref := []
  pendingRequest : Option Ref := none
  waiting : Option (Ref × Call) := none
deriving DecidableEq, Repr

/-- The request that the owner's thread waits for, or cleans up after. -/
def Own.awaits (o : Own) : Option Ref := o.waiting.map Prod.fst

/-- The lock table: the lock blocks allocated so far, those in `lhb_hash` and those in
`lhb_free_locks`, and the owners. -/
structure Table where
  lbl : ℕ → Lbl
  locks : List ℕ
  hash : List ℕ
  freeLocks : List ℕ
  own : ℕ → Own

/-- A lock block that is not in use yet. -/
def Lbl.empty : Lbl := ⟨⟨0, 0, []⟩, [], fun _ => 0, .none, 0⟩

/-- The table of `init_lock_table`. -/
def Table.empty : Table := ⟨fun _ => Lbl.empty, [], [], [], fun _ => {}⟩

/-- `get_request` -/
def Table.getRequest (t : Table) (r : Ref) : Option Lrq :=
  (t.lbl r.lock).requests.find? fun q => q.ptr = r.lrq

/-- Rewrites an owner block. -/
def Table.setOwn (t : Table) (owner : ℕ) (f : Own → Own) : Table :=
  { t with own := Function.update t.own owner (f (t.own owner)) }

/-- Rewrites a lock block; without a request it leaves the hash table for the free list. -/
def Table.store (t : Table) (b : ℕ) (l : Lbl) : Table :=
  let t := { t with lbl := Function.update t.lbl b l }
  if l.requests = [] then { t with hash := t.hash.erase b, freeLocks := t.freeLocks ++ [b] }
  else t

/-- The owner block while its thread waits for the request. -/
def Own.wait (r : Ref) (call : Call) (o : Own) : Own :=
  { o with pendingRequest := some r, waiting := some (r, call) }

/-- `insert_tail(&owner->own_requests, &request->lrq_own_requests)` -/
def Own.insert (r : Ref) (o : Own) : Own := { o with requests := o.requests ++ [r] }

/-- `remove_que(&request->lrq_own_requests)` -/
def Own.remove (r : Ref) (o : Own) : Own := { o with requests := o.requests.erase r }

section

variable (ordering : Bool) (t : Table)

/-- `release_request` -/
def Table.releaseRequest (r : Ref) (q : Lrq) : Table :=
  (t.setOwn q.owner (Own.remove r)).store r.lock ((t.lbl r.lock).releaseRequest ordering q)

/-- `find_lock` -/
def Table.findLock (key : Key) : Option ℕ := t.hash.find? fun b => (t.lbl b).key = key

/-- A lock block with its first request, for `LOCK_enq`. -/
def Lbl.alloc (key : Key) (q : Lrq) : Lbl :=
  ({ key, requests := [q], counts := fun _ => 0, state := q.requested, pendingCount := 0 } : Lbl).grant q

/-- The block of a request that `LOCK_enq` sets up. -/
def Lrq.enq (lrq owner : ℕ) (type : Lck) : Lrq := ⟨lrq, owner, .none, type, false, false⟩

/-- The owner block after `grant_or_que` for a new request. -/
def Own.enq (r : Ref) : Reply → Own → Own
  | .granted, o => o.insert r
  | .waits, o => (o.insert r).wait r .enq
  | .denied, o => o

/-- `LOCK_enq` on a lock that exists. -/
def Table.enqueue (owner b : ℕ) (q : Lrq) (wait : Bool) : Table :=
  let l := ({ t.lbl b with requests := (t.lbl b).requests ++ [q] } : Lbl).grantOrQue ordering q wait
  (t.setOwn owner (Own.enq ⟨b, q.ptr⟩ l.1)).store b l.2

/-- `LOCK_enq` on a new lock. -/
def Table.alloc (owner : ℕ) (key : Key) (q : Lrq) (b : ℕ) : Table :=
  { t.setOwn owner (Own.insert ⟨b, q.ptr⟩) with
    lbl := Function.update t.lbl b (Lbl.alloc key q)
    locks := t.locks.insert b
    hash := t.hash ++ [b]
    freeLocks := t.freeLocks.erase b }

/-- `LOCK_enq`: `lrq` is the request block taken from the free list or allocated, and
`lbl` the lock block if the lock is new. With a `prior_request` it comes after the
`LOCK_deq` of that request. -/
def Table.enq (owner : ℕ) (key : Key) (type : Lck) (wait : Bool) (lrq lbl : ℕ) : Option Table :=
  if ∃ b ∈ t.hash, ∃ r ∈ (t.lbl b).requests, r.ptr = lrq then none
  else if wait = true ∧ (t.own owner).waiting ≠ none then none
  else match t.findLock key with
    | some b => some (t.enqueue ordering owner b (Lrq.enq lrq owner type) wait)
    | none => if lbl ∈ t.hash then none else some (t.alloc owner key (Lrq.enq lrq owner type) lbl)

/-- The owner block after `convert`. -/
def Own.convert (r : Ref) : Reply → Own → Own
  | .waits, o => o.wait r .convert
  | _, o => o

/-- `LOCK_convert` -/
def Table.convert (r : Ref) (type : Lck) (wait : Bool) : Option Table :=
  match t.getRequest r with
  | none => none
  | some q =>
      if wait = true ∧ (t.own q.owner).waiting ≠ none then none
      else
        let l := (t.lbl r.lock).convert ordering q type wait
        some ((t.setOwn q.owner (Own.convert r l.1)).store r.lock l.2)

/-- `LOCK_deq`. Only a purge releases a request that its owner waits for. -/
def Table.deq (r : Ref) : Option Table :=
  match t.getRequest r with
  | none => none
  | some q => if (t.own q.owner).awaits = some r then none else some (t.releaseRequest ordering r q)

/-- `LOCK_downgrade` -/
def Table.downgrade (r : Ref) : Option Table :=
  match t.getRequest r with
  | none => none
  | some q =>
      let state := downgradeState ((t.lbl r.lock).pendingState q) q.state
      if state = .none ∨ state = .null then t.deq ordering r else t.convert ordering r state false

/-- The loop of `purge_owner` over the requests of the owner. -/
def Table.purgeLoop : List Ref → Table → Table
  | [], t => t
  | r :: rs, t =>
      match t.getRequest r with
      | some q => Table.purgeLoop rs (t.releaseRequest ordering r q)
      | none => Table.purgeLoop rs t

/-- `purge_owner`; the owner block goes back to the free list, and is set up again before
it is used again. -/
def Table.purgeOwner (owner : ℕ) : Table :=
  (Table.purgeLoop ordering (t.own owner).requests t).setOwn owner fun _ => {}

/-- A timeout: `wait_for_request` rejects the request of its own thread. -/
def Table.timeout (owner : ℕ) : Option Table :=
  match (t.own owner).waiting with
  | none => none
  | some (r, _) =>
      match t.getRequest r with
      | none => none
      | some q => if q.pending then some (t.store r.lock ((t.lbl r.lock).reject q)) else none

/-- `wait_for_request` returns: the request is no longer pending. If it is granted, so do
`grant_or_que` and `convert`. -/
def Table.wake (owner : ℕ) : Option Table :=
  match (t.own owner).waiting with
  | none => none
  | some (r, call) =>
      match t.getRequest r with
      | none => none
      | some q =>
          if q.pending then none
          else some (t.setOwn owner fun o => { o with
            pendingRequest := none
            waiting := if q.rejected then some (r, call) else none })

/-- The end of `grant_or_que` and of `convert` for a request that has been rejected. -/
def Table.cleanUp (owner : ℕ) : Option Table :=
  match (t.own owner).waiting with
  | none => none
  | some (r, call) =>
      match t.getRequest r with
      | none => none
      | some q =>
          if q.pending = true ∨ q.rejected = false ∨ (t.own owner).pendingRequest ≠ none then none
          else
            let t := t.setOwn owner fun o => { o with waiting := none }
            match call with
            | .enq => some (t.releaseRequest ordering r q)
            | .convert => some (t.store r.lock
                (((t.lbl r.lock).postPending ordering).put { q with requested := q.state }))

/-! ## Deadlock detection -/

/-- `conversion` in `deadlock_walk`: the request holds more than `LCK_null`. -/
def Lrq.conversion (q : Lrq) : Bool := Lck.null.toNat < q.state.toNat

/-- The request that the owner of `block` waits for; `busy` owners are those with
`OWN_signaled` or with blocks queued. -/
def Table.target (busy : ℕ → Bool) (block : Lrq) : Option Ref :=
  if busy block.owner then none
  else match (t.own block.owner).pendingRequest with
    | none => none
    | some r =>
        match t.getRequest r with
        | none => none
        | some target => if target.pending then some r else none

/-- Walks on from the request that an owner waits for, if there is one, and then goes on
with the rest of the queue. -/
def pursue (walk : Ref → Marks Ref → Option (Option Ref × Marks Ref))
    (next : Marks Ref → Option (Option Ref × Marks Ref)) (m : Marks Ref) :
    Option Ref → Option (Option Ref × Marks Ref)
  | none => next m
  | some target =>
      match walk target m with
      | some (none, m) => next m
      | victim => victim

/-- The loop of `deadlock_walk` over the rest of the queue of the request's lock. -/
def Table.deadlockLoop (busy : ℕ → Bool) (walk : Ref → Marks Ref → Option (Option Ref × Marks Ref))
    (request : Lrq) : List Lrq → Marks Ref → Option (Option Ref × Marks Ref)
  | [], m => some (none, m)
  | block :: queue, m =>
      let next := Table.deadlockLoop busy walk request queue
      if !ordering || request.conversion then
        if request.ptr = block.ptr then next m
        else if compatible request.requested block.state then next m
        else pursue walk next m (t.target busy block)
      else if request.ptr = block.ptr then some (none, m)
      else if compatible request.requested (block.state.max block.requested) then next m
      else pursue walk next m (t.target busy block)

/-- `deadlock_walk`: the request that is part of a deadlock, if one is found, and the
marks `LRQ_scanned` and `LRQ_deadlock`; `none` when the fuel runs out. -/
def Table.deadlockWalk (busy : ℕ → Bool) : ℕ → Ref → Marks Ref → Option (Option Ref × Marks Ref)
  | 0, _, _ => none
  | fuel + 1, r, m =>
      if r ∈ m.scanned then some (none, m)
      else if r ∈ m.path then some (some r, m)
      else match t.getRequest r with
        | none => none
        | some request =>
            match t.deadlockLoop ordering busy (Table.deadlockWalk busy fuel) request
                (t.lbl r.lock).requests ⟨m.scanned, r :: m.path⟩ with
            | some (none, m) => some (none, ⟨r :: m.scanned, m.path.erase r⟩)
            | victim => victim

/-- The addresses of the requests of all locks. -/
def Table.refs : List Ref :=
  t.hash.flatMap fun b => (t.lbl b).requests.map fun q => ⟨b, q.ptr⟩

/-- `deadlock_scan`, after `deadlock_clear`; no walk is deeper than there are requests. -/
def Table.deadlockScan (busy : ℕ → Bool) (r : Ref) : Option (Option Ref) :=
  (t.deadlockWalk ordering busy (t.refs.length + 1) r ⟨[], []⟩).map Prod.fst

/-- A deadlock scan of a waiting owner: the victim is rejected. -/
def Table.deadlock (owner : ℕ) (busy : ℕ → Bool) : Option Table :=
  match (t.own owner).waiting with
  | none => none
  | some (r, _) =>
      match t.getRequest r with
      | none => none
      | some request =>
          if request.pending then
            match t.deadlockScan ordering busy r with
            | some (some v) =>
                match t.getRequest v with
                | none => none
                | some q => some ((t.setOwn q.owner fun o => { o with pendingRequest := none }).store
                    v.lock ((t.lbl v.lock).reject q))
            | _ => none
          else none

/-! ## The step relation -/

/-- What happens to a lock table. -/
inductive Op where
  | enq (owner : ℕ) (key : Key) (type : Lck) (wait : Bool) (lrq lbl : ℕ)
  | convert (r : Ref) (type : Lck) (wait : Bool)
  | downgrade (r : Ref)
  | deq (r : Ref)
  | purgeOwner (owner : ℕ)
  | timeout (owner : ℕ)
  | deadlock (owner : ℕ) (busy : ℕ → Bool)
  | wake (owner : ℕ)
  | cleanUp (owner : ℕ)

/-- The table after an operation, if it can happen. -/
def Table.step : Op → Option Table
  | .enq owner key type wait lrq lbl => t.enq ordering owner key type wait lrq lbl
  | .convert r type wait => t.convert ordering r type wait
  | .downgrade r => t.downgrade ordering r
  | .deq r => t.deq ordering r
  | .purgeOwner owner => some (t.purgeOwner ordering owner)
  | .timeout owner => t.timeout owner
  | .deadlock owner busy => t.deadlock ordering owner busy
  | .wake owner => t.wake owner
  | .cleanUp owner => t.cleanUp ordering owner

end

/-- The lock manager under any number of owners, with `LOCK_ordering` on or off. -/
def lockManager (ordering : Bool) : Transition.System Table Op where
  init t := t = Table.empty
  step t op t' := t.step ordering op = some t'

/-- The table after these operations. -/
def Table.run (ordering : Bool) : List Op → Table → Option Table
  | [], t => some t
  | op :: ops, t => (t.step ordering op).bind (Table.run ordering ops)

theorem reachable_run {ordering : Bool} {ops : List Op} {t t' : Table}
    (h : Transition.Reachable (lockManager ordering) t) (hrun : t.run ordering ops = some t') :
    Transition.Reachable (lockManager ordering) t' := by
  induction ops generalizing t with
  | nil =>
      rw [Table.run, Option.some.injEq] at hrun
      exact hrun ▸ h
  | cons op ops ih =>
      rw [Table.run, Option.bind_eq_some_iff] at hrun
      obtain ⟨s, hstep, hrest⟩ := hrun
      exact ih (h.step hstep) hrest

/-! ## What the operations do -/

section

variable {ordering : Bool} {t t' : Table}

theorem enq_cases {owner : ℕ} {key : Key} {type : Lck} {wait : Bool} {lrq lbl : ℕ}
    (h : t.enq ordering owner key type wait lrq lbl = some t') :
    (∀ b ∈ t.hash, ∀ r ∈ (t.lbl b).requests, r.ptr ≠ lrq) ∧
      (wait = true → (t.own owner).waiting = none) ∧
      ((∃ b ∈ t.hash, t.findLock key = some b ∧
          t' = t.enqueue ordering owner b (Lrq.enq lrq owner type) wait) ∨
        (lbl ∉ t.hash ∧ t' = t.alloc owner key (Lrq.enq lrq owner type) lbl)) := by
  rw [Table.enq] at h
  split at h
  · cases h
  · rename_i hfresh
    split at h
    · cases h
    · rename_i hidle
      refine ⟨by simpa using hfresh, by simpa using hidle, ?_⟩
      split at h
      · rename_i b hfind
        exact .inl ⟨b, List.mem_of_find?_eq_some hfind, hfind, (Option.some.inj h).symm⟩
      · split at h
        · cases h
        · rename_i hlbl
          exact .inr ⟨hlbl, (Option.some.inj h).symm⟩

theorem convert_cases {r : Ref} {type : Lck} {wait : Bool}
    (h : t.convert ordering r type wait = some t') :
    ∃ q, t.getRequest r = some q ∧ (wait = true → (t.own q.owner).waiting = none) ∧
      t' = (t.setOwn q.owner (Own.convert r ((t.lbl r.lock).convert ordering q type wait).1)).store
        r.lock ((t.lbl r.lock).convert ordering q type wait).2 := by
  rw [Table.convert] at h
  split at h
  · cases h
  · rename_i q hq
    split at h
    · cases h
    · rename_i hidle
      exact ⟨q, hq, by simpa using hidle, (Option.some.inj h).symm⟩

theorem deq_cases {r : Ref} (h : t.deq ordering r = some t') :
    ∃ q, t.getRequest r = some q ∧ (t.own q.owner).awaits ≠ some r ∧
      t' = t.releaseRequest ordering r q := by
  rw [Table.deq] at h
  split at h
  · cases h
  · rename_i q hq
    split at h
    · cases h
    · rename_i hawaited
      exact ⟨q, hq, hawaited, (Option.some.inj h).symm⟩

theorem downgrade_cases {r : Ref} (h : t.downgrade ordering r = some t') :
    t.deq ordering r = some t' ∨ ∃ q, t.getRequest r = some q ∧
      t.convert ordering r (downgradeState ((t.lbl r.lock).pendingState q) q.state) false =
        some t' := by
  rw [Table.downgrade] at h
  split at h
  · cases h
  · rename_i q hq
    dsimp only at h
    split at h
    · exact .inl h
    · exact .inr ⟨q, hq, h⟩

theorem timeout_cases {owner : ℕ} (h : t.timeout owner = some t') :
    ∃ r q, t.getRequest r = some q ∧ q.pending = true ∧
      t' = t.store r.lock ((t.lbl r.lock).reject q) := by
  rw [Table.timeout] at h
  split at h
  · cases h
  · rename_i r call hwaiting
    split at h
    · cases h
    · rename_i q hq
      split at h
      · rename_i hpending
        exact ⟨r, q, hq, hpending, (Option.some.inj h).symm⟩
      · cases h

theorem wake_cases {owner : ℕ} (h : t.wake owner = some t') :
    ∃ r call q, (t.own owner).waiting = some (r, call) ∧ t.getRequest r = some q ∧
      q.pending = false ∧ t' = t.setOwn owner fun o => { o with
        pendingRequest := none
        waiting := if q.rejected then some (r, call) else none } := by
  rw [Table.wake] at h
  split at h
  · cases h
  · rename_i r call hwaiting
    split at h
    · cases h
    · rename_i q hq
      split at h
      · cases h
      · rename_i hpending
        exact ⟨r, call, q, hwaiting, hq, by simpa using hpending, (Option.some.inj h).symm⟩

theorem cleanUp_cases {owner : ℕ} (h : t.cleanUp ordering owner = some t') :
    ∃ r call q, (t.own owner).waiting = some (r, call) ∧ t.getRequest r = some q ∧
      q.pending = false ∧ q.rejected = true ∧ (t.own owner).pendingRequest = none ∧
      ((call = .enq ∧
          t' = (t.setOwn owner fun o => { o with waiting := none }).releaseRequest ordering r q) ∨
        (call = .convert ∧ t' = (t.setOwn owner fun o => { o with waiting := none }).store r.lock
          (((t.lbl r.lock).postPending ordering).put { q with requested := q.state }))) := by
  rw [Table.cleanUp] at h
  split at h
  · cases h
  · rename_i r call hwaiting
    split at h
    · cases h
    · rename_i q hq
      split at h
      · cases h
      · rename_i hguard
        simp only [not_or, Bool.not_eq_true, Bool.not_eq_false, not_not] at hguard
        obtain ⟨hpending, hrejected, hpr⟩ := hguard
        refine ⟨r, call, q, hwaiting, hq, hpending, hrejected, hpr, ?_⟩
        cases call with
        | enq => exact .inl ⟨rfl, (Option.some.inj h).symm⟩
        | convert => exact .inr ⟨rfl, (Option.some.inj h).symm⟩

/-- A pending request. -/
def Table.Pending (t : Table) (r : Ref) : Prop := ∃ q, t.getRequest r = some q ∧ q.pending = true

theorem pending_of_target {busy : ℕ → Bool} {block : Lrq} {r : Ref}
    (h : t.target busy block = some r) : t.Pending r := by
  rw [Table.target] at h
  split at h
  · cases h
  · split at h
    · cases h
    · rename_i s _
      split at h
      · cases h
      · rename_i q hq
        split at h
        · rename_i hpending
          obtain rfl := Option.some.inj h
          exact ⟨q, hq, hpending⟩
        · cases h

theorem deadlockLoop_victim {busy : ℕ → Bool}
    {walk : Ref → Marks Ref → Option (Option Ref × Marks Ref)} {request : Lrq}
    (hwalk : ∀ r m v m', t.Pending r → walk r m = some (some v, m') → t.Pending v)
    {queue : List Lrq} {m m' : Marks Ref} {v : Ref}
    (h : t.deadlockLoop ordering busy walk request queue m = some (some v, m')) : t.Pending v := by
  induction queue generalizing m with
  | nil => cases h
  | cons block queue ih =>
      have hpursue : pursue walk (t.deadlockLoop ordering busy walk request queue) m
          (t.target busy block) = some (some v, m') → t.Pending v := by
        intro h
        cases htarget : t.target busy block with
        | none =>
            rw [htarget] at h
            exact ih h
        | some target =>
            rw [htarget, pursue] at h
            split at h
            · exact ih h
            · exact hwalk target m v m' (pending_of_target htarget) h
      rw [Table.deadlockLoop] at h
      split at h
      · split at h
        · exact ih h
        · split at h
          · exact ih h
          · exact hpursue h
      · split at h
        · cases h
        · split at h
          · exact ih h
          · exact hpursue h

/-- The victim of a deadlock scan is a pending request. -/
theorem deadlockWalk_victim {busy : ℕ → Bool} {fuel : ℕ} {r v : Ref} {m m' : Marks Ref}
    (hr : t.Pending r) (h : t.deadlockWalk ordering busy fuel r m = some (some v, m')) :
    t.Pending v := by
  induction fuel generalizing r m m' v with
  | zero => cases h
  | succ fuel ih =>
      rw [Table.deadlockWalk] at h
      split at h
      · cases h
      · split at h
        · simp only [Option.some.injEq, Prod.mk.injEq] at h
          exact h.1 ▸ hr
        · split at h
          · cases h
          · split at h
            · cases h
            · exact deadlockLoop_victim (fun r m v m' hr hv => ih hr hv) h

theorem deadlock_cases {owner : ℕ} {busy : ℕ → Bool} (h : t.deadlock ordering owner busy = some t') :
    ∃ r q, t.getRequest r = some q ∧ q.pending = true ∧
      t' = (t.setOwn q.owner fun o => { o with pendingRequest := none }).store r.lock
        ((t.lbl r.lock).reject q) := by
  rw [Table.deadlock] at h
  split at h
  · cases h
  · rename_i r call hwaiting
    split at h
    · cases h
    · rename_i request hrequest
      split at h
      · rename_i hpending
        split at h
        · rename_i v hscan
          rw [Table.deadlockScan, Option.map_eq_some_iff] at hscan
          obtain ⟨⟨w, m⟩, hwalk, rfl⟩ := hscan
          obtain ⟨q, hq, hqp⟩ := deadlockWalk_victim ⟨request, hrequest, hpending⟩ hwalk
          rw [hq] at h
          exact ⟨v, q, hq, hqp, (Option.some.inj h).symm⟩
        · cases h
      · cases h

end

end Firebird.Lock
