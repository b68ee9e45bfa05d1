import Firebird.Lock.Consistent
import Firebird.Lock.Linked

/-! # Lock table safety

As long as no lock gets more than 65535 requests, every lock block in use is
consistent in every state the lock manager can reach, and the blocks without requests
are on the free list. With one request more the counts wrap.
-/

namespace Firebird.Lock

open Transition (Reachable System)

/-! ## Room for requests -/

/-- No `LOCK_enq` finds 65535 requests on the lock. -/
def Room (t : Table) : Op → Prop
  | .enq _ key _ _ _ _ => ∀ b, t.findLock key = some b → (t.lbl b).requests.length < 65535
  | _ => True

/-- The lock blocks with requests are consistent. -/
def Counts (t : Table) : Prop :=
  ∀ b, (t.lbl b).requests ≠ [] → Consistent (t.lbl b) ∧ (t.lbl b).requests.length ≤ 65535

variable {ordering : Bool} {t : Table}

theorem Counts.of_mem (h : Counts t) {b : ℕ} {q : Lrq} (hq : q ∈ (t.lbl b).requests) :
    Consistent (t.lbl b) ∧ (t.lbl b).requests.length ≤ 65535 := h b (List.ne_nil_of_mem hq)

theorem Counts.store (h : Counts t) {t' : Table} (ht : t'.lbl = t.lbl) {b : ℕ} {l : Lbl}
    (hl : l.requests ≠ [] → Consistent l ∧ l.requests.length ≤ 65535) : Counts (t'.store b l) := by
  intro b' hne
  by_cases hb : b' = b
  · subst hb
    rw [store_lbl_self] at hne ⊢
    exact hl hne
  · rw [store_lbl_ne _ _ _ hb, ht] at hne ⊢
    exact h b' hne

theorem Effect.length_le {queue queue' : List Lrq} {q : Lrq} {x : Option Lrq}
    (h : Effect queue q x queue') (hq : q ∈ queue) : queue'.length ≤ queue.length := by
  have hlt : (removeLrq q queue).length < queue.length := by
    rw [removeLrq, List.length_filter_lt_length_iff_exists]
    exact ⟨q, hq, by simp⟩
  have hx : x.toList.length ≤ 1 := by cases x <;> simp
  rw [h.length]
  omega

/-- A request in `LCK_none` joins the queue. -/
theorem Consistent.insert {l : Lbl} (h : Consistent l) {q : Lrq} (hstate : q.state = .none)
    (hpending : q.pending = false) (hfresh : ∀ r ∈ l.requests, r.ptr ≠ q.ptr) :
    Consistent { l with requests := l.requests ++ [q] } where
  distinct := by
    rw [Distinct, List.map_append]
    refine List.nodup_append.mpr ⟨h.distinct, List.nodup_singleton _, ?_⟩
    simpa using hfresh
  counted := (counted_none hstate).mpr (by simpa using h.counted)
  state_eq := h.state_eq
  pending_eq := by
    rw [pendings_split, hpending, List.append_nil]
    exact h.pending_eq
  compat := by
    refine allCompatible_split.mpr ⟨by simpa using h.compat, ?_⟩
    rw [hstate]
    exact admits_none _

theorem consistent_alloc (key : Key) {q : Lrq} (hpending : q.pending = false) :
    Consistent (Lbl.alloc key q) := by
  have htaken : Taken ⟨key, [q], fun _ => 0, q.requested, 0⟩ [] q [] := by
    refine ⟨rfl, List.nodup_singleton _, fun s _ => rfl, ?_, .nil⟩
    simp [pendings, hpending]
  exact (htaken.grant (by simp [Admits])).1

theorem Advanced.mem_of_not_pending {queue queue' : List Lrq} (h : Advanced queue queue') {q : Lrq}
    (hq : q ∈ queue) (hpending : q.pending = false) : q ∈ queue' := by
  induction h with
  | nil => exact hq
  | cons hr _ ih =>
      rcases List.mem_cons.mp hq with rfl | hq
      · rcases hr with rfl | ⟨hp, -⟩
        · exact List.mem_cons_self
        · rw [hpending] at hp
          cases hp
      · exact List.mem_cons_of_mem _ (ih hq)

/-! ## Every step -/

theorem Counts.releaseRequest (h : Counts t) {r : Ref} {q : Lrq} (hget : t.getRequest r = some q) :
    Counts (t.releaseRequest ordering r q) := by
  obtain ⟨hq, -⟩ := mem_of_getRequest hget
  obtain ⟨hcons, hlen⟩ := h.of_mem hq
  refine h.store (setOwn_lbl t _ _) fun hne => ⟨(releaseRequest_eq ordering hcons hq hlen).2 hne, ?_⟩
  exact ((releaseRequest_effect ordering hcons.distinct).length_le hq).trans hlen

theorem Counts.deq (h : Counts t) {t' : Table} {r : Ref} (hstep : t.deq ordering r = some t') :
    Counts t' := by
  obtain ⟨q, hget, -, rfl⟩ := deq_cases hstep
  exact h.releaseRequest hget

theorem Counts.convert (h : Counts t) (hs : Sound t) {t' : Table} {r : Ref} {type : Lck} {wait : Bool}
    (hstep : t.convert ordering r type wait = some t') : Counts t' := by
  obtain ⟨q, hget, hidle, rfl⟩ := convert_cases hstep
  obtain ⟨hq, -⟩ := mem_of_getRequest hget
  obtain ⟨hcons, hlen⟩ := h.of_mem hq
  have hpending : wait = true → q.pending = false := by
    intro hw
    refine ((hs.linked.good r.lock q hq).quiet trivial ?_).1
    rw [Own.awaits, hidle hw]
    simp
  refine h.store (setOwn_lbl t _ _) fun _ => ⟨(convert_eq ordering hcons hq type hpending hlen).2.2, ?_⟩
  exact ((convert_effect ordering hcons.distinct hq type wait).length_le hq).trans hlen

theorem Counts.enqueue (h : Counts t) {owner b lrq : ℕ} {type : Lck} {wait : Bool}
    (hne : (t.lbl b).requests ≠ []) (hfresh : ∀ r ∈ (t.lbl b).requests, r.ptr ≠ lrq)
    (hroom : (t.lbl b).requests.length < 65535) :
    Counts (t.enqueue ordering owner b (Lrq.enq lrq owner type) wait) := by
  have hcons := (h b hne).1.insert (q := Lrq.enq lrq owner type) rfl rfl hfresh
  have hmem : Lrq.enq lrq owner type ∈ (t.lbl b).requests ++ [Lrq.enq lrq owner type] := by simp
  have hlen : ((t.lbl b).requests ++ [Lrq.enq lrq owner type]).length ≤ 65535 := by
    rw [List.length_append, List.length_singleton]
    omega
  refine h.store (setOwn_lbl t _ _) fun hne => ?_
  refine ⟨(grantOrQue_eq ordering hcons hmem rfl rfl wait hlen).2.2 hne, ?_⟩
  exact ((grantOrQue_effect ordering hcons.distinct hmem wait).length_le hmem).trans hlen

theorem Counts.purgeLoop {rs : List Ref} (h : Counts t) : Counts (Table.purgeLoop ordering rs t) := by
  induction rs generalizing t with
  | nil => exact h
  | cons r rs ih =>
      rw [Table.purgeLoop]
      split
      · rename_i q hget
        exact ih (h.releaseRequest hget)
      · exact ih h

theorem Counts.reject (h : Counts t) {t' : Table} (ht : t'.lbl = t.lbl) {r : Ref} {q : Lrq}
    (hget : t.getRequest r = some q) (hpending : q.pending = true) :
    Counts (t'.store r.lock ((t.lbl r.lock).reject q)) := by
  obtain ⟨hq, -⟩ := mem_of_getRequest hget
  obtain ⟨hcons, hlen⟩ := h.of_mem hq
  refine h.store ht fun _ => ⟨reject_consistent hcons hq hpending, ?_⟩
  exact (setLrq_length _ _).trans_le hlen

theorem Counts.step (h : Counts t) (hs : Sound t) {op : Op} (hroom : Room t op) {t' : Table}
    (hstep : t.step ordering op = some t') : Counts t' := by
  cases op with
  | enq owner key type wait lrq lbl =>
      obtain ⟨hfresh, -, ⟨b, hb, hfind, rfl⟩ | ⟨hb, rfl⟩⟩ := enq_cases hstep
      · exact h.enqueue ((hs.blocks.hash b).mp hb) (hfresh b hb) (hroom b hfind)
      · intro b' hne
        by_cases hbb : b' = lbl
        · subst hbb
          have hself : (t.alloc owner key (Lrq.enq lrq owner type) b').lbl b' =
              Lbl.alloc key (Lrq.enq lrq owner type) := Function.update_self ..
          rw [hself]
          refine ⟨consistent_alloc key rfl, ?_⟩
          rw [Lbl.alloc, grant_requests, setLrq_length]
          exact Nat.succ_le_succ (Nat.zero_le _)
        · have hsame : (t.alloc owner key (Lrq.enq lrq owner type) lbl).lbl b' = t.lbl b' :=
            Function.update_of_ne hbb ..
          rw [hsame] at hne ⊢
          exact h b' hne
  | convert r type wait => exact h.convert hs hstep
  | downgrade r =>
      rcases downgrade_cases hstep with hstep | ⟨q, -, hstep⟩
      · exact h.deq hstep
      · exact h.convert hs hstep
  | deq r => exact h.deq hstep
  | purgeOwner owner =>
      obtain rfl := Option.some.inj hstep
      exact h.purgeLoop
  | timeout owner =>
      obtain ⟨r, q, hget, hpending, rfl⟩ := timeout_cases hstep
      exact h.reject rfl hget hpending
  | deadlock owner busy =>
      obtain ⟨r, q, hget, hpending, rfl⟩ := deadlock_cases hstep
      exact h.reject (setOwn_lbl _ _ _) hget hpending
  | wake owner =>
      obtain ⟨r, call, q, -, -, -, rfl⟩ := wake_cases hstep
      exact h
  | cleanUp owner =>
      obtain ⟨r, call, q, -, hget, hpending, -, -, hcall⟩ := cleanUp_cases hstep
      rcases hcall with ⟨-, rfl⟩ | ⟨-, rfl⟩
      · exact Counts.releaseRequest (t := t.setOwn owner _) h hget
      · obtain ⟨hq, -⟩ := mem_of_getRequest hget
        obtain ⟨hcons, hlen⟩ := h.of_mem hq
        have hadv := postPending_advanced ordering hcons.distinct
        refine h.store (setOwn_lbl t _ _) fun _ => ⟨?_, ?_⟩
        · exact (postPending_eq ordering hcons hlen).1.put (hadv.mem_of_not_pending hq hpending)
            { q with requested := q.state } rfl rfl rfl
        · exact (setLrq_length _ _).trans_le (hadv.length_eq ▸ hlen)

/-! ## Main result -/

/-- What the lock manager keeps in a lock block. -/
structure LockSafe (l : Lbl) : Prop where
  compatible : l.requests.Pairwise fun a b => compatible a.state b.state
  counts : ∀ s, s ≠ .none → (l.counts s).toNat = l.requests.countP fun r => r.state = s
  state_eq : l.state = lockState l.counts
  highest : ∀ r ∈ l.requests, r.state.toNat ≤ l.state.toNat
  pending : l.pendingCount.toNat = l.requests.countP fun r => r.pending

/-- Every lock block is a safe lock in the hash table or an empty block on the free list. -/
structure TableSafe (t : Table) : Prop where
  locks : ∀ b ∈ t.hash, LockSafe (t.lbl b)
  empty : ∀ b ∈ t.locks, (t.lbl b).requests = [] → b ∈ t.freeLocks ∧ b ∉ t.hash
  free : ∀ b ∈ t.freeLocks, (t.lbl b).requests = []

theorem Consistent.lockSafe {l : Lbl} (h : Consistent l) (hlen : l.requests.length ≤ 65535) :
    LockSafe l := by
  have hnat : ∀ p : Lrq → Bool, (UInt16.ofNat (l.requests.countP p)).toNat = l.requests.countP p := by
    intro p
    have hle : l.requests.countP p ≤ l.requests.length := List.countP_le_length
    exact UInt16.toNat_ofNat_of_lt' (by show _ < 65536; omega)
  refine ⟨h.compat, fun s hs => ?_, h.state_eq, fun r hr => ?_, ?_⟩
  · rw [h.counted s hs, hnat]
  · by_cases hs : r.state = .none
    · rw [hs]
      exact Nat.zero_le _
    · rw [h.state_eq]
      exact lockState_ge hs ((h.counted.ne_zero_iff hlen hs).mpr ⟨r, hr, rfl⟩)
  · rw [h.pending_eq, pendings, hnat]

theorem counts_reachable (h : Reachable ((lockManager ordering).restrict Room) t) : Counts t := by
  have hboth : Sound t ∧ Counts t := by
    refine h.invariant (I := fun t => Sound t ∧ Counts t) (fun s hs => ?_)
      fun s op s' hs hstep => ?_
    · obtain rfl := hs
      exact ⟨Sound.empty, fun b hne => absurd rfl hne⟩
    · exact ⟨hs.1.step hstep.1, hs.2.step hs.1 hstep.2 hstep.1⟩
  exact hboth.2

/-- In every run in which no lock gets more than 65535 requests the table is safe. -/
theorem lock_table_safe (h : Reachable ((lockManager ordering).restrict Room) t) : TableSafe t := by
  have hsound := sound_reachable h.of_restrict
  have hcounts := counts_reachable h
  refine ⟨fun b hb => ?_, fun b hb hnil => ?_, fun b hb => ?_⟩
  · obtain ⟨hcons, hlen⟩ := hcounts b ((hsound.blocks.hash b).mp hb)
    exact hcons.lockSafe hlen
  · have hno : b ∉ t.hash := fun hin => (hsound.blocks.hash b).mp hin hnil
    exact ⟨((hsound.blocks.locks b).mp hb).resolve_left hno, hno⟩
  · by_contra hne
    exact hsound.blocks.disjoint b hb ((hsound.blocks.hash b).mpr hne)

/-- Two owners share a lock. -/
theorem lock_table_safe_shared :
    ∃ t, Table.run true [.enq 1 ⟨0, 1, []⟩ .SR true 11 1, .enq 2 ⟨0, 1, []⟩ .SR true 12 1]
      Table.empty = some t ∧ (t.lbl 1).requests.length = 2 ∧ TableSafe t := by
  let first : Op := .enq 1 ⟨0, 1, []⟩ .SR true 11 1
  let second : Op := .enq 2 ⟨0, 1, []⟩ .SR true 12 1
  obtain ⟨s, hs⟩ : ∃ s, Table.empty.step true first = some s := ⟨_, rfl⟩
  obtain ⟨t, ht⟩ : ∃ t, s.step true second = some t := by
    cases hs
    exact ⟨_, rfl⟩
  refine ⟨t, ?_, ?_, @lock_table_safe true t (.step (.step (.init rfl) ⟨hs, ?_⟩) ⟨ht, ?_⟩)⟩
  · show Option.bind _ _ = _
    rw [hs]
    show Option.bind (s.step true second) _ = _
    rw [ht]
    rfl
  · cases hs
    cases ht
    decide
  · intro b hb
    cases hb
  · cases hs
    rintro b ⟨⟩
    decide

/-! ## One request too many -/

/-- The first `n` requests of an owner for a lock, all in shared read. -/
def sharedLbl (n : ℕ) : Lbl where
  key := ⟨0, 1, []⟩
  requests := (List.range n).map fun i => ⟨i, 1, .SR, .SR, false, false⟩
  counts := Function.update (fun _ => 0) .SR (UInt16.ofNat n)
  state := lockState (Function.update (fun _ => 0) .SR (UInt16.ofNat n))
  pendingCount := 0

/-- The table after these requests. -/
def shared (n : ℕ) : Table where
  lbl := Function.update (fun _ => Lbl.empty) 1 (sharedLbl n)
  locks := [1]
  hash := [1]
  freeLocks := []
  own := Function.update (fun _ => {}) 1 { requests := (List.range n).map fun i => ⟨1, i⟩ }

theorem sharedLbl_enq {n : ℕ} (h0 : 0 < n) (h : n < 65536) :
    ({ sharedLbl n with requests := (sharedLbl n).requests ++ [Lrq.enq n 1 .SR] } : Lbl).grantOrQue
      true (Lrq.enq n 1 .SR) false = (.granted, sharedLbl (n + 1)) := by
  have hstate : (sharedLbl n).state = .SR := by
    have hne : UInt16.ofNat n ≠ 0 := by
      rw [Ne, ← UInt16.toNat_inj, UInt16.toNat_ofNat_of_lt' h]
      exact h0.ne'
    simp [sharedLbl, lockState, hne]
  have hset : setLrq (Lrq.enq n 1 .SR).granted ((sharedLbl n).requests ++ [Lrq.enq n 1 .SR]) =
      (sharedLbl (n + 1)).requests := by
    have hd : Distinct ((sharedLbl n).requests ++ [Lrq.enq n 1 .SR]) := by
      have heq : ((sharedLbl n).requests ++ [Lrq.enq n 1 .SR]).map Lrq.ptr = List.range (n + 1) := by
        simp [sharedLbl, Lrq.enq, List.range_succ, Function.comp_def]
      rw [Distinct, heq]
      exact List.nodup_range
    rw [@setLrq_split _ _ _ (Lrq.enq n 1 .SR).granted hd rfl]
    simp [sharedLbl, List.range_succ, Lrq.granted, Lrq.enq]
  have hcounts : incr (sharedLbl n).counts .SR = (sharedLbl (n + 1)).counts := by
    simp [incr, sharedLbl, UInt16.ofNat_add]
  have hgrant : ({ sharedLbl n with requests := (sharedLbl n).requests ++ [Lrq.enq n 1 .SR] } : Lbl).grant
      (Lrq.enq n 1 .SR) = sharedLbl (n + 1) := by
    show (⟨_, setLrq _ _, incr _ _, lockState (incr _ _), _⟩ : Lbl) = _
    rw [hset]
    show (⟨_, _, incr (sharedLbl n).counts .SR, lockState (incr (sharedLbl n).counts .SR), _⟩ : Lbl) = _
    rw [hcounts]
    rfl
  have hfree : (sharedLbl n).pendingCount = 0 := rfl
  rw [Lbl.grantOrQue, if_pos (by simp [hstate, hfree, Lrq.enq, compatible, compatibility, Lck.toNat]),
    hgrant]
  rfl

theorem shared_step {n : ℕ} (h0 : 0 < n) (h : n < 65536) :
    (shared n).step true (.enq 1 ⟨0, 1, []⟩ .SR false n 1) = some (shared (n + 1)) := by
  have hlbl : (shared n).lbl 1 = sharedLbl n := by simp [shared]
  have hfresh : ¬∃ b ∈ (shared n).hash, ∃ r ∈ ((shared n).lbl b).requests, r.ptr = n := by
    simp [shared, sharedLbl]
  have hfind : (shared n).findLock ⟨0, 1, []⟩ = some 1 := by
    simp [Table.findLock, shared, sharedLbl]
  have henq : (shared n).enqueue true 1 1 (Lrq.enq n 1 .SR) false = shared (n + 1) := by
    rw [Table.enqueue, hlbl, sharedLbl_enq h0 h]
    simp [Table.store, Table.setOwn, shared, sharedLbl, Own.enq, Own.insert, Lrq.enq,
      List.range_succ]
  rw [Table.step, Table.enq, if_neg hfresh, if_neg (by simp), hfind]
  exact congrArg some henq

theorem shared_reachable {n : ℕ} (h0 : 0 < n) (h : n ≤ 65536) :
    Reachable (lockManager true) (shared n) := by
  induction n with
  | zero => exact absurd h0 (by decide)
  | succ n ih =>
      rcases Nat.eq_zero_or_pos n with rfl | hpos
      · refine .step (i := .enq 1 ⟨0, 1, []⟩ .SR false 0 1) (.init rfl) ?_
        rfl
      · exact (ih hpos (by omega)).step (shared_step hpos (by omega))

/-- A safe table does not lose count of the requests. -/
theorem shared_counts {n : ℕ} (h0 : 0 < n) (hsafe : TableSafe (shared n)) : UInt16.ofNat n ≠ 0 := by
  intro hzero
  have hlbl : (shared n).lbl 1 = sharedLbl n := by simp [shared]
  have hcount := (hsafe.locks 1 (List.mem_singleton_self 1)).counts .SR (by decide)
  have hcounts : (sharedLbl n).counts .SR = 0 := by simp [sharedLbl, hzero]
  rw [hlbl, hcounts, UInt16.toNat_zero, eq_comm, List.countP_eq_zero] at hcount
  exact hcount ⟨0, 1, .SR, .SR, false, false⟩
    (List.mem_map.mpr ⟨0, List.mem_range.mpr h0, rfl⟩) rfl

/-- The request number 65536 wraps the count of the requests in shared read. -/
theorem lock_counts_wrap : ∃ t, Reachable (lockManager true) t ∧ ¬TableSafe t :=
  ⟨shared 65536, shared_reachable (by decide) le_rfl, fun hsafe => shared_counts (by decide) hsafe rfl⟩

end Firebird.Lock
