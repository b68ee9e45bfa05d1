import Firebird.Lock.Queue

/-! # Consistent lock blocks

The counts of a lock block are the numbers of its requests modulo 65536. While a
lock has at most 65535 requests, its state is therefore the highest state of its
requests, a request is compatible with that state exactly when it is compatible with
every request, and the operations keep the states of the requests compatible.
-/

namespace Firebird.Lock

/-! ## Counting -/

/-- The counts of the states of these requests; the count of `LCK_none` is not kept. -/
def Counted (counts : Lck → UInt16) (rs : List Lrq) : Prop :=
  ∀ s, s ≠ .none → counts s = UInt16.ofNat (rs.countP fun r => r.state = s)

theorem counted_insert {counts : Lck → UInt16} {pre post : List Lrq} {q : Lrq}
    (h : Counted counts (pre ++ post)) : Counted (incr counts q.state) (pre ++ q :: post) := by
  intro s hs
  have hold := h s hs
  rw [List.countP_append] at hold
  rw [List.countP_append, List.countP_cons, ← Nat.add_assoc, UInt16.ofNat_add, ← hold, incr]
  by_cases hq : q.state = s
  · subst hq
    simp
  · have hne : s ≠ q.state := fun heq => hq heq.symm
    simp [hq, hne]

theorem counted_erase {counts : Lck → UInt16} {pre post : List Lrq} {q : Lrq}
    (h : Counted counts (pre ++ q :: post)) : Counted (decr counts q.state) (pre ++ post) := by
  intro s hs
  have hold := h s hs
  rw [List.countP_append, List.countP_cons, ← Nat.add_assoc, UInt16.ofNat_add] at hold
  rw [List.countP_append, decr]
  by_cases hq : q.state = s
  · subst hq
    simp [hold]
  · have hne : s ≠ q.state := fun heq => hq heq.symm
    simp [hq, hne, hold]

/-- A request in `LCK_none` does not count. -/
theorem counted_none {counts : Lck → UInt16} {pre post : List Lrq} {q : Lrq}
    (hq : q.state = .none) : Counted counts (pre ++ q :: post) ↔ Counted counts (pre ++ post) := by
  refine forall₂_congr fun s hs => ?_
  have hne : ¬q.state = s := fun h => hs (h.symm.trans hq)
  simp [List.countP_append, hne]

theorem Counted.ne_zero_iff {counts : Lck → UInt16} {rs : List Lrq} (h : Counted counts rs)
    (hlen : rs.length ≤ 65535) {s : Lck} (hs : s ≠ .none) :
    counts s ≠ 0 ↔ ∃ r ∈ rs, r.state = s := by
  have hle : rs.countP (fun r => decide (r.state = s)) ≤ rs.length := List.countP_le_length
  have hnat : (counts s).toNat = rs.countP fun r => r.state = s := by
    rw [h s hs, UInt16.toNat_ofNat_of_lt' (by show _ < 65536; omega)]
  rw [Ne, ← UInt16.toNat_inj, hnat, UInt16.toNat_zero, ← Ne, ← Nat.pos_iff_ne_zero,
    List.countP_pos_iff]
  simp

/-! ## The state of a lock -/

theorem lockState_ge {counts : Lck → UInt16} {s : Lck} (hs : s ≠ .none) (h : counts s ≠ 0) :
    s.toNat ≤ (lockState counts).toNat := by
  unfold lockState
  cases s <;> first | exact absurd rfl hs | (split_ifs <;> simp [Lck.toNat])

theorem lockState_ne_zero (counts : Lck → UInt16) :
    lockState counts = .none ∨ counts (lockState counts) ≠ 0 := by
  unfold lockState
  split_ifs <;> simp_all

/-- The test against the state of the lock is the test against every request. -/
theorem compatible_lockState {counts : Lck → UInt16} {rs : List Lrq} (h : Counted counts rs)
    (hlen : rs.length ≤ 65535) (hc : AllCompatible rs) (s : Lck) :
    compatible s (lockState counts) ↔ Admits rs s := by
  rcases lockState_ne_zero counts with htop | htop
  · -- no request is in any state
    rw [htop]
    refine iff_of_true (compatible_none_right s) fun r hr => ?_
    by_cases hs : r.state = .none
    · rw [hs, compatible_none_right]
    · have hge := lockState_ge hs ((h.ne_zero_iff hlen hs).mpr ⟨r, hr, rfl⟩)
      rw [htop] at hge
      exact absurd (eq_none_of_toNat_le hge) hs
  · by_cases hnone : lockState counts = .none
    · rw [hnone]
      refine iff_of_true (compatible_none_right s) fun r hr => ?_
      by_cases hs : r.state = .none
      · rw [hs, compatible_none_right]
      · have hge := lockState_ge hs ((h.ne_zero_iff hlen hs).mpr ⟨r, hr, rfl⟩)
        rw [hnone] at hge
        exact absurd (eq_none_of_toNat_le hge) hs
    · obtain ⟨top, hmem, heq⟩ := (h.ne_zero_iff hlen hnone).mp htop
      rw [← heq]
      refine ⟨fun hs r hr => ?_, fun hall => hall top hmem⟩
      by_cases hr0 : r.state = .none
      · rw [hr0, compatible_none_right]
      by_cases hrt : r = top
      · rwa [hrt]
      have hge := lockState_ge hr0 ((h.ne_zero_iff hlen hr0).mpr ⟨r, hr, rfl⟩)
      rw [← heq] at hge
      have hcomp := hc.of_mem hr hmem hrt
      refine compatible_of_le s hge ?_ hs
      rintro ⟨hpr, hsw⟩
      rw [hpr, hsw] at hcomp
      exact absurd hcomp (by decide)

/-! ## Consistent lock blocks -/

/-- Number of pending requests. -/
def pendings (queue : List Lrq) : ℕ := queue.countP fun r => r.pending

structure Consistent (l : Lbl) : Prop where
  distinct : Distinct l.requests
  counted : Counted l.counts l.requests
  state_eq : l.state = lockState l.counts
  pending_eq : l.pendingCount = UInt16.ofNat (pendings l.requests)
  compat : AllCompatible l.requests

/-- The request `q` is taken out of the counts. -/
structure Taken (l : Lbl) (pre : List Lrq) (q : Lrq) (post : List Lrq) : Prop where
  requests : l.requests = pre ++ q :: post
  distinct : Distinct (pre ++ q :: post)
  counted : Counted l.counts (pre ++ post)
  pending_eq : l.pendingCount = UInt16.ofNat (pendings (pre ++ q :: post))
  compat : AllCompatible (pre ++ post)

theorem Consistent.take {l : Lbl} (h : Consistent l) {pre post : List Lrq} {q : Lrq}
    (hq : l.requests = pre ++ q :: post) :
    Taken { l with counts := decr l.counts q.state } pre q post where
  requests := hq
  distinct := hq ▸ h.distinct
  counted := counted_erase (hq ▸ h.counted)
  pending_eq := by
    rw [← hq]
    exact h.pending_eq
  compat := (allCompatible_split.mp (hq ▸ h.compat)).1

theorem Consistent.take_none {l : Lbl} (h : Consistent l) {pre post : List Lrq} {q : Lrq}
    (hq : l.requests = pre ++ q :: post) (hnone : q.state = .none) : Taken l pre q post where
  requests := hq
  distinct := hq ▸ h.distinct
  counted := (counted_none hnone).mp (hq ▸ h.counted)
  pending_eq := hq ▸ h.pending_eq
  compat := (allCompatible_split.mp (hq ▸ h.compat)).1

theorem pendings_split (pre post : List Lrq) (q : Lrq) :
    pendings (pre ++ q :: post) = pendings (pre ++ post) + if q.pending then 1 else 0 := by
  simp only [pendings, List.countP_append, List.countP_cons]
  omega

/-- `grant` puts the request back with the state it asked for. -/
theorem Taken.grant {l : Lbl} {pre post : List Lrq} {q : Lrq} (h : Taken l pre q post)
    (hadmits : Admits (pre ++ post) q.requested) :
    Consistent (l.grant q) ∧ (l.grant q).requests = pre ++ q.granted :: post := by
  have hreq : (l.grant q).requests = pre ++ q.granted :: post := by
    have : (l.grant q).requests = setLrq q.granted l.requests := by
      rw [Lbl.grant]
      split <;> rfl
    rw [this, h.requests]
    exact setLrq_split h.distinct rfl
  have hcounts : (l.grant q).counts = incr l.counts q.requested := by
    rw [Lbl.grant]
    split <;> rfl
  have hpend := pendings_split pre post q
  refine ⟨⟨?_, ?_, ?_, ?_, ?_⟩, hreq⟩
  · rw [hreq]
    exact h.distinct.set q.granted rfl
  · rw [hreq, hcounts]
    exact counted_insert (q := q.granted) h.counted
  · rw [hcounts, Lbl.grant]
    split <;> rfl
  · have hgranted : pendings (pre ++ q.granted :: post) = pendings (pre ++ post) := by
      rw [pendings_split]
      rfl
    rw [hreq, hgranted, Lbl.grant]
    split
    · rename_i hq
      have hq : q.pending = true := hq
      rw [if_pos hq] at hpend
      show l.pendingCount - 1 = _
      rw [h.pending_eq, hpend, UInt16.ofNat_add]
      simp
    · rename_i hq
      have hq : ¬q.pending = true := hq
      rw [if_neg hq] at hpend
      show l.pendingCount = _
      rw [h.pending_eq, hpend, Nat.add_zero]
  · rw [hreq]
    exact allCompatible_split.mpr ⟨h.compat, hadmits⟩

theorem admits_split_none {pre post : List Lrq} {q : Lrq} (h : q.state = .none) (s : Lck) :
    Admits (pre ++ q :: post) s ↔ Admits (pre ++ post) s := by
  simp [Admits, h, or_imp, forall_and]

/-- The counts decide as the queue does. -/
theorem postPendingLoop_eq (ordering : Bool) {l : Lbl} {done todo : List Lrq} (h : Consistent l)
    (hreq : l.requests = done ++ todo) (hlen : l.requests.length ≤ 65535) :
    Consistent (postPendingLoop ordering todo l) ∧
      (postPendingLoop ordering todo l).requests = Queue.pass ordering done todo := by
  induction todo generalizing l done with
  | nil => exact ⟨h, by rw [postPendingLoop, hreq, List.append_nil, Queue.pass]⟩
  | cons q todo ih =>
      have hkeep : l.requests = done ++ [q] ++ todo := by simpa using hreq
      have hlen' : (done ++ todo).length ≤ 65535 := by
        rw [hreq, List.length_append, List.length_cons] at hlen
        rw [List.length_append]
        omega
      -- a request granted stays where it is in the queue
      have hgrant : ∀ {l' : Lbl}, Taken l' done q todo → Admits (done ++ todo) q.requested →
          Consistent (postPendingLoop ordering todo (l'.grant q)) ∧
            (postPendingLoop ordering todo (l'.grant q)).requests =
              Queue.pass ordering (done ++ [q.granted]) todo := by
        intro l' htaken hadmits
        obtain ⟨hcons, hq⟩ := htaken.grant hadmits
        refine ih hcons (by simpa using hq) ?_
        rwa [hq, List.length_append, List.length_cons, ← List.length_cons, ← List.length_append,
          ← hreq]
      rw [postPendingLoop, Queue.pass]
      by_cases hpending : q.pending = true
      · rw [if_neg (by simp [hpending]), if_pos hpending]
        by_cases hstate : q.state = .none
        · have htest := compatible_lockState h.counted hlen h.compat q.requested
          rw [← h.state_eq, hreq, admits_split_none hstate] at htest
          rw [if_neg (by simp [hstate])]
          by_cases hadmits : Admits (done ++ todo) q.requested
          · rw [if_pos (htest.mpr hadmits), if_pos hadmits]
            exact hgrant (h.take_none hreq hstate) hadmits
          · rw [if_neg (fun hc => hadmits (htest.mp hc)), if_neg hadmits]
            split
            · exact ⟨h, hreq⟩
            · exact ih h hkeep hlen
        · have htaken := h.take hreq
          have htest := compatible_lockState htaken.counted hlen' htaken.compat q.requested
          rw [if_pos hstate]
          by_cases hadmits : Admits (done ++ todo) q.requested
          · rw [if_pos (htest.mpr hadmits), if_pos hadmits]
            exact hgrant htaken hadmits
          · rw [if_neg (fun hc => hadmits (htest.mp hc)), if_neg hadmits]
            simp only [incr_decr]
            split
            · exact ⟨h, hreq⟩
            · exact ih h hkeep hlen
      · rw [if_pos (by simpa using hpending), if_neg hpending]
        exact ih h hkeep hlen

theorem pendingCount_eq_zero {l : Lbl} (h : Consistent l) (hlen : l.requests.length ≤ 65535) :
    l.pendingCount = 0 ↔ ∀ r ∈ l.requests, r.pending = false := by
  have hle : pendings l.requests ≤ l.requests.length := List.countP_le_length
  have hnat : l.pendingCount.toNat = pendings l.requests := by
    rw [h.pending_eq, UInt16.toNat_ofNat_of_lt' (by show _ < 65536; omega)]
  rw [← UInt16.toNat_inj, hnat, UInt16.toNat_zero, pendings, List.countP_eq_zero]
  simp

theorem postPending_eq (ordering : Bool) {l : Lbl} (h : Consistent l)
    (hlen : l.requests.length ≤ 65535) :
    Consistent (l.postPending ordering) ∧
      (l.postPending ordering).requests = Queue.postPending ordering l.requests := by
  rw [Lbl.postPending, Queue.postPending]
  split
  · rename_i hzero
    rw [pass_of_not_pending ordering ((pendingCount_eq_zero h hlen).mp hzero)]
    exact ⟨h, rfl⟩
  · exact postPendingLoop_eq ordering h rfl hlen

/-! ## The operations on a lock block -/

theorem Consistent.split {l : Lbl} (h : Consistent l) {q : Lrq} (hq : q ∈ l.requests) :
    ∃ pre post, l.requests = pre ++ q :: post ∧ Distinct (pre ++ q :: post) := by
  obtain ⟨pre, post, hsplit⟩ := List.append_of_mem hq
  exact ⟨pre, post, hsplit, hsplit ▸ h.distinct⟩

/-- Rewriting a request in its state. -/
theorem Consistent.set {l : Lbl} (h : Consistent l) {q : Lrq} (hq : q ∈ l.requests) (q' : Lrq)
    (hp : q'.ptr = q.ptr) (hs : q'.state = q.state) {count : UInt16}
    (hcount : count = UInt16.ofNat (pendings (setLrq q' l.requests))) :
    Consistent { l.put q' with pendingCount := count } := by
  obtain ⟨pre, post, hsplit, hdistinct⟩ := h.split hq
  have hreq : setLrq q' l.requests = pre ++ q' :: post := by
    rw [hsplit]
    exact setLrq_split hdistinct hp
  have hcounted := counted_erase (hsplit ▸ h.counted)
  have hinsert := counted_insert (q := q') hcounted
  rw [hs, incr_decr] at hinsert
  have hcompat := allCompatible_split.mp (hsplit ▸ h.compat)
  refine ⟨?_, ?_, h.state_eq, hcount, ?_⟩
  · show Distinct (setLrq q' l.requests)
    rw [hreq]
    exact hdistinct.set q' hp
  · show Counted l.counts (setLrq q' l.requests)
    rw [hreq]
    exact hinsert
  · show AllCompatible (setLrq q' l.requests)
    rw [hreq, allCompatible_split, hs]
    exact hcompat

theorem setLrq_length (q : Lrq) (queue : List Lrq) : (setLrq q queue).length = queue.length :=
  List.length_map ..

theorem pendings_set {queue : List Lrq} (h : Distinct queue) {q : Lrq} (hq : q ∈ queue) (q' : Lrq)
    (hp : q'.ptr = q.ptr) :
    pendings (setLrq q' queue) + (if q.pending then 1 else 0) =
      pendings queue + if q'.pending then 1 else 0 := by
  obtain ⟨pre, post, rfl⟩ := List.append_of_mem hq
  rw [setLrq_split h hp, pendings_split, pendings_split]
  omega

theorem waitForRequest_eq (ordering : Bool) {l : Lbl} (h : Consistent l) {q : Lrq}
    (hq : q ∈ l.requests) (hpending : q.pending = false) :
    Consistent (l.waitForRequest ordering q) ∧
      (l.waitForRequest ordering q).requests = Queue.waitForRequest ordering q l.requests := by
  have hcount := pendings_set h.distinct hq q.waiting rfl
  have hset : Consistent { l.put q.waiting with pendingCount := l.pendingCount + 1 } := by
    refine h.set hq q.waiting rfl rfl ?_
    have hwaiting : q.waiting.pending = true := rfl
    rw [hpending, hwaiting, if_neg (by decide), if_pos rfl, Nat.add_zero] at hcount
    rw [hcount, UInt16.ofNat_add, ← h.pending_eq]
    rfl
  rw [Lbl.waitForRequest, Queue.waitForRequest]
  by_cases hmove : ordering = true ∧ q.state = .none
  · obtain ⟨pre, post, hsplit, hdistinct⟩ := h.split hq
    have hset' : setLrq q.waiting l.requests = pre ++ q.waiting :: post := by
      rw [hsplit]
      exact setLrq_split hdistinct rfl
    have hremove : removeLrq q (setLrq q.waiting l.requests) = pre ++ post := by
      rw [hset']
      exact removeLrq_split (hdistinct.set q.waiting rfl) rfl
    have hremove' : removeLrq q l.requests = pre ++ post := by
      rw [hsplit]
      exact removeLrq_split hdistinct rfl
    have hreq : ({ l.put q.waiting with pendingCount := l.pendingCount + 1 } : Lbl).requests =
        pre ++ q.waiting :: post := hset'
    -- the request moves to the end of the queue
    have hperm : (pre ++ post ++ [q.waiting]).Perm (pre ++ q.waiting :: post) := by
      rw [List.append_assoc]
      exact List.Perm.append_left pre List.perm_append_comm
    rw [if_pos (by simpa using hmove), if_pos hmove]
    refine ⟨⟨?_, ?_, hset.state_eq, ?_, ?_⟩, ?_⟩
    · show Distinct (removeLrq q (setLrq q.waiting l.requests) ++ [q.waiting])
      rw [hremove, Distinct, (hperm.map Lrq.ptr).nodup_iff, ← hreq]
      exact hset.distinct
    · show Counted l.counts (removeLrq q (setLrq q.waiting l.requests) ++ [q.waiting])
      intro s hs
      rw [hremove, hperm.countP_eq, ← hreq]
      exact hset.counted s hs
    · show l.pendingCount + 1 =
        UInt16.ofNat (pendings (removeLrq q (setLrq q.waiting l.requests) ++ [q.waiting]))
      rw [hremove, pendings, hperm.countP_eq, ← hreq]
      exact hset.pending_eq
    · show AllCompatible (removeLrq q (setLrq q.waiting l.requests) ++ [q.waiting])
      rw [hremove, allCompatible_split, List.append_nil]
      exact allCompatible_split.mp (hreq ▸ hset.compat)
    · show removeLrq q (setLrq q.waiting l.requests) ++ [q.waiting] = removeLrq q l.requests ++ _
      rw [hremove, hremove']
  · rw [if_neg (by simpa using hmove), if_neg hmove]
    exact ⟨hset, rfl⟩

theorem reject_consistent {l : Lbl} (h : Consistent l) {q : Lrq} (hq : q ∈ l.requests)
    (hpending : q.pending = true) : Consistent (l.reject q) := by
  have hcount := pendings_set h.distinct hq { q with pending := false, rejected := true } rfl
  refine h.set hq { q with pending := false, rejected := true } rfl rfl ?_
  simp only [hpending, if_true, Bool.false_eq_true, if_false, Nat.add_zero] at hcount
  rw [h.pending_eq, ← hcount, UInt16.ofNat_add]
  simp

theorem lockState_congr {counts counts' : Lck → UInt16}
    (h : ∀ s, s ≠ .none → (counts s = 0 ↔ counts' s = 0)) : lockState counts = lockState counts' := by
  have hEX := h .EX (by decide)
  have hPW := h .PW (by decide)
  have hSW := h .SW (by decide)
  have hPR := h .PR (by decide)
  have hSR := h .SR (by decide)
  have hnull := h .null (by decide)
  simp only [lockState, ne_eq, hEX, hPW, hSW, hPR, hSR, hnull]

/-- A block whose last request goes is left as it is; otherwise it stays consistent. -/
theorem releaseRequest_eq (ordering : Bool) {l : Lbl} (h : Consistent l) {q : Lrq}
    (hq : q ∈ l.requests) (hlen : l.requests.length ≤ 65535) :
    (l.releaseRequest ordering q).requests = Queue.releaseRequest ordering q l.requests ∧
      ((l.releaseRequest ordering q).requests ≠ [] → Consistent (l.releaseRequest ordering q)) := by
  obtain ⟨pre, post, hsplit, hdistinct⟩ := h.split hq
  have hremove : removeLrq q l.requests = pre ++ post := by
    rw [hsplit]
    exact removeLrq_split hdistinct rfl
  have hlen' : (pre ++ post).length ≤ 65535 := by
    rw [hsplit, List.length_append, List.length_cons] at hlen
    rw [List.length_append]
    omega
  have hpend : (if q.pending then l.pendingCount - 1 else l.pendingCount) =
      UInt16.ofNat (pendings (pre ++ post)) := by
    have hcount := h.pending_eq
    rw [hsplit, pendings_split] at hcount
    split
    · rename_i hp
      rw [hcount, if_pos hp, UInt16.ofNat_add]
      simp
    · rename_i hp
      rw [hcount, if_neg hp, Nat.add_zero]
  -- the block before `post_pending`
  have hblock : ∀ counts state, Counted counts (pre ++ post) → state = lockState counts →
      Consistent { l with
        requests := pre ++ post
        pendingCount := if q.pending then l.pendingCount - 1 else l.pendingCount
        counts := counts
        state := state } := fun counts state hcounted hstate =>
    ⟨hdistinct.remove, hcounted, hstate, hpend, (allCompatible_split.mp (hsplit ▸ h.compat)).1⟩
  have hunfold : l.releaseRequest ordering q =
      if pre ++ post = [] then { l with
        requests := pre ++ post
        pendingCount := if q.pending then l.pendingCount - 1 else l.pendingCount }
      else if q.state ≠ .none then
        Lbl.postPending ordering { l with
          requests := pre ++ post
          pendingCount := if q.pending then l.pendingCount - 1 else l.pendingCount
          counts := decr l.counts q.state
          state := if decr l.counts q.state q.state = 0 then lockState (decr l.counts q.state)
            else l.state }
      else
        Lbl.postPending ordering { l with
          requests := pre ++ post
          pendingCount := if q.pending then l.pendingCount - 1 else l.pendingCount } := by
    rw [Lbl.releaseRequest, hremove]
    cases q.pending <;> simp only [if_true, if_false, Bool.false_eq_true] <;> split <;>
      first | rfl | (split <;> first | rfl | (congr 1; split <;> rfl))
  rw [hunfold, Queue.releaseRequest, hremove]
  split
  · rename_i hnil
    rw [hnil]
    exact ⟨rfl, fun hne => absurd rfl hne⟩
  · split
    · rename_i hstate
      have hcounted := counted_erase (hsplit ▸ h.counted)
      obtain ⟨hcons, hreq⟩ := postPending_eq ordering (hblock _ (if decr l.counts q.state q.state = 0
        then lockState (decr l.counts q.state) else l.state) hcounted (by
          split
          · rfl
          · rename_i hne
            rw [h.state_eq]
            refine lockState_congr fun s hs => ?_
            by_cases hsq : s = q.state
            · subst hsq
              have hin := (h.counted.ne_zero_iff hlen hs).mpr ⟨q, hq, rfl⟩
              exact iff_of_false hin hne
            · simp [decr, hsq])) hlen'
      exact ⟨hreq, fun _ => hcons⟩
    · rename_i hstate
      obtain ⟨hcons, hreq⟩ := postPending_eq ordering (hblock _ l.state
        ((counted_none (not_not.mp hstate)).mp (hsplit ▸ h.counted)) h.state_eq) hlen'
      exact ⟨hreq, fun _ => hcons⟩

/-- Rewriting a request in its state, pending or not as before. -/
theorem Consistent.put {l : Lbl} (h : Consistent l) {q : Lrq} (hq : q ∈ l.requests) (q' : Lrq)
    (hp : q'.ptr = q.ptr) (hs : q'.state = q.state) (hpend : q'.pending = q.pending) :
    Consistent (l.put q') := by
  have hcount := pendings_set h.distinct hq q' hp
  rw [hpend, Nat.add_right_cancel_iff] at hcount
  exact h.set hq q' hp hs (by rw [hcount]; exact h.pending_eq)

theorem grantOrQue_eq (ordering : Bool) {l : Lbl} (h : Consistent l) {q : Lrq}
    (hq : q ∈ l.requests) (hstate : q.state = .none) (hpending : q.pending = false) (wait : Bool)
    (hlen : l.requests.length ≤ 65535) :
    (l.grantOrQue ordering q wait).1 = (Queue.grantOrQue ordering q wait l.requests).1 ∧
      (l.grantOrQue ordering q wait).2.requests = (Queue.grantOrQue ordering q wait l.requests).2 ∧
      ((l.grantOrQue ordering q wait).2.requests ≠ [] →
        Consistent (l.grantOrQue ordering q wait).2) := by
  obtain ⟨pre, post, hsplit, hdistinct⟩ := h.split hq
  have hremove : removeLrq q l.requests = pre ++ post := by
    rw [hsplit]
    exact removeLrq_split hdistinct rfl
  have htest : compatible q.requested l.state ↔ Admits (pre ++ post) q.requested := by
    rw [h.state_eq, compatible_lockState h.counted hlen h.compat, hsplit, admits_split_none hstate]
  rw [Lbl.grantOrQue, Queue.grantOrQue, hremove]
  by_cases hgrant : Admits (pre ++ post) q.requested ∧
      (ordering = false ∨ q.requested = .null ∨ ∀ r ∈ l.requests, r.pending = false)
  · obtain ⟨hcons, hreq⟩ := (h.take_none hsplit hstate).grant hgrant.1
    have hset : (l.grant q).requests = setLrq q.granted l.requests := by
      rw [hreq, hsplit]
      exact (@setLrq_split pre post q q.granted hdistinct rfl).symm
    obtain ⟨hcons', hreq'⟩ := postPending_eq ordering hcons (by rw [hset, setLrq_length]; exact hlen)
    rw [if_pos hgrant, if_pos (by
      rw [← pendingCount_eq_zero h hlen] at hgrant
      simpa [htest, or_assoc] using hgrant)]
    exact ⟨rfl, by rw [hreq', hset], fun _ => hcons'⟩
  · rw [if_neg hgrant, if_neg (by
      rw [← pendingCount_eq_zero h hlen] at hgrant
      simpa [htest, or_assoc] using hgrant)]
    cases wait with
    | true =>
        obtain ⟨hcons, hreq⟩ := waitForRequest_eq ordering h hq hpending
        exact ⟨rfl, hreq, fun _ => hcons⟩
    | false =>
        obtain ⟨hreq, hcons⟩ := releaseRequest_eq ordering h hq hlen
        exact ⟨rfl, hreq, hcons⟩

theorem convert_eq (ordering : Bool) {l : Lbl} (h : Consistent l) {q : Lrq} (hq : q ∈ l.requests)
    (type : Lck) {wait : Bool} (hpending : wait = true → q.pending = false)
    (hlen : l.requests.length ≤ 65535) :
    (l.convert ordering q type wait).1 = (Queue.convert ordering q type wait l.requests).1 ∧
      (l.convert ordering q type wait).2.requests =
        (Queue.convert ordering q type wait l.requests).2 ∧
      Consistent (l.convert ordering q type wait).2 := by
  obtain ⟨pre, post, hsplit, hdistinct⟩ := h.split hq
  have hremove : removeLrq { q with requested := type } l.requests = pre ++ post := by
    rw [hsplit]
    exact removeLrq_split hdistinct rfl
  have hput := h.put hq { q with requested := type } rfl rfl rfl
  have hreq : (l.put { q with requested := type }).requests =
      pre ++ { q with requested := type } :: post := by
    show setLrq _ l.requests = _
    rw [hsplit]
    exact setLrq_split hdistinct rfl
  have hlen' : (l.put { q with requested := type }).requests.length ≤ 65535 := by
    show (setLrq _ l.requests).length ≤ 65535
    rw [setLrq_length]
    exact hlen
  have htaken := hput.take hreq
  have htest : compatible type (lockState (decr l.counts q.state)) ↔ Admits (pre ++ post) type :=
    compatible_lockState htaken.counted (by
      rw [hreq, List.length_append, List.length_cons] at hlen'
      rw [List.length_append]
      omega) htaken.compat type
  have hmem : { q with requested := type } ∈ (l.put { q with requested := type }).requests := by
    rw [hreq]
    simp
  rw [Lbl.convert_eq_ite, Queue.convert, hremove]
  by_cases hadmits : Admits (pre ++ post) type
  · obtain ⟨hcons, hgrant⟩ := htaken.grant hadmits
    have hset := hgrant.trans (@setLrq_split pre post q ({ q with requested := type } : Lrq).granted
      hdistinct rfl).symm
    rw [← hsplit] at hset
    obtain ⟨hcons', hreq'⟩ := postPending_eq ordering hcons (by rw [hset, setLrq_length]; exact hlen)
    rw [if_pos hadmits, if_pos (htest.mpr hadmits)]
    exact ⟨rfl, hreq'.trans (congrArg _ hset), hcons'⟩
  · rw [if_neg hadmits, if_neg (fun hc => hadmits (htest.mp hc))]
    cases wait with
    | true =>
        obtain ⟨hcons, hwait⟩ := waitForRequest_eq ordering hput hmem (hpending rfl)
        exact ⟨rfl, hwait, hcons⟩
    | false =>
        refine ⟨rfl, setLrq_setLrq _ rfl, ?_⟩
        exact hput.put hmem { q with requested := q.state } rfl rfl rfl

end Firebird.Lock
