import Firebird.Lock.Queue

/-! # What an operation does to a queue

Whatever the counts say, an operation of the lock manager replaces one request of the
queue, or takes it out, and grants some of the pending requests.
-/

namespace Firebird.Lock

/-! ## What an operation does to a queue -/

/-- The queue with the request `q` replaced by `x`, or taken out, after which some of
the pending requests have been granted. -/
def Effect (queue : List Lrq) (q : Lrq) (x : Option Lrq) (queue' : List Lrq) : Prop :=
  ∃ mid, mid.Perm (removeLrq q queue ++ x.toList) ∧ Advanced mid queue'

theorem mem_removeLrq {queue : List Lrq} {q r : Lrq} :
    r ∈ removeLrq q queue ↔ r ∈ queue ∧ r.ptr ≠ q.ptr := by
  simp [removeLrq]

/-- What is in the queue after the operation. -/
theorem Effect.mem {queue queue' : List Lrq} {q : Lrq} {x : Option Lrq}
    (h : Effect queue q x queue') {r' : Lrq} (hr : r' ∈ queue') :
    ∃ r, (r ∈ queue ∧ r.ptr ≠ q.ptr ∨ x = some r) ∧
      (r' = r ∨ r.pending = true ∧ r' = r.granted) := by
  obtain ⟨mid, hperm, hadv⟩ := h
  obtain ⟨i, hi, rfl⟩ := List.getElem_of_mem hr
  have hi' : i < mid.length := hadv.length_eq ▸ hi
  have hmem := hperm.subset (List.getElem_mem hi')
  rw [List.mem_append, mem_removeLrq, Option.mem_toList] at hmem
  exact ⟨mid[i], hmem, hadv.get hi' hi⟩

/-- Every other request is still there, and so is the new one. -/
theorem Effect.exists {queue queue' : List Lrq} {q r : Lrq} {x : Option Lrq}
    (h : Effect queue q x queue') (hr : r ∈ queue ∧ r.ptr ≠ q.ptr ∨ x = some r) :
    ∃ r' ∈ queue', r'.ptr = r.ptr ∧ r'.owner = r.owner := by
  obtain ⟨mid, hperm, hadv⟩ := h
  have hmem : r ∈ mid := by
    refine hperm.symm.subset ?_
    rwa [List.mem_append, mem_removeLrq, Option.mem_toList]
  obtain ⟨i, hi, rfl⟩ := List.getElem_of_mem hmem
  have hi' : i < queue'.length := hadv.length_eq ▸ hi
  refine ⟨queue'[i], List.getElem_mem hi', ?_⟩
  have hsame : ∀ r r' : Lrq, r' = r ∨ (r.pending = true ∧ r' = r.granted) →
      r'.ptr = r.ptr ∧ r'.owner = r.owner := by
    rintro r r' (rfl | ⟨-, rfl⟩) <;> exact ⟨rfl, rfl⟩
  exact hsame _ _ (hadv.get hi hi')

theorem Effect.length {queue queue' : List Lrq} {q : Lrq} {x : Option Lrq}
    (h : Effect queue q x queue') :
    queue'.length = (removeLrq q queue).length + x.toList.length := by
  obtain ⟨mid, hperm, hadv⟩ := h
  rw [← hadv.length_eq, hperm.length_eq, List.length_append]

theorem Effect.distinct {queue queue' : List Lrq} {q : Lrq} {x : Option Lrq}
    (h : Effect queue q x queue') (hd : Distinct queue) (hx : ∀ r, x = some r → r.ptr = q.ptr) :
    Distinct queue' := by
  obtain ⟨mid, hperm, hadv⟩ := h
  rw [Distinct, hadv.map_ptr, (hperm.map Lrq.ptr).nodup_iff, List.map_append]
  refine List.Nodup.append (hd.sublist (List.filter_sublist.map _)) ?_ ?_
  · cases x <;> simp
  · intro p hp hp'
    obtain ⟨r, hr, rfl⟩ := List.mem_map.mp hp
    obtain ⟨r', hr', heq⟩ := List.mem_map.mp hp'
    rw [Option.mem_toList] at hr'
    exact (mem_removeLrq.mp hr).2 (heq.symm.trans (hx r' hr'))

theorem Advanced.set {queue queue' : List Lrq} (hadv : Advanced queue queue') (q : Lrq) :
    Advanced (setLrq q queue) (setLrq q queue') := by
  induction hadv with
  | nil => exact .nil
  | cons hr _ ih =>
      refine .cons ?_ ih
      rcases hr with rfl | ⟨hp, rfl⟩
      · exact .inl rfl
      · dsimp only [Lrq.granted]
        split
        · exact .inl rfl
        · exact .inr ⟨hp, rfl⟩

/-- Granting goes on after the operation. -/
theorem Effect.advance {queue queue' queue'' : List Lrq} {q : Lrq} {x : Option Lrq}
    (h : Effect queue q x queue') (hadv : Advanced queue' queue'') : Effect queue q x queue'' := by
  obtain ⟨mid, hperm, hmid⟩ := h
  refine ⟨mid, hperm, ?_⟩
  clear hperm
  induction hmid generalizing queue'' with
  | nil => exact hadv
  | cons hr _ ih =>
      cases hadv with
      | cons hr' hadv =>
          refine .cons ?_ (ih hadv)
          rcases hr with rfl | ⟨hp, rfl⟩
          · exact hr'
          · rcases hr' with rfl | ⟨hp', -⟩
            · exact .inr ⟨hp, rfl⟩
            · exact absurd hp' (by simp [Lrq.granted])

theorem effect_set {queue : List Lrq} {q : Lrq} (hd : Distinct queue) (hq : q ∈ queue) (q' : Lrq)
    (hp : q'.ptr = q.ptr) : Effect queue q (some q') (setLrq q' queue) := by
  obtain ⟨pre, post, rfl⟩ := List.append_of_mem hq
  refine ⟨_, ?_, advanced_refl _⟩
  rw [setLrq_split hd hp, removeLrq_split hd rfl, Option.toList_some]
  exact List.perm_middle.trans (@List.perm_append_comm _ [q'] _)

/-! ## The operations on a lock block -/

theorem grant_requests (l : Lbl) (q : Lrq) : (l.grant q).requests = setLrq q.granted l.requests := by
  rw [Lbl.grant]
  split <;> rfl

theorem postPendingLoop_advanced (ordering : Bool) {l : Lbl} {done todo : List Lrq}
    (hreq : l.requests = done ++ todo) (hd : Distinct l.requests) :
    ∃ todo', (postPendingLoop ordering todo l).requests = done ++ todo' ∧ Advanced todo todo' := by
  induction todo generalizing l done with
  | nil => exact ⟨[], hreq, .nil⟩
  | cons q todo ih =>
      have hkeep : ∀ l' : Lbl, l'.requests = l.requests →
          ∃ todo', (postPendingLoop ordering todo l').requests = done ++ todo' ∧
            Advanced (q :: todo) todo' := by
        intro l' hl'
        obtain ⟨todo', htodo, hadv⟩ := @ih l' (done ++ [q]) (by simp [hl', hreq]) (hl' ▸ hd)
        exact ⟨q :: todo', by simpa using htodo, .cons (.inl rfl) hadv⟩
      have hgrant : q.pending = true → ∀ l' : Lbl, l'.requests = l.requests →
          ∃ todo', (postPendingLoop ordering todo (l'.grant q)).requests = done ++ todo' ∧
            Advanced (q :: todo) todo' := by
        intro hp l' hl'
        have hset : (l'.grant q).requests = done ++ q.granted :: todo := by
          rw [grant_requests, hl', hreq]
          exact setLrq_split (hreq ▸ hd) rfl
        obtain ⟨todo', htodo, hadv⟩ := @ih (l'.grant q) (done ++ [q.granted]) (by simp [hset]) (by
          rw [hset]
          exact (hreq ▸ hd : Distinct (done ++ q :: todo)).set q.granted rfl)
        exact ⟨q.granted :: todo', by simpa using htodo, .cons (.inr ⟨hp, rfl⟩) hadv⟩
      have hstop : ∀ l' : Lbl, l'.requests = l.requests →
          ∃ todo', l'.requests = done ++ todo' ∧ Advanced (q :: todo) todo' :=
        fun l' hl' => ⟨q :: todo, hl'.trans hreq, advanced_refl _⟩
      rw [postPendingLoop]
      split
      · exact hkeep l rfl
      · rename_i hp
        have hp : q.pending = true := by simpa using hp
        split
        · dsimp only
          split
          · exact hgrant hp _ rfl
          · split
            · exact hstop _ rfl
            · exact hkeep _ rfl
        · split
          · exact hgrant hp l rfl
          · split
            · exact hstop l rfl
            · exact hkeep l rfl

theorem postPending_advanced (ordering : Bool) {l : Lbl} (hd : Distinct l.requests) :
    Advanced l.requests (l.postPending ordering).requests := by
  rw [Lbl.postPending]
  split
  · exact advanced_refl _
  · obtain ⟨todo', htodo, hadv⟩ := @postPendingLoop_advanced ordering l [] l.requests rfl hd
    rw [htodo]
    exact hadv

theorem grant_effect (ordering : Bool) {l : Lbl} {queue : List Lrq} {q q' : Lrq}
    (hd : Distinct queue) (hq : q ∈ queue) (hp : q'.ptr = q.ptr)
    (hl : setLrq q'.granted l.requests = setLrq q'.granted queue) :
    Effect queue q (some q'.granted) ((l.grant q').postPending ordering).requests := by
  have hset : (l.grant q').requests = setLrq q'.granted queue := (grant_requests l q').trans hl
  have heff := effect_set hd hq q'.granted hp
  refine (hset ▸ heff).advance (postPending_advanced ordering ?_)
  rw [hset]
  exact heff.distinct hd fun r hr => Option.some.inj hr ▸ hp

theorem waitForRequest_effect (ordering : Bool) {l : Lbl} {q q' : Lrq} (hd : Distinct l.requests)
    (hq : q ∈ l.requests) (hp : q'.ptr = q.ptr) :
    Effect l.requests q (some q'.waiting)
      ((l.put q').waitForRequest ordering q').requests := by
  have hset : setLrq q'.waiting (setLrq q' l.requests) = setLrq q'.waiting l.requests := by
    simp only [setLrq, List.map_map]
    refine List.map_congr_left fun r _ => ?_
    simp only [Function.comp_apply]
    split <;> simp_all [Lrq.waiting]
  rw [Lbl.waitForRequest]
  split
  · refine ⟨_, ?_, advanced_refl _⟩
    show (removeLrq q' (setLrq q'.waiting (setLrq q' l.requests)) ++ [q'.waiting]).Perm _
    obtain ⟨pre, post, hsplit⟩ := List.append_of_mem hq
    rw [hset, hsplit, @setLrq_split pre post q q'.waiting (hsplit ▸ hd) hp,
      removeLrq_split (hsplit ▸ hd) rfl,
      @removeLrq_split pre post q'.waiting q'
        ((hsplit ▸ hd : Distinct (pre ++ q :: post)).set q'.waiting hp) rfl]
    rfl
  · show Effect _ _ _ (setLrq q'.waiting (setLrq q' l.requests))
    rw [hset]
    exact effect_set hd hq q'.waiting hp

theorem releaseRequest_effect (ordering : Bool) {l : Lbl} {q : Lrq} (hd : Distinct l.requests) :
    Effect l.requests q none (l.releaseRequest ordering q).requests := by
  have hbase : Effect l.requests q none (removeLrq q l.requests) :=
    ⟨_, by simp, advanced_refl _⟩
  have hpost : ∀ l' : Lbl, l'.requests = removeLrq q l.requests →
      Effect l.requests q none (l'.postPending ordering).requests := by
    intro l' hl'
    refine (hl' ▸ hbase).advance (postPending_advanced ordering ?_)
    rw [hl']
    exact hbase.distinct hd (by simp)
  rw [Lbl.releaseRequest]
  dsimp only
  split
  · split
    · exact hbase
    · split
      · refine hpost _ ?_
        split <;> rfl
      · exact hpost _ rfl
  · split
    · exact hbase
    · split
      · refine hpost _ ?_
        split <;> rfl
      · exact hpost _ rfl

/-- The new request after `grant_or_que`; a request that is denied is gone. -/
def Lrq.enqReply (q : Lrq) : Reply → Option Lrq
  | .granted => some q.granted
  | .waits => some q.waiting
  | .denied => none

theorem grantOrQue_effect (ordering : Bool) {l : Lbl} {q : Lrq} (hd : Distinct l.requests)
    (hq : q ∈ l.requests) (wait : Bool) :
    Effect l.requests q (q.enqReply (l.grantOrQue ordering q wait).1)
      (l.grantOrQue ordering q wait).2.requests := by
  rw [Lbl.grantOrQue]
  split
  · exact grant_effect ordering hd hq rfl rfl
  · split
    · have heff := waitForRequest_effect ordering hd hq rfl
      have hput : l.put q = l := by
        obtain ⟨pre, post, hsplit⟩ := List.append_of_mem hq
        rw [Lbl.put, hsplit, @setLrq_split pre post q q (hsplit ▸ hd) rfl, ← hsplit]
      rwa [hput] at heff
    · exact releaseRequest_effect ordering hd

/-- The request after `convert`. -/
def Lrq.convertReply (q : Lrq) (type : Lck) : Reply → Lrq
  | .granted => ({ q with requested := type } : Lrq).granted
  | .waits => ({ q with requested := type } : Lrq).waiting
  | .denied => { q with requested := q.state }

theorem convert_effect (ordering : Bool) {l : Lbl} {q : Lrq} (hd : Distinct l.requests)
    (hq : q ∈ l.requests) (type : Lck) (wait : Bool) :
    Effect l.requests q (some (q.convertReply type (l.convert ordering q type wait).1))
      (l.convert ordering q type wait).2.requests := by
  rw [Lbl.convert_eq_ite]
  split
  · exact grant_effect ordering hd hq rfl (setLrq_setLrq _ rfl)
  · split
    · exact waitForRequest_effect ordering hd hq rfl
    · have hset : ((l.put { q with requested := type }).put { q with requested := q.state }).requests =
          setLrq { q with requested := q.state } l.requests := setLrq_setLrq _ rfl
      rw [hset]
      exact effect_set hd hq { q with requested := q.state } rfl

end Firebird.Lock
