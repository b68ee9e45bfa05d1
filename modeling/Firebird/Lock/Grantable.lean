import Firebird.Lock.Safety

/-! # No grantable request is left waiting

A pass over a queue leaves no pending request that could be granted, with ordering no
such request at the head of those that wait. This holds until the next pass if the
requests that start waiting in between keep to an order: without ordering no
conversion goes from protected read to shared write or back, and with ordering a
conversion that waits stands before all others that wait.
-/

namespace Firebird.Lock

open Transition (Reachable System)

variable {ordering : Bool}

/-! ## Blocked requests -/

/-- The pending requests of a queue behind `done` are not compatible with all others;
with ordering this is said of the first one only. -/
def Blocked (ordering : Bool) : List Lrq → List Lrq → Prop
  | _, [] => True
  | done, q :: queue =>
      if q.pending then
        ¬Admits (done ++ queue) q.requested ∧ (ordering = true ∨ Blocked ordering (done ++ [q]) queue)
      else Blocked ordering (done ++ [q]) queue

/-- The two states of a conversion are protected read and shared write. -/
def crosses (a b : Lck) : Prop := (a = .PR ∧ b = .SW) ∨ (a = .SW ∧ b = .PR)

instance (a b : Lck) : Decidable (crosses a b) := by
  unfold crosses
  infer_instance

/-- What blocks a request that this one blocks is no less when this one is granted. -/
def Rising (q : Lrq) : Prop := q.state.toNat ≤ q.requested.toNat ∧ ¬crosses q.state q.requested

/-- The order kept by the requests that wait. -/
def InOrder (ordering : Bool) (queue : List Lrq) : Prop :=
  if ordering then
    queue.Pairwise fun a b => ¬(a.pending = true ∧ b.pending = true ∧ b.conversion = true)
  else ∀ q ∈ queue, q.pending = true → Rising q

theorem admits_append {a b : List Lrq} {s : Lck} : Admits (a ++ b) s ↔ Admits a s ∧ Admits b s := by
  simp [Admits, or_imp, forall_and]

theorem admits_cons {q : Lrq} {b : List Lrq} {s : Lck} :
    Admits (q :: b) s ↔ compatible s q.state ∧ Admits b s := List.forall_mem_cons

/-- Only what the requests in front admit matters. -/
theorem blocked_congr {done done' queue : List Lrq} (h : ∀ s, Admits done s ↔ Admits done' s) :
    Blocked ordering done queue ↔ Blocked ordering done' queue := by
  induction queue generalizing done done' with
  | nil => exact Iff.rfl
  | cons q queue ih =>
      have hnext := @ih (done ++ [q]) (done' ++ [q]) fun s => by rw [admits_append, admits_append, h]
      rw [Blocked, Blocked, admits_append, admits_append, h, hnext]

/-- Granting a rising request does not free anyone. -/
theorem Advanced.admits {queue queue' : List Lrq} (h : Advanced queue queue')
    (hrising : ∀ q ∈ queue, q.pending = true → Rising q) {s : Lck} (hs : Admits queue' s) :
    Admits queue s := by
  induction h with
  | nil => exact hs
  | @cons r r' queue queue' hr _ ih =>
      have hrest := ih (fun q hq => hrising q (List.mem_cons_of_mem _ hq))
        fun q hq => hs q (List.mem_cons_of_mem _ hq)
      have hhead : compatible s r.state := by
        have hr' := hs r' List.mem_cons_self
        rcases hr with rfl | ⟨hp, rfl⟩
        · exact hr'
        · obtain ⟨hle, hcross⟩ := hrising r List.mem_cons_self hp
          exact compatible_of_le s hle (fun hpr => hcross (.inl hpr)) hr'
      intro q hq
      rcases List.mem_cons.mp hq with rfl | hq
      · exact hhead
      · exact hrest q hq

/-- After a pass the pending requests are blocked. -/
theorem pass_blocked {done queue : List Lrq}
    (hrising : ordering = false → ∀ q ∈ queue, q.pending = true → Rising q) :
    ∃ queue', Queue.pass ordering done queue = done ++ queue' ∧ Advanced queue queue' ∧
      Blocked ordering done queue' := by
  induction queue generalizing done with
  | nil => exact ⟨[], by simp [Queue.pass], .nil, trivial⟩
  | cons q queue ih =>
      have hrest : ordering = false → ∀ r ∈ queue, r.pending = true → Rising r :=
        fun h r hr => hrising h r (List.mem_cons_of_mem _ hr)
      obtain ⟨kept, hkept, hadv, hblocked⟩ := @ih (done ++ [q]) hrest
      obtain ⟨granted, hgranted, hadv', hblocked'⟩ := @ih (done ++ [q.granted]) hrest
      have hkeep : ∀ p : Prop, p → Queue.pass ordering (done ++ [q]) queue = done ++ q :: kept ∧
          Advanced (q :: queue) (q :: kept) ∧ p :=
        fun p hp => ⟨by simp [hkept], .cons (.inl rfl) hadv, hp⟩
      rw [Queue.pass]
      by_cases hp : q.pending = true
      · rw [if_pos hp]
        split
        · refine ⟨q.granted :: granted, by simp [hgranted], .cons (.inr ⟨hp, rfl⟩) hadv', ?_⟩
          rw [Blocked, if_neg (by simp [Lrq.granted])]
          exact hblocked'
        · rename_i hadmits
          split
          · rename_i hord
            refine ⟨q :: queue, rfl, advanced_refl _, ?_⟩
            rw [Blocked, if_pos hp]
            exact ⟨hadmits, .inl hord⟩
          · rename_i hord
            refine ⟨q :: kept, hkeep _ ?_⟩
            rw [Blocked, if_pos hp]
            refine ⟨fun h => hadmits ?_, .inr hblocked⟩
            rw [admits_append] at h ⊢
            exact ⟨h.1, hadv.admits (hrest (by simpa using hord)) h.2⟩
      · rw [if_neg hp]
        refine ⟨q :: kept, hkeep _ ?_⟩
        rw [Blocked, if_neg hp]
        exact hblocked

/-! ## The order of those that wait -/

theorem InOrder.rising {queue : List Lrq} (h : InOrder ordering queue) :
    ordering = false → ∀ q ∈ queue, q.pending = true → Rising q := by
  rintro rfl
  exact h

/-- Some requests have been rewritten, and are not pending. -/
def Fewer (queue queue' : List Lrq) : Prop :=
  List.Forall₂ (fun r r' => r' = r ∨ r'.pending = false) queue queue'

theorem Fewer.mem {queue queue' : List Lrq} (h : Fewer queue queue') {r : Lrq} (hr : r ∈ queue')
    (hp : r.pending = true) : r ∈ queue := by
  induction h with
  | nil => exact hr
  | cons hab _ ih =>
      rcases List.mem_cons.mp hr with rfl | hr
      · rcases hab with rfl | hno
        · exact List.mem_cons_self
        · rw [hp] at hno
          cases hno
      · exact List.mem_cons_of_mem _ (ih hr)

theorem InOrder.fewer {queue queue' : List Lrq} (h : InOrder ordering queue)
    (hfewer : Fewer queue queue') : InOrder ordering queue' := by
  cases ordering with
  | false => exact fun r hr hp => h r (hfewer.mem hr hp) hp
  | true =>
      unfold InOrder at h ⊢
      rw [if_pos rfl] at h ⊢
      induction hfewer with
      | nil => exact .nil
      | cons hab hrest ih =>
          rw [List.pairwise_cons] at h ⊢
          refine ⟨fun r hr hpair => ?_, ih h.2⟩
          rcases hab with rfl | hno
          · exact h.1 r (Fewer.mem hrest hr hpair.2.1) hpair
          · rw [hpair.1] at hno
            cases hno

theorem Advanced.fewer {queue queue' : List Lrq} (h : Advanced queue queue') :
    Fewer queue queue' := by
  refine List.Forall₂.imp (fun r r' hr => ?_) h
  rcases hr with rfl | ⟨-, rfl⟩
  · exact .inl rfl
  · exact .inr rfl

theorem fewer_setLrq {q : Lrq} (hp : q.pending = false) (queue : List Lrq) :
    Fewer queue (setLrq q queue) := by
  rw [Fewer, setLrq, List.forall₂_map_right_iff, List.forall₂_same]
  intro r _
  split
  · exact .inr hp
  · exact .inl rfl

theorem InOrder.sublist {queue queue' : List Lrq} (h : InOrder ordering queue)
    (hsub : queue'.Sublist queue) : InOrder ordering queue' := by
  cases ordering with
  | false => exact fun r hr => h r (hsub.subset hr)
  | true => exact List.Pairwise.sublist hsub h

/-- A request without a state waits at the end of the queue. -/
theorem InOrder.append {queue : List Lrq} (h : InOrder ordering queue) {q : Lrq}
    (hstate : q.state = .none) : InOrder ordering (queue ++ [q]) := by
  cases ordering with
  | false =>
      intro r hr hp
      rcases List.mem_append.mp hr with hr | hr
      · exact h r hr hp
      · obtain rfl := List.mem_singleton.mp hr
        exact ⟨by simp [hstate, Lck.toNat], by simp [crosses, hstate]⟩
  | true =>
      refine List.pairwise_append.mpr ⟨h, List.pairwise_singleton _ _, fun a _ b hb hpair => ?_⟩
      obtain rfl := List.mem_singleton.mp hb
      simp [Lrq.conversion, hstate, Lck.toNat] at hpair

/-! ## Blocked requests between two passes -/

theorem Blocked.append {done queue : List Lrq} (h : Blocked ordering done queue) {q : Lrq}
    (hq : (ordering = true → ∀ r ∈ queue, r.pending = false) → ¬Admits (done ++ queue) q.requested) :
    Blocked ordering done (queue ++ [q]) := by
  induction queue generalizing done with
  | nil =>
      rw [List.nil_append, Blocked]
      split
      · exact ⟨hq (by simp), .inr trivial⟩
      · trivial
  | cons r queue ih =>
      rw [List.cons_append, Blocked]
      rw [Blocked] at h
      have hshift : done ++ [r] ++ queue = done ++ r :: queue := by simp
      by_cases hp : r.pending = true
      · rw [if_pos hp] at h ⊢
        refine ⟨fun hadmits => h.1 fun s hs => hadmits s ?_, ?_⟩
        · rw [← List.append_assoc]
          exact List.mem_append_left _ hs
        · cases ordering with
          | true => exact .inl rfl
          | false =>
              refine .inr (ih (h.2.resolve_left (by simp)) fun _ => ?_)
              rw [hshift]
              exact hq (by simp)
      · rw [if_neg hp] at h ⊢
        refine ih h fun hnone => ?_
        rw [hshift]
        refine hq fun hord s hs => ?_
        rcases List.mem_cons.mp hs with rfl | hs
        · simpa using hp
        · exact hnone hord s hs

theorem Blocked.tail {done queue : List Lrq} {q : Lrq} (h : Blocked ordering done (q :: queue))
    (hq : q.pending = false ∨ ordering = false) : Blocked ordering (done ++ [q]) queue := by
  rw [Blocked] at h
  split at h
  · rename_i hp
    refine h.2.resolve_left fun hord => ?_
    rcases hq with hq | hq
    · rw [hp] at hq
      cases hq
    · rw [hord] at hq
      cases hq
  · exact h

/-- Taking a request without a state out of the queue. -/
theorem Blocked.remove {done pre post : List Lrq} {q : Lrq}
    (h : Blocked ordering done (pre ++ q :: post)) (hp : q.pending = false) (hstate : q.state = .none) :
    Blocked ordering done (pre ++ post) := by
  induction pre generalizing done with
  | nil =>
      refine (blocked_congr fun s => ?_).mp (h.tail (.inl hp))
      rw [admits_append, admits_cons, hstate, compatible_none_right]
      exact and_iff_left ⟨rfl, fun _ hr => absurd hr List.not_mem_nil⟩
  | cons r pre ih =>
      rw [List.cons_append, Blocked] at h ⊢
      have hadmits : Admits (done ++ (pre ++ q :: post)) r.requested ↔
          Admits (done ++ (pre ++ post)) r.requested := by
        simp [admits_append, admits_cons, hstate]
      rw [hadmits] at h
      by_cases hr : r.pending = true
      · rw [if_pos hr] at h ⊢
        exact ⟨h.1, h.2.imp_right ih⟩
      · rw [if_neg hr] at h ⊢
        exact ih h

/-- A request is rewritten in its state. -/
theorem Blocked.replace {done pre post : List Lrq} {q q' : Lrq}
    (h : Blocked ordering done (pre ++ q :: post)) (hq : q.pending = false ∨ ordering = false)
    (hstate : q'.state = q.state)
    (hq' : q'.pending = true → ¬Admits (done ++ (pre ++ post)) q'.requested) :
    Blocked ordering done (pre ++ q' :: post) := by
  induction pre generalizing done with
  | nil =>
      have htail : Blocked ordering (done ++ [q']) post := by
        refine (blocked_congr fun s => ?_).mp (h.tail hq)
        rw [admits_append, admits_append, admits_cons, admits_cons, hstate]
      rw [List.nil_append, Blocked]
      split
      · rename_i hp
        exact ⟨hq' hp, .inr htail⟩
      · exact htail
  | cons r pre ih =>
      have hshift : done ++ [r] ++ (pre ++ post) = done ++ (r :: pre ++ post) := by simp
      have hnext : Blocked ordering (done ++ [r]) (pre ++ q :: post) →
          Blocked ordering (done ++ [r]) (pre ++ q' :: post) := fun h => ih h (by rwa [hshift])
      rw [List.cons_append, Blocked] at h ⊢
      have hadmits : Admits (done ++ (pre ++ q :: post)) r.requested ↔
          Admits (done ++ (pre ++ q' :: post)) r.requested := by
        simp [admits_append, admits_cons, hstate]
      rw [hadmits] at h
      by_cases hr : r.pending = true
      · rw [if_pos hr] at h ⊢
        exact ⟨h.1, h.2.imp_right hnext⟩
      · rw [if_neg hr] at h ⊢
        exact hnext h

/-! ## The operations on a queue -/

theorem pass_turn {queue : List Lrq} (h : InOrder ordering queue) :
    InOrder ordering (Queue.postPending ordering queue) ∧
      Blocked ordering [] (Queue.postPending ordering queue) := by
  obtain ⟨queue', hpass, hadv, hblocked⟩ := @pass_blocked ordering [] queue h.rising
  rw [Queue.postPending, hpass]
  exact ⟨h.fewer hadv.fewer, hblocked⟩

theorem releaseRequest_turn {queue : List Lrq} (h : InOrder ordering queue) (q : Lrq) :
    InOrder ordering (Queue.releaseRequest ordering q queue) ∧
      Blocked ordering [] (Queue.releaseRequest ordering q queue) :=
  pass_turn (h.sublist List.filter_sublist)

theorem waitForRequest_last {queue : List Lrq} {q : Lrq} (hd : Distinct (queue ++ [q])) :
    Queue.waitForRequest ordering q (queue ++ [q]) = queue ++ [q.waiting] := by
  rw [Queue.waitForRequest]
  split
  · rw [removeLrq_split hd rfl, List.append_nil]
  · exact @setLrq_split queue [] q q.waiting hd rfl

/-- A new request. If it is left waiting, the pending requests are blocked if they were
before; otherwise they are in any case. -/
theorem grantOrQue_turn {queue : List Lrq} {q : Lrq} (h : InOrder ordering queue)
    (hd : Distinct (queue ++ [q])) (hstate : q.state = .none) (hpending : q.pending = false)
    (wait : Bool) : InOrder ordering (Queue.grantOrQue ordering q wait (queue ++ [q])).2 ∧
      (((Queue.grantOrQue ordering q wait (queue ++ [q])).1 = .waits → Blocked ordering [] queue) →
        Blocked ordering [] (Queue.grantOrQue ordering q wait (queue ++ [q])).2) := by
  have horder : InOrder ordering (queue ++ [q]) := h.append hstate
  have hremove : removeLrq q (queue ++ [q]) = queue := by
    rw [removeLrq_split hd rfl, List.append_nil]
  rw [Queue.grantOrQue, hremove]
  split
  · have hturn := pass_turn (horder.fewer (fewer_setLrq (q := q.granted) rfl _))
    exact ⟨hturn.1, fun _ => hturn.2⟩
  · rename_i hno
    cases wait with
    | true =>
        simp only [if_true, waitForRequest_last hd]
        refine ⟨h.append hstate, fun hblocked => (hblocked trivial).append fun hnone hadmits => ?_⟩
        refine hno ⟨hadmits, ?_⟩
        cases ordering with
        | false => exact .inl rfl
        | true =>
            refine .inr (.inr fun r hr => ?_)
            rcases List.mem_append.mp hr with hr | hr
            · exact hnone rfl r hr
            · rw [List.mem_singleton.mp hr]
              exact hpending
    | false =>
        have hturn := releaseRequest_turn horder q
        exact ⟨hturn.1, fun _ => hturn.2⟩

/-- A conversion keeps to the order of those that wait. -/
def ConvertInTurn (ordering : Bool) (queue : List Lrq) (q : Lrq) (type : Lck) (wait : Bool) : Prop :=
  Admits (removeLrq q queue) type ∨ (q.pending = false ∧ (wait = true →
    if ordering then
      q.state ≠ .none → ∀ pre post, queue = pre ++ q :: post →
        (∀ r ∈ post, r.pending = true → r.conversion = false) ∧
          (q.conversion = true → ∀ r ∈ pre, r.pending = false)
    else ¬crosses q.state type))

theorem rising_of_blocked {queue : List Lrq} {q : Lrq} (hadmits : Admits queue q.state)
    (hblocked : ¬Admits queue q.requested) (hcross : ¬crosses q.state q.requested) : Rising q := by
  refine ⟨?_, hcross⟩
  by_contra hlt
  refine hblocked fun r hr => ?_
  rw [compatible_comm]
  refine compatible_of_le r.state (by omega) (fun hpr => hcross (.inr ⟨hpr.2, hpr.1⟩)) ?_
  rw [compatible_comm]
  exact hadmits r hr

/-- A conversion that keeps to the order. -/
theorem convert_turn {queue : List Lrq} {q : Lrq} {type : Lck} {wait : Bool}
    (h : InOrder ordering queue) (hd : Distinct queue) (hc : AllCompatible queue) (hq : q ∈ queue)
    (hturn : ConvertInTurn ordering queue q type wait) :
    InOrder ordering (Queue.convert ordering q type wait queue).2 ∧
      (((Queue.convert ordering q type wait queue).1 ≠ .granted → Blocked ordering [] queue) →
        Blocked ordering [] (Queue.convert ordering q type wait queue).2) := by
  obtain ⟨pre, post, rfl⟩ := List.append_of_mem hq
  have hset : ∀ q' : Lrq, q'.ptr = q.ptr → setLrq q' (pre ++ q :: post) = pre ++ q' :: post :=
    fun q' hp => setLrq_split hd hp
  have hremove : ∀ q' : Lrq, q'.ptr = q.ptr → removeLrq q' (pre ++ q :: post) = pre ++ post :=
    fun q' hp => removeLrq_split hd hp
  rw [ConvertInTurn, hremove q rfl] at hturn
  rw [Queue.convert]
  dsimp only
  rw [hremove { q with requested := type } rfl]
  by_cases hadmits : Admits (pre ++ post) type
  · rw [if_pos hadmits]
    have hturn := pass_turn (h.fewer (fewer_setLrq (q := ({ q with requested := type } : Lrq).granted)
      rfl _))
    exact ⟨hturn.1, fun _ => hturn.2⟩
  · rw [if_neg hadmits]
    obtain ⟨hpending, hturn⟩ := hturn.resolve_left hadmits
    cases wait with
    | true =>
        have hturn := hturn rfl
        simp only [if_true]
        rw [hset { q with requested := type } rfl, Queue.waitForRequest]
        by_cases hmove : ordering = true ∧ q.state = .none
        · rw [if_pos hmove, removeLrq_split (hd.set { q with requested := type } rfl) rfl]
          refine ⟨(h.sublist ?_).append hmove.2, fun hblocked => ?_⟩
          · exact List.Sublist.append_left (List.sublist_cons_self q post) pre
          · exact ((hblocked (by simp)).remove hpending hmove.2).append fun _ => hadmits
        · rw [if_neg hmove, @setLrq_split pre post { q with requested := type }
            ({ q with requested := type } : Lrq).waiting (hd.set { q with requested := type } rfl) rfl]
          refine ⟨?_, fun hblocked => (hblocked (by simp)).replace (.inl hpending) rfl fun _ => hadmits⟩
          cases ordering with
          | false =>
              intro r hr hp
              rcases List.mem_append.mp hr with hr | hr
              · exact h r (List.mem_append_left _ hr) hp
              · rcases List.mem_cons.mp hr with rfl | hr
                · exact rising_of_blocked (allCompatible_split.mp hc).2 hadmits hturn
                · exact h r (List.mem_append_right _ (List.mem_cons_of_mem _ hr)) hp
          | true =>
              rw [if_pos rfl] at hturn
              obtain ⟨hpost, hpre⟩ := hturn (fun hnone => hmove ⟨rfl, hnone⟩) pre post rfl
              unfold InOrder at h ⊢
              rw [if_pos rfl] at h ⊢
              rw [List.pairwise_append, List.pairwise_cons] at h ⊢
              refine ⟨h.1, ⟨fun b hb hpair => ?_, h.2.1.2⟩, fun a ha b hb hpair => ?_⟩
              · rw [hpost b hb hpair.2.1] at hpair
                cases hpair.2.2
              · rcases List.mem_cons.mp hb with rfl | hb
                · have hno := hpre hpair.2.2 a ha
                  rw [hpair.1] at hno
                  cases hno
                · exact h.2.2 a ha b (List.mem_cons_of_mem _ hb) hpair
    | false =>
        simp only [if_false, Bool.false_eq_true]
        rw [hset { q with requested := q.state } rfl]
        refine ⟨?_, fun hblocked => (hblocked (by simp)).replace (.inl hpending) rfl fun hp => ?_⟩
        · have hfewer := fewer_setLrq (q := { q with requested := q.state }) hpending (pre ++ q :: post)
          rw [hset { q with requested := q.state } rfl] at hfewer
          exact h.fewer hfewer
        · have hp : q.pending = true := hp
          rw [hpending] at hp
          cases hp

theorem reject_turn {queue : List Lrq} {q : Lrq} (q' : Lrq) (h : InOrder ordering queue)
    (hd : Distinct queue) (hq : q ∈ queue) (hp : q'.ptr = q.ptr) (hstate : q'.state = q.state)
    (hpending : q'.pending = false) :
    InOrder ordering (setLrq q' queue) ∧
      (q.pending = false ∨ ordering = false → Blocked ordering [] queue →
        Blocked ordering [] (setLrq q' queue)) := by
  refine ⟨h.fewer (fewer_setLrq hpending queue), fun hor hblocked => ?_⟩
  obtain ⟨pre, post, rfl⟩ := List.append_of_mem hq
  rw [setLrq_split hd hp]
  refine hblocked.replace hor hstate fun hno => ?_
  rw [hpending] at hno
  cases hno

/-! ## The lock table -/

/-- A rejected request of the lock waits for the clean-up by its owner. -/
def Table.CleaningUp (t : Table) (b : ℕ) : Prop :=
  ∃ q ∈ (t.lbl b).requests, q.rejected = true ∧ q.pending = false ∧
    (t.own q.owner).awaits = some ⟨b, q.ptr⟩

/-- The operation leaves room on the lock and keeps to the order of those that wait. -/
def InTurn (ordering : Bool) (t : Table) (op : Op) : Prop :=
  Room t op ∧ match op with
    | .convert r type wait => ∀ q, t.getRequest r = some q →
        ConvertInTurn ordering (t.lbl r.lock).requests q type wait
    | .downgrade r => ∀ q, t.getRequest r = some q →
        ConvertInTurn ordering (t.lbl r.lock).requests q
          (downgradeState ((t.lbl r.lock).pendingState q) q.state) false
    | _ => True

/-- The requests that wait are in order and blocked; with ordering they may be overdue
while a rejected request is cleaned up. -/
structure Turn (ordering : Bool) (t : Table) : Prop where
  order : ∀ b, InOrder ordering (t.lbl b).requests
  blocked : ∀ b, (ordering = true → ¬t.CleaningUp b) → Blocked ordering [] (t.lbl b).requests

variable {t : Table}

/-- The owners that clean up still do. -/
theorem Table.CleaningUp.congr {t' : Table} {b : ℕ} (h : t.CleaningUp b)
    (hlbl : (t'.lbl b).requests = (t.lbl b).requests)
    (hown : ∀ o p, (t.own o).awaits = some ⟨b, p⟩ → (t'.own o).awaits = some ⟨b, p⟩) :
    t'.CleaningUp b := by
  obtain ⟨q, hq, hrejected, hpending, haw⟩ := h
  exact ⟨q, hlbl ▸ hq, hrejected, hpending, hown _ _ haw⟩

/-- One lock block is rewritten, and those who wait for other locks still do. -/
theorem Turn.store (h : Turn ordering t) {t' : Table} {b : ℕ} {l : Lbl} (hlbl : t'.lbl = t.lbl)
    (hown : ∀ o p, p.lock ≠ b → (t.own o).awaits = some p → (t'.own o).awaits = some p)
    (horder : InOrder ordering l.requests)
    (hblocked : (ordering = true → ¬(t'.store b l).CleaningUp b) → Blocked ordering [] l.requests) :
    Turn ordering (t'.store b l) := by
  have hself : ((t'.store b l).lbl b).requests = l.requests := by rw [store_lbl_self]
  have hsame : ∀ b', b' ≠ b → ((t'.store b l).lbl b').requests = (t.lbl b').requests :=
    fun b' hb => by rw [store_lbl_ne _ _ _ hb, hlbl]
  refine ⟨fun b' => ?_, fun b' hno => ?_⟩
  · by_cases hb : b' = b
    · rw [hb, hself]
      exact horder
    · rw [hsame b' hb]
      exact h.order b'
  · by_cases hb : b' = b
    · subst hb
      rw [hself]
      exact hblocked hno
    · rw [hsame b' hb]
      refine h.blocked b' fun hord hup => hno hord (hup.congr (hsame b' hb) fun o p haw => ?_)
      rw [store_own]
      exact hown o ⟨b', p⟩ hb haw

/-- A request that is not pending stays as it is while others are granted. -/
theorem Effect.mem_of_not_pending {queue queue' : List Lrq} {q r : Lrq} {x : Option Lrq}
    (h : Effect queue q x queue') (hr : r ∈ queue ∧ r.ptr ≠ q.ptr ∨ x = some r)
    (hpending : r.pending = false) : r ∈ queue' := by
  obtain ⟨mid, hperm, hadv⟩ := h
  refine hadv.mem_of_not_pending (hperm.symm.subset ?_) hpending
  rwa [List.mem_append, mem_removeLrq, Option.mem_toList]

/-- Only the owner's block is rewritten. -/
theorem awaits_setOwn {owner : ℕ} {f : Own → Own} {b : ℕ}
    (hf : ∀ p, p.lock ≠ b → (t.own owner).awaits = some p → (f (t.own owner)).awaits = some p) :
    ∀ o p, p.lock ≠ b → (t.own o).awaits = some p → ((t.setOwn owner f).own o).awaits = some p := by
  intro o p hp haw
  by_cases ho : o = owner
  · subst ho
    rw [setOwn_own_self]
    exact hf p hp haw
  · rwa [setOwn_own_ne _ _ ho]

theorem Turn.releaseRequest (h : Turn ordering t) (hc : Counts t) {r : Ref} {q : Lrq}
    (hget : t.getRequest r = some q) {t' : Table} (hlbl : t'.lbl = t.lbl)
    (hown : ∀ o p, p.lock ≠ r.lock → (t.own o).awaits = some p → (t'.own o).awaits = some p) :
    Turn ordering (t'.releaseRequest ordering r q) := by
  obtain ⟨hq, -⟩ := mem_of_getRequest hget
  obtain ⟨hcons, hlen⟩ := hc.of_mem hq
  have hturn := releaseRequest_turn (h.order r.lock) q
  rw [← (releaseRequest_eq ordering hcons hq hlen).1] at hturn
  rw [Table.releaseRequest, hlbl]
  refine h.store hlbl (fun o p hp haw => ?_) hturn.1 fun _ => hturn.2
  exact awaits_setOwn (fun _ _ haw => haw) o p hp (hown o p hp haw)

theorem Turn.deq (h : Turn ordering t) (hc : Counts t) {t' : Table} {r : Ref}
    (hstep : t.deq ordering r = some t') : Turn ordering t' := by
  obtain ⟨q, hget, -, rfl⟩ := deq_cases hstep
  exact h.releaseRequest hc hget rfl fun _ _ _ haw => haw

theorem Turn.purgeLoop {rs : List Ref} (h : Turn ordering t) (hc : Counts t) :
    Turn ordering (Table.purgeLoop ordering rs t) := by
  induction rs generalizing t with
  | nil => exact h
  | cons r rs ih =>
      rw [Table.purgeLoop]
      split
      · rename_i q hget
        exact ih (h.releaseRequest hc hget rfl fun _ _ _ haw => haw) (hc.releaseRequest hget)
      · exact ih h hc

theorem Turn.purgeOwner (h : Turn ordering t) (hc : Counts t) (hs : Sound t) (owner : ℕ) :
    Turn ordering (t.purgeOwner ordering owner) := by
  have hloop : Turn ordering (Table.purgeLoop ordering (t.own owner).requests t) := h.purgeLoop hc
  have hne := hs.linked.purgeLoop_owner ordering owner
  refine ⟨hloop.order, fun b hno => hloop.blocked b fun hord hup => hno hord ?_⟩
  obtain ⟨q, hq, hrejected, hpending, haw⟩ := hup
  refine ⟨q, hq, hrejected, hpending, ?_⟩
  rw [Table.purgeOwner, setOwn_own_ne _ _ (hne b q hq)]
  exact haw

theorem Turn.enqueue (h : Turn ordering t) (hc : Counts t) {owner b lrq : ℕ} {type : Lck} {wait : Bool}
    (hne : (t.lbl b).requests ≠ []) (hfresh : ∀ r ∈ (t.lbl b).requests, r.ptr ≠ lrq)
    (hidle : wait = true → (t.own owner).waiting = none)
    (hroom : (t.lbl b).requests.length < 65535) :
    Turn ordering (t.enqueue ordering owner b (Lrq.enq lrq owner type) wait) := by
  have hcons := (hc b hne).1.insert (q := Lrq.enq lrq owner type) rfl rfl hfresh
  have hmem : Lrq.enq lrq owner type ∈ (t.lbl b).requests ++ [Lrq.enq lrq owner type] := by simp
  have hlen : ((t.lbl b).requests ++ [Lrq.enq lrq owner type]).length ≤ 65535 := by
    rw [List.length_append, List.length_singleton]
    omega
  obtain ⟨hreply, hqueue, -⟩ := grantOrQue_eq ordering hcons hmem rfl rfl wait hlen
  have heff := grantOrQue_effect ordering hcons.distinct hmem wait
  obtain ⟨horder, hblocked⟩ := grantOrQue_turn (h.order b) hcons.distinct rfl rfl wait
  rw [← hqueue] at horder hblocked
  rw [← hreply] at hblocked
  have hidle : (Lbl.grantOrQue ordering { t.lbl b with
      requests := (t.lbl b).requests ++ [Lrq.enq lrq owner type] } (Lrq.enq lrq owner type) wait).1 =
        .waits → (t.own owner).waiting = none := fun hreply => hidle (Lbl.wait_of_grantOrQue hreply)
  rw [Table.enqueue]
  dsimp only
  generalize Lbl.grantOrQue ordering { t.lbl b with
    requests := (t.lbl b).requests ++ [Lrq.enq lrq owner type] } (Lrq.enq lrq owner type) wait = res
    at heff horder hblocked hidle ⊢
  obtain ⟨reply, l⟩ := res
  have hown : ∀ p, (t.own owner).awaits = some p →
      ((t.own owner).enq ⟨b, lrq⟩ reply).awaits = some p := by
    intro p haw
    cases reply with
    | granted => exact haw
    | waits =>
        rw [Own.awaits, hidle rfl] at haw
        cases haw
    | denied => exact haw
  refine h.store (setOwn_lbl _ _ _) (awaits_setOwn fun p _ => hown p) horder fun hno => ?_
  refine hblocked fun hreply => h.blocked b fun hord => ?_
  rintro ⟨q, hq, hrejected, hpending, haw⟩
  refine hno hord ⟨q, ?_, hrejected, hpending, ?_⟩
  · rw [store_lbl_self]
    exact heff.mem_of_not_pending (.inl ⟨List.mem_append_left _ hq, hfresh q hq⟩) hpending
  · rw [store_own]
    by_cases ho : q.owner = owner
    · rw [ho, setOwn_own_self]
      exact hown _ (ho ▸ haw)
    · rwa [setOwn_own_ne _ _ ho]

theorem Turn.convert (h : Turn ordering t) (hc : Counts t) (hs : Sound t) {t' : Table} {r : Ref}
    {type : Lck} {wait : Bool} (hturn : ∀ q, t.getRequest r = some q →
      ConvertInTurn ordering (t.lbl r.lock).requests q type wait)
    (hstep : t.convert ordering r type wait = some t') : Turn ordering t' := by
  obtain ⟨q, hget, hidle, rfl⟩ := convert_cases hstep
  obtain ⟨hq, hr⟩ := mem_of_getRequest hget
  obtain ⟨hcons, hlen⟩ := hc.of_mem hq
  have hpending : wait = true → q.pending = false := by
    intro hw
    refine ((hs.linked.good r.lock q hq).quiet trivial ?_).1
    rw [Own.awaits, hidle hw]
    simp
  obtain ⟨hreply, hqueue, -⟩ := convert_eq ordering hcons hq type hpending hlen
  have heff := convert_effect ordering hcons.distinct hq type wait
  obtain ⟨horder, hblocked⟩ := convert_turn (h.order r.lock) hcons.distinct hcons.compat hq
    (hturn q hget)
  rw [← hqueue] at horder hblocked
  rw [← hreply] at hblocked
  have hidle : ((t.lbl r.lock).convert ordering q type wait).1 = .waits →
      (t.own q.owner).waiting = none := fun hreply => hidle (Lbl.wait_of_convert hreply)
  generalize (t.lbl r.lock).convert ordering q type wait = res at heff horder hblocked hidle ⊢
  obtain ⟨reply, l⟩ := res
  have hown : ∀ p, (t.own q.owner).awaits = some p →
      ((t.own q.owner).convert r reply).awaits = some p := by
    intro p haw
    cases reply with
    | granted => exact haw
    | waits =>
        rw [Own.awaits, hidle rfl] at haw
        cases haw
    | denied => exact haw
  refine h.store (setOwn_lbl _ _ _) (awaits_setOwn fun p _ => hown p) horder fun hno => ?_
  refine hblocked fun hreply => h.blocked r.lock fun hord => ?_
  rintro ⟨p, hp, hrejected, hp', haw⟩
  have hawaits : ((t.setOwn q.owner (Own.convert r reply)).own p.owner).awaits =
      some ⟨r.lock, p.ptr⟩ := by
    by_cases ho : p.owner = q.owner
    · rw [ho, setOwn_own_self]
      exact hown _ (ho ▸ haw)
    · rwa [setOwn_own_ne _ _ ho]
  by_cases hpq : p.ptr = q.ptr
  · -- the request to be cleaned up is the one whose conversion is denied
    obtain rfl := hs.linked.eq_of_ptr hq hp hpq
    cases reply with
    | granted => exact hreply rfl
    | waits =>
        rw [Own.awaits, hidle rfl] at haw
        cases haw
    | denied =>
        refine hno hord ⟨{ p with requested := p.state }, ?_, hrejected, hp', ?_⟩
        · rw [store_lbl_self]
          exact heff.mem_of_not_pending (.inr rfl) hp'
        · rw [store_own]
          exact hawaits
  · refine hno hord ⟨p, ?_, hrejected, hp', ?_⟩
    · rw [store_lbl_self]
      exact heff.mem_of_not_pending (.inl ⟨hp, hpq⟩) hp'
    · rw [store_own]
      exact hawaits

theorem Turn.reject (h : Turn ordering t) (hs : Sound t) {t' : Table} (hlbl : t'.lbl = t.lbl)
    (hown : ∀ o, (t'.own o).awaits = (t.own o).awaits) {r : Ref} {q : Lrq}
    (hget : t.getRequest r = some q) (hpending : q.pending = true) :
    Turn ordering (t'.store r.lock ((t.lbl r.lock).reject q)) := by
  obtain ⟨hq, hr⟩ := mem_of_getRequest hget
  have hd := hs.linked.distinct r.lock
  obtain ⟨horder, hblocked⟩ := reject_turn { q with pending := false, rejected := true }
    (h.order r.lock) hd hq rfl rfl rfl
  refine h.store hlbl (fun o p _ haw => by rw [hown, haw]) horder fun hno => ?_
  cases ordering with
  | false => exact hblocked (.inr rfl) (h.blocked r.lock (by simp))
  | true =>
      refine absurd ⟨{ q with pending := false, rejected := true }, ?_, rfl, rfl, ?_⟩ (hno rfl)
      · rw [store_lbl_self]
        obtain ⟨pre, post, hsplit⟩ := List.append_of_mem hq
        show _ ∈ setLrq _ (t.lbl r.lock).requests
        rw [hsplit] at hd ⊢
        rw [@setLrq_split pre post q { q with pending := false, rejected := true } hd rfl]
        simp
      · rw [store_own, hown]
        exact ((hs.linked.good r.lock q hq).pending trivial hpending).2

theorem Turn.alloc (h : Turn ordering t) {owner b lrq : ℕ} {type : Lck} (key : Key) :
    Turn ordering (t.alloc owner key (Lrq.enq lrq owner type) b) := by
  have hself : ((t.alloc owner key (Lrq.enq lrq owner type) b).lbl b).requests =
      [(Lrq.enq lrq owner type).granted] := by
    have heq : (t.alloc owner key (Lrq.enq lrq owner type) b).lbl b =
        Lbl.alloc key (Lrq.enq lrq owner type) := Function.update_self ..
    rw [heq, Lbl.alloc, grant_requests]
    exact @setLrq_split [] [] _ (Lrq.enq lrq owner type).granted (List.nodup_singleton _) rfl
  have hsame : ∀ b', b' ≠ b →
      (t.alloc owner key (Lrq.enq lrq owner type) b).lbl b' = t.lbl b' :=
    fun b' hb => Function.update_of_ne hb ..
  have hnone : ∀ r ∈ [(Lrq.enq lrq owner type).granted], r.pending = false := by
    intro r hr
    rw [List.mem_singleton.mp hr]
    rfl
  refine ⟨fun b' => ?_, fun b' hno => ?_⟩
  · by_cases hb : b' = b
    · rw [hb, hself]
      cases ordering with
      | false =>
          intro r hr hp
          rw [hnone r hr] at hp
          cases hp
      | true => exact List.pairwise_singleton _ _
    · rw [hsame b' hb]
      exact h.order b'
  · by_cases hb : b' = b
    · rw [hb, hself]
      trivial
    · rw [hsame b' hb]
      refine h.blocked b' fun hord hup => hno hord (hup.congr (by rw [hsame b' hb]) fun o p haw => ?_)
      exact awaits_setOwn (b := b) (f := Own.insert ⟨b, lrq⟩) (fun _ _ haw => haw) o ⟨b', p⟩ hb haw

theorem Turn.wake (h : Turn ordering t) (hs : Sound t) {owner : ℕ} {r : Ref} {call : Call} {q : Lrq}
    (hw : (t.own owner).waiting = some (r, call)) (hget : t.getRequest r = some q) :
    Turn ordering (t.setOwn owner fun o => { o with
      pendingRequest := none
      waiting := if q.rejected then some (r, call) else none }) := by
  refine ⟨h.order, fun b hno => h.blocked b fun hord => ?_⟩
  rintro ⟨p, hp, hrejected, hpending, haw⟩
  refine hno hord ⟨p, hp, hrejected, hpending, ?_⟩
  by_cases ho : p.owner = owner
  · rw [ho, setOwn_own_self]
    rw [ho, awaits_of_waiting hw, Option.some.injEq] at haw
    subst haw
    have hpq : q = p := Option.some.inj (hget.symm.trans (hs.linked.getRequest hp))
    rw [hpq, hrejected]
    rfl
  · rwa [setOwn_own_ne _ _ ho]

theorem Turn.cleanUp (h : Turn ordering t) (hc : Counts t) {t' : Table} {owner : ℕ}
    (hstep : t.cleanUp ordering owner = some t') : Turn ordering t' := by
  obtain ⟨r, call, q, hw, hget, hpending, -, -, hcall⟩ := cleanUp_cases hstep
  obtain ⟨hq, -⟩ := mem_of_getRequest hget
  obtain ⟨hcons, hlen⟩ := hc.of_mem hq
  -- the owner waits for this lock only
  have hown : ∀ o p, p.lock ≠ r.lock → (t.own o).awaits = some p →
      ((t.setOwn owner fun o => { o with waiting := none }).own o).awaits = some p := by
    refine awaits_setOwn fun p hp haw => ?_
    rw [awaits_of_waiting hw, Option.some.injEq] at haw
    exact absurd (congrArg Ref.lock haw.symm) hp
  rcases hcall with ⟨-, rfl⟩ | ⟨-, rfl⟩
  · exact h.releaseRequest hc hget rfl hown
  · have hd := hcons.distinct
    have hadv := postPending_advanced ordering hd
    have hturn := pass_turn (h.order r.lock)
    rw [← (postPending_eq ordering hcons hlen).2] at hturn
    obtain ⟨horder, hblocked⟩ := reject_turn { q with requested := q.state } hturn.1
      (postPending_eq ordering hcons hlen).1.distinct (hadv.mem_of_not_pending hq hpending) rfl rfl
      hpending
    exact h.store rfl hown horder fun _ => hblocked (.inl hpending) hturn.2

theorem Turn.step (h : Turn ordering t) (hc : Counts t) (hs : Sound t) {op : Op}
    (hturn : InTurn ordering t op) {t' : Table} (hstep : t.step ordering op = some t') :
    Turn ordering t' := by
  cases op with
  | enq owner key type wait lrq lbl =>
      obtain ⟨hfresh, hidle, ⟨b, hb, hfind, rfl⟩ | ⟨hb, rfl⟩⟩ := enq_cases hstep
      · exact h.enqueue hc ((hs.blocks.hash b).mp hb) (hfresh b hb) hidle (hturn.1 b hfind)
      · exact h.alloc key
  | convert r type wait => exact h.convert hc hs hturn.2 hstep
  | downgrade r =>
      rcases downgrade_cases hstep with hstep | ⟨q, hget, hstep⟩
      · exact h.deq hc hstep
      · refine h.convert hc hs (fun p hp => ?_) hstep
        obtain rfl := Option.some.inj (hget.symm.trans hp)
        exact hturn.2 q hget
  | deq r => exact h.deq hc hstep
  | purgeOwner owner =>
      obtain rfl := Option.some.inj hstep
      exact h.purgeOwner hc hs owner
  | timeout owner =>
      obtain ⟨r, q, hget, hpending, rfl⟩ := timeout_cases hstep
      exact h.reject hs rfl (fun _ => rfl) hget hpending
  | deadlock owner busy =>
      obtain ⟨r, q, hget, hpending, rfl⟩ := deadlock_cases hstep
      refine h.reject hs (setOwn_lbl _ _ _) (fun o => ?_) hget hpending
      by_cases ho : o = q.owner
      · subst ho
        rw [setOwn_own_self]
        rfl
      · rw [setOwn_own_ne _ _ ho]
  | wake owner =>
      obtain ⟨r, call, q, hw, hget, -, rfl⟩ := wake_cases hstep
      exact h.wake hs hw hget
  | cleanUp owner => exact h.cleanUp hc hstep

/-! ## Main result -/

/-- No pending request, with ordering no pending conversion and no request at the head of
those that wait, asks for a state that is compatible with all other requests. -/
def NoneGrantable (ordering : Bool) (queue : List Lrq) : Prop :=
  ∀ pre q post, queue = pre ++ q :: post → q.pending = true →
    (ordering = true → q.conversion = true ∨ ∀ r ∈ pre, r.pending = false) →
      ¬Admits (pre ++ post) q.requested

theorem Blocked.not_admits {done pre post : List Lrq} {q : Lrq}
    (h : Blocked ordering done (pre ++ q :: post)) (hp : q.pending = true)
    (hfirst : ordering = true → ∀ r ∈ pre, r.pending = false) :
    ¬Admits (done ++ (pre ++ post)) q.requested := by
  induction pre generalizing done with
  | nil =>
      rw [List.nil_append, Blocked, if_pos hp] at h
      exact h.1
  | cons r pre ih =>
      have htail : Blocked ordering (done ++ [r]) (pre ++ q :: post) := by
        refine Blocked.tail h ?_
        cases ordering with
        | false => exact .inr rfl
        | true => exact .inl (hfirst rfl r List.mem_cons_self)
      have hrest := ih htail fun hord s hs => hfirst hord s (List.mem_cons_of_mem _ hs)
      rwa [List.append_assoc, List.singleton_append, ← List.cons_append] at hrest

theorem noneGrantable_of_turn {queue : List Lrq} (horder : InOrder ordering queue)
    (hblocked : Blocked ordering [] queue) : NoneGrantable ordering queue := by
  rintro pre q post rfl hp hhead
  refine hblocked.not_admits hp fun hord r hr => ?_
  rcases hhead hord with hconv | hfirst
  · -- a conversion that waits comes first
    subst hord
    have hpair := (List.pairwise_append.mp horder).2.2 r hr q List.mem_cons_self
    by_contra hne
    exact hpair ⟨by simpa using hne, hp, hconv⟩
  · exact hfirst r hr

/-- In every run that keeps to the order no grantable request is left waiting, except
with ordering where a rejected request is still to be cleaned up. -/
theorem none_grantable (h : Reachable ((lockManager ordering).restrict (InTurn ordering)) t) (b : ℕ)
    (hup : ordering = true → ¬t.CleaningUp b) : NoneGrantable ordering (t.lbl b).requests := by
  have hall : Sound t ∧ Counts t ∧ Turn ordering t := by
    refine h.invariant (I := fun t => Sound t ∧ Counts t ∧ Turn ordering t) (fun s hs => ?_)
      fun s op s' hs hstep => ?_
    · obtain rfl := hs
      refine ⟨Sound.empty, fun b hne => absurd rfl hne, fun b => ?_, fun b _ => trivial⟩
      cases ordering with
      | false => exact fun q hq => absurd hq List.not_mem_nil
      | true => exact .nil
    · exact ⟨hs.1.step hstep.1, hs.2.1.step hs.1 hstep.2.1 hstep.1,
        hs.2.2.step hs.2.1 hs.1 hstep.2 hstep.1⟩
  exact noneGrantable_of_turn (hall.2.2.order b) (hall.2.2.blocked b hup)

/-- A reader waits for a writer. -/
theorem none_grantable_reader :
    ∃ t, Table.run true [.enq 1 ⟨0, 1, []⟩ .EX true 11 1, .enq 2 ⟨0, 1, []⟩ .SR true 12 1]
      Table.empty = some t ∧ (t.lbl 1).requests.map Lrq.pending = [false, true] ∧
        NoneGrantable true (t.lbl 1).requests := by
  let first : Op := .enq 1 ⟨0, 1, []⟩ .EX true 11 1
  let second : Op := .enq 2 ⟨0, 1, []⟩ .SR true 12 1
  obtain ⟨s, hs⟩ : ∃ s, Table.empty.step true first = some s := ⟨_, rfl⟩
  obtain ⟨t, ht⟩ : ∃ t, s.step true second = some t := by
    cases hs
    exact ⟨_, rfl⟩
  refine ⟨t, ?_, ?_, @none_grantable true t
    (.step (.step (.init rfl) ⟨hs, ?_, trivial⟩) ⟨ht, ?_, trivial⟩) 1 fun _ => ?_⟩
  · show Option.bind _ _ = _
    rw [hs]
    show Option.bind (s.step true second) _ = _
    rw [ht]
    rfl
  · cases hs
    cases ht
    decide
  · intro b hb
    cases hb
  · cases hs
    rintro b ⟨⟩
    decide
  · have hrejected : ∀ q ∈ (t.lbl 1).requests, q.rejected = false := by
      cases hs
      cases ht
      decide
    rintro ⟨q, hq, hno, -⟩
    rw [hrejected q hq] at hno
    cases hno

/-- Without ordering the conversion of a later request from protected read to shared write
frees an earlier one; with ordering an earlier conversion keeps a later one waiting. -/
theorem grantable_left_waiting :
    (∃ t, Reachable (lockManager false) t ∧ ¬t.CleaningUp 1 ∧ ¬NoneGrantable false (t.lbl 1).requests) ∧
      ∃ t, Reachable (lockManager true) t ∧ ¬t.CleaningUp 1 ∧
        ¬NoneGrantable true (t.lbl 1).requests := by
  have hclean : ∀ t : Table, (t.lbl 1).requests.all (fun q => !q.rejected) → ¬t.CleaningUp 1 := by
    rintro t hall ⟨q, hq, hrejected, -⟩
    have hno := List.all_eq_true.mp hall q hq
    rw [hrejected] at hno
    cases hno
  constructor
  · let ops : List Op := [.enq 1 ⟨0, 1, []⟩ .null false 11 1, .enq 2 ⟨0, 1, []⟩ .PR false 12 1,
      .enq 3 ⟨0, 1, []⟩ .PR false 13 1, .convert ⟨1, 11⟩ .SW true, .convert ⟨1, 12⟩ .SW true,
      .deq ⟨1, 13⟩]
    have hrun : (Table.run false ops Table.empty).map (fun t => (t.lbl 1).requests) =
        some [⟨11, 1, .null, .SW, true, false⟩, ⟨12, 2, .SW, .SW, false, false⟩] := by decide
    obtain ⟨t, ht, hreq⟩ := Option.map_eq_some_iff.mp hrun
    refine ⟨t, reachable_run (.init rfl) ht, hclean t (by rw [hreq]; rfl), fun hnone => ?_⟩
    exact hnone [] _ _ hreq rfl (by simp) (by decide)
  · let ops : List Op := [.enq 1 ⟨0, 1, []⟩ .SR false 11 1, .enq 2 ⟨0, 1, []⟩ .SR false 12 1,
      .enq 3 ⟨0, 1, []⟩ .PR false 13 1, .convert ⟨1, 11⟩ .EX true, .convert ⟨1, 12⟩ .PW true,
      .deq ⟨1, 13⟩]
    have hrun : (Table.run true ops Table.empty).map (fun t => (t.lbl 1).requests) =
        some [⟨11, 1, .SR, .EX, true, false⟩, ⟨12, 2, .SR, .PW, true, false⟩] := by decide
    obtain ⟨t, ht, hreq⟩ := Option.map_eq_some_iff.mp hrun
    refine ⟨t, reachable_run (.init rfl) ht, hclean t (by rw [hreq]; rfl), fun hnone => ?_⟩
    exact hnone [⟨11, 1, .SR, .EX, true, false⟩] _ _ hreq rfl (fun _ => .inl rfl) (by decide)

end Firebird.Lock
