import Firebird.Lock.Effect
import Firebird.Lock.Table

/-! # Requests and their owners

What the lock table keeps about requests, whatever the counts say: every request is
in the list of its owner, a pending request is the one its owner waits for, and a
request that is not pending asks for the state it holds, unless it has been rejected
and its owner is still to clean up. The lock blocks with requests are those in the
hash table.
-/

namespace Firebird.Lock

/-! ## Requests and owners -/

/-- What holds of the request `q` of the lock `b`. Nothing is said of the waiting of
owners that are not `live`: they are being purged. -/
structure Good (live : ℕ → Prop) (own : ℕ → Own) (b : ℕ) (q : Lrq) : Prop where
  owned : ⟨b, q.ptr⟩ ∈ (own q.owner).requests
  pending : live q.owner → q.pending = true →
    (own q.owner).pendingRequest = some ⟨b, q.ptr⟩ ∧ (own q.owner).awaits = some ⟨b, q.ptr⟩
  settled : live q.owner → q.pending = false →
    q.requested = q.state ∨ (q.rejected = true ∧ (own q.owner).awaits = some ⟨b, q.ptr⟩)

/-- Requests and owners point to each other. -/
structure Linked (live : ℕ → Prop) (t : Table) : Prop where
  distinct : ∀ b, Distinct (t.lbl b).requests
  good : ∀ b, ∀ q ∈ (t.lbl b).requests, Good live t.own b q
  requests : ∀ o, ∀ r ∈ (t.own o).requests, ∃ q ∈ (t.lbl r.lock).requests, q.ptr = r.lrq ∧ q.owner = o
  own : ∀ o, (t.own o).requests.Nodup ∧ (live o →
    (∀ r, (t.own o).awaits = some r → r ∈ (t.own o).requests) ∧
      ∀ r, (t.own o).pendingRequest = some r → (t.own o).awaits = some r)

variable {live : ℕ → Prop} {t : Table}

theorem Good.granted {own : ℕ → Own} {b : ℕ} {q : Lrq} (h : Good live own b q) :
    Good live own b q.granted where
  owned := h.owned
  pending _ hp := absurd hp (by simp [Lrq.granted])
  settled _ _ := .inl rfl

/-- A request whose owner waits for nothing, or for something else. -/
theorem Good.quiet {own : ℕ → Own} {b : ℕ} {q : Lrq} (h : Good live own b q) (hlive : live q.owner)
    (hne : (own q.owner).awaits ≠ some ⟨b, q.ptr⟩) : q.pending = false ∧ q.requested = q.state := by
  have hpending : q.pending = false := by
    by_contra hp
    exact hne (h.pending hlive (by simpa using hp)).2
  rcases h.settled hlive hpending with heq | ⟨-, haw⟩
  · exact ⟨hpending, heq⟩
  · exact absurd haw hne

theorem Good.of_quiet {own : ℕ → Own} {b : ℕ} {q : Lrq} (howned : ⟨b, q.ptr⟩ ∈ (own q.owner).requests)
    (hpending : q.pending = false) (hreq : q.requested = q.state) : Good live own b q where
  owned := howned
  pending _ hp := absurd hp (by simp [hpending])
  settled _ _ := .inl hreq

/-- Only what the owner of the request keeps matters. -/
theorem Good.congr {own own' : ℕ → Own} {b : ℕ} {q : Lrq} (h : Good live own b q)
    (howned : ⟨b, q.ptr⟩ ∈ (own' q.owner).requests)
    (hpr : (own' q.owner).pendingRequest = (own q.owner).pendingRequest)
    (haw : (own' q.owner).awaits = (own q.owner).awaits) : Good live own' b q where
  owned := howned
  pending := by
    rw [hpr, haw]
    exact h.pending
  settled := by
    rw [haw]
    exact h.settled

/-- A lock block is rewritten, with one request replaced or taken out, and owner blocks
with it. -/
theorem Linked.effect (h : Linked live t) {t' : Table} {b : ℕ} {q : Lrq} {x : Option Lrq}
    (hlbl : ∀ b', b' ≠ b → (t'.lbl b').requests = (t.lbl b').requests)
    (heff : Effect (t.lbl b).requests q x (t'.lbl b).requests)
    (hx : ∀ r, x = some r → r.ptr = q.ptr ∧ Good live t'.own b r)
    (hothers : ∀ b', ∀ r ∈ (t.lbl b').requests, (b' ≠ b ∨ r.ptr ≠ q.ptr) → Good live t'.own b' r)
    (hrequests : ∀ o, ∀ r ∈ (t'.own o).requests, (r ≠ ⟨b, q.ptr⟩ ∧ r ∈ (t.own o).requests) ∨
      (r = ⟨b, q.ptr⟩ ∧ ∃ y, x = some y ∧ y.owner = o))
    (hown : ∀ o, (t'.own o).requests.Nodup ∧ (live o →
      (∀ r, (t'.own o).awaits = some r → r ∈ (t'.own o).requests) ∧
        ∀ r, (t'.own o).pendingRequest = some r → (t'.own o).awaits = some r)) :
    Linked live t' := by
  refine ⟨fun b' => ?_, fun b' r' hr' => ?_, fun o r hr => ?_, hown⟩
  · by_cases hb : b' = b
    · subst hb
      exact heff.distinct (h.distinct b') fun r hr => (hx r hr).1
    · rw [hlbl b' hb]
      exact h.distinct b'
  · by_cases hb : b' = b
    · subst hb
      obtain ⟨r, hr, hstep⟩ := heff.mem hr'
      have hgood : Good live t'.own b' r := by
        rcases hr with ⟨hr, hne⟩ | hr
        · exact hothers b' r hr (.inr hne)
        · exact (hx r hr).2
      rcases hstep with rfl | ⟨-, rfl⟩
      · exact hgood
      · exact hgood.granted
    · rw [hlbl b' hb] at hr'
      exact hothers b' r' hr' (.inl hb)
  · rcases hrequests o r hr with ⟨hne, hold⟩ | ⟨rfl, y, rfl, howner⟩
    · obtain ⟨p, hp, hptr, howner⟩ := h.requests o r hold
      by_cases hb : r.lock = b
      · have hpne : p.ptr ≠ q.ptr := by
          rintro heq
          refine hne ?_
          rw [← hb, ← heq, hptr]
        rw [hb] at hp ⊢
        obtain ⟨p', hp', hptr', howner'⟩ := heff.exists (.inl ⟨hp, hpne⟩)
        exact ⟨p', hp', hptr'.trans hptr, howner'.trans howner⟩
      · rw [hlbl r.lock hb]
        exact ⟨p, hp, hptr, howner⟩
    · obtain ⟨y', hy', hptr', howner'⟩ := heff.exists (.inr rfl)
      exact ⟨y', hy', hptr'.trans (hx y rfl).1, howner'.trans howner⟩

theorem mem_of_getRequest {r : Ref} {q : Lrq} (h : t.getRequest r = some q) :
    q ∈ (t.lbl r.lock).requests ∧ r = ⟨r.lock, q.ptr⟩ := by
  have hptr := List.find?_some h
  refine ⟨List.mem_of_find?_eq_some h, ?_⟩
  rw [of_decide_eq_true hptr]

theorem Linked.getRequest (h : Linked live t) {b : ℕ} {q : Lrq} (hq : q ∈ (t.lbl b).requests) :
    t.getRequest ⟨b, q.ptr⟩ = some q := by
  obtain ⟨pre, post, hsplit⟩ := List.append_of_mem hq
  have hd := h.distinct b
  rw [hsplit] at hd
  have hne : ∀ r ∈ pre, ¬decide (r.ptr = q.ptr) = true := fun r hr => by
    simpa using hd.ne r (List.mem_append_left _ hr)
  show (t.lbl b).requests.find? _ = _
  rw [hsplit, List.find?_append, List.find?_eq_none.mpr hne]
  simp

@[simp] theorem store_own (t : Table) (b : ℕ) (l : Lbl) : (t.store b l).own = t.own := by
  rw [Table.store]
  dsimp only
  split <;> rfl

theorem store_lbl (t : Table) (b : ℕ) (l : Lbl) :
    (t.store b l).lbl = Function.update t.lbl b l := by
  rw [Table.store]
  dsimp only
  split <;> rfl

@[simp] theorem store_lbl_self (t : Table) (b : ℕ) (l : Lbl) : (t.store b l).lbl b = l := by
  rw [store_lbl, Function.update_self]

theorem store_lbl_ne (t : Table) (b : ℕ) (l : Lbl) {b' : ℕ} (h : b' ≠ b) :
    (t.store b l).lbl b' = t.lbl b' := by
  rw [store_lbl, Function.update_of_ne h]

@[simp] theorem setOwn_lbl (t : Table) (o : ℕ) (f : Own → Own) : (t.setOwn o f).lbl = t.lbl := rfl

@[simp] theorem setOwn_own_self (t : Table) (o : ℕ) (f : Own → Own) :
    (t.setOwn o f).own o = f (t.own o) := Function.update_self ..

theorem setOwn_own_ne (t : Table) {o o' : ℕ} (f : Own → Own) (h : o' ≠ o) :
    (t.setOwn o f).own o' = t.own o' := Function.update_of_ne h ..

theorem Linked.mono {live' : ℕ → Prop} (h : Linked live t) (hle : ∀ o, live' o → live o) :
    Linked live' t where
  distinct := h.distinct
  good b q hq := by
    have hgood := h.good b q hq
    exact ⟨hgood.owned, fun ho => hgood.pending (hle _ ho), fun ho => hgood.settled (hle _ ho)⟩
  requests := h.requests
  own o := ⟨(h.own o).1, fun ho => (h.own o).2 (hle o ho)⟩

/-- Two requests at one address are one. -/
theorem Linked.eq_of_ptr (h : Linked live t) {b : ℕ} {q r : Lrq} (hq : q ∈ (t.lbl b).requests)
    (hr : r ∈ (t.lbl b).requests) (hp : r.ptr = q.ptr) : r = q :=
  List.inj_on_of_nodup_map (h.distinct b) hr hq hp

/-- One request `q` is replaced or taken out, and its owner's block is rewritten. -/
theorem Linked.update (h : Linked live t) {t' : Table} {b : ℕ} {q : Lrq} {x : Option Lrq} {o : Own}
    (hlbl : ∀ b', b' ≠ b → (t'.lbl b').requests = (t.lbl b').requests)
    (heff : Effect (t.lbl b).requests q x (t'.lbl b).requests)
    (howner : t'.own = Function.update t.own q.owner o)
    (hmine : ∀ p ∈ (t.lbl b).requests, p.ptr = q.ptr → p.owner = q.owner)
    (hx : ∀ r, x = some r → r.ptr = q.ptr ∧ r.owner = q.owner ∧ Good live t'.own b r)
    (hkeep : live q.owner → o.pendingRequest = (t.own q.owner).pendingRequest ∧
        o.awaits = (t.own q.owner).awaits ∨
      ∀ r, (t.own q.owner).awaits = some r → r = ⟨b, q.ptr⟩)
    (hrequests : ∀ r, r ≠ ⟨b, q.ptr⟩ → (r ∈ o.requests ↔ r ∈ (t.own q.owner).requests))
    (hin : ⟨b, q.ptr⟩ ∈ o.requests → x ≠ none)
    (hown : o.requests.Nodup ∧ (live q.owner → (∀ r, o.awaits = some r → r ∈ o.requests) ∧
      ∀ r, o.pendingRequest = some r → o.awaits = some r)) : Linked live t' := by
  have hself : t'.own q.owner = o := by rw [howner, Function.update_self]
  have hne : ∀ o', o' ≠ q.owner → t'.own o' = t.own o' := by
    intro o' ho
    rw [howner, Function.update_of_ne ho]
  refine h.effect hlbl heff (fun r hr => ⟨(hx r hr).1, (hx r hr).2.2⟩) ?_ ?_ ?_
  · intro b' p hp hpq
    have hgood := h.good b' p hp
    have href : (⟨b', p.ptr⟩ : Ref) ≠ ⟨b, q.ptr⟩ := by
      rw [Ne, Ref.mk.injEq]
      rintro ⟨hb, hptr⟩
      rcases hpq with hpq | hpq
      · exact hpq hb
      · exact hpq hptr
    by_cases ho : p.owner = q.owner
    · have howned : ⟨b', p.ptr⟩ ∈ (t'.own p.owner).requests := by
        rw [ho, hself, hrequests _ href, ← ho]
        exact hgood.owned
      by_cases hlive : live p.owner
      · rcases hkeep (ho ▸ hlive) with ⟨hpr, haw⟩ | hquiet
        · exact hgood.congr howned (by rw [ho, hself, hpr]) (by rw [ho, hself, haw])
        · obtain ⟨hp', hreq⟩ := hgood.quiet hlive (by
            rw [ho]
            exact fun heq => href (hquiet _ heq))
          exact .of_quiet howned hp' hreq
      · exact ⟨howned, fun hl => absurd hl hlive, fun hl => absurd hl hlive⟩
    · exact hgood.congr (by rw [hne _ ho]; exact hgood.owned) (by rw [hne _ ho]) (by rw [hne _ ho])
  · intro o' r hr
    by_cases ho : o' = q.owner
    · subst ho
      rw [hself] at hr
      by_cases href : r = ⟨b, q.ptr⟩
      · subst href
        obtain ⟨y, hy⟩ := Option.ne_none_iff_exists'.mp (hin hr)
        exact .inr ⟨rfl, y, hy, (hx y hy).2.1⟩
      · exact .inl ⟨href, (hrequests r href).mp hr⟩
    · rw [hne o' ho] at hr
      refine .inl ⟨?_, hr⟩
      rintro rfl
      obtain ⟨p, hp, hptr, hpo⟩ := h.requests o' _ hr
      exact ho (hpo.symm.trans (hmine p hp hptr))
  · intro o'
    by_cases ho : o' = q.owner
    · subst ho
      rw [hself]
      exact hown
    · rw [hne o' ho]
      exact h.own o'

/-- `release_request`, of a request that no live owner waits for. -/
theorem Linked.releaseRequest (ordering : Bool) (h : Linked live t) {r : Ref} {q : Lrq}
    (hget : t.getRequest r = some q) (hfree : live q.owner → (t.own q.owner).awaits ≠ some r) :
    Linked live (t.releaseRequest ordering r q) := by
  obtain ⟨hq, hr⟩ := mem_of_getRequest hget
  have hnodup := (h.own q.owner).1
  refine h.update (b := r.lock) (q := q) (x := none) (o := (t.own q.owner).remove r)
    (fun b hb => ?_) ?_ ?_ (fun p hp hptr => ?_) (by simp) (fun _ => .inl ⟨rfl, rfl⟩)
    (fun p hp => ?_) (fun hin => ?_) ⟨hnodup.erase r, fun hlive => ⟨fun p hp => ?_, ?_⟩⟩
  · rw [Table.releaseRequest, store_lbl_ne _ _ _ hb, setOwn_lbl]
  · rw [Table.releaseRequest, store_lbl_self]
    exact releaseRequest_effect ordering (h.distinct r.lock)
  · rw [Table.releaseRequest, store_own]
    rfl
  · rw [h.eq_of_ptr hq hp hptr]
  · rw [Own.remove, hnodup.mem_erase_iff, hr]
    exact and_iff_right hp
  · rw [Own.remove, hnodup.mem_erase_iff, ← hr] at hin
    exact absurd rfl hin.1
  · rw [Own.remove, hnodup.mem_erase_iff]
    refine ⟨?_, ((h.own q.owner).2 hlive).1 p hp⟩
    rintro rfl
    exact hfree hlive hp
  · exact ((h.own q.owner).2 hlive).2

theorem mem_insert_of_ne (o : Own) {r s : Ref} (h : s ≠ r) :
    s ∈ (o.insert r).requests ↔ s ∈ o.requests := by
  simp [Own.insert, h]

theorem awaits_of_waiting {o : Own} {r : Ref} {call : Call} (hw : o.waiting = some (r, call)) :
    o.awaits = some r := by
  rw [Own.awaits, hw]
  rfl

/-! ## Every step -/

section

variable (ordering : Bool) (h : Linked (fun _ => True) t)

include h

theorem Linked.enqueue {owner b lrq : ℕ} {type : Lck} {wait : Bool}
    (hfresh : ∀ r ∈ (t.lbl b).requests, r.ptr ≠ lrq) (hidle : wait = true → (t.own owner).waiting = none) :
    Linked (fun _ => True) (t.enqueue ordering owner b (Lrq.enq lrq owner type) wait) := by
  have hnew : (⟨b, lrq⟩ : Ref) ∉ (t.own owner).requests := by
    intro hmem
    obtain ⟨p, hp, hptr, -⟩ := h.requests owner _ hmem
    exact hfresh p hp hptr
  have hown := h.own owner
  have hinsert : ((t.own owner).insert ⟨b, lrq⟩).requests.Nodup :=
    List.nodup_append.mpr ⟨hown.1, List.nodup_singleton _, fun r hr s hs heq =>
      hnew (List.mem_singleton.mp hs ▸ heq ▸ hr)⟩
  -- the request comes last in the queue
  have hd : Distinct ((t.lbl b).requests ++ [Lrq.enq lrq owner type]) := by
    rw [Distinct, List.map_append]
    refine List.nodup_append.mpr ⟨h.distinct b, by simp, ?_⟩
    simpa [Lrq.enq] using hfresh
  have hremove : removeLrq (Lrq.enq lrq owner type) ((t.lbl b).requests ++ [Lrq.enq lrq owner type]) =
      removeLrq (Lrq.enq lrq owner type) (t.lbl b).requests := by
    simp [removeLrq, List.filter_append]
  have heff := @grantOrQue_effect ordering { t.lbl b with
    requests := (t.lbl b).requests ++ [Lrq.enq lrq owner type] } (Lrq.enq lrq owner type) hd
    (by simp) wait
  rw [Effect, hremove, ← Effect] at heff
  have hwaits : (Lbl.grantOrQue ordering { t.lbl b with
      requests := (t.lbl b).requests ++ [Lrq.enq lrq owner type] } (Lrq.enq lrq owner type) wait).1 =
        .waits → (t.own owner).waiting = none := fun hreply => hidle (Lbl.wait_of_grantOrQue hreply)
  rw [Table.enqueue]
  dsimp only
  generalize Lbl.grantOrQue ordering { t.lbl b with
    requests := (t.lbl b).requests ++ [Lrq.enq lrq owner type] } (Lrq.enq lrq owner type) wait = res
    at heff hwaits ⊢
  obtain ⟨reply, l⟩ := res
  refine h.update (b := b) (q := Lrq.enq lrq owner type) (x := (Lrq.enq lrq owner type).enqReply reply)
    (o := (t.own owner).enq ⟨b, lrq⟩ reply) (fun b' hb => ?_) ?_ ?_
    (fun p hp hptr => absurd hptr (hfresh p hp)) (fun r hr => ?_) (fun _ => ?_) (fun r hr => ?_)
    (fun hin => ?_) ?_
  · rw [store_lbl_ne _ _ _ hb, setOwn_lbl]
  · rw [store_lbl_self]
    exact heff
  · rw [store_own]
    rfl
  · rw [store_own]
    cases reply with
    | granted =>
        obtain rfl := Option.some.inj hr
        refine ⟨rfl, rfl, .of_quiet ?_ rfl rfl⟩
        show _ ∈ ((t.setOwn owner _).own owner).requests
        rw [setOwn_own_self]
        exact List.mem_append_right _ (List.mem_singleton_self _)
    | waits =>
        obtain rfl := Option.some.inj hr
        refine ⟨rfl, rfl, ?_, fun _ _ => ?_, fun _ hp => absurd hp (by simp [Lrq.waiting])⟩
        · show _ ∈ ((t.setOwn owner _).own owner).requests
          rw [setOwn_own_self]
          exact List.mem_append_right _ (List.mem_singleton_self _)
        · show ((t.setOwn owner _).own owner).pendingRequest = _ ∧
            ((t.setOwn owner _).own owner).awaits = _
          rw [setOwn_own_self]
          exact ⟨rfl, rfl⟩
    | denied => cases hr
  · cases reply with
    | granted => exact .inl ⟨rfl, rfl⟩
    | waits =>
        refine .inr fun r hr => ?_
        have hr : (t.own owner).awaits = some r := hr
        rw [Own.awaits, hwaits rfl] at hr
        cases hr
    | denied => exact .inl ⟨rfl, rfl⟩
  · cases reply with
    | granted => exact mem_insert_of_ne _ hr
    | waits => exact mem_insert_of_ne _ hr
    | denied => exact Iff.rfl
  · cases reply with
    | granted => simp [Lrq.enqReply]
    | waits => simp [Lrq.enqReply]
    | denied => exact absurd hin hnew
  · cases reply with
    | granted =>
        exact ⟨hinsert, fun _ => ⟨fun r hr => List.mem_append_left _ ((hown.2 trivial).1 r hr),
          (hown.2 trivial).2⟩⟩
    | waits =>
        refine ⟨hinsert, fun _ => ⟨fun r hr => ?_, fun r hr => hr⟩⟩
        obtain rfl := Option.some.inj hr
        exact List.mem_append_right _ (List.mem_singleton_self _)
    | denied => exact hown

theorem Linked.alloc {owner b lrq : ℕ} {type : Lck} (key : Key) (hb : (t.lbl b).requests = []) :
    Linked (fun _ => True) (t.alloc owner key (Lrq.enq lrq owner type) b) := by
  have hnew : (⟨b, lrq⟩ : Ref) ∉ (t.own owner).requests := by
    intro hmem
    obtain ⟨p, hp, -⟩ := h.requests owner _ hmem
    rw [hb] at hp
    cases hp
  have hown := h.own owner
  have hself : (t.alloc owner key (Lrq.enq lrq owner type) b).lbl b =
      Lbl.alloc key (Lrq.enq lrq owner type) := Function.update_self ..
  refine h.update (b := b) (q := Lrq.enq lrq owner type) (x := some (Lrq.enq lrq owner type).granted)
    (o := (t.own owner).insert ⟨b, lrq⟩) (fun b' hb' => ?_) ?_ rfl ?_ (fun r hr => ?_)
    (fun _ => .inl ⟨rfl, rfl⟩) (fun r hr => mem_insert_of_ne _ hr) (fun _ => by simp) ?_
  · exact congrArg Lbl.requests (Function.update_of_ne hb' ..)
  · rw [hself, hb, Lbl.alloc, grant_requests]
    refine ⟨_, ?_, advanced_refl _⟩
    simp [setLrq, removeLrq, Lrq.granted]
  · simp [hb]
  · obtain rfl := Option.some.inj hr
    refine ⟨rfl, rfl, .of_quiet ?_ rfl rfl⟩
    show _ ∈ ((t.setOwn owner _).own owner).requests
    rw [setOwn_own_self]
    exact List.mem_append_right _ (List.mem_singleton_self _)
  · exact ⟨List.nodup_append.mpr ⟨hown.1, List.nodup_singleton _, fun r hr s hs heq =>
      hnew (List.mem_singleton.mp hs ▸ heq ▸ hr)⟩,
      fun _ => ⟨fun r hr => List.mem_append_left _ ((hown.2 trivial).1 r hr), (hown.2 trivial).2⟩⟩

theorem Linked.convert {r : Ref} {q : Lrq} {type : Lck} {wait : Bool} (hget : t.getRequest r = some q)
    (hidle : wait = true → (t.own q.owner).waiting = none) :
    Linked (fun _ => True)
      ((t.setOwn q.owner (Own.convert r ((t.lbl r.lock).convert ordering q type wait).1)).store
        r.lock ((t.lbl r.lock).convert ordering q type wait).2) := by
  obtain ⟨hq, hr⟩ := mem_of_getRequest hget
  have hgood := h.good r.lock q hq
  have hown := h.own q.owner
  have heff := convert_effect ordering (h.distinct r.lock) hq type wait
  have hwaits : ((t.lbl r.lock).convert ordering q type wait).1 = .waits →
      (t.own q.owner).waiting = none := fun hreply => hidle (Lbl.wait_of_convert hreply)
  generalize (t.lbl r.lock).convert ordering q type wait = res at heff hwaits ⊢
  obtain ⟨reply, l⟩ := res
  have howned : r ∈ (t.own q.owner).requests := by
    rw [hr]
    exact hgood.owned
  refine h.update (b := r.lock) (q := q) (x := some (q.convertReply type reply))
    (o := (t.own q.owner).convert r reply) (fun b' hb => ?_) ?_ ?_
    (fun p hp hptr => by rw [h.eq_of_ptr hq hp hptr]) (fun p hp => ?_) (fun _ => ?_) (fun p hp => ?_)
    (fun _ => by simp) ?_
  · rw [store_lbl_ne _ _ _ hb, setOwn_lbl]
  · rw [store_lbl_self]
    exact heff
  · rw [store_own]
    rfl
  · obtain rfl := Option.some.inj hp
    rw [store_own]
    cases reply with
    | granted =>
        refine ⟨rfl, rfl, .of_quiet ?_ rfl rfl⟩
        show _ ∈ ((t.setOwn q.owner _).own q.owner).requests
        rw [setOwn_own_self]
        exact hgood.owned
    | waits =>
        refine ⟨rfl, rfl, ?_, fun _ _ => ?_,
          fun _ hp => absurd hp (by simp [Lrq.convertReply, Lrq.waiting])⟩
        · show _ ∈ ((t.setOwn q.owner _).own q.owner).requests
          rw [setOwn_own_self]
          exact hgood.owned
        · show ((t.setOwn q.owner _).own q.owner).pendingRequest = _ ∧
            ((t.setOwn q.owner _).own q.owner).awaits = _
          rw [setOwn_own_self]
          exact ⟨congrArg some hr, congrArg some hr⟩
    | denied =>
        have hsame : (t.setOwn q.owner (Own.convert r .denied)).own q.owner = t.own q.owner :=
          setOwn_own_self ..
        refine ⟨rfl, rfl, ?_, ?_, fun _ _ => .inl rfl⟩
        · show _ ∈ ((t.setOwn q.owner (Own.convert r .denied)).own q.owner).requests
          rw [hsame]
          exact hgood.owned
        · show _ → _ → ((t.setOwn q.owner (Own.convert r .denied)).own q.owner).pendingRequest = _ ∧
            ((t.setOwn q.owner (Own.convert r .denied)).own q.owner).awaits = _
          rw [hsame]
          exact hgood.pending
  · cases reply with
    | granted => exact .inl ⟨rfl, rfl⟩
    | waits =>
        refine .inr fun s hs => ?_
        rw [Own.awaits, hwaits rfl] at hs
        cases hs
    | denied => exact .inl ⟨rfl, rfl⟩
  · cases reply <;> exact Iff.rfl
  · cases reply with
    | granted => exact hown
    | waits =>
        refine ⟨hown.1, fun _ => ⟨fun s hs => ?_, fun s hs => hs⟩⟩
        obtain rfl := Option.some.inj hs
        exact howned
    | denied => exact hown

/-- A pending request is rejected; a deadlock also clears `own_pending_request`. -/
theorem Linked.reject {r : Ref} {q : Lrq} {o : Own} (hget : t.getRequest r = some q)
    (hpending : q.pending = true)
    (ho : o = t.own q.owner ∨ o = { t.own q.owner with pendingRequest := none }) :
    Linked (fun _ => True)
      ((t.setOwn q.owner fun _ => o).store r.lock ((t.lbl r.lock).reject q)) := by
  obtain ⟨hq, hr⟩ := mem_of_getRequest hget
  have hgood := h.good r.lock q hq
  have hown := h.own q.owner
  obtain ⟨-, haw⟩ := hgood.pending trivial hpending
  have hreq : o.requests = (t.own q.owner).requests := by rcases ho with rfl | rfl <;> rfl
  have hawaits : o.awaits = (t.own q.owner).awaits := by rcases ho with rfl | rfl <;> rfl
  have hpr : ∀ s, o.pendingRequest = some s → (t.own q.owner).pendingRequest = some s := by
    intro s hs
    rcases ho with rfl | rfl
    · exact hs
    · cases hs
  refine h.update (b := r.lock) (q := q) (x := some { q with pending := false, rejected := true })
    (o := o) (fun b' hb => ?_) ?_ ?_ (fun p hp hptr => by rw [h.eq_of_ptr hq hp hptr])
    (fun p hp => ?_) (fun _ => .inr fun s hs => ?_) (fun p hp => by rw [hreq]) (fun _ => by simp) ?_
  · rw [store_lbl_ne _ _ _ hb, setOwn_lbl]
  · rw [store_lbl_self]
    exact effect_set (h.distinct r.lock) hq { q with pending := false, rejected := true } rfl
  · rw [store_own]
    rfl
  · obtain rfl := Option.some.inj hp
    rw [store_own]
    refine ⟨rfl, rfl, ?_, fun _ hp => absurd hp (by simp), fun _ _ => .inr ⟨rfl, ?_⟩⟩
    · show _ ∈ ((t.setOwn q.owner _).own q.owner).requests
      rw [setOwn_own_self, hreq]
      exact hgood.owned
    · show ((t.setOwn q.owner _).own q.owner).awaits = _
      rw [setOwn_own_self, hawaits]
      exact haw
  · rw [haw] at hs
    exact (Option.some.inj hs).symm
  · rw [hreq, hawaits]
    exact ⟨hown.1, fun _ => ⟨(hown.2 trivial).1, fun s hs => (hown.2 trivial).2 s (hpr s hs)⟩⟩

/-- The owner block of a thread that no longer waits for `r`. -/
theorem Linked.woken {owner : ℕ} {r : Ref} {call : Call} {q : Lrq}
    (hw : (t.own owner).waiting = some (r, call)) (hget : t.getRequest r = some q) :
    q.owner = owner := by
  obtain ⟨hq, hr⟩ := mem_of_getRequest hget
  obtain ⟨p, hp, hptr, howner⟩ := h.requests owner r
    (((h.own owner).2 trivial).1 r (awaits_of_waiting hw))
  rw [hr] at hptr
  rw [← howner, h.eq_of_ptr hq hp hptr]

theorem Linked.wake {owner : ℕ} {r : Ref} {call : Call} {q : Lrq}
    (hw : (t.own owner).waiting = some (r, call)) (hget : t.getRequest r = some q)
    (hpending : q.pending = false) :
    Linked (fun _ => True) (t.setOwn owner fun o => { o with
      pendingRequest := none
      waiting := if q.rejected then some (r, call) else none }) := by
  obtain ⟨hq, hr⟩ := mem_of_getRequest hget
  obtain rfl := h.woken hw hget
  have hgood := h.good r.lock q hq
  have hown := h.own q.owner
  have haw := awaits_of_waiting hw
  refine h.update (b := r.lock) (q := q) (x := some q) (fun b' hb => rfl) ?_ rfl
    (fun p hp hptr => by rw [h.eq_of_ptr hq hp hptr]) (fun p hp => ?_) (fun _ => .inr fun s hs => ?_)
    (fun p hp => Iff.rfl) (fun _ => by simp) ⟨hown.1, fun _ => ⟨fun s hs => ?_, by simp⟩⟩
  · have heff := effect_set (h.distinct r.lock) hq q rfl
    obtain ⟨pre, post, hsplit⟩ := List.append_of_mem hq
    rw [setOwn_lbl]
    rwa [hsplit, @setLrq_split pre post q q (hsplit ▸ h.distinct r.lock) rfl, ← hsplit] at heff
  · obtain rfl := Option.some.inj hp
    refine ⟨rfl, rfl, ?_, fun _ hp => absurd hp (by simp [hpending]), fun _ _ => ?_⟩
    · rw [setOwn_own_self]
      exact hgood.owned
    · rw [setOwn_own_self]
      cases hrejected : q.rejected with
      | true => exact .inr ⟨rfl, congrArg some hr⟩
      | false =>
          rcases hgood.settled trivial hpending with heq | ⟨hno, -⟩
          · exact .inl heq
          · rw [hrejected] at hno
            cases hno
  · rw [haw] at hs
    rw [← Option.some.inj hs, ← hr]
  · cases hrejected : q.rejected with
    | true =>
        rw [hrejected] at hs
        obtain rfl := Option.some.inj hs
        exact (hown.2 trivial).1 r haw
    | false =>
        rw [hrejected] at hs
        cases hs

/-- Clean-up of a rejected `LOCK_enq`. -/
theorem Linked.cleanUp_enq {owner : ℕ} {r : Ref} {call : Call} {q : Lrq}
    (hw : (t.own owner).waiting = some (r, call)) (hget : t.getRequest r = some q)
    (hpr : (t.own owner).pendingRequest = none) :
    Linked (fun _ => True)
      ((t.setOwn owner fun o => { o with waiting := none }).releaseRequest ordering r q) := by
  obtain ⟨hq, hr⟩ := mem_of_getRequest hget
  obtain rfl := h.woken hw hget
  have haw := awaits_of_waiting hw
  have hnodup := (h.own q.owner).1
  refine h.update (b := r.lock) (q := q) (x := none)
    (o := { t.own q.owner with requests := (t.own q.owner).requests.erase r, waiting := none })
    (fun b' hb => ?_) ?_ ?_ (fun p hp hptr => by rw [h.eq_of_ptr hq hp hptr]) (by simp)
    (fun _ => .inr fun s hs => ?_) (fun p hp => ?_) (fun hin => ?_)
    ⟨hnodup.erase r, fun _ => ⟨fun s hs => ?_, fun s hs => ?_⟩⟩
  · rw [Table.releaseRequest, store_lbl_ne _ _ _ hb, setOwn_lbl, setOwn_lbl]
  · rw [Table.releaseRequest, store_lbl_self]
    exact releaseRequest_effect ordering (h.distinct r.lock)
  · rw [Table.releaseRequest, store_own]
    simp [Table.setOwn, Own.remove]
  · rw [haw] at hs
    rw [← Option.some.inj hs, ← hr]
  · show p ∈ (t.own q.owner).requests.erase r ↔ _
    rw [hnodup.mem_erase_iff, hr]
    exact and_iff_right hp
  · have hin : _ ∈ (t.own q.owner).requests.erase r := hin
    rw [hnodup.mem_erase_iff, ← hr] at hin
    exact absurd rfl hin.1
  · cases hs
  · rw [hpr] at hs
    cases hs

/-- Clean-up of a rejected `LOCK_convert`. -/
theorem Linked.cleanUp_convert {owner : ℕ} {r : Ref} {call : Call} {q : Lrq}
    (hw : (t.own owner).waiting = some (r, call)) (hget : t.getRequest r = some q)
    (hpending : q.pending = false) (hpr : (t.own owner).pendingRequest = none) :
    Linked (fun _ => True) ((t.setOwn owner fun o => { o with waiting := none }).store r.lock
      (((t.lbl r.lock).postPending ordering).put { q with requested := q.state })) := by
  obtain ⟨hq, hr⟩ := mem_of_getRequest hget
  obtain rfl := h.woken hw hget
  have hgood := h.good r.lock q hq
  have haw := awaits_of_waiting hw
  have hown := h.own q.owner
  refine h.update (b := r.lock) (q := q) (x := some { q with requested := q.state })
    (o := { t.own q.owner with waiting := none }) (fun b' hb => ?_) ?_ ?_
    (fun p hp hptr => by rw [h.eq_of_ptr hq hp hptr]) (fun p hp => ?_) (fun _ => .inr fun s hs => ?_)
    (fun p hp => Iff.rfl) (fun _ => by simp)
    ⟨hown.1, fun _ => ⟨fun s hs => (by cases hs), fun s hs => ?_⟩⟩
  · rw [store_lbl_ne _ _ _ hb, setOwn_lbl]
  · rw [store_lbl_self]
    exact (effect_set (h.distinct r.lock) hq { q with requested := q.state } rfl).advance
      (Advanced.set (postPending_advanced ordering (h.distinct r.lock)) _)
  · rw [store_own]
    rfl
  · obtain rfl := Option.some.inj hp
    rw [store_own]
    refine ⟨rfl, rfl, .of_quiet ?_ hpending rfl⟩
    show _ ∈ ((t.setOwn q.owner _).own q.owner).requests
    rw [setOwn_own_self]
    exact hgood.owned
  · rw [haw] at hs
    rw [← Option.some.inj hs, ← hr]
  · rw [hpr] at hs
    cases hs

end

/-- The loop of `purge_owner` releases the requests of the owner, one after the other. -/
theorem Linked.purgeLoop (ordering : Bool) {owner : ℕ} {rs : List Ref}
    (h : Linked (· ≠ owner) t) (hrs : (t.own owner).requests = rs) :
    Linked (· ≠ owner) (Table.purgeLoop ordering rs t) ∧
      ((Table.purgeLoop ordering rs t).own owner).requests = [] := by
  induction rs generalizing t with
  | nil => exact ⟨h, hrs⟩
  | cons r rs ih =>
      obtain ⟨q, hq, hptr, howner⟩ := h.requests owner r (by rw [hrs]; exact List.mem_cons_self)
      have hget : t.getRequest r = some q := by
        have hq' := h.getRequest hq
        rwa [hptr] at hq'
      rw [Table.purgeLoop, hget]
      refine ih (h.releaseRequest ordering hget fun hne => absurd howner hne) ?_
      rw [Table.releaseRequest, store_own, howner, setOwn_own_self, Own.remove, hrs]
      exact List.erase_cons_head ..

/-- No request of the owner is left after the loop. -/
theorem Linked.purgeLoop_owner (ordering : Bool) (owner : ℕ) (h : Linked (fun _ => True) t) (b : ℕ) :
    ∀ q ∈ ((Table.purgeLoop ordering (t.own owner).requests t).lbl b).requests, q.owner ≠ owner := by
  have hdead : Linked (· ≠ owner) t := h.mono fun _ _ => trivial
  obtain ⟨hlinked, hnil⟩ := hdead.purgeLoop ordering rfl
  intro q hq heq
  have howned := (hlinked.good b q hq).owned
  rw [heq, hnil] at howned
  cases howned

theorem Linked.purgeOwner (ordering : Bool) (owner : ℕ) (h : Linked (fun _ => True) t) :
    Linked (fun _ => True) (t.purgeOwner ordering owner) := by
  have hdead : Linked (· ≠ owner) t := h.mono fun _ _ => trivial
  obtain ⟨hlinked, -⟩ := hdead.purgeLoop ordering rfl
  have hne := h.purgeLoop_owner ordering owner
  rw [Table.purgeOwner]
  generalize Table.purgeLoop ordering (t.own owner).requests t = s at hlinked hne ⊢
  refine ⟨hlinked.distinct, fun b q hq => ?_, fun o r hr => ?_, fun o => ?_⟩
  · have hgood := hlinked.good b q hq
    have ho := hne b q hq
    rw [setOwn_lbl] at hq
    refine Good.congr ⟨hgood.owned, fun _ => hgood.pending ho, fun _ => hgood.settled ho⟩ ?_ ?_ ?_
    all_goals rw [setOwn_own_ne _ _ ho]
    exact hgood.owned
  · by_cases ho : o = owner
    · subst ho
      rw [setOwn_own_self] at hr
      cases hr
    · rw [setOwn_own_ne _ _ ho] at hr
      exact hlinked.requests o r hr
  · by_cases ho : o = owner
    · subst ho
      rw [setOwn_own_self]
      exact ⟨List.nodup_nil, fun _ => ⟨by simp [Own.awaits], by simp⟩⟩
    · rw [setOwn_own_ne _ _ ho]
      exact ⟨(hlinked.own o).1, fun _ => (hlinked.own o).2 ho⟩

/-! ## Lock blocks -/

/-- The lock blocks with requests are in the hash table, the others on the free list. -/
structure Blocks (t : Table) : Prop where
  hash_nodup : t.hash.Nodup
  free_nodup : t.freeLocks.Nodup
  hash : ∀ b, b ∈ t.hash ↔ (t.lbl b).requests ≠ []
  locks : ∀ b, b ∈ t.locks ↔ b ∈ t.hash ∨ b ∈ t.freeLocks
  disjoint : ∀ b ∈ t.freeLocks, b ∉ t.hash

theorem Blocks.setOwn (h : Blocks t) (o : ℕ) (f : Own → Own) : Blocks (t.setOwn o f) :=
  ⟨h.hash_nodup, h.free_nodup, h.hash, h.locks, h.disjoint⟩

theorem Blocks.store (h : Blocks t) {b : ℕ} (hb : b ∈ t.hash) (l : Lbl) : Blocks (t.store b l) := by
  have hsame : ∀ b', b' ≠ b → ((t.store b l).lbl b').requests = (t.lbl b').requests :=
    fun b' hb' => by rw [store_lbl_ne _ _ _ hb']
  have hself : ((t.store b l).lbl b).requests = l.requests := by rw [store_lbl_self]
  have hfree := fun hf => h.disjoint b hf hb
  rw [Table.store] at *
  by_cases hl : l.requests = []
  · rw [if_pos hl] at *
    refine ⟨h.hash_nodup.erase b, ?_, fun b' => ?_, fun b' => ?_, fun b' hb' => ?_⟩
    · exact List.nodup_append.mpr ⟨h.free_nodup, List.nodup_singleton b, fun r hr s hs heq =>
        hfree (List.mem_singleton.mp hs ▸ heq ▸ hr)⟩
    · by_cases hbb : b' = b
      · subst hbb
        rw [hself, h.hash_nodup.mem_erase_iff]
        simp [hl]
      · rw [hsame b' hbb, h.hash_nodup.mem_erase_iff, ← h.hash b']
        exact and_iff_right hbb
    · show b' ∈ t.locks ↔ b' ∈ t.hash.erase b ∨ b' ∈ t.freeLocks ++ [b]
      rw [h.locks, h.hash_nodup.mem_erase_iff, List.mem_append, List.mem_singleton]
      by_cases hbb : b' = b
      · simp [hbb, hb]
      · simp [hbb]
    · have hb' : b' ∈ t.freeLocks ++ [b] := hb'
      show b' ∉ t.hash.erase b
      rw [h.hash_nodup.mem_erase_iff]
      rintro ⟨hne, hin⟩
      rcases List.mem_append.mp hb' with hb' | hb'
      · exact h.disjoint b' hb' hin
      · exact hne (List.mem_singleton.mp hb')
  · rw [if_neg hl] at *
    refine ⟨h.hash_nodup, h.free_nodup, fun b' => ?_, h.locks, h.disjoint⟩
    by_cases hbb : b' = b
    · subst hbb
      rw [hself]
      exact iff_of_true hb hl
    · rw [hsame b' hbb]
      exact h.hash b'

theorem Blocks.alloc (h : Blocks t) {b : ℕ} (hb : b ∉ t.hash) (owner : ℕ) (key : Key) (q : Lrq) :
    Blocks (t.alloc owner key q b) := by
  have hself : ((t.alloc owner key q b).lbl b).requests ≠ [] := by
    have heq : (t.alloc owner key q b).lbl b = Lbl.alloc key q := Function.update_self ..
    rw [heq, Lbl.alloc, grant_requests]
    simp [setLrq]
  refine ⟨?_, h.free_nodup.erase b, fun b' => ?_, fun b' => ?_, fun b' hb' => ?_⟩
  · exact List.nodup_append.mpr ⟨h.hash_nodup, List.nodup_singleton b, fun r hr s hs heq =>
      hb (List.mem_singleton.mp hs ▸ heq ▸ hr)⟩
  · show b' ∈ t.hash ++ [b] ↔ _
    rw [List.mem_append, List.mem_singleton]
    by_cases hbb : b' = b
    · subst hbb
      exact iff_of_true (.inr rfl) hself
    · have hsame : (t.alloc owner key q b).lbl b' = t.lbl b' := Function.update_of_ne hbb ..
      rw [hsame, ← h.hash b']
      exact or_iff_left hbb
  · show b' ∈ t.locks.insert b ↔ b' ∈ t.hash ++ [b] ∨ b' ∈ t.freeLocks.erase b
    rw [List.mem_insert_iff, h.locks, List.mem_append, List.mem_singleton,
      h.free_nodup.mem_erase_iff]
    grind
  · have hb' : b' ∈ t.freeLocks.erase b := hb'
    rw [h.free_nodup.mem_erase_iff] at hb'
    show b' ∉ t.hash ++ [b]
    rw [List.mem_append, List.mem_singleton, not_or]
    exact ⟨h.disjoint b' hb'.2, hb'.1⟩

/-! ## Every step -/

/-- The structure of the lock table. -/
structure Sound (t : Table) : Prop where
  blocks : Blocks t
  linked : Linked (fun _ => True) t

theorem Sound.empty : Sound Table.empty where
  blocks := ⟨List.nodup_nil, List.nodup_nil, by simp [Table.empty, Lbl.empty], by simp [Table.empty],
    by simp [Table.empty]⟩
  linked := ⟨fun _ => List.nodup_nil, by simp [Table.empty, Lbl.empty],
    by simp [Table.empty], by simp [Table.empty, Own.awaits]⟩

theorem Sound.mem_hash (h : Sound t) {b : ℕ} {q : Lrq} (hq : q ∈ (t.lbl b).requests) : b ∈ t.hash :=
  (h.blocks.hash b).mpr (List.ne_nil_of_mem hq)

theorem Sound.getRequest_hash (h : Sound t) {r : Ref} {q : Lrq} (hget : t.getRequest r = some q) :
    r.lock ∈ t.hash := h.mem_hash (mem_of_getRequest hget).1

theorem Blocks.purgeLoop (ordering : Bool) {rs : List Ref} (h : Blocks t) :
    Blocks (Table.purgeLoop ordering rs t) := by
  induction rs generalizing t with
  | nil => exact h
  | cons r rs ih =>
      rw [Table.purgeLoop]
      split
      · rename_i q hget
        refine ih ((h.setOwn _ _).store ?_ _)
        exact (h.hash r.lock).mpr (List.ne_nil_of_mem (mem_of_getRequest hget).1)
      · exact ih h

theorem Sound.deq {ordering : Bool} (h : Sound t) {t' : Table} {r : Ref}
    (hstep : t.deq ordering r = some t') : Sound t' := by
  obtain ⟨q, hget, hfree, rfl⟩ := deq_cases hstep
  exact ⟨(h.blocks.setOwn _ _).store (h.getRequest_hash hget) _,
    h.linked.releaseRequest ordering hget fun _ => hfree⟩

theorem Sound.convert {ordering : Bool} (h : Sound t) {t' : Table} {r : Ref} {type : Lck} {wait : Bool}
    (hstep : t.convert ordering r type wait = some t') : Sound t' := by
  obtain ⟨q, hget, hidle, rfl⟩ := convert_cases hstep
  exact ⟨(h.blocks.setOwn _ _).store (h.getRequest_hash hget) _, h.linked.convert ordering hget hidle⟩

theorem Sound.step {ordering : Bool} (h : Sound t) {op : Op} {t' : Table}
    (hstep : t.step ordering op = some t') : Sound t' := by
  cases op with
  | enq owner key type wait lrq lbl =>
      obtain ⟨hfresh, hidle, ⟨b, hb, -, rfl⟩ | ⟨hb, rfl⟩⟩ := enq_cases hstep
      · exact ⟨(h.blocks.setOwn _ _).store hb _, h.linked.enqueue ordering (hfresh b hb) hidle⟩
      · exact ⟨h.blocks.alloc hb _ _ _,
          h.linked.alloc key (not_not.mp fun hne => hb ((h.blocks.hash lbl).mpr hne))⟩
  | convert r type wait => exact h.convert hstep
  | downgrade r =>
      rcases downgrade_cases hstep with hstep | ⟨q, -, hstep⟩
      · exact h.deq hstep
      · exact h.convert hstep
  | deq r => exact h.deq hstep
  | purgeOwner owner =>
      obtain rfl := Option.some.inj hstep
      exact ⟨(h.blocks.purgeLoop ordering).setOwn _ _, h.linked.purgeOwner ordering owner⟩
  | timeout owner =>
      obtain ⟨r, q, hget, hpending, rfl⟩ := timeout_cases hstep
      have hlinked := h.linked.reject hget hpending (.inl rfl)
      rw [Table.setOwn, Function.update_eq_self] at hlinked
      exact ⟨h.blocks.store (h.getRequest_hash hget) _, hlinked⟩
  | deadlock owner busy =>
      obtain ⟨r, q, hget, hpending, rfl⟩ := deadlock_cases hstep
      exact ⟨(h.blocks.setOwn _ _).store (h.getRequest_hash hget) _,
        h.linked.reject hget hpending (.inr rfl)⟩
  | wake owner =>
      obtain ⟨r, call, q, hw, hget, hpending, rfl⟩ := wake_cases hstep
      exact ⟨h.blocks.setOwn _ _, h.linked.wake hw hget hpending⟩
  | cleanUp owner =>
      obtain ⟨r, call, q, hw, hget, hpending, -, hpr, hcall⟩ := cleanUp_cases hstep
      rcases hcall with ⟨-, rfl⟩ | ⟨-, rfl⟩
      · exact ⟨((h.blocks.setOwn _ _).setOwn _ _).store (h.getRequest_hash hget) _,
          h.linked.cleanUp_enq ordering hw hget hpr⟩
      · exact ⟨(h.blocks.setOwn _ _).store (h.getRequest_hash hget) _,
          h.linked.cleanUp_convert ordering hw hget hpending hpr⟩

theorem sound_reachable {ordering : Bool} (h : Transition.Reachable (lockManager ordering) t) :
    Sound t := by
  refine h.invariant (fun s hs => ?_) fun s op s' hs hstep => hs.step hstep
  obtain rfl := hs
  exact Sound.empty

end Firebird.Lock
