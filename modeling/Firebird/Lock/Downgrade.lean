import Firebird.Lock.Grantable

/-! # The reply of `LOCK_downgrade`

The highest pending mode is a maximum of numbers, and the new state is found by counting
down, but protected read and shared write are not comparable. So a holder of shared write is
told that it has protected read while another one keeps shared write, and a reader stays
blocked behind a pending writer.
-/

namespace Firebird.Lock

open Transition (Reachable)

/-! ## Modes -/

/-- The mode is passed on the way down from shared write to protected read. -/
theorem downgradeState_cases (m h : Lck) :
    (downgradeState m h = .none ∨ downgradeState m h = .null) ∨
      ∀ o, compatible h o → (compatible (downgradeState m h) o ↔ ¬(h = .SW ∧ m = .PR ∧ o = .SW)) := by
  cases m <;> cases h <;> first
    | exact .inl (by decide)
    | (refine .inr fun o => ?_
       cases o <;> decide)

/-- The state that is left is compatible with the highest pending mode, and with every lower
one but for protected read below shared write. -/
theorem compatible_downgradeState (m h p : Lck) (hle : p.toNat ≤ m.toNat) :
    compatible p (downgradeState m h) ↔ ¬(m = .SW ∧ Lck.SW.toNat ≤ h.toNat ∧ p = .PR) := by
  cases m <;> cases p <;> first
    | exact absurd hle (by decide)
    | (cases h <;> decide)

theorem downgradeState_compat {m h : Lck} (hm : m = .PR) (hh : h = .SW) :
    downgradeState m h = .PR := by
  subst hm hh
  rfl

theorem toNat_max (a b : Lck) : (a.max b).toNat = Nat.max a.toNat b.toNat := by
  cases a <;> cases b <;> rfl

theorem le_foldl_max (rs : List Lrq) (s : Lck) :
    s.toNat ≤ (rs.foldl (fun s r => s.max r.requested) s).toNat ∧
      ∀ r ∈ rs, r.requested.toNat ≤ (rs.foldl (fun s r => s.max r.requested) s).toNat := by
  induction rs generalizing s with
  | nil => exact ⟨Nat.le_refl _, nofun⟩
  | cons r rs ih =>
      obtain ⟨hinit, hrest⟩ := ih (s.max r.requested)
      rw [toNat_max] at hinit
      refine ⟨Nat.le_trans (Nat.le_max_left ..) hinit, fun r' hr' => ?_⟩
      rcases List.mem_cons.mp hr' with rfl | hr'
      · exact Nat.le_trans (Nat.le_max_right ..) hinit
      · exact hrest r' hr'

/-- No other pending request asks for more. -/
theorem Lbl.le_pendingState {l : Lbl} {q r : Lrq} (hr : r ∈ l.requests) (hp : r.pending = true)
    (hne : r.ptr ≠ q.ptr) : r.requested.toNat ≤ (l.pendingState q).toNat :=
  (le_foldl_max _ _).2 r (List.mem_filter.mpr ⟨hr, by simp [hp, hne]⟩)

/-! ## What is returned and what is so -/

namespace Table

/-- What `LOCK_downgrade` returns -/
def downgradeReply (t : Table) (r : Ref) : Lck :=
  match t.getRequest r with
  | none => .none
  | some q =>
      let state := downgradeState ((t.lbl r.lock).pendingState q) q.state
      if state = .none ∨ state = .null then .none else state

/-- `lrq_state`, or `LCK_none` when there is no such request -/
def stateOf (t : Table) (r : Ref) : Lck :=
  match t.getRequest r with
  | none => .none
  | some q => q.state

/-- The reply is the state of the request after the call, and no request that was pending before
is blocked by it. -/
structure TellsTruth (t : Table) (r : Ref) (t' : Table) : Prop where
  state_eq : t'.stateOf r = t.downgradeReply r
  unblocks : ∀ p ∈ (t.lbl r.lock).requests, p.pending = true → p.ptr ≠ r.lrq →
    compatible p.requested (t.downgradeReply r) = true

/-- A holder of shared write comes down to protected read only when no other request holds shared
write, and a pending protected read is not overlooked for a pending shared write. -/
structure Downgradable (t : Table) (r : Ref) (q : Lrq) : Prop where
  alone : q.state = .SW → (t.lbl r.lock).pendingState q = .PR →
    ∀ p ∈ (t.lbl r.lock).requests, p.ptr ≠ q.ptr → p.state ≠ .SW
  noReader : (t.lbl r.lock).pendingState q = .SW → Lck.SW.toNat ≤ q.state.toNat →
    ∀ p ∈ (t.lbl r.lock).requests, p.pending = true → p.ptr ≠ q.ptr → p.requested ≠ .PR

end Table

variable {ordering : Bool} {t t' : Table} {r : Ref} {q : Lrq}

/-! ## After the call -/

theorem getRequest_eq_none (h : ∀ p ∈ (t.lbl r.lock).requests, p.ptr ≠ r.lrq) :
    t.getRequest r = none := by
  rw [Table.getRequest, List.find?_eq_none]
  simpa using h

theorem getRequest_of_mem {p : Lrq} (hd : Distinct (t.lbl r.lock).requests)
    (hp : p ∈ (t.lbl r.lock).requests) (hptr : p.ptr = r.lrq) : t.getRequest r = some p := by
  cases hget : t.getRequest r with
  | none =>
      rw [Table.getRequest, List.find?_eq_none] at hget
      exact absurd hptr (by simpa using hget p hp)
  | some p' =>
      obtain ⟨hp', hr⟩ := mem_of_getRequest hget
      have hsame : p'.ptr = p.ptr := by
        rw [hptr, hr]
      rw [List.inj_on_of_nodup_map hd hp' hp hsame]

/-- A released request is gone. -/
theorem stateOf_releaseRequest (hget : t.getRequest r = some q)
    (hd : Distinct (t.lbl r.lock).requests) : (t.releaseRequest ordering r q).stateOf r = .none := by
  have hnone : (t.releaseRequest ordering r q).getRequest r = none := by
    refine getRequest_eq_none fun p hp heq => ?_
    rw [Table.releaseRequest, store_lbl_self] at hp
    obtain ⟨p', hp', hsame⟩ := (releaseRequest_effect ordering hd).mem hp
    obtain ⟨-, hr⟩ := mem_of_getRequest hget
    have hptr : p.ptr = p'.ptr := by
      rcases hsame with rfl | ⟨-, rfl⟩ <;> rfl
    rcases hp' with ⟨-, hne⟩ | hno
    · exact hne (by rw [← hptr, heq, hr])
    · cases hno
  rw [Table.stateOf, hnone]

/-- A conversion that does not wait changes the state only if it is granted. -/
theorem stateOf_convert (hget : t.getRequest r = some q) (hp : q.pending = false)
    (hd : Distinct (t.lbl r.lock).requests) {type : Lck}
    (hstep : t.convert ordering r type false = some t') :
    t'.stateOf r = if ((t.lbl r.lock).convert ordering q type false).1 = .granted then type
      else q.state := by
  obtain ⟨q', hget', -, rfl⟩ := convert_cases hstep
  obtain rfl : q' = q := Option.some.inj (hget'.symm.trans hget)
  obtain ⟨hq, hr⟩ := mem_of_getRequest hget
  have heff := convert_effect ordering hd hq type false
  have hafter : ∀ x, x.pending = false → x.ptr = q'.ptr →
      q'.convertReply type ((t.lbl r.lock).convert ordering q' type false).1 = x →
      ((t.setOwn q'.owner (Own.convert r ((t.lbl r.lock).convert ordering q' type false).1)).store
        r.lock ((t.lbl r.lock).convert ordering q' type false).2).stateOf r = x.state := by
    intro x hxp hxptr hx
    rw [hx] at heff
    have hmem := heff.mem_of_not_pending (.inr rfl) hxp
    have hd' := heff.distinct hd fun y hy => Option.some.inj hy ▸ hxptr
    rw [Table.stateOf, getRequest_of_mem (p := x)]
    · rwa [store_lbl_self]
    · rwa [store_lbl_self]
    · rw [hxptr, hr]
  cases hreply : ((t.lbl r.lock).convert ordering q' type false).1 with
  | granted =>
      rw [if_pos rfl, ← hreply]
      exact hafter { q' with requested := type, state := type, pending := false } rfl rfl
        (by rw [hreply]; rfl)
  | waits => exact absurd (Lbl.wait_of_convert hreply) (by decide)
  | denied =>
      rw [if_neg (by decide), ← hreply]
      exact hafter { q' with requested := q'.state } hp rfl (by rw [hreply]; rfl)

/-- A conversion is granted when the other requests admit the mode. -/
theorem granted_convert_iff (ordering : Bool) {l : Lbl} (h : Consistent l)
    (hlen : l.requests.length ≤ 65535)
    (hq : q ∈ l.requests) (type : Lck) : (l.convert ordering q type false).1 = .granted ↔
      Admits (removeLrq q l.requests) type := by
  rw [(convert_eq ordering h hq type Bool.noConfusion hlen).1, Queue.convert]
  dsimp only
  split
  · rename_i hadmits
    exact iff_of_true rfl hadmits
  · rename_i hadmits
    exact iff_of_false (fun heq => by cases heq) hadmits

/-- The other requests are compatible with the state that is held. -/
theorem Consistent.admits_others {l : Lbl} (h : Consistent l) (hq : q ∈ l.requests) :
    Admits (removeLrq q l.requests) q.state := by
  obtain ⟨pre, post, hsplit⟩ := List.append_of_mem hq
  have hd := h.distinct
  rw [hsplit] at hd
  rw [hsplit, removeLrq_split hd rfl]
  exact (allCompatible_split.mp (hsplit ▸ h.compat)).2

/-! ## Main result -/

/-- The part of the reply that goes by the pending requests -/
theorem unblocks_iff (hget : t.getRequest r = some q) :
    (∀ p ∈ (t.lbl r.lock).requests, p.pending = true → p.ptr ≠ r.lrq →
      compatible p.requested (downgradeState ((t.lbl r.lock).pendingState q) q.state) = true) ↔
    ((t.lbl r.lock).pendingState q = .SW → Lck.SW.toNat ≤ q.state.toNat →
      ∀ p ∈ (t.lbl r.lock).requests, p.pending = true → p.ptr ≠ q.ptr → p.requested ≠ .PR) := by
  obtain ⟨-, hr⟩ := mem_of_getRequest hget
  have hptr : r.lrq = q.ptr := by
    rw [hr]
  rw [hptr]
  refine ⟨fun h hm hh p hp hpend hne hpr => ?_, fun h p hp hpend hne => ?_⟩
  · have hle := Lbl.le_pendingState hp hpend hne
    exact (compatible_downgradeState _ _ _ hle).mp (h p hp hpend hne) ⟨hm, hh, hpr⟩
  · have hle := Lbl.le_pendingState hp hpend hne
    refine (compatible_downgradeState _ _ _ hle).mpr ?_
    rintro ⟨hm, hh, hpr⟩
    exact h hm hh p hp hpend hne hpr

/-- In every run in which no lock gets more than 65535 requests, `LOCK_downgrade` tells the truth
about a granted request exactly when this condition holds before the call. -/
theorem downgrade_tells_truth_iff
    (h : Reachable ((lockManager ordering).restrict Room) t) (hget : t.getRequest r = some q)
    (hgranted : q.pending = false ∧ q.state ≠ .none)
    (hstep : t.downgrade ordering r = some t') : t.TellsTruth r t' ↔ t.Downgradable r q := by
  obtain ⟨hq, -⟩ := mem_of_getRequest hget
  obtain ⟨hcons, hlen⟩ := (counts_reachable h).of_mem hq
  have hunblocks := unblocks_iff hget
  rw [Table.downgrade, hget] at hstep
  dsimp only at hstep
  by_cases hgone : downgradeState ((t.lbl r.lock).pendingState q) q.state = .none ∨
      downgradeState ((t.lbl r.lock).pendingState q) q.state = .null
  · -- the request is released
    rw [if_pos hgone] at hstep
    obtain ⟨q', hget', -, rfl⟩ := deq_cases hstep
    obtain rfl : q' = q := Option.some.inj (hget'.symm.trans hget)
    have hreply : t.downgradeReply r = .none := by
      rw [Table.downgradeReply, hget]
      exact if_pos hgone
    refine iff_of_true ⟨?_, fun p _ _ _ => ?_⟩ ⟨fun hh hm => ?_, hunblocks.mp fun p _ _ _ => ?_⟩
    · rw [hreply, stateOf_releaseRequest hget hcons.distinct]
    · rw [hreply, compatible_none_right]
    · rw [downgradeState_compat hm hh] at hgone
      exact absurd hgone (by decide)
    · rcases hgone with hgone | hgone
      · rw [hgone, compatible_none_right]
      · rw [hgone, compatible_comm, compatible_null_left]
  · -- the request is converted, or keeps its state when the conversion is denied
    rw [if_neg hgone] at hstep
    have hmodes := (downgradeState_cases _ _).resolve_left hgone
    have hreply : t.downgradeReply r =
        downgradeState ((t.lbl r.lock).pendingState q) q.state := by
      rw [Table.downgradeReply, hget]
      exact if_neg hgone
    have hothers := hcons.admits_others hq
    have hadmits : Admits (removeLrq q (t.lbl r.lock).requests)
        (downgradeState ((t.lbl r.lock).pendingState q) q.state) ↔
        (q.state = .SW → (t.lbl r.lock).pendingState q = .PR →
          ∀ p ∈ (t.lbl r.lock).requests, p.ptr ≠ q.ptr → p.state ≠ .SW) := by
      refine ⟨fun hall hh hm p hp hne hsw => ?_, fun halone p hp => ?_⟩
      · have hmem := mem_removeLrq.mpr ⟨hp, hne⟩
        exact (hmodes p.state (hothers p hmem)).mp (hall p hmem) ⟨hh, hm, hsw⟩
      · obtain ⟨hmem, hne⟩ := mem_removeLrq.mp hp
        refine (hmodes p.state (hothers p hp)).mpr ?_
        rintro ⟨hh, hm, hsw⟩
        exact halone hh hm p hmem hne hsw
    have hstate : t'.stateOf r = t.downgradeReply r ↔
        Admits (removeLrq q (t.lbl r.lock).requests)
          (downgradeState ((t.lbl r.lock).pendingState q) q.state) := by
      rw [stateOf_convert hget hgranted.1 hcons.distinct hstep, hreply,
        ← granted_convert_iff ordering hcons hlen hq]
      split
      · rename_i hgrant
        exact iff_of_true rfl hgrant
      · rename_i hdenied
        refine iff_of_false (fun hsame => hdenied ?_) hdenied
        rw [granted_convert_iff ordering hcons hlen hq]
        rw [← hsame]
        exact hothers
    constructor
    · rintro ⟨hs, hu⟩
      rw [hreply] at hu
      exact ⟨hadmits.mp (hstate.mp hs), hunblocks.mp hu⟩
    · rintro ⟨halone, hreader⟩
      refine ⟨hstate.mpr (hadmits.mpr halone), ?_⟩
      rw [hreply]
      exact hunblocks.mpr hreader

/-- A writer comes down to shared read for another writer. -/
theorem downgrade_tells_truth_writer :
    ∃ t t', Table.run true [.enq 1 ⟨0, 1, []⟩ .PW false 11 1, .enq 2 ⟨0, 1, []⟩ .PW true 12 1]
        Table.empty = some t ∧ t.downgrade true ⟨1, 11⟩ = some t' ∧
      t.downgradeReply ⟨1, 11⟩ = .SR ∧ t.TellsTruth ⟨1, 11⟩ t' := by
  let first : Op := .enq 1 ⟨0, 1, []⟩ .PW false 11 1
  let second : Op := .enq 2 ⟨0, 1, []⟩ .PW true 12 1
  obtain ⟨s, hs⟩ : ∃ s, Table.empty.step true first = some s := ⟨_, rfl⟩
  obtain ⟨t, ht⟩ : ∃ t, s.step true second = some t := by
    cases hs
    exact ⟨_, rfl⟩
  have hget : t.getRequest ⟨1, 11⟩ = some ⟨11, 1, .PW, .PW, false, false⟩ := by
    cases hs
    cases ht
    decide
  have hreq : (t.lbl 1).requests =
      [⟨11, 1, .PW, .PW, false, false⟩, ⟨12, 2, .none, .PW, true, false⟩] := by
    cases hs
    cases ht
    decide
  have hmax : (t.lbl 1).pendingState ⟨11, 1, .PW, .PW, false, false⟩ = .PW := by
    rw [Lbl.pendingState, hreq]
    rfl
  obtain ⟨t', ht'⟩ : ∃ t', t.downgrade true ⟨1, 11⟩ = some t' := by
    cases hs
    cases ht
    exact ⟨_, rfl⟩
  refine ⟨t, t', ?_, ht', ?_, (@downgrade_tells_truth_iff true t t' ⟨1, 11⟩ _
    (.step (.step (.init rfl) ⟨hs, ?_⟩) ⟨ht, ?_⟩) hget ⟨rfl, by decide⟩ ht').mpr ⟨?_, ?_⟩⟩
  · show Option.bind _ _ = _
    rw [hs]
    show Option.bind (s.step true second) _ = _
    rw [ht]
    rfl
  · rw [Table.downgradeReply, hget]
    dsimp only
    rw [hmax]
    rfl
  · intro b hb
    cases hb
  · cases hs
    rintro b ⟨⟩
    decide
  · intro hh
    cases hh
  · intro hm
    rw [hmax] at hm
    cases hm

/-- A holder of shared write is told that it holds protected read, and the reply to a holder of
exclusive access blocks a reader that waits before a writer. -/
theorem downgrade_misleads :
    (∃ t t' q, Reachable (lockManager true) t ∧ t.getRequest ⟨1, 11⟩ = some q ∧
      (q.pending = false ∧ q.state ≠ .none) ∧ t.downgrade true ⟨1, 11⟩ = some t' ∧
      t'.stateOf ⟨1, 11⟩ ≠ t.downgradeReply ⟨1, 11⟩ ∧ ¬t.TellsTruth ⟨1, 11⟩ t') ∧
    ∃ t t' q, Reachable (lockManager true) t ∧ t.getRequest ⟨1, 11⟩ = some q ∧
      (q.pending = false ∧ q.state ≠ .none) ∧ t.downgrade true ⟨1, 11⟩ = some t' ∧
      t'.stateOf ⟨1, 11⟩ = t.downgradeReply ⟨1, 11⟩ ∧ ¬t.TellsTruth ⟨1, 11⟩ t' := by
  constructor
  · let ops : List Op := [.enq 1 ⟨0, 1, []⟩ .SW false 11 1, .enq 2 ⟨0, 1, []⟩ .SW false 12 1,
      .enq 3 ⟨0, 1, []⟩ .PR true 13 1]
    have hrun : ((Table.run true ops Table.empty).bind fun t =>
        (t.downgrade true ⟨1, 11⟩).map fun t' =>
          (t.getRequest ⟨1, 11⟩, t.downgradeReply ⟨1, 11⟩, t'.stateOf ⟨1, 11⟩)) =
        some (some ⟨11, 1, .SW, .SW, false, false⟩, .PR, .SW) := by decide
    obtain ⟨t, ht, hdown⟩ := Option.bind_eq_some_iff.mp hrun
    obtain ⟨t', ht', heq⟩ := Option.map_eq_some_iff.mp hdown
    obtain ⟨hget, hrest⟩ := Prod.mk.inj heq
    obtain ⟨hreply, hstate⟩ := Prod.mk.inj hrest
    have hne : t'.stateOf ⟨1, 11⟩ ≠ t.downgradeReply ⟨1, 11⟩ := by
      rw [hreply, hstate]
      decide
    exact ⟨t, t', _, reachable_run (.init rfl) ht, hget, ⟨rfl, by decide⟩, ht', hne,
      fun htrue => hne htrue.state_eq⟩
  · let ops : List Op := [.enq 1 ⟨0, 1, []⟩ .EX false 11 1, .enq 2 ⟨0, 1, []⟩ .PR true 12 1,
      .enq 3 ⟨0, 1, []⟩ .SW true 13 1]
    have hrun : ((Table.run true ops Table.empty).bind fun t =>
        (t.downgrade true ⟨1, 11⟩).map fun t' =>
          (t.getRequest ⟨1, 11⟩, t.downgradeReply ⟨1, 11⟩, t'.stateOf ⟨1, 11⟩,
            (t.lbl 1).requests[1]?)) =
        some (some ⟨11, 1, .EX, .EX, false, false⟩, .SW, .SW,
          some ⟨12, 2, .none, .PR, true, false⟩) := by decide
    obtain ⟨t, ht, hdown⟩ := Option.bind_eq_some_iff.mp hrun
    obtain ⟨t', ht', heq⟩ := Option.map_eq_some_iff.mp hdown
    obtain ⟨hget, hrest⟩ := Prod.mk.inj heq
    obtain ⟨hreply, hrest⟩ := Prod.mk.inj hrest
    obtain ⟨hstate, hreader⟩ := Prod.mk.inj hrest
    refine ⟨t, t', _, reachable_run (.init rfl) ht, hget, ⟨rfl, by decide⟩, ht', ?_, fun htrue => ?_⟩
    · rw [hreply, hstate]
    · have hblocked := htrue.unblocks _ (List.mem_of_getElem? hreader) rfl (by decide)
      rw [hreply] at hblocked
      exact absurd hblocked (by decide)

end Firebird.Lock
