import Firebird.Tra.Start

/-! # What a step does

The cases of every step, with what has been found on the way to it.
-/

namespace Firebird.Tra

/-- The steps of a transaction and of a process, case by case. -/
inductive Moves (s : Db) : Event → Db → Prop where
  | attach (p) : Moves s (.attach p) (s.attach p)
  | start {p rc header active} : header = s.header.raise (s.dbb p) →
      active = max header.active header.transaction →
      Moves s (.start p rc) { s with
        next := s.next + 1
        header := header
        locks := Function.update s.locks (s.next + 1) (some active)
        tra := Function.update s.tra (s.next + 1)
          (some ⟨p, rc, header.transaction, active, header.snapshot, [], .inventory⟩) }
  | initializeTpc {t count T} : s.tra t = some T → T.phase = .inventory → T.readCommitted = true →
      Moves s (.inventory t count) (s.put t (T.beginScan t))
  | inventory {t count T T'} : s.tra t = some T → T.phase = .inventory →
      T.readCommitted = false →
      T' = { T with transactions := T.transactions ++
        (List.range count).map fun i => s.tip (T.base + T.transactions.length + i) } →
      Moves s (.inventory t count) (s.put t T')
  | inventoryEnd {t count T T'} : s.tra t = some T → T.phase = .inventory →
      T.readCommitted = false → T.base + T.transactions.length + count = t →
      T' = { T with transactions := T.transactions ++
        (List.range count).map fun i => s.tip (T.base + T.transactions.length + i) } →
      Moves s (.inventory t count) (s.put t (T'.beginScan t))
  | scanNext {t T active cleanup} : s.tra t = some T → T.phase = .scan active cleanup →
      active < t → s.view T active ≠ .active →
      Moves s (.scan t) (s.put t { T with phase := .scan (active + 1) cleanup })
  | scanWait {t T active cleanup} : s.tra t = some T → T.phase = .scan active cleanup →
      active < t → s.readData active = 0 →
      Moves s (.scan t) (s.put t { T with phase := .wait active cleanup })
  | scanFound {t T active cleanup data} : s.tra t = some T → T.phase = .scan active cleanup →
      active < t → s.view T active = .active → data = s.readData active ∨ data = active →
      Moves s (.scan t) (s.put t (T.found t active data))
  | scanEnd {t T active cleanup} : s.tra t = some T → T.phase = .scan active cleanup →
      t ≤ active → Moves s (.scan t) (s.put t { T with phase := .write t })
  | wait {t T active cleanup cleanup' old} : s.tra t = some T → T.phase = .wait active cleanup →
      old = s.getState T.process active → old ≠ .active →
      Moves s (.wait t) ((if T.readCommitted then s.setCache T.process active old else s).put t
        { T.tweak active old with phase := .scan (active + 1) cleanup' })
  | waitDead {t T active cleanup cleanup'} : s.tra t = some T → T.phase = .wait active cleanup →
      s.tip active = .active →
      Moves s (.wait t) ((if T.readCommitted then
          (s.setState T.process active .dead).setCache T.process active .dead
        else s.setState T.process active .dead).put t
        { T.tweak active .dead with phase := .scan (active + 1) cleanup' })
  | query {t T oldestActive oldest} : s.tra t = some T → T.phase = .query oldestActive →
      oldest = (if s.queryData ≠ 0 ∧ s.queryData < T.oldestActive then s.queryData
        else T.oldestActive) →
      Moves s (.query t)
        (s.put t { T with oldestActive := oldest, phase := .write oldestActive })
  | writeData {t T oldestActive} : s.tra t = some T → T.phase = .write oldestActive →
      s.locks t ≠ none → Moves s (.writeData t) ({ s with
        locks := Function.update s.locks t (some oldestActive) }.put t
          { T with phase := .publish oldestActive })
  | publish {t T multiThread oldestActive oldest} {dbb : Oldest} : s.tra t = some T →
      T.phase = .publish oldestActive →
      oldest = firstFrom (fun n => s.view T n ≠ .committed) (t - T.oldest) T.oldest - 1 →
      (dbb.transaction = max (s.dbb T.process).transaction oldest ∨ dbb.transaction = oldest) →
      (dbb.active = max (s.dbb T.process).active oldestActive ∨ dbb.active = oldestActive) →
      dbb.snapshot = max (s.dbb T.process).snapshot T.oldestActive →
      Moves s (.publish multiThread t) ({ s with
        dbb := Function.update s.dbb T.process dbb }.put t { T with phase := .started })
  | finish {t T state} : s.tra t = some T → T.phase = .started → s.locks t ≠ none →
      (s.tip t).final = false → state ≠ .active →
      Moves s (.finish t state) (s.setState T.process t state)
  | precommit {t T} : s.tra t = some T → T.phase = .started → T.readCommitted = true →
      s.tip t = .active →
      Moves s (.precommit t) { s.setState T.process t .committed with
        locks := Function.update s.locks t none }
  | release {t T} : s.tra t = some T → T.phase = .started → s.tip t ≠ .active →
      Moves s (.release t) ({ s with locks := Function.update s.locks t none }.put t
        { T with phase := .gone })
  | crash {t T} : s.tra t = some T →
      Moves s (.crash t) ({ s with locks := Function.update s.locks t none }.put t
        { T with phase := .gone })
  | resolve {p n state} : s.tip n = .limbo → state.final = true →
      Moves s (.resolve p n state) (s.setState p n state)
  | fetch (p numbers) : Moves s (.fetch p numbers) (s.fetch p numbers)
  | drop {p n} : n < max s.header.transaction (s.dbb p).transaction →
      Moves s (.drop p n) (s.setCache p n .committed)
  | store {t T} : s.tra t = some T → T.phase = .started → s.tip t = .active →
      Moves s (.store t) { s with versions := Function.update s.versions t true }
  | collect (n) : Moves s (.collect n) (s.collect n)
  | sweep {t T} : s.tra t = some T → T.phase = .started →
      Moves s (.sweep t) (s.put t { T with phase := .sweeping T.oldestActive })
  | refresh {t T saved} : s.tra t = some T → T.phase = .sweeping saved →
      Moves s (.refresh t) (s.put t
        { T with oldestActive := (s.dbb T.process).snapshot, phase := .sweeping saved })
  | refreshCollector {t T} : s.tra t = some T → T.readCommitted = true →
      (T.phase = .started ∨ T.phase = .collecting) →
      Moves s (.refreshCollector t) (s.put t
        { T with
          oldest := (s.dbb T.process).transaction
          oldestActive := (s.dbb T.process).snapshot
          phase := .collecting })
  | sweptBy {t T saved active} : s.tra t = some T → T.phase = .sweeping saved →
      (∀ n < saved, s.tip n = .dead → s.versions n = false) →
      active = firstFrom (fun n => s.view T n = .limbo) (t - T.oldest) T.oldest →
      Moves s (.sweptBy t) (s.put t { T with phase := .swept saved active })
  | unswept {t T saved} : s.tra t = some T → T.phase = .sweeping saved →
      Moves s (.unswept t) (s.put t { T with phase := .started })
  | advance {t T saved active oldest} : s.tra t = some T → T.phase = .swept saved active →
      (oldest = s.header.transaction ∨
        s.header.transaction < saved - 1 ∧ oldest = min active (saved - 1)) →
      Moves s (.advance t) ({ s with header := { s.header with transaction := oldest } }.put t
        { T with phase := .started })

variable {s s' : Db} {t : ℕ}

theorem start_moves {p : ℕ} {rc : Bool} (h : s.start p rc = some s') :
    Moves s (.start p rc) s' := by
  unfold Db.start at h
  split at h
  · cases h
    exact .start rfl rfl
  · cases h

theorem inventory_moves {count : ℕ} (h : s.inventory t count = some s') :
    Moves s (.inventory t count) s' := by
  obtain ⟨T, hT, h⟩ := Option.bind_eq_some_iff.mp h
  split at h
  · rename_i hphase
    split at h
    · rename_i hrc
      cases h
      exact .initializeTpc hT hphase hrc
    · rename_i hrc
      rw [Bool.not_eq_true] at hrc
      dsimp only at h
      split at h
      · cases h
        split
        · rename_i hend
          exact .inventoryEnd hT hphase hrc hend rfl
        · exact .inventory hT hphase hrc rfl
      · cases h
  · cases h

theorem scan_moves (h : s.scan t = some s') : Moves s (.scan t) s' := by
  obtain ⟨T, hT, h⟩ := Option.bind_eq_some_iff.mp h
  split at h
  · rename_i active cleanup hphase
    split at h
    · rename_i hlt
      split at h
      · rename_i hview
        dsimp only at h
        split at h
        · rename_i hdata
          split at h
          · cases h
            exact .scanWait hT hphase hlt hdata
          · cases h
            exact .scanFound hT hphase hlt hview (.inr rfl)
        · cases h
          exact .scanFound hT hphase hlt hview (.inl rfl)
      · rename_i hview
        cases h
        exact .scanNext hT hphase hlt hview
    · rename_i hlt
      cases h
      exact .scanEnd hT hphase (Nat.le_of_not_lt hlt)
  · cases h

theorem getState_active {p n : ℕ} (h : s.getState p n = .active) : s.tip n = .active := by
  unfold Db.getState at h
  split at h
  · rename_i hfinal
    rw [h] at hfinal
    cases hfinal
  · exact h

theorem wait_moves (h : s.wait t = some s') : Moves s (.wait t) s' := by
  obtain ⟨T, hT, h⟩ := Option.bind_eq_some_iff.mp h
  split at h
  · rename_i active cleanup hphase
    dsimp only at h
    by_cases hold : s.getState T.process active = .active
    · rw [if_pos hold, if_pos hold] at h
      cases h
      exact .waitDead hT hphase (getState_active hold)
    · rw [if_neg hold, if_neg hold] at h
      cases h
      exact .wait hT hphase rfl hold
  · cases h

theorem query_moves (h : s.query t = some s') : Moves s (.query t) s' := by
  obtain ⟨T, hT, h⟩ := Option.bind_eq_some_iff.mp h
  split at h
  · rename_i oldestActive hphase
    cases h
    exact .query hT hphase rfl
  · cases h

theorem writeData_moves (h : s.writeData t = some s') : Moves s (.writeData t) s' := by
  obtain ⟨T, hT, h⟩ := Option.bind_eq_some_iff.mp h
  split at h
  · rename_i oldestActive hphase
    split at h
    · rename_i hlock
      cases h
      exact .writeData hT hphase hlock
    · cases h
  · cases h

theorem publish_moves {multiThread : Bool} (h : s.publish multiThread t = some s') :
    Moves s (.publish multiThread t) s' := by
  obtain ⟨T, hT, h⟩ := Option.bind_eq_some_iff.mp h
  split at h
  · rename_i oldestActive hphase
    cases h
    refine .publish hT hphase rfl ?_ ?_ rfl
    all_goals cases multiThread
    · exact .inr rfl
    · exact .inl rfl
    · exact .inr rfl
    · exact .inl rfl
  · cases h

theorem finish_moves {state : TraState} (h : s.finish t state = some s') :
    Moves s (.finish t state) s' := by
  obtain ⟨T, hT, h⟩ := Option.bind_eq_some_iff.mp h
  split at h
  · rename_i hphase
    split at h
    · rename_i hcan
      cases h
      exact .finish hT hphase hcan.1 hcan.2.1 hcan.2.2
    · cases h
  · cases h

theorem precommit_moves (h : s.precommit t = some s') : Moves s (.precommit t) s' := by
  obtain ⟨T, hT, h⟩ := Option.bind_eq_some_iff.mp h
  split at h
  · rename_i hphase
    split at h
    · rename_i hcan
      cases h
      exact .precommit hT hphase hcan.1 hcan.2.2
    · cases h
  · cases h

theorem release_moves (h : s.release t = some s') : Moves s (.release t) s' := by
  obtain ⟨T, hT, h⟩ := Option.bind_eq_some_iff.mp h
  split at h
  · rename_i hphase
    split at h
    · rename_i hcan
      cases h
      exact .release hT hphase hcan
    · cases h
  · cases h

theorem crash_moves (h : s.crash t = some s') : Moves s (.crash t) s' := by
  obtain ⟨T, hT, h⟩ := Option.bind_eq_some_iff.mp h
  cases h
  exact .crash hT

theorem resolve_moves {p n : ℕ} {state : TraState} (h : s.resolve p n state = some s') :
    Moves s (.resolve p n state) s' := by
  unfold Db.resolve at h
  split at h
  · rename_i hcan
    cases h
    exact .resolve hcan.1 hcan.2
  · cases h

theorem drop_moves {p n : ℕ} (h : s.drop p n = some s') : Moves s (.drop p n) s' := by
  unfold Db.drop at h
  split at h
  · rename_i hlt
    cases h
    exact .drop hlt
  · cases h

theorem store_moves (h : s.store t = some s') : Moves s (.store t) s' := by
  obtain ⟨T, hT, h⟩ := Option.bind_eq_some_iff.mp h
  split at h
  · rename_i hphase
    split at h
    · rename_i hcan
      cases h
      exact .store hT hphase hcan.2
    · cases h
  · cases h

theorem sweep_moves (h : s.sweep t = some s') : Moves s (.sweep t) s' := by
  obtain ⟨T, hT, h⟩ := Option.bind_eq_some_iff.mp h
  split at h
  · rename_i hphase
    cases h
    exact .sweep hT hphase
  · cases h

theorem refresh_moves (h : s.refresh t = some s') : Moves s (.refresh t) s' := by
  obtain ⟨T, hT, h⟩ := Option.bind_eq_some_iff.mp h
  split at h
  · rename_i saved hphase
    cases h
    exact .refresh hT hphase
  · cases h

theorem refreshCollector_moves (h : s.refreshCollector t = some s') :
    Moves s (.refreshCollector t) s' := by
  obtain ⟨T, hT, h⟩ := Option.bind_eq_some_iff.mp h
  have hmove : T.phase = .started ∨ T.phase = .collecting → Moves s (.refreshCollector t) s' := by
    intro hphase
    split at h
    · split at h
      · rename_i hrc
        cases h
        exact .refreshCollector hT hrc hphase
      · cases h
    · split at h
      · rename_i hrc
        cases h
        exact .refreshCollector hT hrc hphase
      · cases h
    · cases h
  split at h
  · rename_i hphase
    exact hmove (.inl hphase)
  · rename_i hphase
    exact hmove (.inr hphase)
  · cases h

theorem sweptBy_moves (h : s.sweptBy t = some s') : Moves s (.sweptBy t) s' := by
  obtain ⟨T, hT, h⟩ := Option.bind_eq_some_iff.mp h
  split at h
  · rename_i saved hphase
    split at h
    · rename_i hclean
      cases h
      exact .sweptBy hT hphase hclean rfl
    · cases h
  · cases h

theorem unswept_moves (h : s.unswept t = some s') : Moves s (.unswept t) s' := by
  obtain ⟨T, hT, h⟩ := Option.bind_eq_some_iff.mp h
  split at h
  · rename_i saved hphase
    cases h
    exact .unswept hT hphase
  · cases h

theorem advance_moves (h : s.advance t = some s') : Moves s (.advance t) s' := by
  obtain ⟨T, hT, h⟩ := Option.bind_eq_some_iff.mp h
  split at h
  · rename_i saved active hphase
    cases h
    refine .advance hT hphase ?_
    split
    · rename_i hlt
      exact .inr ⟨hlt, rfl⟩
    · exact .inl rfl
  · cases h

theorem moves {e : Event} (h : s.step e = some s') : Moves s e s' := by
  cases e with
  | attach p => cases h; exact .attach p
  | start p rc => exact start_moves h
  | inventory t count => exact inventory_moves h
  | scan t => exact scan_moves h
  | wait t => exact wait_moves h
  | query t => exact query_moves h
  | writeData t => exact writeData_moves h
  | publish multiThread t => exact publish_moves h
  | finish t state => exact finish_moves h
  | precommit t => exact precommit_moves h
  | release t => exact release_moves h
  | crash t => exact crash_moves h
  | resolve p n state => exact resolve_moves h
  | fetch p numbers => cases h; exact .fetch p numbers
  | drop p n => exact drop_moves h
  | store t => exact store_moves h
  | collect n => cases h; exact .collect n
  | sweep t => exact sweep_moves h
  | refresh t => exact refresh_moves h
  | refreshCollector t => exact refreshCollector_moves h
  | sweptBy t => exact sweptBy_moves h
  | unswept t => exact unswept_moves h
  | advance t => exact advance_moves h

end Firebird.Tra
