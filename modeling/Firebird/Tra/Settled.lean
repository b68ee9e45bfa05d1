import Firebird.Tra.Moves
import Mathlib.Data.List.MinMax

/-! # What is no longer active

All the numbers that a start works with are lower bounds for the transactions that are
active on the inventory pages, and the lock data of a transaction is one for those that its
snapshot shows as active. No condition on the run is needed for this.
-/

namespace Firebird.Tra

open Transition (Reachable)

variable {s s' : Db} {t : ℕ} {T : JrdTra}

/-- No transaction below `h` is active. -/
def Db.Low (s : Db) (h : ℕ) : Prop := ∀ n, 0 < n → s.tip n = .active → h ≤ n

/-- The snapshot shows a transaction as active. -/
def JrdTra.Shows (T : JrdTra) (n : ℕ) : Prop := T.oldest ≤ n ∧ T.seen n = some .active

/-- The snapshot shows no transaction below `h` as active. -/
def JrdTra.Own (T : JrdTra) (h : ℕ) : Prop := ∀ n, T.Shows n → h ≤ n

/-- What holds of a transaction at a point of its run. -/
def Db.At (s : Db) (t : ℕ) (T : JrdTra) : Phase → Prop
  | .inventory =>
      T.oldest ≤ T.oldestActive ∧ T.oldestActive ≤ t ∧ s.Low T.oldestActive ∧
        T.Own T.oldestActive
  | .scan active _ =>
      T.oldestActive = t ∧ T.oldest ≤ active ∧ active ≤ t ∧ s.Low active ∧ T.Own active
  | .wait active _ =>
      T.oldestActive = t ∧ T.oldest ≤ active ∧ active < t ∧ s.Low active ∧ T.Own active
  | .query oldestActive | .write oldestActive | .publish oldestActive =>
      T.oldestActive ≤ oldestActive ∧ T.oldest ≤ oldestActive ∧ oldestActive ≤ t ∧
        s.Low oldestActive ∧ T.Own oldestActive
  | .started | .collecting => s.Low T.oldestActive
  | .sweeping saved => s.Low T.oldestActive ∧ s.Low saved
  | .swept saved active => s.Low T.oldestActive ∧ s.Low saved ∧ 0 < active
  | .gone => True

/-- The transaction has the number of a transaction as its oldest one. -/
def Phase.works : Phase → Bool
  | .collecting | .gone => false
  | _ => true

/-- The transaction has begun and not ended. -/
def Phase.running : Phase → Bool
  | .inventory | .collecting | .gone => false
  | _ => true

theorem Phase.works_of_running {phase : Phase} (h : phase.running = true) :
    phase.works = true := by
  cases phase <;> first | rfl | cases h

/-- What holds of a transaction. -/
structure TraOk (s : Db) (t : ℕ) (T : JrdTra) : Prop where
  le : t ≤ s.next
  pos : T.phase.works = true → 0 < T.oldest
  rc : T.readCommitted = true → T.transactions = []
  seen : ∀ n state, T.oldest ≤ n → T.seen n = some state → state ≠ .active →
    s.tip n ≠ .active ∧ (state = .dead → s.tip n = .dead)
  full : T.readCommitted = false → T.phase.running = true →
    T.base + T.transactions.length = t
  phase : s.At t T T.phase

/-- The lock data of a transaction. -/
structure LockOk (s : Db) (t data : ℕ) : Prop where
  le_next : t ≤ s.next
  pos : 0 < data
  le : data ≤ t
  low : s.Low data
  own : ∀ T, s.tra t = some T → T.Own data

structure Settled (s : Db) : Prop where
  beyond : ∀ n, s.next < n → s.tip n = .active
  header : s.Low s.header.transaction ∧ s.Low s.header.active ∧ s.Low s.header.snapshot
  pos : 0 < s.header.transaction
  dbb : ∀ p, s.Low (s.dbb p).transaction ∧ s.Low (s.dbb p).active ∧ s.Low (s.dbb p).snapshot
  tpc : ∀ p n, 0 < n → s.tpc p n ≠ .active →
    s.tip n ≠ .active ∧ (s.tpc p n = .dead → s.tip n = .dead)
  tra : ∀ t T, s.tra t = some T → TraOk s t T
  locks : ∀ t d, s.locks t = some d → LockOk s t d

/-! ## States only get final -/

/-- No transaction becomes active, and dead ones stay dead. -/
structure Older (s s' : Db) : Prop where
  next : s.next ≤ s'.next
  active : ∀ n, s'.tip n = .active → s.tip n = .active
  dead : ∀ n, s.tip n = .dead → s'.tip n = .dead

theorem Older.rfl : Older s s := ⟨Nat.le_refl _, fun _ h => h, fun _ h => h⟩

theorem Db.Low.mono {h : ℕ} (hlow : s.Low h) (hs : Older s s') : s'.Low h :=
  fun n hpos hn => hlow n hpos (hs.active n hn)

theorem Db.Low.zero : s.Low 0 := fun _ _ _ => Nat.zero_le _

theorem Db.Low.max {a b : ℕ} (ha : s.Low a) (hb : s.Low b) : s.Low (max a b) :=
  fun n hpos hn => Nat.max_le.mpr ⟨ha n hpos hn, hb n hpos hn⟩

theorem Db.Low.of_le {a b : ℕ} (ha : s.Low a) (h : b ≤ a) : s.Low b :=
  fun n hpos hn => Nat.le_trans h (ha n hpos hn)

theorem JrdTra.Own.of_le {a b : ℕ} (ha : T.Own a) (h : b ≤ a) : T.Own b :=
  fun n hn => Nat.le_trans h (ha n hn)

theorem Db.Low.succ {n : ℕ} (h : s.Low n) (hn : s.tip n ≠ .active) : s.Low (n + 1) := by
  intro m hpos hm
  rcases Nat.lt_or_eq_of_le (h m hpos hm) with hlt | rfl
  · exact hlt
  · exact absurd hm hn

theorem JrdTra.Own.succ {n : ℕ} (h : T.Own n) (hn : T.seen n ≠ some .active) : T.Own (n + 1) := by
  intro m hm
  rcases Nat.lt_or_eq_of_le (h m hm) with hlt | rfl
  · exact hlt
  · exact absurd hm.2 hn

theorem JrdTra.own_of_nil (h : T.transactions = []) (k : ℕ) : T.Own k := by
  rintro n ⟨-, hn⟩
  rw [JrdTra.seen, h] at hn
  cases hn

theorem Db.At.mono {phase : Phase} (h : s.At t T phase) (hs : Older s s') :
    s'.At t T phase := by
  cases phase with
  | inventory => exact ⟨h.1, h.2.1, h.2.2.1.mono hs, h.2.2.2⟩
  | scan active cleanup => exact ⟨h.1, h.2.1, h.2.2.1, h.2.2.2.1.mono hs, h.2.2.2.2⟩
  | wait active cleanup => exact ⟨h.1, h.2.1, h.2.2.1, h.2.2.2.1.mono hs, h.2.2.2.2⟩
  | query oa => exact ⟨h.1, h.2.1, h.2.2.1, h.2.2.2.1.mono hs, h.2.2.2.2⟩
  | write oa => exact ⟨h.1, h.2.1, h.2.2.1, h.2.2.2.1.mono hs, h.2.2.2.2⟩
  | publish oa => exact ⟨h.1, h.2.1, h.2.2.1, h.2.2.2.1.mono hs, h.2.2.2.2⟩
  | started => exact Db.Low.mono h hs
  | collecting => exact Db.Low.mono h hs
  | sweeping saved => exact ⟨h.1.mono hs, h.2.mono hs⟩
  | swept saved active => exact ⟨h.1.mono hs, h.2.1.mono hs, h.2.2⟩
  | gone => trivial

theorem TraOk.mono (h : TraOk s t T) (hs : Older s s') : TraOk s' t T where
  le := Nat.le_trans h.le hs.next
  pos := h.pos
  rc := h.rc
  seen n state hn hstate hne :=
    have ⟨hactive, hdead⟩ := h.seen n state hn hstate hne
    ⟨fun hn => hactive (hs.active n hn), fun hstate => hs.dead n (hdead hstate)⟩
  full := h.full
  phase := h.phase.mono hs

/-! ## Changes of the shared state -/

theorem older_setState {p n : ℕ} {state : TraState} (hfinal : s.tip n ≠ .dead ∨ state = .dead)
    (hstate : state ≠ .active) : Older s (s.setState p n state) where
  next := Nat.le_refl _
  active m hm := by
    change Function.update s.tip n state m = .active at hm
    rw [Function.update_apply] at hm
    split at hm
    · exact absurd hm hstate
    · exact hm
  dead m hm := by
    change Function.update s.tip n state m = .dead
    rw [Function.update_apply]
    split
    · rename_i heq
      rw [heq] at hm
      rcases hfinal with hne | hdead
      · exact absurd hm hne
      · exact hdead
    · exact hm

theorem Settled.older (h : Settled s) (hs : Older s s') (hnext : s'.next = s.next)
    (hbeyond : ∀ n, s.next < n → s'.tip n = .active) (hheader : s'.header = s.header)
    (hdbb : s'.dbb = s.dbb) (htra : s'.tra = s.tra)
    (htpc : ∀ p n, 0 < n → s'.tpc p n ≠ .active →
      s'.tip n ≠ .active ∧ (s'.tpc p n = .dead → s'.tip n = .dead))
    (hlocks : ∀ t, s'.locks t = s.locks t ∨ s'.locks t = none) : Settled s' where
  beyond n hn := hbeyond n (hnext ▸ hn)
  header := by
    rw [hheader]
    exact ⟨h.header.1.mono hs, h.header.2.1.mono hs, h.header.2.2.mono hs⟩
  pos := hheader ▸ h.pos
  dbb p := by
    rw [hdbb]
    exact ⟨(h.dbb p).1.mono hs, (h.dbb p).2.1.mono hs, (h.dbb p).2.2.mono hs⟩
  tpc := htpc
  tra u U hU := (h.tra u U (htra ▸ hU)).mono hs
  locks u d hd := by
    rcases hlocks u with heq | hnone
    · rw [heq] at hd
      have hlock := h.locks u d hd
      exact ⟨hnext ▸ hlock.le_next, hlock.pos, hlock.le, hlock.low.mono hs,
        fun U hU => hlock.own U (htra ▸ hU)⟩
    · rw [hnone] at hd
      cases hd

theorem older_put : Older s (s.put t T) := ⟨Nat.le_refl _, fun _ h => h, fun _ h => h⟩

/-- A transaction moves on. -/
theorem Settled.put (h : Settled s) (hT : TraOk s t T)
    (hown : ∀ d, s.locks t = some d → T.Own d) : Settled (s.put t T) where
  beyond := h.beyond
  header := h.header
  pos := h.pos
  dbb := h.dbb
  tpc := h.tpc
  tra u U hU := by
    change Function.update s.tra t (some T) u = some U at hU
    rw [Function.update_apply] at hU
    split at hU
    · rename_i heq
      cases hU
      rw [heq]
      exact hT.mono older_put
    · exact (h.tra u U hU).mono older_put
  locks u d hd := by
    have hlock := h.locks u d hd
    refine ⟨hlock.le_next, hlock.pos, hlock.le, hlock.low, fun U hU => ?_⟩
    change Function.update s.tra t (some T) u = some U at hU
    rw [Function.update_apply] at hU
    split at hU
    · rename_i heq
      cases hU
      exact hown d (heq ▸ hd)
    · exact hlock.own U hU

/-- A state is set that was not final. -/
theorem Settled.setState (h : Settled s) {p n : ℕ} {state : TraState} (hn : n ≤ s.next)
    (hfinal : s.tip n ≠ .dead ∨ state = .dead) (hstate : state ≠ .active) :
    Settled (s.setState p n state) := by
  have hs : Older s (s.setState p n state) := older_setState hfinal hstate
  refine h.older hs rfl (fun m hm => ?_) rfl rfl rfl (fun q m hm hcache => ?_) fun _ => .inl rfl
  · change Function.update s.tip n state m = .active
    rw [Function.update_of_ne (by omega)]
    exact h.beyond m hm
  · have hkept : ∀ {st}, s.tpc q m = st → st ≠ .active →
        (s.setState p n state).tip m ≠ .active ∧
          (st = .dead → (s.setState p n state).tip m = .dead) := by
      rintro st rfl hst
      have ⟨hactive, hdead⟩ := h.tpc q m hm hst
      exact ⟨fun htip => hactive (hs.active m htip), fun heq => hs.dead m (hdead heq)⟩
    change Function.update s.tpc p (Function.update (s.tpc p) n state) q m ≠ .active at hcache
    change _ ∧ (Function.update s.tpc p (Function.update (s.tpc p) n state) q m = .dead → _)
    rw [Function.update_apply] at hcache ⊢
    split at hcache
    · rename_i hq
      rw [if_pos hq]
      rw [Function.update_apply] at hcache ⊢
      split at hcache
      · rename_i hmn
        rw [if_pos hmn, hmn]
        change Function.update s.tip n state n ≠ .active ∧
          (state = .dead → Function.update s.tip n state n = .dead)
        rw [Function.update_self]
        exact ⟨hstate, id⟩
      · rename_i hmn
        rw [if_neg hmn]
        exact hkept (by rw [hq]) hcache
    · rename_i hq
      rw [if_neg hq]
      exact hkept rfl hcache

/-- A process learns of a state. -/
theorem Settled.setCache (h : Settled s) {p n : ℕ} {state : TraState}
    (hn : 0 < n → s.tip n ≠ .active ∧ (state = .dead → s.tip n = .dead)) :
    Settled (s.setCache p n state) := by
  refine h.older ⟨Nat.le_refl _, fun _ h => h, fun _ h => h⟩ rfl
    h.beyond rfl rfl rfl (fun q m hm hcache => ?_) fun _ => .inl rfl
  change Function.update s.tpc p (Function.update (s.tpc p) n state) q m ≠ .active at hcache
  change s.tip m ≠ .active ∧
    (Function.update s.tpc p (Function.update (s.tpc p) n state) q m = .dead → s.tip m = .dead)
  rw [Function.update_apply] at hcache ⊢
  split at hcache
  · rename_i hq
    rw [if_pos hq]
    rw [Function.update_apply] at hcache ⊢
    split at hcache
    · rename_i hmn
      rw [if_pos hmn, hmn]
      exact hn (hmn ▸ hm)
    · rename_i hmn
      rw [if_neg hmn]
      exact hq ▸ h.tpc q m hm (hq ▸ hcache)
  · rename_i hq
    rw [if_neg hq]
    exact h.tpc q m hm hcache

theorem Settled.fetch (h : Settled s) (p : ℕ) (numbers : ℕ → Bool) :
    Settled (s.fetch p numbers) := by
  refine h.older ⟨Nat.le_refl _, fun _ h => h, fun _ h => h⟩ rfl
    h.beyond rfl rfl rfl (fun q m hm hcache => ?_) fun _ => .inl rfl
  change Function.update s.tpc p (fun n => if numbers n then s.tip n else s.tpc p n) q m ≠ .active
    at hcache
  change s.tip m ≠ .active ∧
    (Function.update s.tpc p (fun n => if numbers n then s.tip n else s.tpc p n) q m = .dead →
      s.tip m = .dead)
  rw [Function.update_apply] at hcache ⊢
  split at hcache
  · rename_i hq
    rw [if_pos hq]
    dsimp only at hcache ⊢
    split at hcache
    · rename_i hm
      rw [if_pos hm]
      exact ⟨hcache, id⟩
    · rename_i hm'
      rw [if_neg hm']
      exact h.tpc p m hm hcache
  · rename_i hq
    rw [if_neg hq]
    exact h.tpc q m hm hcache

theorem Settled.unlock (h : Settled s) (t : ℕ) :
    Settled { s with locks := Function.update s.locks t none } := by
  refine h.older ⟨Nat.le_refl _, fun _ h => h, fun _ h => h⟩ rfl h.beyond rfl rfl rfl h.tpc fun u => ?_
  change Function.update s.locks t none u = s.locks u ∨ Function.update s.locks t none u = none
  rw [Function.update_apply]
  split
  · exact .inr rfl
  · exact .inl rfl

theorem Settled.versions (h : Settled s) (f : ℕ → Bool) : Settled { s with versions := f } :=
  h.older ⟨Nat.le_refl _, fun _ h => h, fun _ h => h⟩ rfl h.beyond
    rfl rfl rfl h.tpc fun _ => .inl rfl

theorem Settled.dbbs (h : Settled s) {p : ℕ} {d : Oldest}
    (hd : s.Low d.transaction ∧ s.Low d.active ∧ s.Low d.snapshot) :
    Settled { s with dbb := Function.update s.dbb p d } where
  beyond := h.beyond
  header := h.header
  pos := h.pos
  dbb q := by
    change s.Low (Function.update s.dbb p d q).transaction ∧
      s.Low (Function.update s.dbb p d q).active ∧ s.Low (Function.update s.dbb p d q).snapshot
    rw [Function.update_apply]
    split
    · exact hd
    · exact h.dbb q
  tpc := h.tpc
  tra u U hU := (h.tra u U hU).mono ⟨Nat.le_refl _, fun _ h => h, fun _ h => h⟩
  locks u d hd :=
    have hlock := h.locks u d hd
    ⟨hlock.le_next, hlock.pos, hlock.le, hlock.low, hlock.own⟩

theorem Settled.header_of (h : Settled s) {d : Oldest}
    (hd : s.Low d.transaction ∧ s.Low d.active ∧ s.Low d.snapshot) (hpos : 0 < d.transaction) :
    Settled { s with header := d } where
  beyond := h.beyond
  header := hd
  pos := hpos
  dbb := h.dbb
  tpc := h.tpc
  tra u U hU := (h.tra u U hU).mono ⟨Nat.le_refl _, fun _ h => h, fun _ h => h⟩
  locks u d hd :=
    have hlock := h.locks u d hd
    ⟨hlock.le_next, hlock.pos, hlock.le, hlock.low, hlock.own⟩

theorem Settled.lock (h : Settled s) {d : ℕ} (hd : LockOk s t d) :
    Settled { s with locks := Function.update s.locks t (some d) } where
  beyond := h.beyond
  header := h.header
  pos := h.pos
  dbb := h.dbb
  tpc := h.tpc
  tra u U hU := (h.tra u U hU).mono ⟨Nat.le_refl _, fun _ h => h, fun _ h => h⟩
  locks u d' hd' := by
    change Function.update s.locks t (some d) u = some d' at hd'
    rw [Function.update_apply] at hd'
    have hlock : LockOk s u d' := by
      split at hd'
      · rename_i heq
        cases hd'
        exact heq ▸ hd
      · exact h.locks u d' hd'
    exact ⟨hlock.le_next, hlock.pos, hlock.le, hlock.low, hlock.own⟩

/-! ## The snapshot -/

theorem JrdTra.base_le (T : JrdTra) : T.base ≤ T.oldest := Nat.sub_le _ _

/-- The states appended to a snapshot are those of the pages. -/
theorem seen_append {T' : JrdTra} {count n : ℕ} {state : TraState}
    (hT' : T' = { T with transactions := T.transactions ++
      (List.range count).map fun i => s.tip (T.base + T.transactions.length + i) })
    (hn : T.oldest ≤ n) (hseen : T'.seen n = some state) :
    T.seen n = some state ∨ s.tip n = state := by
  subst hT'
  have hbase := T.base_le
  change (T.transactions ++ (List.range count).map fun i =>
    s.tip (T.base + T.transactions.length + i))[n - T.base]? = some state at hseen
  rw [List.getElem?_append] at hseen
  split at hseen
  · exact .inl hseen
  · rename_i hge
    rw [List.getElem?_map, Option.map_eq_some_iff] at hseen
    obtain ⟨i, hi, htip⟩ := hseen
    rw [List.getElem?_range] at hi
    · cases hi
      rw [show T.base + T.transactions.length + (n - T.base - T.transactions.length) = n by omega]
        at htip
      exact .inr htip
    · by_contra hlt
      rw [List.getElem?_eq_none (by rw [List.length_range]; omega)] at hi
      cases hi

theorem seen_tweak {a n : ℕ} {state state' : TraState} (ha : T.oldest ≤ a) (hn : T.oldest ≤ n)
    (hseen : (T.tweak a state).seen n = some state') :
    n ≠ a ∧ T.seen n = some state' ∨ n = a ∧ state' = state := by
  have hbase := T.base_le
  change (T.transactions.set (a - T.base) state)[n - T.base]? = some state' at hseen
  rw [List.getElem?_set] at hseen
  split at hseen
  · split at hseen
    · cases hseen
      exact .inr ⟨by omega, rfl⟩
    · cases hseen
  · exact .inl ⟨by rintro rfl; contradiction, hseen⟩

/-- A transaction that only its phase and its horizon change of. -/
theorem TraOk.move {T' : JrdTra} (h : TraOk s t T) (hpos : 0 < T'.oldest)
    (hold : T'.oldest = T.oldest) (hrc : T'.readCommitted = T.readCommitted)
    (htra : T'.transactions = T.transactions)
    (hfull : T.readCommitted = false → T.base + T.transactions.length = t)
    (hphase : s.At t T' T'.phase) : TraOk s t T' where
  le := h.le
  pos _ := hpos
  rc hr := htra.trans (h.rc (hrc ▸ hr))
  seen n state hn hstate := by
    rw [JrdTra.seen, JrdTra.base, hold, htra] at hstate
    exact h.seen n state (hold ▸ hn) hstate
  full hr _ := by
    rw [JrdTra.base, hold, htra]
    exact hfull (hrc ▸ hr)
  phase := hphase

theorem JrdTra.own_congr {T' : JrdTra} {k : ℕ} (h : T.Own k) (hold : T'.oldest = T.oldest)
    (htra : T'.transactions = T.transactions) : T'.Own k := by
  rintro n ⟨hn, hseen⟩
  rw [JrdTra.seen, JrdTra.base, hold, htra] at hseen
  exact h n ⟨hold ▸ hn, hseen⟩

theorem Settled.move {T' : JrdTra} (h : Settled s) (hT : s.tra t = some T)
    (hrun : T.phase.running = true) (hold : T'.oldest = T.oldest)
    (hrc : T'.readCommitted = T.readCommitted) (htra : T'.transactions = T.transactions)
    (hphase : s.At t T' T'.phase) : Settled (s.put t T') := by
  have hok := h.tra t T hT
  have hpos : 0 < T.oldest := hok.pos (Phase.works_of_running hrun)
  have hmove := hok.move (hold ▸ hpos) hold hrc htra (fun hr => hok.full hr hrun) hphase
  refine h.put hmove fun d hd => ?_
  exact JrdTra.own_congr ((h.locks t d hd).own T hT) hold htra

/-! ## Every step -/

/-- A state looked at that is not active. -/
theorem Settled.view (h : Settled s) (hT : s.tra t = some T) {n : ℕ} (hpos : 0 < n)
    (hn : T.oldest ≤ n) (hview : s.view T n ≠ .active) :
    s.tip n ≠ .active ∧ T.seen n ≠ some .active := by
  unfold Db.view at hview
  have hok := h.tra t T hT
  split at hview
  · rename_i hrc
    refine ⟨(h.tpc _ n hpos hview).1, ?_⟩
    rw [JrdTra.seen, hok.rc hrc]
    exact nofun
  · cases hseen : T.seen n with
    | none =>
        rw [hseen] at hview
        exact absurd rfl hview
    | some state =>
        rw [hseen] at hview
        refine ⟨(hok.seen n state hn hseen hview).1, fun heq => ?_⟩
        cases heq
        exact hview rfl

theorem TraOk.beginScan (h : TraOk s t T) (hpos : 0 < T.oldest)
    (hfull : T.readCommitted = false → T.base + T.transactions.length = t)
    (hphase : s.At t T .inventory) : TraOk s t (T.beginScan t) :=
  h.move hpos rfl rfl rfl hfull ⟨rfl, hphase⟩

theorem Settled.append (h : Settled s) (hT : s.tra t = some T) (hphase : T.phase = .inventory)
    (hrc : T.readCommitted = false) {T' : JrdTra} {count : ℕ}
    (hT' : T' = { T with transactions := T.transactions ++
      (List.range count).map fun i => s.tip (T.base + T.transactions.length + i) }) :
    TraOk s t T' ∧ 0 < T.oldest ∧ s.At t T' .inventory ∧
      ∀ d, s.locks t = some d → T'.Own d := by
  have hok := h.tra t T hT
  have hpos : 0 < T.oldest := hok.pos (by rw [hphase]; rfl)
  have hat : s.At t T .inventory := hphase ▸ hok.phase
  have hown : ∀ k, s.Low k → T.Own k → T'.Own k := by
    rintro k hlow hk n ⟨hn, hseen⟩
    have hn' : T.oldest ≤ n := by rw [hT'] at hn; exact hn
    rcases seen_append hT' hn' hseen with hold | htip
    · exact hk n ⟨hn', hold⟩
    · exact hlow n (by omega) htip
  have hat' : s.At t T' .inventory := by
    have hown' := hown _ hat.2.2.1 hat.2.2.2
    rw [hT'] at hown' ⊢
    exact ⟨hat.1, hat.2.1, hat.2.2.1, hown'⟩
  refine ⟨⟨hok.le, fun _ => ?_, ?_, ?_, fun _ hrun => ?_, ?_⟩, hpos, hat', fun d hd => ?_⟩
  · rw [hT']
    exact hpos
  · intro hrc'
    rw [hT'] at hrc'
    exact absurd hrc' (by rw [hrc]; exact nofun)
  · intro n state hn hstate hne
    have hn' : T.oldest ≤ n := by rw [hT'] at hn; exact hn
    rcases seen_append hT' hn' hstate with hold | htip
    · exact hok.seen n state hn' hold hne
    · exact ⟨htip ▸ hne, fun hdead => hdead ▸ htip⟩
  · rw [hT', hphase] at hrun
    cases hrun
  · have hphase' : T'.phase = .inventory := by rw [hT']; exact hphase
    exact hphase' ▸ hat'
  · have hlock := h.locks t d hd
    exact hown d hlock.low (hlock.own T hT)

theorem Settled.start (h : Settled s) {p : ℕ} {rc : Bool} {header : Oldest} {active : ℕ}
    (hheader : header = s.header.raise (s.dbb p))
    (hactive : active = max header.active header.transaction) :
    Settled { s with
      next := s.next + 1
      header := header
      locks := Function.update s.locks (s.next + 1) (some active)
      tra := Function.update s.tra (s.next + 1)
        (some ⟨p, rc, header.transaction, active, header.snapshot, [], .inventory⟩) } := by
  let s' : Db := { s with
    next := s.next + 1
    header := header
    locks := Function.update s.locks (s.next + 1) (some active)
    tra := Function.update s.tra (s.next + 1)
      (some ⟨p, rc, header.transaction, active, header.snapshot, [], .inventory⟩) }
  have hs : Older s s' := ⟨Nat.le_succ _, fun _ h => h, fun _ h => h⟩
  have hdbb := h.dbb p
  have htra : s.Low header.transaction := hheader ▸ h.header.1.max hdbb.1
  have hact : s.Low header.active := hheader ▸ h.header.2.1.max hdbb.2.1
  have hsnap : s.Low header.snapshot := hheader ▸ h.header.2.2.max hdbb.2.2
  have hlow : s.Low active := hactive ▸ hact.max htra
  have hpos : 0 < header.transaction := by
    rw [hheader]
    exact Nat.lt_of_lt_of_le h.pos (Nat.le_max_left _ _)
  have hle : header.transaction ≤ active := hactive ▸ Nat.le_max_right _ _
  have hfresh : s.tip (s.next + 1) = .active := h.beyond _ (Nat.lt_succ_self _)
  have hown : ∀ k, JrdTra.Own ⟨p, rc, header.transaction, active, header.snapshot, [],
      .inventory⟩ k := fun k => JrdTra.own_of_nil rfl k
  show Settled s'
  refine ⟨fun n hn => h.beyond n (Nat.lt_of_succ_lt hn), ⟨htra, hact, hsnap⟩, hpos, h.dbb, h.tpc,
    fun u U hU => ?_, fun u d hd => ?_⟩
  · change Function.update s.tra _ _ u = some U at hU
    rw [Function.update_apply] at hU
    split at hU
    · rename_i hu
      cases hU
      refine ⟨hu ▸ Nat.le_refl _, fun _ => hpos, fun _ => rfl, fun n state _ hstate => ?_, nofun, ?_⟩
      · cases hstate
      · exact ⟨hle, hu ▸ hlow _ (Nat.succ_pos _) hfresh, hlow, hown _⟩
    · exact (h.tra u U hU).mono hs
  · change Function.update s.locks _ _ u = some d at hd
    rw [Function.update_apply] at hd
    split at hd
    · rename_i hu
      cases hd
      refine ⟨hu ▸ Nat.le_refl _, by omega, hu ▸ hlow _ (Nat.succ_pos _) hfresh, hlow,
        fun U hU => ?_⟩
      change Function.update s.tra _ _ u = some U at hU
      rw [Function.update_apply, if_pos hu] at hU
      cases hU
      exact hown _
    · rename_i hu
      have hlock := h.locks u d hd
      refine ⟨Nat.le_succ_of_le hlock.le_next, hlock.pos, hlock.le, hlock.low, fun U hU => ?_⟩
      change Function.update s.tra _ _ u = some U at hU
      rw [Function.update_apply, if_neg hu] at hU
      exact hlock.own U hU

theorem getState_settled (h : Settled s) {p n : ℕ} (hpos : 0 < n)
    (hstate : s.getState p n ≠ .active) :
    s.tip n ≠ .active ∧ (s.getState p n = .dead → s.tip n = .dead) := by
  unfold Db.getState at hstate ⊢
  split at hstate
  · rename_i hfinal
    rw [if_pos hfinal]
    exact h.tpc p n hpos hstate
  · rename_i hfinal
    rw [if_neg hfinal]
    exact ⟨hstate, id⟩

/-- On with the loop, after the state of `active` has been put into the snapshot. -/
theorem TraOk.tweak (h : TraOk s t T) {active : ℕ} {cleanup : Bool} (cleanup' : Bool)
    {state : TraState} (hphase : T.phase = .wait active cleanup) (hstate : state ≠ .active)
    (htip : s.tip active ≠ .active ∧ (state = .dead → s.tip active = .dead)) :
    TraOk s t { T.tweak active state with phase := .scan (active + 1) cleanup' } ∧
      ∀ k, T.Own k →
        JrdTra.Own { T.tweak active state with phase := .scan (active + 1) cleanup' } k := by
  have hat : s.At t T (.wait active cleanup) := hphase ▸ h.phase
  obtain ⟨htop, hle, hlt, hlow, hown⟩ := hat
  have hpos : 0 < T.oldest := h.pos (by rw [hphase]; rfl)
  have hkeep : ∀ k, T.Own k →
      JrdTra.Own { T.tweak active state with phase := .scan (active + 1) cleanup' } k := by
    rintro k hk n ⟨hn, hseen⟩
    rcases seen_tweak hle hn hseen with ⟨-, hold⟩ | ⟨-, heq⟩
    · exact hk n ⟨hn, hold⟩
    · exact absurd heq.symm hstate
  refine ⟨⟨h.le, fun _ => hpos, fun hrc => ?_, fun n st hn hst hne => ?_, fun hrc _ => ?_, ?_⟩, hkeep⟩
  · show T.transactions.set _ _ = []
    rw [h.rc hrc]
    rfl
  · rcases seen_tweak hle hn hst with ⟨-, hold⟩ | ⟨rfl, rfl⟩
    · exact h.seen n st hn hold hne
    · exact htip
  · show T.base + (T.transactions.set _ _).length = t
    rw [List.length_set]
    exact h.full hrc (by rw [hphase]; rfl)
  · refine ⟨htop, Nat.le_succ_of_le hle, hlt, hlow.succ htip.1, (hkeep _ hown).succ fun hseen => ?_⟩
    rcases seen_tweak hle hle hseen with ⟨hne, -⟩ | ⟨-, heq⟩
    · exact hne rfl
    · exact hstate heq.symm

theorem le_firstFrom (p : ℕ → Bool) (count n : ℕ) : n ≤ firstFrom p count n := by
  induction count generalizing n with
  | zero => exact Nat.le_refl _
  | succ count ih =>
      rw [firstFrom]
      split
      · exact Nat.le_refl _
      · exact Nat.le_of_succ_le (ih (n + 1))

theorem not_of_lt_firstFrom {p : ℕ → Bool} {count n m : ℕ} (hn : n ≤ m)
    (hm : m < firstFrom p count n) : p m = false := by
  induction count generalizing n with
  | zero => exact absurd hm (Nat.not_lt_of_le hn)
  | succ count ih =>
      rw [firstFrom] at hm
      split at hm
      · omega
      · rename_i hp
        rcases Nat.eq_or_lt_of_le hn with rfl | hlt
        · exact Bool.eq_false_of_not_eq_true hp
        · exact ih hlt hm

/-- The numbers before the oldest interesting transaction are not active. -/
theorem Settled.low_interesting (h : Settled s) (hT : s.tra t = some T) {count oa : ℕ}
    (hle : T.oldest ≤ oa) (hlow : s.Low oa) :
    s.Low (firstFrom (fun n => s.view T n ≠ .committed) count T.oldest - 1) := by
  intro n hpos hn
  by_contra hlt
  have hge : T.oldest ≤ n := Nat.le_trans hle (hlow n hpos hn)
  have hview := not_of_lt_firstFrom hge
    (show n < firstFrom (fun n => s.view T n ≠ .committed) count T.oldest by omega)
  have hcom : s.view T n = .committed := by simpa using hview
  exact (h.view hT hpos hge (by rw [hcom]; exact nofun)).1 hn

theorem Settled.readData_le (h : Settled s) (n : ℕ) : s.readData n ≤ n := by
  unfold Db.readData
  cases hd : s.locks n with
  | none => exact Nat.zero_le _
  | some d => exact (h.locks n d hd).le

theorem Settled.found (h : Settled s) (hT : s.tra t = some T) {active data : ℕ} {cleanup : Bool}
    (hphase : T.phase = .scan active cleanup) (hlt : active < t)
    (hdata : data = s.readData active ∨ data = active) :
    Settled (s.put t (T.found t active data)) := by
  have hat : s.At t T (.scan active cleanup) := hphase ▸ (h.tra t T hT).phase
  obtain ⟨htop, hle, -, hlow, hown⟩ := hat
  have hmin : min t active = active := Nat.min_eq_right (Nat.le_of_lt hlt)
  have hdle : data ≤ active := by
    rcases hdata with rfl | rfl
    · exact h.readData_le active
    · exact Nat.le_refl _
  have hfield : min T.oldestActive data ≤ active ∧ T.oldest ≤ active ∧ active ≤ t ∧
      s.Low active ∧ T.Own active :=
    ⟨Nat.le_trans (Nat.min_le_right _ _) hdle, hle, Nat.le_of_lt hlt, hlow, hown⟩
  refine h.move hT (by rw [hphase]; rfl) rfl rfl rfl ?_
  unfold JrdTra.found
  dsimp only
  rw [hmin]
  split
  · exact hfield
  · exact hfield

theorem Settled.publish (h : Settled s) (hT : s.tra t = some T) {oa oldest : ℕ} {dbb : Oldest}
    (hphase : T.phase = .publish oa)
    (hold : oldest = firstFrom (fun n => s.view T n ≠ .committed) (t - T.oldest) T.oldest - 1)
    (htra : dbb.transaction = max (s.dbb T.process).transaction oldest ∨ dbb.transaction = oldest)
    (hact : dbb.active = max (s.dbb T.process).active oa ∨ dbb.active = oa)
    (hsnap : dbb.snapshot = max (s.dbb T.process).snapshot T.oldestActive) :
    Settled ({ s with dbb := Function.update s.dbb T.process dbb }.put t
      { T with phase := .started }) := by
  have hat : s.At t T (.publish oa) := hphase ▸ (h.tra t T hT).phase
  obtain ⟨htop, hle, -, hlow, -⟩ := hat
  have hdbb := h.dbb T.process
  have hlowold : s.Low oldest := hold ▸ h.low_interesting hT hle hlow
  have hlowtop : s.Low T.oldestActive := hlow.of_le htop
  have hd : Settled { s with dbb := Function.update s.dbb T.process dbb } := by
    refine h.dbbs ⟨?_, ?_, hsnap ▸ hdbb.2.2.max hlowtop⟩
    · rcases htra with heq | heq
      · exact heq ▸ hdbb.1.max hlowold
      · exact heq ▸ hlowold
    · rcases hact with heq | heq
      · exact heq ▸ hdbb.2.1.max hlow
      · exact heq ▸ hlow
  exact hd.move (T := T) hT (by rw [hphase]; rfl) rfl rfl rfl hlowtop

theorem Settled.waited (h : Settled s) (hT : s.tra t = some T) {active : ℕ}
    {cleanup cleanup' : Bool} {state : TraState} (hphase : T.phase = .wait active cleanup)
    (hstate : state ≠ .active)
    (htip : s.tip active ≠ .active ∧ (state = .dead → s.tip active = .dead)) :
    Settled ((if T.readCommitted then s.setCache T.process active state else s).put t
      { T.tweak active state with phase := .scan (active + 1) cleanup' }) := by
  obtain ⟨hok, hkeep⟩ := (h.tra t T hT).tweak cleanup' hphase hstate htip
  split
  · have hcache : Settled (s.setCache T.process active state) := h.setCache fun _ => htip
    exact hcache.put (hok.mono ⟨Nat.le_refl _, fun _ h => h, fun _ h => h⟩)
      fun d hd => hkeep d ((h.locks t d hd).own T hT)
  · exact h.put hok fun d hd => hkeep d ((h.locks t d hd).own T hT)

theorem Settled.waitDead (h : Settled s) (hT : s.tra t = some T) {active : ℕ} {cleanup : Bool}
    (hphase : T.phase = .wait active cleanup) : Settled (s.setState T.process active .dead) := by
  have hat : s.At t T (.wait active cleanup) := hphase ▸ (h.tra t T hT).phase
  have hle : active ≤ s.next := Nat.le_of_lt (Nat.lt_of_lt_of_le hat.2.2.1 (h.tra t T hT).le)
  exact h.setState hle (.inr rfl) nofun

/-- Every step keeps the bounds. -/
theorem Settled.step (h : Settled s) {e : Event} (hmove : Moves s e s') : Settled s' := by
  cases hmove with
  | attach p =>
      exact h.dbbs h.header
  | start hheader hactive => exact h.start hheader hactive
  | @initializeTpc t count T hT hphase hrc =>
      have hok := h.tra t T hT
      have hpos : 0 < T.oldest := hok.pos (by rw [hphase]; rfl)
      have hfull : T.readCommitted = false → T.base + T.transactions.length = t := by
        rw [hrc]
        exact nofun
      exact h.put (hok.beginScan hpos hfull (hphase ▸ hok.phase)) fun d hd =>
        (h.locks t d hd).own T hT
  | @inventory t count T T' hT hphase hrc hT' =>
      obtain ⟨hok, -, -, hown⟩ := h.append hT hphase hrc hT'
      exact h.put hok hown
  | @inventoryEnd t count T T' hT hphase hrc hend hT' =>
      obtain ⟨hok, hpos, hat, hown⟩ := h.append hT hphase hrc hT'
      have hpos' : 0 < T'.oldest := by rw [hT']; exact hpos
      have hfull : T'.base + T'.transactions.length = t := by
        rw [hT']
        show T.base + (T.transactions ++ _).length = t
        rw [List.length_append, List.length_map, List.length_range]
        omega
      exact h.put (hok.beginScan hpos' (fun _ => hfull) hat) hown
  | @scanNext t T active cleanup hT hphase hlt hview =>
      have hok := h.tra t T hT
      have hpos : 0 < T.oldest := hok.pos (by rw [hphase]; rfl)
      have hat : s.At t T (.scan active cleanup) := hphase ▸ hok.phase
      have hseen := h.view hT (by have := hat.2.1; omega) hat.2.1 hview
      exact h.move hT (by rw [hphase]; rfl) rfl rfl rfl
        ⟨hat.1, Nat.le_succ_of_le hat.2.1, hlt, hat.2.2.2.1.succ hseen.1,
          hat.2.2.2.2.succ hseen.2⟩
  | @scanWait t T active cleanup hT hphase hlt hdata =>
      have hat : s.At t T (.scan active cleanup) := hphase ▸ (h.tra t T hT).phase
      exact h.move hT (by rw [hphase]; rfl) rfl rfl rfl
        ⟨hat.1, hat.2.1, hlt, hat.2.2.2⟩
  | scanFound hT hphase hlt _ hdata => exact h.found hT hphase hlt hdata
  | @scanEnd t T active cleanup hT hphase hge =>
      have hat : s.At t T (.scan active cleanup) := hphase ▸ (h.tra t T hT).phase
      obtain ⟨htop, hle, hlt, hlow, hown⟩ := hat
      obtain rfl := Nat.le_antisymm hlt hge
      exact h.move hT (by rw [hphase]; rfl) rfl rfl rfl
        ⟨Nat.le_of_eq htop, hle, Nat.le_refl _, hlow, hown⟩
  | @wait t T active cleanup cleanup' old hT hphase hstate hne =>
      have hat : s.At t T (.wait active cleanup) := hphase ▸ (h.tra t T hT).phase
      have hpos : 0 < T.oldest := (h.tra t T hT).pos (by rw [hphase]; rfl)
      have hact : 0 < active := Nat.lt_of_lt_of_le hpos hat.2.1
      exact h.waited hT hphase hne (hstate ▸ getState_settled h hact (hstate ▸ hne))
  | @waitDead t T active cleanup cleanup' hT hphase htip =>
      refine (h.waitDead hT hphase).waited hT hphase nofun ?_
      change Function.update s.tip active .dead active ≠ .active ∧
        (_ → Function.update s.tip active .dead active = .dead)
      rw [Function.update_self]
      exact ⟨nofun, id⟩
  | @query t T oldestActive oldest hT hphase hold =>
      have hat : s.At t T (.query oldestActive) := hphase ▸ (h.tra t T hT).phase
      refine h.move hT (by rw [hphase]; rfl) rfl rfl rfl ⟨?_, hat.2⟩
      have hle := hat.1
      show oldest ≤ oldestActive
      rw [hold]
      split
      · omega
      · exact hle
  | @writeData t T oldestActive hT hphase _ =>
      have hok := h.tra t T hT
      have hpos : 0 < T.oldest := hok.pos (by rw [hphase]; rfl)
      have hat : s.At t T (.write oldestActive) := hphase ▸ hok.phase
      have hlock : LockOk s t oldestActive := by
        refine ⟨hok.le, by have := hat.2.1; omega, hat.2.2.1, hat.2.2.2.1, fun U hU => ?_⟩
        cases hT.symm.trans hU
        exact hat.2.2.2.2
      exact (h.lock hlock).move (T := T) hT (by rw [hphase]; rfl) rfl rfl rfl hat
  | publish hT hphase hold htra hact hsnap => exact h.publish hT hphase hold htra hact hsnap
  | @finish t T state hT hphase hlock hfinal hstate =>
      refine h.setState (h.tra t T hT).le (.inl fun hdead => ?_) hstate
      rw [hdead] at hfinal
      cases hfinal
  | @precommit t T hT hphase hrc htip =>
      have hset : Settled (s.setState T.process t .committed) :=
        h.setState (h.tra t T hT).le (.inl (by rw [htip]; exact nofun)) nofun
      exact hset.unlock t
  | @release t T hT hphase htip =>
      exact (h.unlock t).move (T := T) hT (by rw [hphase]; rfl) rfl rfl rfl trivial
  | @crash t T hT =>
      have hok := h.tra t T hT
      have hgone : TraOk s t { T with phase := .gone } := ⟨hok.le, nofun, hok.rc, hok.seen, nofun, trivial⟩
      refine (h.unlock t).put (hgone.mono ⟨Nat.le_refl _, fun _ h => h, fun _ h => h⟩) fun d hd => ?_
      change Function.update s.locks t none t = some d at hd
      rw [Function.update_self] at hd
      cases hd
  | @resolve p n state htip hfinal =>
      refine h.setState ?_ (.inl (by rw [htip]; exact nofun)) (by rintro rfl; cases hfinal)
      by_contra hgt
      rw [h.beyond n (Nat.lt_of_not_le hgt)] at htip
      cases htip
  | fetch p numbers => exact h.fetch p numbers
  | @drop p n hlt =>
      refine h.setCache fun hpos => ⟨fun htip => ?_, nofun⟩
      exact Nat.not_lt_of_le ((h.header.1.max (h.dbb p).1) n hpos htip) hlt
  | store hT hphase htip => exact h.versions _
  | collect n => exact h.versions _
  | @sweep t T hT hphase =>
      have hat : s.At t T .started := hphase ▸ (h.tra t T hT).phase
      exact h.move hT (by rw [hphase]; rfl) rfl rfl rfl ⟨hat, hat⟩
  | @refresh t T saved hT hphase =>
      have hat : s.At t T (.sweeping saved) := hphase ▸ (h.tra t T hT).phase
      exact h.move hT (by rw [hphase]; rfl) rfl rfl rfl ⟨(h.dbb _).2.2, hat.2⟩
  | @refreshCollector t T hT hrc hphase =>
      have hok := h.tra t T hT
      have hnil := hok.rc hrc
      refine h.put ⟨hok.le, nofun, fun _ => hnil, fun n state _ hstate => ?_, nofun, (h.dbb _).2.2⟩
        fun d _ => JrdTra.own_of_nil (by exact hnil) d
      rw [JrdTra.seen, hnil] at hstate
      cases hstate
  | @sweptBy t T saved active hT hphase hclean hact =>
      have hok := h.tra t T hT
      have hpos : 0 < T.oldest := hok.pos (by rw [hphase]; rfl)
      have hat : s.At t T (.sweeping saved) := hphase ▸ hok.phase
      have hle := le_firstFrom (fun n => s.view T n = .limbo) (t - T.oldest) T.oldest
      exact h.move hT (by rw [hphase]; rfl) rfl rfl rfl
        ⟨hat.1, hat.2, by rw [hact]; omega⟩
  | @unswept t T saved hT hphase =>
      have hat : s.At t T (.sweeping saved) := hphase ▸ (h.tra t T hT).phase
      exact h.move hT (by rw [hphase]; rfl) rfl rfl rfl hat.1
  | @advance t T saved active oldest hT hphase hold =>
      have hat : s.At t T (.swept saved active) := hphase ▸ (h.tra t T hT).phase
      have hset : Settled { s with header := { s.header with transaction := oldest } } := by
        rcases hold with rfl | ⟨hlt, rfl⟩
        · exact h.header_of h.header h.pos
        · refine h.header_of ⟨hat.2.1.of_le ?_, h.header.2⟩ ?_
          · show min active (saved - 1) ≤ saved
            omega
          · show 0 < min active (saved - 1)
            have := h.pos
            have := hat.2.2
            omega
      exact hset.move (T := T) hT (by rw [hphase]; rfl) rfl rfl rfl hat.1

theorem settled_created : Settled created where
  beyond _ _ := rfl
  header := ⟨fun _ hpos _ => hpos, Db.Low.zero, Db.Low.zero⟩
  pos := Nat.one_pos
  dbb _ := ⟨Db.Low.zero, Db.Low.zero, Db.Low.zero⟩
  tpc _ _ _ h := absurd rfl h
  tra _ _ h := nomatch h
  locks _ _ h := nomatch h

theorem settled_reachable (h : Reachable transactions s) : Settled s :=
  h.invariant (fun _ h => h ▸ settled_created) fun _ _ _ h hstep => h.step (moves hstep)

end Firebird.Tra
