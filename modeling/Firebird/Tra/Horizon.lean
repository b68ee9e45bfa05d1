import Firebird.Tra.Settled

/-! # The horizon of garbage collection

`tra_oldest_active` of a transaction, below which it discards old versions, against the
snapshots of the others. A start that finds a transaction active asks for the minimum of
the lock data, which is a lower bound for every snapshot. One that finds none does not, and
its own number can be too high.
-/

namespace Firebird.Tra

open Transition (Reachable)

variable {s s' : Db} {t k : ℕ} {T : JrdTra}

/-- No transaction below `k` is active, nor shown as active in the snapshot of a transaction
that holds its lock. -/
def Db.Safe (s : Db) (k : ℕ) : Prop :=
  s.Low k ∧ ∀ u U, s.tra u = some U → s.locks u ≠ none → U.Own k

/-- The loop for the oldest active transaction is through. -/
def Phase.computed : Phase → Bool
  | .write _ | .publish _ | .started | .collecting | .sweeping _ | .swept _ _ => true
  | _ => false

/-- A loop that ends without an active transaction: all that a snapshot shows as active has
a higher number. -/
def Unseen (s : Db) : Event → Prop
  | .scan t => ∀ T active cleanup, s.tra t = some T → T.phase = .scan active cleanup →
      t ≤ active → ∀ u U, s.tra u = some U → s.locks u ≠ none → U.Own t
  | _ => True

/-! ## What is safe stays safe -/

theorem Db.Safe.max {m : ℕ} (h : s.Safe k) (h' : s.Safe m) : s.Safe (max k m) := by
  rcases max_choice k m with heq | heq
  · exact heq.symm ▸ h
  · exact heq.symm ▸ h'

theorem Db.Safe.of (h : s.Safe k) (hs : Older s s') (htra : s'.tra = s.tra)
    (hlocks : ∀ u, s'.locks u ≠ none → s.locks u ≠ none) : s'.Safe k :=
  ⟨h.1.mono hs, fun u U hU hlock => h.2 u U (htra ▸ hU) (hlocks u hlock)⟩

theorem Db.Safe.put (h : s.Safe k) (hown : s.locks t ≠ none → T.Own k) : (s.put t T).Safe k := by
  refine ⟨h.1, fun u U hU hlock => ?_⟩
  change Function.update s.tra t (some T) u = some U at hU
  rw [Function.update_apply] at hU
  split at hU
  · rename_i heq
    cases hU
    exact hown (heq ▸ hlock)
  · exact h.2 u U hU hlock

theorem Db.Safe.move {T' : JrdTra} (h : s.Safe k) (hT : s.tra t = some T)
    (hold : T'.oldest = T.oldest) (htra : T'.transactions = T.transactions) :
    (s.put t T').Safe k :=
  h.put fun hlock => JrdTra.own_congr (h.2 t T hT hlock) hold htra

theorem unlocked {u : ℕ} (h : Function.update s.locks t none u ≠ none) : s.locks u ≠ none := by
  rw [Function.update_apply] at h
  split at h
  · exact absurd rfl h
  · exact h

theorem Db.Safe.unlock (h : s.Safe k) (t : ℕ) :
    Db.Safe { s with locks := Function.update s.locks t none } k :=
  h.of ⟨Nat.le_refl _, fun _ h => h, fun _ h => h⟩ rfl fun _ => unlocked

theorem Db.Safe.setState (h : s.Safe k) {p n : ℕ} {state : TraState}
    (hfinal : s.tip n ≠ .dead ∨ state = .dead) (hstate : state ≠ .active) :
    (s.setState p n state).Safe k :=
  h.of (older_setState hfinal hstate) rfl fun _ h => h

theorem Db.Safe.append {T' : JrdTra} {count : ℕ} (h : s.Safe k) (hset : Settled s)
    (hT : s.tra t = some T) (hphase : T.phase = .inventory)
    (hT' : T' = { T with transactions := T.transactions ++
      (List.range count).map fun i => s.tip (T.base + T.transactions.length + i) })
    (hlock : s.locks t ≠ none) : T'.Own k := by
  have hpos : 0 < T.oldest := (hset.tra t T hT).pos (by rw [hphase]; rfl)
  rintro n ⟨hn, hseen⟩
  have hn' : T.oldest ≤ n := by rw [hT'] at hn; exact hn
  rcases seen_append hT' hn' hseen with hold | htip
  · exact h.2 t T hT hlock n ⟨hn', hold⟩
  · exact h.1 n (by omega) htip

theorem Db.Safe.waited {active : ℕ} {cleanup cleanup' : Bool} {state : TraState}
    (h : s.Safe k) (hset : Settled s) (hT : s.tra t = some T)
    (hphase : T.phase = .wait active cleanup) (hstate : state ≠ .active) :
    Db.Safe ((if T.readCommitted then s.setCache T.process active state else s).put t
      { T.tweak active state with phase := .scan (active + 1) cleanup' }) k := by
  have hat : s.At t T (.wait active cleanup) := hphase ▸ (hset.tra t T hT).phase
  have hkeep : s.locks t ≠ none →
      JrdTra.Own { T.tweak active state with phase := .scan (active + 1) cleanup' } k := by
    rintro hlock n ⟨hn, hseen⟩
    rcases seen_tweak hat.2.1 hn hseen with ⟨-, hold⟩ | ⟨-, heq⟩
    · exact h.2 t T hT hlock n ⟨hn, hold⟩
    · exact absurd heq.symm hstate
  split
  · have hcache : (s.setCache T.process active state).Safe k :=
      h.of ⟨Nat.le_refl _, fun _ h => h, fun _ h => h⟩ rfl fun _ h => h
    exact hcache.put hkeep
  · exact h.put hkeep

/-- A lower bound for what the snapshots show as active remains one. -/
theorem Db.Safe.step (h : s.Safe k) (hset : Settled s) {e : Event} (hmove : Moves s e s') :
    s'.Safe k := by
  cases hmove with
  | attach p => exact h
  | @start p rc header active hheader hactive =>
      refine ⟨h.1, fun u U hU hlock => ?_⟩
      change Function.update s.tra _ _ u = some U at hU
      change Function.update s.locks _ _ u ≠ none at hlock
      rw [Function.update_apply] at hU hlock
      split at hU
      · cases hU
        exact JrdTra.own_of_nil rfl k
      · rename_i hu
        rw [if_neg hu] at hlock
        exact h.2 u U hU hlock
  | initializeTpc hT hphase hrc => exact h.move hT rfl rfl
  | inventory hT hphase hrc hT' => exact h.put (h.append hset hT hphase hT')
  | inventoryEnd hT hphase hrc hend hT' =>
      exact h.put fun hlock => JrdTra.own_congr (h.append hset hT hphase hT' hlock) rfl rfl
  | scanNext hT hphase hlt hview => exact h.move hT rfl rfl
  | scanWait hT hphase hlt hdata => exact h.move hT rfl rfl
  | scanFound hT hphase hlt hview hdata => exact h.move hT rfl rfl
  | scanEnd hT hphase hge => exact h.move hT rfl rfl
  | wait hT hphase hstate hne => exact h.waited hset hT hphase hne
  | waitDead hT hphase htip =>
      exact (h.setState (.inr rfl) nofun).waited (hset.waitDead hT hphase) hT hphase nofun
  | query hT hphase hold => exact h.move hT rfl rfl
  | @writeData t T oldestActive hT hphase hlock =>
      have hlocks : Db.Safe { s with locks := Function.update s.locks t (some oldestActive) } k := by
        refine h.of ⟨Nat.le_refl _, fun _ h => h, fun _ h => h⟩ rfl fun u hu => ?_
        change Function.update s.locks t (some oldestActive) u ≠ none at hu
        rw [Function.update_apply] at hu
        split at hu
        · rename_i heq
          exact heq ▸ hlock
        · exact hu
      exact hlocks.move (T := T) hT rfl rfl
  | @publish t T multiThread oldestActive oldest dbb hT hphase hold htra hact hsnap =>
      have hdbb : Db.Safe { s with dbb := Function.update s.dbb T.process dbb } k := h
      exact hdbb.move (T := T) hT rfl rfl
  | finish hT hphase hlock hfinal hstate =>
      refine h.setState (.inl fun hdead => ?_) hstate
      rw [hdead] at hfinal
      cases hfinal
  | @precommit t T hT hphase hrc htip =>
      have hstate : (s.setState T.process t .committed).Safe k :=
        h.setState (.inl (by rw [htip]; exact nofun)) nofun
      exact hstate.unlock t
  | @release t T hT hphase htip => exact (h.unlock t).move (T := T) hT rfl rfl
  | @crash t T hT => exact (h.unlock t).move (T := T) hT rfl rfl
  | resolve htip hfinal =>
      exact h.setState (.inl (by rw [htip]; exact nofun)) (by rintro rfl; cases hfinal)
  | fetch p numbers => exact h
  | drop hlt => exact h
  | store hT hphase htip => exact h
  | collect n => exact h
  | sweep hT hphase => exact h.move hT rfl rfl
  | refresh hT hphase => exact h.move hT rfl rfl
  | @refreshCollector t T hT hrc hphase =>
      exact h.put fun _ => JrdTra.own_of_nil (by exact (hset.tra t T hT).rc hrc) k
  | sweptBy hT hphase hclean hact => exact h.move hT rfl rfl
  | unswept hT hphase => exact h.move hT rfl rfl
  | @advance t T saved active oldest hT hphase hold =>
      have hheader : Db.Safe { s with header := { s.header with transaction := oldest } } k := h
      exact hheader.move (T := T) hT rfl rfl

/-! ## The minimum of the lock data -/

/-- The query finds a lock data, and the minimum of them. -/
theorem queryData_le (hset : Settled s) {u d : ℕ} (hd : s.locks u = some d) :
    s.queryData ≠ 0 ∧ s.queryData ≤ d := by
  unfold Db.queryData
  have hlock := hset.locks u d hd
  have hmem : d ∈ ((List.range (s.next + 1)).filterMap s.locks).filter (· ≠ 0) := by
    rw [List.mem_filter, List.mem_filterMap]
    have hne : d ≠ 0 := Nat.ne_of_gt hlock.pos
    exact ⟨⟨u, List.mem_range.mpr (Nat.lt_succ_of_le hlock.le_next), hd⟩, by simpa using hne⟩
  cases hmin : (((List.range (s.next + 1)).filterMap s.locks).filter (· ≠ 0)).min? with
  | none =>
      rw [List.min?_eq_none_iff] at hmin
      rw [hmin] at hmem
      cases hmem
  | some m =>
      rw [List.min?_eq_some_iff] at hmin
      obtain ⟨hm, hle⟩ := hmin
      have hne : m ≠ 0 := by simpa using (List.mem_filter.mp hm).2
      exact ⟨hne, hle d hmem⟩

theorem Settled.query_safe (h : Settled s) (hT : s.tra t = some T) {oldestActive oldest : ℕ}
    (hphase : T.phase = .query oldestActive)
    (hold : oldest = (if s.queryData ≠ 0 ∧ s.queryData < T.oldestActive then s.queryData
      else T.oldestActive)) : s.Safe oldest := by
  have hat : s.At t T (.query oldestActive) := hphase ▸ (h.tra t T hT).phase
  obtain ⟨htop, -, -, hlow, -⟩ := hat
  have hle : oldest ≤ T.oldestActive ∧ (s.queryData ≠ 0 → oldest ≤ s.queryData) := by
    rw [hold]
    split <;> omega
  refine ⟨hlow.of_le (by omega), fun u U hU hlock => ?_⟩
  obtain ⟨d, hd⟩ := Option.ne_none_iff_exists'.mp hlock
  obtain ⟨hne, hmin⟩ := queryData_le h hd
  have hled := hle.2 hne
  exact ((h.locks u d hd).own U hU).of_le (by omega)

/-! ## The horizons -/

/-- The horizons in the header page, in the processes and in the transactions. -/
structure Horizon (safe : ℕ → Prop) (s : Db) : Prop where
  header : safe s.header.snapshot
  dbb : ∀ p, safe (s.dbb p).snapshot
  oldestSnapshot : ∀ t T, s.tra t = some T → safe T.oldestSnapshot
  computed : ∀ t T, s.tra t = some T → T.phase.computed = true → safe T.oldestActive

theorem Horizon.mono {safe safe' : ℕ → Prop} (h : Horizon safe s)
    (hs : ∀ k, safe k → safe' k) : Horizon safe' s where
  header := hs _ h.header
  dbb p := hs _ (h.dbb p)
  oldestSnapshot t T hT := hs _ (h.oldestSnapshot t T hT)
  computed t T hT hphase := hs _ (h.computed t T hT hphase)

theorem Horizon.insert {safe : ℕ → Prop} (h : Horizon safe s) (hsnap : safe T.oldestSnapshot)
    (hcomp : T.phase.computed = true → safe T.oldestActive) : Horizon safe (s.put t T) where
  header := h.header
  dbb := h.dbb
  oldestSnapshot u U hU := by
    change Function.update s.tra t (some T) u = some U at hU
    rw [Function.update_apply] at hU
    split at hU
    · cases hU
      exact hsnap
    · exact h.oldestSnapshot u U hU
  computed u U hU hphase := by
    change Function.update s.tra t (some T) u = some U at hU
    rw [Function.update_apply] at hU
    split at hU
    · cases hU
      exact hcomp hphase
    · exact h.computed u U hU hphase

theorem Horizon.put {safe : ℕ → Prop} {T' : JrdTra} (h : Horizon safe s) (hT : s.tra t = some T)
    (hsnap : T'.oldestSnapshot = T.oldestSnapshot)
    (hcomp : T'.phase.computed = true → safe T'.oldestActive) : Horizon safe (s.put t T') :=
  h.insert (hsnap ▸ h.oldestSnapshot t T hT) hcomp

/-- Changes that the horizons do not depend on. -/
theorem Horizon.of {safe : ℕ → Prop} (h : Horizon safe s) (hheader : s'.header = s.header)
    (hdbb : s'.dbb = s.dbb) (htra : s'.tra = s.tra) : Horizon safe s' where
  header := hheader ▸ h.header
  dbb p := by
    rw [hdbb]
    exact h.dbb p
  oldestSnapshot t T hT := h.oldestSnapshot t T (htra ▸ hT)
  computed t T hT hphase := h.computed t T (htra ▸ hT) hphase

theorem Horizon.dbbs {safe : ℕ → Prop} (h : Horizon safe s) {p : ℕ} {d : Oldest}
    (hd : safe d.snapshot) : Horizon safe { s with dbb := Function.update s.dbb p d } where
  header := h.header
  dbb q := by
    change safe (Function.update s.dbb p d q).snapshot
    rw [Function.update_apply]
    split
    · exact hd
    · exact h.dbb q
  oldestSnapshot := h.oldestSnapshot
  computed := h.computed

/-- A step computes safe horizons only. -/
theorem Horizon.step (h : Horizon s.Safe s) (hset : Settled s) {e : Event} (hunseen : Unseen s e)
    (hmove : Moves s e s') : Horizon s.Safe s' := by
  cases hmove with
  | attach p => exact h.dbbs h.header
  | @start p rc header active hheader hactive =>
      have hmax : s.Safe header.snapshot := hheader ▸ h.header.max (h.dbb p)
      have hnew : Horizon s.Safe { s with header := header } :=
        ⟨hmax, h.dbb, h.oldestSnapshot, h.computed⟩
      have hput := hnew.insert (t := s.next + 1)
        (T := ⟨p, rc, header.transaction, active, header.snapshot, [], .inventory⟩) hmax nofun
      exact hput.of rfl rfl rfl
  | initializeTpc hT hphase hrc => exact h.put hT rfl nofun
  | @inventory t count T T' hT hphase hrc hT' =>
      subst hT'
      refine h.put hT rfl fun hcomp => ?_
      change T.phase.computed = true at hcomp
      rw [hphase] at hcomp
      cases hcomp
  | inventoryEnd hT hphase hrc hend hT' =>
      subst hT'
      exact h.put hT rfl nofun
  | scanNext hT hphase hlt hview => exact h.put hT rfl nofun
  | scanWait hT hphase hlt hdata => exact h.put hT rfl nofun
  | @scanFound t T active cleanup data hT hphase hlt hview hdata =>
      refine h.put hT rfl fun hcomp => ?_
      unfold JrdTra.found at hcomp ⊢
      dsimp only at hcomp ⊢
      split at hcomp
      · -- the loop breaks at the horizon of the header page
        rename_i heq
        exact heq ▸ h.oldestSnapshot t T hT
      · cases hcomp
  | @scanEnd t T active cleanup hT hphase hge =>
      have hat : s.At t T (.scan active cleanup) := hphase ▸ (hset.tra t T hT).phase
      have hown := hunseen T active cleanup hT hphase hge
      refine h.put hT rfl fun _ => ?_
      show s.Safe T.oldestActive
      rw [hat.1]
      exact ⟨hat.2.2.2.1.of_le hge, hown⟩
  | wait hT hphase hstate hne =>
      split
      · exact (h.of rfl rfl rfl : Horizon s.Safe (s.setCache _ _ _)).put hT rfl nofun
      · exact h.put hT rfl nofun
  | waitDead hT hphase htip =>
      split
      · exact (h.of rfl rfl rfl : Horizon s.Safe ((s.setState _ _ _).setCache _ _ _)).put hT rfl
          nofun
      · exact (h.of rfl rfl rfl : Horizon s.Safe (s.setState _ _ _)).put hT rfl nofun
  | query hT hphase hold => exact h.put hT rfl fun _ => hset.query_safe hT hphase hold
  | @writeData t T oldestActive hT hphase hlock =>
      have hlocks : Horizon s.Safe
          { s with locks := Function.update s.locks t (some oldestActive) } := h.of rfl rfl rfl
      exact hlocks.put (T := T) hT rfl fun _ =>
        h.computed t T hT (by rw [hphase]; rfl)
  | @publish t T multiThread oldestActive oldest dbb hT hphase hold htra hact hpub =>
      have hcomp : s.Safe T.oldestActive := h.computed t T hT (by rw [hphase]; rfl)
      have hdbb : Horizon s.Safe { s with dbb := Function.update s.dbb T.process dbb } :=
        h.dbbs (hpub ▸ (h.dbb T.process).max hcomp)
      exact hdbb.put (T := T) hT rfl fun _ => hcomp
  | finish hT hphase hlock hfinal hstate => exact h.of rfl rfl rfl
  | precommit hT hphase hrc htip => exact h.of rfl rfl rfl
  | @release t T hT hphase htip =>
      have hlocks : Horizon s.Safe { s with locks := Function.update s.locks t none } :=
        h.of rfl rfl rfl
      exact hlocks.put (T := T) hT rfl nofun
  | @crash t T hT =>
      have hlocks : Horizon s.Safe { s with locks := Function.update s.locks t none } :=
        h.of rfl rfl rfl
      exact hlocks.put (T := T) hT rfl nofun
  | resolve htip hfinal => exact h.of rfl rfl rfl
  | fetch p numbers => exact h.of rfl rfl rfl
  | drop hlt => exact h.of rfl rfl rfl
  | store hT hphase htip => exact h.of rfl rfl rfl
  | collect n => exact h.of rfl rfl rfl
  | @sweep t T hT hphase =>
      exact h.put hT rfl fun _ => h.computed t T hT (by rw [hphase]; rfl)
  | refresh hT hphase => exact h.put hT rfl fun _ => h.dbb _
  | refreshCollector hT hrc hphase => exact h.put hT rfl fun _ => h.dbb _
  | @sweptBy t T saved active hT hphase hclean hact =>
      exact h.put hT rfl fun _ => h.computed t T hT (by rw [hphase]; rfl)
  | @unswept t T saved hT hphase =>
      exact h.put hT rfl fun _ => h.computed t T hT (by rw [hphase]; rfl)
  | @advance t T saved active oldest hT hphase hold =>
      have hheader : Horizon s.Safe { s with header := { s.header with transaction := oldest } } :=
        ⟨h.header, h.dbb, h.oldestSnapshot, h.computed⟩
      exact hheader.put (T := T) hT rfl fun _ =>
        h.computed t T hT (by rw [hphase]; rfl)

theorem horizon_created : Horizon created.Safe created :=
  have hzero : created.Safe 0 := ⟨Db.Low.zero, fun _ _ h => nomatch h⟩
  ⟨hzero, fun _ => hzero, (fun _ _ h => nomatch h), fun _ _ h => nomatch h⟩

theorem horizon_reachable (h : Reachable (transactions.restrict Unseen) s) :
    Settled s ∧ Horizon s.Safe s := by
  refine h.invariant (I := fun s => Settled s ∧ Horizon s.Safe s) ?_ ?_
  · rintro s rfl
    exact ⟨settled_created, horizon_created⟩
  · rintro s e s' ⟨hset, hhor⟩ ⟨hstep, hunseen⟩
    have hmove := moves hstep
    exact ⟨hset.step hmove, (hhor.step hset hunseen hmove).mono fun k hk => hk.step hset hmove⟩

/-! ## Main result -/

/-- What a transaction `T` may discard: it is below all that the snapshot of `U` shows as
active, and what is committed below it is not active in the eyes of `U`. -/
structure Keeps (s : Db) (T : JrdTra) (u : ℕ) (U : JrdTra) : Prop where
  active : ∀ n, U.oldest ≤ n → n < u → s.view U n = .active → T.oldestActive ≤ n
  committed : s.tip u = .active → ∀ n, 0 < n → n < T.oldestActive → s.tip n = .committed →
    n < u ∧ (U.oldest ≤ n → s.view U n = .committed ∨ s.view U n = .limbo)

/-- For every started transaction and every snapshot transaction that holds its lock and has
read its snapshot. -/
theorem horizon_safe (h : Reachable (transactions.restrict Unseen) s) {u : ℕ} {U : JrdTra}
    (hT : s.tra t = some T) (hcomp : T.phase.computed = true) (hU : s.tra u = some U)
    (hlock : s.locks u ≠ none) (hrc : U.readCommitted = false) (hrun : U.phase.running = true) :
    Keeps s T u U := by
  obtain ⟨hset, hhor⟩ := horizon_reachable h
  have hsafe := hhor.computed t T hT hcomp
  have hok := hset.tra u U hU
  have hseen : ∀ n, U.oldest ≤ n → n < u → ∃ state, U.seen n = some state := by
    intro n hn hlt
    have hfull := hok.full hrc hrun
    have hbase := U.base_le
    exact ⟨_, List.getElem?_eq_getElem (show n - U.base < U.transactions.length by omega)⟩
  have hview : ∀ {n state}, U.seen n = some state → s.view U n = state := by
    intro n state hstate
    unfold Db.view
    rw [hrc, hstate]
    rfl
  refine ⟨fun n hn hlt hact => ?_, fun htip n hpos hlt hcom => ?_⟩
  · obtain ⟨state, hstate⟩ := hseen n hn hlt
    rw [hview hstate] at hact
    exact hsafe.2 u U hU hlock n ⟨hn, hact ▸ hstate⟩
  · have hposU : 0 < U.oldest := hok.pos (Phase.works_of_running hrun)
    have hltu : n < u := by
      have hle := hsafe.1 u
      obtain ⟨d, hd⟩ := Option.ne_none_iff_exists'.mp hlock
      have hlocku := hset.locks u d hd
      exact Nat.lt_of_lt_of_le hlt (hle (Nat.lt_of_lt_of_le hlocku.pos hlocku.le) htip)
    refine ⟨hltu, fun hn => ?_⟩
    obtain ⟨state, hstate⟩ := hseen n hn hltu
    rw [hview hstate]
    cases state with
    | active =>
        exact absurd (hsafe.2 u U hU hlock n ⟨hn, hstate⟩) (Nat.not_le_of_lt hlt)
    | limbo => exact .inr rfl
    | dead =>
        have hdead := (hok.seen n _ hn hstate nofun).2 rfl
        rw [hcom] at hdead
        cases hdead
    | committed => exact .inl rfl

/-- A second transaction finds the first one active and queries the lock data. -/
theorem horizon_safe_query : ∃ s T, s.tra 2 = some T ∧ T.oldestActive = 1 ∧ Keeps s T 2 T := by
  have h₁ := step_restrict (C := Unseen) (.init rfl) (.start 0 false) (by rfl) trivial
  have h₂ := step_restrict h₁ (.start 0 false) (by rfl) trivial
  have h₃ := step_restrict h₂ (.inventory 2 2) (by rfl) trivial
  have h₄ := step_restrict h₃ (.scan 2) (by rfl) fun T active cleanup hT hphase hle => by
    cases hT
    cases hphase
    exact absurd hle (by decide)
  have h₅ := step_restrict h₄ (.query 2) (by rfl) trivial
  obtain ⟨s, T, h, hT, hold, hphase, hrc, hlock⟩ : ∃ s T, Reachable (transactions.restrict Unseen) s ∧
      s.tra 2 = some T ∧ T.oldestActive = 1 ∧ T.phase = .write 1 ∧ T.readCommitted = false ∧
      s.locks 2 ≠ none := ⟨_, _, h₅, rfl, rfl, rfl, rfl, nofun⟩
  exact ⟨s, T, hT, hold, horizon_safe h hT (by rw [hphase]; rfl) hT hlock hrc
    (by rw [hphase]; rfl)⟩

/-- The third transaction has read its snapshot and sees the first one active. The first one
commits; then the second one reads its snapshot, finds nothing active and asks for no lock
data. -/
theorem horizon_missed :
    ∃ s T U, Reachable transactions s ∧ s.tra 2 = some T ∧ T.phase.computed = true ∧
      s.tra 3 = some U ∧ s.locks 3 ≠ none ∧ U.readCommitted = false ∧ U.phase.running = true ∧
      ¬Keeps s T 3 U := by
  have hrun : created.run [.start 0 false, .inventory 1 1, .scan 1, .writeData 1,
      .publish true 1, .start 1 false, .start 2 false, .inventory 3 3, .finish 1 .committed,
      .release 1, .inventory 2 2, .scan 2, .scan 2] = some _ := rfl
  refine ⟨_, _, _, run_reachable (.init rfl) hrun, rfl, rfl, rfl, nofun, rfl, rfl, fun hkeeps => ?_⟩
  have hle := hkeeps.active 1 (by decide) (by decide) rfl
  exact absurd hle (by decide)

end Firebird.Tra
