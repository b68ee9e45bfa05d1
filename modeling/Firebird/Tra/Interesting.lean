import Firebird.Tra.Settled

/-! # The oldest interesting transaction

What lies below the oldest interesting transaction counts as committed. The value is
computed from snapshots and TIP caches, published in the `dbb`, and written to the header
page by a later start or by a sweep. A sweep stops at the first transaction in limbo that
it is shown; a read-committed one looks in the TIP cache of its process, where a
transaction in limbo can still be active.
-/

namespace Firebird.Tra

open Transition (Reachable)

variable {s s' : Db} {t : ℕ} {T : JrdTra} {clean : ℕ → Prop}

/-- The changes of a transaction may be taken as committed. -/
def Db.Clean (s : Db) (n : ℕ) : Prop :=
  s.tip n = .committed ∨ s.tip n = .dead ∧ s.versions n = false

/-- A sweep is shown a transaction in limbo at or before every one that it would pass. -/
def Shown (s : Db) : Event → Prop
  | .sweptBy t => ∀ T saved, s.tra t = some T → T.phase = .sweeping saved →
      ∀ n, T.oldest ≤ n → n + 1 < saved → s.tip n = .limbo →
        ∃ m, T.oldest ≤ m ∧ m ≤ n ∧ s.view T m = .limbo
  | _ => True

/-! ## What is clean stays clean -/

theorem Db.Clean.setState {n m p : ℕ} {state : TraState} (h : s.Clean n)
    (hm : (s.tip m).final = false) : (s.setState p m state).Clean n := by
  have hne : n ≠ m := by
    rintro rfl
    rcases h with hcom | ⟨hdead, -⟩
    · rw [hcom] at hm
      cases hm
    · rw [hdead] at hm
      cases hm
  change Function.update s.tip m state n = .committed ∨
    Function.update s.tip m state n = .dead ∧ s.versions n = false
  rw [Function.update_of_ne hne]
  exact h

theorem Db.Clean.step {n : ℕ} (h : s.Clean n) {e : Event} (hmove : Moves s e s') :
    s'.Clean n := by
  cases hmove with
  | @waitDead t T active cleanup cleanup' hT hphase htip =>
      have hset : (s.setState T.process active .dead).Clean n := h.setState (by rw [htip]; rfl)
      split
      · exact hset
      · exact hset
  | wait hT hphase hstate hne =>
      split
      · exact h
      · exact h
  | finish hT hphase hlock hfinal hstate => exact h.setState hfinal
  | @precommit t T hT hphase hrc htip =>
      have hset : (s.setState T.process t .committed).Clean n := h.setState (by rw [htip]; rfl)
      exact hset
  | resolve htip hfinal => exact h.setState (by rw [htip]; rfl)
  | @store t T hT hphase htip =>
      have hne : n ≠ t := by
        rintro rfl
        rcases h with hcom | ⟨hdead, -⟩
        · rw [hcom] at htip
          cases htip
        · rw [hdead] at htip
          cases htip
      change s.tip n = .committed ∨ s.tip n = .dead ∧ Function.update s.versions t true n = false
      rw [Function.update_of_ne hne]
      exact h
  | collect m =>
      refine h.imp id fun hdead => ⟨hdead.1, ?_⟩
      change Function.update s.versions m false n = false
      rw [Function.update_apply]
      split
      · rfl
      · exact hdead.2
  | _ => exact h

/-! ## Everything below is clean -/

/-- What a transaction takes as committed, and what its sweep has swept. -/
structure TraClean (clean : ℕ → Prop) (T : JrdTra) : Prop where
  oldest : ∀ n, 0 < n → n < T.oldest → clean n
  seen : ∀ n, T.oldest ≤ n → T.seen n = some .committed → clean n
  swept : ∀ saved active, T.phase = .swept saved active → ∀ n, 0 < n →
    n < min active (saved - 1) → clean n

structure Interesting (clean : ℕ → Prop) (s : Db) : Prop where
  header : ∀ n, 0 < n → n < s.header.transaction → clean n
  dbb : ∀ p n, 0 < n → n < (s.dbb p).transaction → clean n
  tpc : ∀ p n, 0 < n → s.tpc p n = .committed → clean n
  tra : ∀ t T, s.tra t = some T → TraClean clean T

theorem Interesting.mono {clean' : ℕ → Prop} (h : Interesting clean s)
    (hs : ∀ n, clean n → clean' n) : Interesting clean' s where
  header n hpos hn := hs n (h.header n hpos hn)
  dbb p n hpos hn := hs n (h.dbb p n hpos hn)
  tpc p n hpos hn := hs n (h.tpc p n hpos hn)
  tra t T hT :=
    have hclean := h.tra t T hT
    ⟨fun n hpos hn => hs n (hclean.oldest n hpos hn), fun n hn hseen => hs n (hclean.seen n hn hseen),
      fun saved active hphase n hpos hn => hs n (hclean.swept saved active hphase n hpos hn)⟩

theorem Interesting.put (h : Interesting clean s) (hT : TraClean clean T) :
    Interesting clean (s.put t T) where
  header := h.header
  dbb := h.dbb
  tpc := h.tpc
  tra u U hU := by
    change Function.update s.tra t (some T) u = some U at hU
    rw [Function.update_apply] at hU
    split at hU
    · cases hU
      exact hT
    · exact h.tra u U hU

theorem TraClean.move {T' : JrdTra} (h : TraClean clean T) (hold : T'.oldest = T.oldest)
    (htra : T'.transactions = T.transactions)
    (hphase : ∀ saved active, T'.phase ≠ .swept saved active) : TraClean clean T' where
  oldest n hpos hn := h.oldest n hpos (hold ▸ hn)
  seen n hn hseen := by
    rw [JrdTra.seen, JrdTra.base, hold, htra] at hseen
    exact h.seen n (hold ▸ hn) hseen
  swept saved active heq := absurd heq (hphase saved active)

theorem Interesting.move {T' : JrdTra} (h : Interesting clean s) (hT : s.tra t = some T)
    (hold : T'.oldest = T.oldest) (htra : T'.transactions = T.transactions)
    (hphase : ∀ saved active, T'.phase ≠ .swept saved active) : Interesting clean (s.put t T') :=
  h.put ((h.tra t T hT).move hold htra hphase)

theorem TraClean.append {T' : JrdTra} {count : ℕ} (h : TraClean clean T)
    (hclean : ∀ n, s.tip n = .committed → clean n)
    (hT' : T' = { T with transactions := T.transactions ++
      (List.range count).map fun i => s.tip (T.base + T.transactions.length + i) })
    (hphase : T.phase = .inventory) : TraClean clean T' where
  oldest n hpos hn := h.oldest n hpos (by rw [hT'] at hn; exact hn)
  seen n hn hseen := by
    have hn' : T.oldest ≤ n := by rw [hT'] at hn; exact hn
    rcases seen_append hT' hn' hseen with hold | htip
    · exact h.seen n hn' hold
    · exact hclean n htip
  swept saved active heq := by
    rw [hT', hphase] at heq
    cases heq

theorem Interesting.setCache (h : Interesting clean s) {p n : ℕ} {state : TraState}
    (hn : 0 < n → state = .committed → clean n) : Interesting clean (s.setCache p n state) where
  header := h.header
  dbb := h.dbb
  tpc q m hpos hm := by
    change Function.update s.tpc p (Function.update (s.tpc p) n state) q m = .committed at hm
    rw [Function.update_apply] at hm
    split at hm
    · rename_i hq
      rw [Function.update_apply] at hm
      split at hm
      · rename_i hmn
        exact hmn ▸ hn (hmn ▸ hpos) hm
      · exact h.tpc p m hpos hm
    · exact h.tpc q m hpos hm
  tra := h.tra

theorem Interesting.setState (h : Interesting clean s) {p n : ℕ} {state : TraState}
    (hn : state = .committed → clean n) : Interesting clean (s.setState p n state) :=
  have hcache : Interesting clean (s.setCache p n state) := h.setCache fun _ => hn
  ⟨hcache.header, hcache.dbb, hcache.tpc, hcache.tra⟩

theorem Interesting.waited (h : Interesting clean s) {active : ℕ} {cleanup : Bool}
    (cleanup' : Bool) {state : TraState} (hset : Settled s) (hT : s.tra t = some T)
    (hphase : T.phase = .wait active cleanup) (hstate : state = .committed → clean active) :
    Interesting clean ((if T.readCommitted then s.setCache T.process active state else s).put t
      { T.tweak active state with phase := .scan (active + 1) cleanup' }) := by
  have hat : s.At t T (.wait active cleanup) := hphase ▸ (hset.tra t T hT).phase
  have hold := h.tra t T hT
  have hnew : TraClean clean
      { T.tweak active state with phase := .scan (active + 1) cleanup' } := by
    refine ⟨hold.oldest, fun n hn hseen => ?_, nofun⟩
    rcases seen_tweak hat.2.1 hn hseen with ⟨-, hseen⟩ | ⟨rfl, heq⟩
    · exact hold.seen n hn hseen
    · exact hstate heq.symm
  split
  · exact (h.setCache fun _ => hstate).put hnew
  · exact h.put hnew

/-- A transaction that is looked at and found committed. -/
theorem Interesting.view (h : Interesting clean s) (hT : s.tra t = some T) {n : ℕ} (hpos : 0 < n)
    (hn : T.oldest ≤ n) (hview : s.view T n = .committed) : clean n := by
  unfold Db.view at hview
  split at hview
  · exact h.tpc _ n hpos hview
  · cases hseen : T.seen n with
    | none =>
        rw [hseen] at hview
        cases hview
    | some state =>
        rw [hseen] at hview
        cases hview
        exact (h.tra t T hT).seen n hn hseen

/-- All that the search passes is clean. -/
theorem Interesting.interesting (h : Interesting clean s) (hT : s.tra t = some T) {count n : ℕ}
    (hpos : 0 < n)
    (hn : n < firstFrom (fun n => s.view T n ≠ .committed) count T.oldest - 1) : clean n := by
  rcases Nat.lt_or_ge n T.oldest with hlt | hge
  · exact (h.tra t T hT).oldest n hpos hlt
  · have hview := not_of_lt_firstFrom hge 
      (show n < firstFrom (fun n => s.view T n ≠ .committed) count T.oldest by omega)
    exact h.view hT hpos hge (by simpa using hview)

/-- All that a sweep passes is clean. -/
theorem Interesting.sweptBy (h : Interesting s.Clean s) (hset : Settled s) (hshown : Shown s (.sweptBy t))
    (hT : s.tra t = some T) {saved active n : ℕ} (hphase : T.phase = .sweeping saved)
    (hclean : ∀ n < saved, s.tip n = .dead → s.versions n = false)
    (hactive : active = firstFrom (fun n => s.view T n = .limbo) (t - T.oldest) T.oldest)
    (hpos : 0 < n) (hn : n < min active (saved - 1)) : s.Clean n := by
  rcases Nat.lt_or_ge n T.oldest with hlt | hge
  · exact (h.tra t T hT).oldest n hpos hlt
  · have hat : s.At t T (.sweeping saved) := hphase ▸ (hset.tra t T hT).phase
    cases htip : s.tip n with
    | active =>
        have hle := hat.2 n hpos htip
        omega
    | limbo =>
        obtain ⟨m, hm, hmn, hview⟩ := hshown T saved hT hphase n hge (by omega) htip
        have hno := not_of_lt_firstFrom hm
          (show m < firstFrom (fun n => s.view T n = .limbo) (t - T.oldest) T.oldest by omega)
        rw [hview] at hno
        cases hno
    | dead => exact .inr ⟨htip, hclean n (by omega) htip⟩
    | committed => exact .inl htip

theorem Interesting.dbbs (h : Interesting clean s) {p : ℕ} {d : Oldest}
    (hd : ∀ n, 0 < n → n < d.transaction → clean n) :
    Interesting clean { s with dbb := Function.update s.dbb p d } where
  header := h.header
  dbb q n hpos hn := by
    change n < (Function.update s.dbb p d q).transaction at hn
    rw [Function.update_apply] at hn
    split at hn
    · exact hd n hpos hn
    · exact h.dbb q n hpos hn
  tpc := h.tpc
  tra := h.tra

theorem Interesting.fetch (h : Interesting clean s) (p : ℕ) (numbers : ℕ → Bool)
    (hclean : ∀ n, s.tip n = .committed → clean n) : Interesting clean (s.fetch p numbers) where
  header := h.header
  dbb := h.dbb
  tpc q n hpos hn := by
    change Function.update s.tpc p (fun n => if numbers n then s.tip n else s.tpc p n) q n =
      .committed at hn
    rw [Function.update_apply] at hn
    split at hn
    · dsimp only at hn
      split at hn
      · exact hclean n hn
      · exact h.tpc p n hpos hn
    · exact h.tpc q n hpos hn
  tra := h.tra

theorem Interesting.of (h : Interesting clean s) (hheader : s'.header = s.header)
    (hdbb : s'.dbb = s.dbb) (htpc : s'.tpc = s.tpc) (htra : s'.tra = s.tra) :
    Interesting clean s' where
  header n hpos hn := h.header n hpos (hheader ▸ hn)
  dbb p n hpos hn := h.dbb p n hpos (hdbb ▸ hn)
  tpc p n hpos hn := h.tpc p n hpos (htpc ▸ hn)
  tra t T hT := h.tra t T (htra ▸ hT)

/-- Every step passes clean transactions only. -/
theorem Interesting.step (h : Interesting s.Clean s) (hset : Settled s) {e : Event}
    (hshown : Shown s e) (hmove : Moves s e s') : Interesting s'.Clean s' := by
  have hlater : Interesting s'.Clean s := h.mono fun n hn => hn.step hmove
  cases hmove with
  | attach p => exact h.dbbs h.header
  | @start p rc header active hheader hactive =>
      have hmax : ∀ n, 0 < n → n < header.transaction → s.Clean n := by
        intro n hpos hn
        rw [hheader] at hn
        rcases lt_max_iff.mp hn with hlt | hlt
        · exact h.header n hpos hlt
        · exact h.dbb p n hpos hlt
      have hnew : Interesting s.Clean { s with header := header } :=
        ⟨hmax, h.dbb, h.tpc, h.tra⟩
      have hput := hnew.put (t := s.next + 1)
        (T := ⟨p, rc, header.transaction, active, header.snapshot, [], .inventory⟩)
        ⟨hmax, (fun _ _ hseen => by cases hseen), nofun⟩
      exact hput.of rfl rfl rfl rfl
  | initializeTpc hT hphase hrc => exact h.move hT rfl rfl nofun
  | inventory hT hphase hrc hT' =>
      exact h.put ((h.tra _ _ hT).append (fun _ => .inl) hT' hphase)
  | inventoryEnd hT hphase hrc hend hT' =>
      exact h.put (((h.tra _ _ hT).append (fun _ => .inl) hT' hphase).move rfl rfl nofun)
  | scanNext hT hphase hlt hview => exact h.move hT rfl rfl nofun
  | scanWait hT hphase hlt hdata => exact h.move hT rfl rfl nofun
  | @scanFound t T active cleanup data hT hphase hlt hview hdata =>
      refine h.move hT rfl rfl fun saved active' heq => ?_
      unfold JrdTra.found at heq
      dsimp only at heq
      split at heq
      · cases heq
      · cases heq
  | scanEnd hT hphase hge => exact h.move hT rfl rfl nofun
  | @wait t T active cleanup cleanup' old hT hphase hstate hne =>
      have hat : s.At t T (.wait active cleanup) := hphase ▸ (hset.tra t T hT).phase
      have hpos : 0 < T.oldest := (hset.tra t T hT).pos (by rw [hphase]; rfl)
      have hold : old = .committed → s.Clean active := by
        rw [hstate]
        unfold Db.getState
        split
        · exact h.tpc _ active (Nat.lt_of_lt_of_le hpos hat.2.1)
        · exact .inl
      have hwait := h.waited cleanup' hset hT hphase hold
      split
      · rename_i hrc
        rw [if_pos hrc] at hwait
        exact hwait
      · rename_i hrc
        rw [if_neg hrc] at hwait
        exact hwait
  | @waitDead t T active cleanup cleanup' hT hphase htip =>
      have hdead : Interesting _ (s.setState T.process active .dead) := hlater.setState nofun
      exact hdead.waited cleanup' (hset.waitDead hT hphase) hT hphase nofun
  | query hT hphase hold => exact h.move hT rfl rfl nofun
  | @writeData t T oldestActive hT hphase hlock =>
      have hlocks : Interesting s.Clean
          { s with locks := Function.update s.locks t (some oldestActive) } := h.of rfl rfl rfl rfl
      exact hlocks.move (T := T) hT rfl rfl nofun
  | @publish t T multiThread oldestActive oldest dbb hT hphase hold htra hact hsnap =>
      have hlow : ∀ n, 0 < n → n < oldest → s.Clean n := by
        intro n hpos hn
        rw [hold] at hn
        exact h.interesting hT hpos hn
      have hdbb : Interesting s.Clean { s with dbb := Function.update s.dbb T.process dbb } := by
        refine h.dbbs fun n hpos hn => ?_
        rcases htra with heq | heq
        · rw [heq] at hn
          rcases lt_max_iff.mp hn with hlt | hlt
          · exact h.dbb _ n hpos hlt
          · exact hlow n hpos hlt
        · rw [heq] at hn
          exact hlow n hpos hn
      exact hdbb.move (T := T) hT rfl rfl nofun
  | @finish t T state hT hphase hlock hfinal hstate =>
      refine hlater.setState fun hcom => .inl ?_
      change Function.update s.tip t state t = .committed
      rw [Function.update_self]
      exact hcom
  | @precommit t T hT hphase hrc htip =>
      have hcom : Db.Clean { s.setState T.process t .committed with
          locks := Function.update s.locks t none } t := by
        refine .inl ?_
        change Function.update s.tip t .committed t = .committed
        rw [Function.update_self]
      exact (hlater.setState (p := T.process) fun _ => hcom).of rfl rfl rfl rfl
  | @release t T hT hphase htip =>
      have hlocks : Interesting s.Clean { s with locks := Function.update s.locks t none } :=
        h.of rfl rfl rfl rfl
      exact hlocks.move (T := T) hT rfl rfl nofun
  | @crash t T hT =>
      have hlocks : Interesting s.Clean { s with locks := Function.update s.locks t none } :=
        h.of rfl rfl rfl rfl
      exact hlocks.move (T := T) hT rfl rfl nofun
  | @resolve p n state htip hfinal =>
      refine hlater.setState fun hcom => .inl ?_
      change Function.update s.tip n state n = .committed
      rw [Function.update_self]
      exact hcom
  | fetch p numbers => exact h.fetch p numbers fun _ => .inl
  | @drop p n hlt =>
      refine h.setCache fun hpos _ => ?_
      rcases lt_max_iff.mp hlt with hlt | hlt
      · exact h.header n hpos hlt
      · exact h.dbb p n hpos hlt
  | store hT hphase htip => exact hlater.of rfl rfl rfl rfl
  | collect n => exact hlater.of rfl rfl rfl rfl
  | sweep hT hphase => exact h.move hT rfl rfl nofun
  | refresh hT hphase => exact h.move hT rfl rfl nofun
  | @refreshCollector t T hT hrc hphase =>
      have hnil := (hset.tra t T hT).rc hrc
      refine h.put ⟨h.dbb T.process, fun n _ hseen => ?_, nofun⟩
      rw [JrdTra.seen, hnil] at hseen
      cases hseen
  | @sweptBy t T saved active hT hphase hclean hactive =>
      refine h.put ⟨(h.tra t T hT).oldest, (h.tra t T hT).seen, fun saved' active' heq n hpos hn => ?_⟩
      cases heq
      exact h.sweptBy hset hshown hT hphase hclean hactive hpos hn
  | unswept hT hphase => exact h.move hT rfl rfl nofun
  | @advance t T saved active oldest hT hphase hold =>
      have hheader : Interesting s.Clean
          { s with header := { s.header with transaction := oldest } } := by
        refine ⟨fun n hpos hn => ?_, h.dbb, h.tpc, h.tra⟩
        rcases hold with rfl | ⟨-, rfl⟩
        · exact h.header n hpos hn
        · exact (h.tra t T hT).swept saved active hphase n hpos hn
      exact hheader.move (T := T) hT rfl rfl nofun

theorem interesting_created : Interesting created.Clean created where
  header _ hpos hn := absurd hn (Nat.not_lt_of_le hpos)
  dbb _ _ _ hn := absurd hn (Nat.not_lt_zero _)
  tpc _ _ _ hn := nomatch hn
  tra _ _ h := nomatch h

theorem interesting_reachable (h : Reachable (transactions.restrict Shown) s) :
    Settled s ∧ Interesting s.Clean s := by
  refine h.invariant (I := fun s => Settled s ∧ Interesting s.Clean s) ?_ ?_
  · rintro s rfl
    exact ⟨settled_created, interesting_created⟩
  · rintro s e s' ⟨hset, hint⟩ ⟨hstep, hshown⟩
    have hmove := moves hstep
    exact ⟨hset.step hmove, hint.step hset hshown hmove⟩

/-! ## Main result -/

/-- Below the oldest interesting transaction, of the header page, of a process and of a
transaction, all transactions are committed, or dead without a record version. -/
structure OldestClean (s : Db) : Prop where
  header : ∀ n, 0 < n → n < s.header.transaction → s.Clean n
  dbb : ∀ p n, 0 < n → n < (s.dbb p).transaction → s.Clean n
  tra : ∀ t T n, s.tra t = some T → 0 < n → n < T.oldest → s.Clean n

theorem oldest_clean (h : Reachable (transactions.restrict Shown) s) : OldestClean s where
  header := (interesting_reachable h).2.header
  dbb := (interesting_reachable h).2.dbb
  tra t T n hT hpos hn := ((interesting_reachable h).2.tra t T hT).oldest n hpos hn

/-- The first transaction dies, the third one sweeps. -/
theorem oldest_clean_sweep :
    ∃ s, s.header.transaction = 2 ∧ s.tip 1 = .dead ∧ OldestClean s := by
  have hrun : created.run [.start 0 false, .inventory 1 1, .scan 1, .writeData 1,
      .publish true 1, .store 1, .finish 1 .dead, .release 1, .start 0 false, .inventory 2 2,
      .scan 2, .scan 2, .writeData 2, .publish true 2, .finish 2 .committed, .release 2,
      .start 0 false, .inventory 3 3, .scan 3, .scan 3, .writeData 3, .publish true 3, .sweep 3,
      .collect 1] = some _ := rfl
  have hreach := run_restrict (C := Shown) (.init rfl) (by simp [Shown]) hrun
  have hswept := step_restrict hreach (.sweptBy 3) (by rfl) fun T saved hT hphase n hn hlt htip => by
    cases hT
    cases hphase
    have hone : n = 1 := by
      change 1 ≤ n at hn
      change n + 1 < 3 at hlt
      omega
    rw [hone] at htip
    exact absurd htip (by decide)
  have hadv := step_restrict hswept (.advance 3) (by rfl) trivial
  exact ⟨_, rfl, rfl, oldest_clean hadv⟩

/-- A process has cached the inventory page while the first transaction was active. The
first transaction is prepared; the third one, of another process, sees that, and finds
nothing active. In the cache of the process the third one is still active, at the horizon
of the header page, and the fifth one sweeps past the first. -/
theorem limbo_passed : ∃ s, Reachable transactions s ∧ s.tip 1 = .limbo ∧ s.versions 1 = true ∧
    s.header.transaction = 2 ∧ ¬OldestClean s := by
  have hrun : created.run [.start 0 false, .inventory 1 1, .scan 1, .writeData 1,
      .publish true 1, .store 1, .start 1 true, .fetch 1 (fun n => n < 4016), .inventory 2 0,
      .scan 2, .query 2, .writeData 2, .publish true 2, .finish 2 .committed, .release 2,
      .finish 1 .limbo, .start 0 false, .inventory 3 3, .scan 3, .scan 3, .scan 3, .writeData 3,
      .publish true 3, .finish 3 .committed, .release 3, .start 0 false, .start 1 true,
      .inventory 5 0, .scan 5, .writeData 5, .publish true 5, .sweep 5, .sweptBy 5,
      .advance 5] = some _ := rfl
  refine ⟨_, run_reachable (.init rfl) hrun, rfl, rfl, rfl, fun hclean => ?_⟩
  rcases hclean.header 1 (by decide) (by decide) with hcom | ⟨hdead, -⟩
  · cases hcom
  · cases hdead

end Firebird.Tra
