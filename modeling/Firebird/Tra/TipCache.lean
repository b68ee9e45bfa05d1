import Firebird.Lib.Transition
import Firebird.Tra.Blocks

/-! # The TIP cache agrees with the inventory pages

What a process reads in its TIP cache is what the inventory pages say, or an older state
that was not final. Below the oldest interesting transaction the blocks can have a gap, and
a lookup there reads outside the block behind the gap.
-/

namespace Firebird.Tra

open Transition (Reachable System)

variable {pgc : Pgc} {d : Dbb pgc}

/-! ## Runs -/

/-- Calls of this process, and what other processes do. -/
inductive Op where
  | setState (precommitted : Bool) (number : ℕ) (s : TraState)
  | initializeTpc (number : ℕ)
  | getInventory (base top : ℕ)
  | fetchState (number : ℕ)
  | cacheState (number : ℕ)
  | snapshotState (number : ℕ) (lockable : Bool)
  | precommited (old new : ℕ)
  | start
  | setByOther (number : ℕ) (s : TraState)
  | advanceHeader (oldest : ℕ)
  | advance (oldest : ℕ)

/-- `bump_transaction_id`, with `TRA_extend_tip` for the first transaction of a page -/
def Dbb.bump (d : Dbb pgc) : Dbb pgc :=
  { d with
    pages := if (d.hdrNext + 1) % pgc.tpt = 0 then d.pages ++ [.zero pgc] else d.pages
    hdrNext := d.hdrNext + 1 }

/-- The state after an operation. This process sets states of transactions from
`dbb_oldest_transaction` on only, other processes do not change a final state. -/
def Dbb.step (d : Dbb pgc) : Op → Dbb pgc → Prop
  | .setState precommitted number s, d' =>
      d.oldest ≤ number ∧ d.traSetState precommitted number s = some d'
  | .initializeTpc number, d' => d.tpcInitializeTpc number = some d'
  | .getInventory base top, d' => ∃ v, d.traGetInventory base top = some (v, d')
  | .fetchState number, d' => ∃ s, d.traFetchState number = some (s, d')
  | .cacheState number, d' => ∃ r, d.tpcCacheState number = some (r, d')
  | .snapshotState number lockable, d' => ∃ r, d.tpcSnapshotState number lockable = some (r, d')
  | .precommited old new, d' => d' = (d.traPrecommited old new).2
  | .start, d' => d.hdrNext < 2 ^ 31 - 2 ∧ d' = d.bump
  | .setByOther number s, d' =>
      (∃ old, pageState d.pages number = some old ∧ old.final = false) ∧
        d' = { d with pages := setPage d.pages number s }
  | .advanceHeader oldest, d' =>
      d.hdrOldest ≤ oldest ∧ oldest ≤ d.hdrNext ∧ d' = { d with hdrOldest := oldest }
  | .advance oldest, d' =>
      d.oldest ≤ oldest ∧ oldest ≤ d.hdrNext ∧ d' = { d with oldest := oldest }

/-- A process that has attached to a database: it has no TIP cache yet. -/
structure Attached (d : Dbb pgc) : Prop where
  pages : d.pages.length = d.hdrNext / pgc.tpt + 1
  hdr_le : d.hdrOldest ≤ d.hdrNext
  oldest_le : d.oldest ≤ d.hdrNext
  cache : d.tipCache = []

/-- The runs of a process. -/
def tipCache (pgc : Pgc) : System (Dbb pgc) Op := ⟨Attached, Dbb.step⟩

theorem reach {d d' : Dbb pgc} (op : Op) (h : Reachable (tipCache pgc) d)
    (hstep : d.step op d') : Reachable (tipCache pgc) d' :=
  Reachable.step h (show (tipCache pgc).step d op d' from hstep)

/-- The calls that the cache is fit for. -/
def Apt (d : Dbb pgc) : Op → Prop
  | .setState precommitted number _ =>
      Fits d ∧ (precommitted ∨ d.readOnly = false ∧ Aimed d number)
  | .cacheState number => Fits d ∧ Located d number
  | .snapshotState number _ => Fits d ∧ Located d number ∧ Extendable d number
  | _ => Fits d

/-! ## Lookups -/

/-- What is read is what the page says, as far as it is final and not below the oldest
interesting transaction. -/
def Right (d : Dbb pgc) (n : ℕ) : Reply → Prop
  | .state s => s.final → pageState d.pages n = some s ∨ n < d.oit
  | .precommitted => True
  | .outside => False

/-- A block that holds the number. -/
theorem Sound.lookup (h : Sound d) (hfit : Fits d) {b : Tpc pgc} {n : ℕ} (hb : b ∈ d.tipCache)
    (hle : b.base ≤ n) (hreach : b.reaches n) :
    b.lookup n = .state (b.transactions.state n) ∧ Right d n (b.lookup n) := by
  have hal := h.blocks.aligned _ (List.mem_map_of_mem hb)
  have hlt := (reaches_iff h hfit hb n).mp hreach
  have hbound := h.blocks.bound_lt hfit (List.mem_map_of_mem hb)
  have hn := (base_eq_iff hal).mpr ⟨hle, hlt⟩
  have hmod4 : b.base % 4 = 0 := by
    rw [← hn]
    exact pgc.dvd_mod _
  have hsub : n - b.base = n % pgc.tpt := by
    have := Nat.div_add_mod' n pgc.tpt
    omega
  have hlookup : b.lookup n = .state (b.transactions.state n) := by
    rw [Tpc.lookup, traState_eq _ hmod4 hle (by omega), hsub, Bits.get?_eq]
  refine ⟨hlookup, ?_⟩
  rw [hlookup]
  exact fun hfinal => .inl (h.faithful b hb n hn hfinal)

/-- A block found behind the number. -/
theorem Sound.lookup_outside (h : Sound d) (hfit : Fits d) {b : Tpc pgc} {n : ℕ}
    (hb : b ∈ d.tipCache) (hlt : n < b.base) : b.lookup n = .outside := by
  have hal := h.blocks.aligned _ (List.mem_map_of_mem hb)
  have hbound := h.blocks.bound_lt hfit (List.mem_map_of_mem hb)
  have hdiv := Nat.div_add_mod' b.base pgc.tpt
  have hmod4 : b.base % 4 = 0 := by
    rw [← hdiv, hal]
    exact pgc.dvd_mod _
  rw [Tpc.lookup, traState_wraps _ hmod4 hlt (by omega)
    (by rw [b.transactions.length_eq]; exact pgc.small)]

theorem head_le {bs : List ℕ} (h : bs.Pairwise (· < ·)) {b c : ℕ} (hb : bs.head? = some b)
    (hc : c ∈ bs) : b ≤ c := by
  cases bs with
  | nil => cases hb
  | cons x xs =>
      obtain rfl := Option.some.inj hb
      rcases List.mem_cons.mp hc with rfl | hc
      · exact Nat.le_refl _
      · exact (List.rel_of_pairwise_cons h hc).le

/-- Numbers before the first block are below the oldest interesting transaction. -/
theorem Sound.lt_oit (h : Sound d) {b : Tpc pgc} {n : ℕ} (hb : d.tipCache.head? = some b)
    (hlt : n < b.base) : n < d.oit := by
  by_contra hge
  have hmem : b.base ∈ bases d.tipCache := List.mem_map_of_mem (List.mem_of_head? hb)
  have hcov := h.blocks.covers _ hmem n (by omega) hlt
  have hhead : (bases d.tipCache).head? = some b.base := by
    rw [bases, List.head?_map, hb]
    rfl
  have hle := head_le h.blocks.sorted hhead hcov
  have hdiv := Nat.div_mul_le_self n pgc.tpt
  omega

/-- A number whose page has a block is looked up there. -/
theorem Sound.aimed_of_mem (h : Sound d) (hfit : Fits d) {n : ℕ}
    (hn : n / pgc.tpt * pgc.tpt ∈ bases d.tipCache) : Aimed d n := by
  have hdiv := Nat.div_add_mod' n pgc.tpt
  have hmod := Nat.mod_lt n pgc.tpt_pos
  rw [aimed_iff]
  intro b hb
  refine (find?_le h.blocks.sorted hb hn ?_).trans (Nat.div_mul_le_self n pgc.tpt)
  rw [reachesBase, slong_of_lt (h.blocks.bound_lt hfit hn), decide_eq_true_iff]
  omega

theorem Sound.cacheLookup (h : Sound d) (hfit : Fits d) (hne : d.tipCache ≠ []) {n : ℕ}
    (hloc : Located d n) : Right d n (d.cacheLookup n) := by
  rw [Dbb.cacheLookup]
  split
  · trivial
  · rename_i hpre
    split
    · rename_i hnil
      exact absurd hnil hne
    · rename_i first rest hcache
      have hhead : d.tipCache.head? = some first := by rw [hcache]; rfl
      split
      · rename_i hlt
        exact fun _ => .inr (h.lt_oit hhead hlt)
      · rename_i hge
        have haim : Aimed d n := by
          rcases hloc with hloc | ⟨b, hb, hlt⟩ | haim
          · exact absurd hloc hpre
          · obtain rfl := Option.some.inj (hhead.symm.trans hb)
            exact absurd hlt hge
          · exact haim
        split
        · rename_i b hb
          have hreach : b.reaches n = true := List.find?_some hb
          exact (h.lookup hfit (List.mem_of_find?_eq_some hb) (haim b hb) hreach).2
        · intro hfinal
          cases hfinal

/-- What is left when a condition that holds of a beginning is dropped from an ascending
list. -/
theorem mem_dropWhile_iff {bs : List ℕ} (h : bs.Pairwise (· < ·)) {p : ℕ → Bool}
    (hp : ∀ b ∈ bs, ∀ c ∈ bs, b < c → p c → p b) {b : ℕ} :
    b ∈ bs.dropWhile p ↔ b ∈ bs ∧ ¬p b := by
  constructor
  · intro hb
    refine ⟨List.dropWhile_subset p hb, ?_⟩
    induction bs with
    | nil => cases hb
    | cons x xs ih =>
        rw [List.pairwise_cons] at h
        rw [List.dropWhile_cons] at hb
        split at hb
        · exact ih h.2 (fun b hb c hc => hp b (List.mem_cons_of_mem _ hb) c
            (List.mem_cons_of_mem _ hc)) hb
        · rename_i hx
          rcases List.mem_cons.mp hb with rfl | hb
          · exact hx
          · intro hpb
            exact hx (hp x List.mem_cons_self b (List.mem_cons_of_mem _ hb) (h.1 b hb) hpb)
  · rintro ⟨hb, hpb⟩
    exact mem_dropWhile hb hpb

/-- The blocks that stay when an inventory page is fetched. -/
theorem Sound.mem_kept (h : Sound d) (hfit : Fits d) {b : ℕ} :
    b ∈ bases d.kept ↔ b ∈ bases d.tipCache ∧ d.oldest < b + pgc.tpt := by
  have hslong : ∀ b ∈ bases d.tipCache, slong (b + pgc.tpt) = b + pgc.tpt := by
    intro b hb
    rw [slong_of_lt (h.blocks.bound_lt hfit hb)]
    rfl
  rw [bases_kept, mem_dropWhile_iff h.blocks.sorted]
  · refine and_congr_right fun hb => ?_
    rw [hslong b hb, decide_eq_true_iff]
    omega
  · intro b hb c hc hlt
    rw [hslong b hb, hslong c hc, decide_eq_true_iff, decide_eq_true_iff]
    omega

/-- A cache made of new blocks only. -/
theorem mem_fresh {d' : Dbb pgc} (h : Sound d) (hfit : Fits d) (hnil : d.tipCache = []) {b : ℕ}
    (hd : Fetched (d.allocated 0) d') :
    b ∈ bases d'.tipCache ↔
      (b % pgc.tpt = 0 ∧ firstCached d 0 ≤ b ∧ b ≤ d.hdrNext) ∧ d.oldest < b + pgc.tpt := by
  have hends : EndsAt (bases d.tipCache) pgc.tpt 0 := .inl ⟨by rw [hnil]; rfl, rfl⟩
  rw [hd.bases, (h.allocated hends).mem_kept hfit, bases_allocated, hnil]
  exact and_congr_left' (mem_allocateTpcs (firstCached_mod d 0))

/-- A cache made of new blocks reaches up to the next transaction and has no gap. -/
structure Fresh (d : Dbb pgc) : Prop where
  ne_nil : d.tipCache ≠ []
  located : ∀ n, Located d n
  reaches : ∀ n, d.tipCache.find? (Tpc.reaches n) = none → d.oldest < n

theorem fresh_of_nil {d' : Dbb pgc} (h : Sound d) (hfit : Fits d) (hnil : d.tipCache = [])
    (hd : Fetched (d.allocated 0) d') : Fresh d' := by
  have hmem : ∀ b, b ∈ bases d'.tipCache ↔ _ := fun b => mem_fresh h hfit hnil hd (b := b)
  have hfit' : Fits d' := hd.fits hfit
  have htop : d.hdrNext / pgc.tpt * pgc.tpt ∈ bases d'.tipCache := by
    have hfirst := (firstCached_le d 0).trans (Nat.max_le.mpr ⟨Nat.zero_le _, h.hdr_le⟩)
    have hmod := firstCached_mod d 0
    have hdiv := Nat.div_add_mod' d.hdrNext pgc.tpt
    have hlt := Nat.mod_lt d.hdrNext pgc.tpt_pos
    have hfdiv := Nat.div_add_mod' (firstCached d 0) pgc.tpt
    have hmul := Nat.mul_le_mul_right pgc.tpt (Nat.div_le_div_right (c := pgc.tpt) hfirst)
    have hold := h.oldest_le
    exact (hmem _).mpr ⟨⟨Nat.mul_mod_left .., by omega, by omega⟩, by omega⟩
  obtain ⟨top, htopmem, htopeq⟩ := List.mem_map.mp htop
  refine ⟨List.ne_nil_of_mem htopmem, fun n => ?_, fun n hnone => ?_⟩
  · by_cases hlt : ∃ b, d'.tipCache.head? = some b ∧ n < b.base
    · exact .inr (.inl hlt)
    · refine .inr (.inr fun b hb => ?_)
      by_contra hgt
      have hbmem := List.mem_map_of_mem (f := (·.base)) (List.mem_of_find?_eq_some hb)
      have hbounds := (hmem _).mp hbmem
      obtain ⟨first, hfirst⟩ : ∃ first, d'.tipCache.head? = some first :=
        List.isSome_head?.mpr (List.ne_nil_of_mem htopmem) |> Option.isSome_iff_exists.mp
      have hge : first.base ≤ n := by
        by_contra hno
        exact hlt ⟨first, hfirst, by omega⟩
      have hfbounds := (hmem _).mp (List.mem_map_of_mem (f := (·.base)) (List.mem_of_head? hfirst))
      -- the page of `n` lies between the first block and the one found
      have hdiv := Nat.div_add_mod' n pgc.tpt
      have hmodn := Nat.mod_lt n pgc.tpt_pos
      have hfdiv := Nat.div_add_mod' first.base pgc.tpt
      have hmul := Nat.mul_le_mul_right pgc.tpt (Nat.div_le_div_right (c := pgc.tpt) hge)
      rw [hfbounds.1.1] at hfdiv
      have hn : n / pgc.tpt * pgc.tpt ∈ bases d'.tipCache :=
        (hmem _).mpr ⟨⟨Nat.mul_mod_left .., by omega, by omega⟩, by omega⟩
      exact hgt (hd.sound.aimed_of_mem hfit' hn b hb)
  · have hno := List.find?_eq_none.mp hnone top htopmem
    rw [reaches_iff hd.sound hfit' htopmem, htopeq] at hno
    have hlt := Nat.mod_lt d.hdrNext pgc.tpt_pos
    have hdiv := Nat.div_add_mod' d.hdrNext pgc.tpt
    have hold := h.oldest_le
    have hsame : d'.oldest = d.oldest := hd.oldest
    omega

theorem endsAt_last {bs : List ℕ} (h : bs.Pairwise (· < ·)) {b : ℕ} (hb : bs.getLast? = some b) :
    EndsAt bs pgc.tpt (b + pgc.tpt) := by
  obtain ⟨l, rfl⟩ := List.getLast?_eq_some_iff.mp hb
  refine .inr ⟨b, by simp, rfl, fun c hc => ?_⟩
  rw [List.pairwise_append] at h
  rcases List.mem_append.mp hc with hc | hc
  · exact (h.2.2 c hc b (List.mem_singleton_self b)).le
  · exact (List.mem_singleton.mp hc).le

theorem Sound.endsAt (h : Sound d) {last : Tpc pgc} (hlast : d.tipCache.getLast? = some last) :
    EndsAt (bases d.tipCache) pgc.tpt last.bound :=
  endsAt_last h.blocks.sorted (by rw [bases, List.getLast?_map, hlast]; rfl)

/-- `TPC_initialize_tpc` keeps the invariant and does not fail. -/
theorem Sound.initializeTpc (h : Sound d) (hfit : Fits d) {n : ℕ} {d' : Dbb pgc}
    (hrun : d.tpcInitializeTpc n = some d') : Sound d' := by
  rw [Dbb.tpcInitializeTpc] at hrun
  split at hrun
  · rename_i hlast
    obtain ⟨r, hcache, rfl⟩ := Option.map_eq_some_iff.mp hrun
    rw [List.getLast?_eq_none_iff] at hlast
    exact (h.cacheTransactions hfit (.inl ⟨by rw [hlast]; rfl, rfl⟩) hcache).2.sound
  · rename_i last hlast
    split at hrun
    · obtain rfl := Option.some.inj hrun
      exact h
    · obtain ⟨r, hcache, rfl⟩ := Option.map_eq_some_iff.mp hrun
      exact (h.cacheTransactions hfit (h.endsAt hlast) hcache).2.sound

theorem initializeTpc_of_nil (hnil : d.tipCache = []) (n : ℕ) :
    d.tpcInitializeTpc n = (d.cacheTransactions 0).map (·.2) := by
  rw [Dbb.tpcInitializeTpc, hnil]
  rfl

/-- `TPC_cache_state` returns, and what it returns is right. -/
theorem Sound.cacheState (h : Sound d) (hfit : Fits d) {n : ℕ} (hloc : Located d n) :
    ∃ r d', d.tpcCacheState n = some (r, d') ∧ Right d' n r := by
  rw [Dbb.tpcCacheState]
  split
  · rename_i hnil
    obtain ⟨r, hcache⟩ := cacheTransactions_isSome h (Nat.zero_le _)
    have hd := (h.cacheTransactions hfit (.inl ⟨by rw [hnil]; rfl, rfl⟩) hcache).2
    have hfresh := fresh_of_nil h hfit hnil hd
    rw [initializeTpc_of_nil hnil, hcache]
    exact ⟨_, r.2, rfl, hd.sound.cacheLookup (hd.fits hfit) hfresh.ne_nil (hfresh.located n)⟩
  · rename_i hne
    exact ⟨_, d, rfl, h.cacheLookup hfit hne hloc⟩

/-- `extend_cache` -/
theorem Sound.extendCache (h : Sound d) (hfit : Fits d) {n : ℕ} {last : Tpc pgc}
    (hlast : d.tipCache.getLast? = some last) (hnone : d.tipCache.find? (Tpc.reaches n) = none)
    (hext : d.hdrOldest ≤ n → d.oldest < (n / pgc.tpt + 1) * pgc.tpt) {r : Reply} {d' : Dbb pgc}
    (hrun : d.extendCache last n = some (r, d')) : Sound d' ∧ Right d' n r := by
  rw [Dbb.extendCache, Option.map_eq_some_iff] at hrun
  obtain ⟨⟨oldest, d₁⟩, hcache, hrun⟩ := hrun
  obtain ⟨holdest, hd⟩ := h.cacheTransactions hfit (h.endsAt hlast) hcache
  dsimp only at holdest hd hrun
  subst holdest
  have hfit₁ : Fits d₁ := hd.fits hfit
  have hhdr : d₁.hdrOldest = d.hdrOldest := hd.hdr
  have hbases : bases (d₁.tipCache.dropWhile fun b => b.bound < d.hdrOldest) =
      (bases d₁.tipCache).dropWhile fun b => b + pgc.tpt < d.hdrOldest :=
    bases_dropWhile (fun b => b + pgc.tpt < d.hdrOldest) d₁.tipCache
  have hsound : Sound { d₁ with tipCache := d₁.tipCache.dropWhile fun b => b.bound < d.hdrOldest } := by
    refine ⟨hd.sound.pages, hd.sound.hdr_le, hd.sound.oldest_le, ?_, fun b hb =>
      hd.sound.faithful b (List.dropWhile_subset _ hb)⟩
    show Blocks pgc d₁.hdrNext d₁.oit _
    rw [hbases]
    refine hd.sound.blocks.dropWhile fun b _ hlt => ?_
    rw [decide_eq_true_iff] at hlt
    have hoit : d₁.hdrOldest ≤ d₁.oit := Nat.le_max_left ..
    omega
  split at hrun
  · rename_i hlt
    cases hrun
    refine ⟨hsound, fun _ => .inr ?_⟩
    have hoit : d₁.hdrOldest ≤ d₁.oit := Nat.le_max_left ..
    exact Nat.lt_of_lt_of_le (hhdr ▸ hlt) hoit
  · rename_i hge
    split at hrun
    · rename_i b hb
      cases hrun
      have hmem := List.mem_of_find?_eq_some hb
      have hreach : b.reaches n = true := List.find?_some hb
      refine ⟨hsound, (hsound.lookup hfit₁ hmem ?_ hreach).2⟩
      by_contra hgt
      -- the block found is a new one, so the page of `n` has got a block too
      have hbmem : b.base ∈ bases (d₁.tipCache.dropWhile fun b => b.bound < d.hdrOldest) :=
        List.mem_map_of_mem hmem
      have hbmem₁ : b.base ∈ bases (d.allocated last.bound).tipCache := by
        rw [hbases] at hbmem
        have hb₁ := List.dropWhile_subset _ hbmem
        rw [hd.bases, bases_kept] at hb₁
        exact List.dropWhile_subset _ hb₁
      have hends := h.endsAt hlast
      have hlastn : last.bound ≤ n := by
        have hlastmem := List.mem_of_getLast? hlast
        have hno := List.find?_eq_none.mp hnone last hlastmem
        rw [reaches_iff h hfit hlastmem] at hno
        exact Nat.not_lt.mp hno
      have hbnew : b.base ≤ d.hdrNext := (h.allocated hends).blocks.within _ hbmem₁
      have hfirst := firstCached_le d last.bound
      have hdiv := Nat.div_add_mod' n pgc.tpt
      have hmodn := Nat.mod_lt n pgc.tpt_pos
      have hfdiv := Nat.div_add_mod' (firstCached d last.bound) pgc.tpt
      have hmul := Nat.mul_le_mul_right pgc.tpt (Nat.div_le_div_right (c := pgc.tpt)
        (show firstCached d last.bound ≤ n by omega))
      rw [firstCached_mod] at hfdiv
      have hend := hext (by omega)
      rw [Nat.add_mul, Nat.one_mul] at hend
      have hn : n / pgc.tpt * pgc.tpt ∈ bases (d.allocated last.bound).tipCache := by
        rw [bases_allocated]
        exact List.mem_append_right _ 
          ((mem_allocateTpcs (firstCached_mod d _)).mpr ⟨Nat.mul_mod_left .., by omega, by omega⟩)
      have hn₁ : n / pgc.tpt * pgc.tpt ∈ bases d₁.tipCache := by
        rw [hd.bases]
        exact ((h.allocated hends).mem_kept hfit).mpr ⟨hn, hend⟩
      have hn₂ : n / pgc.tpt * pgc.tpt ∈
          bases (d₁.tipCache.dropWhile fun b => b.bound < d.hdrOldest) := by
        rw [hbases]
        refine mem_dropWhile hn₁ ?_
        rw [decide_eq_true_iff]
        omega
      exact hgt (hsound.aimed_of_mem hfit₁ hn₂ b hb)
    · cases hrun
      exact ⟨hsound, fun hfinal => by cases hfinal⟩

theorem Sound.fetchState (h : Sound d) (hfit : Fits d) {n : ℕ} {s : TraState} {d' : Dbb pgc}
    (hrun : d.traFetchState n = some (s, d')) :
    Fetched d d' ∧ pageState d'.pages n = some s := by
  rw [Dbb.traFetchState, Option.map_eq_some_iff] at hrun
  obtain ⟨⟨page, d₁⟩, hfetch, heq⟩ := hrun
  cases heq
  obtain ⟨hpage, hd⟩ := h.fetched hfit hfetch
  refine ⟨hd, ?_⟩
  rw [hd.pages]
  exact pageState_eq hpage rfl

/-- `TPC_snapshot_state`, with a cache -/
theorem Sound.snapshotLookup (h : Sound d) (hfit : Fits d) (hne : d.tipCache ≠ []) {n : ℕ}
    (hloc : Located d n)
    (hext : d.tipCache.find? (Tpc.reaches n) = none → d.hdrOldest ≤ n →
      d.oldest < (n / pgc.tpt + 1) * pgc.tpt)
    {lockable : Bool} {r : Reply} {d' : Dbb pgc}
    (hrun : d.snapshotLookup n lockable = some (r, d')) : Sound d' ∧ Right d' n r := by
  rw [Dbb.snapshotLookup] at hrun
  split at hrun
  · cases hrun
    exact ⟨h, trivial⟩
  · rename_i hpre
    split at hrun
    · rename_i hnil
      exact absurd hnil hne
    · rename_i first rest hcache
      have hhead : d.tipCache.head? = some first := by rw [hcache]; rfl
      split at hrun
      · rename_i hlt
        cases hrun
        exact ⟨h, fun _ => .inr (h.lt_oit hhead hlt)⟩
      · rename_i hge
        have haim : Aimed d n := by
          rcases hloc with hloc | ⟨b, hb, hlt⟩ | haim
          · exact absurd hloc hpre
          · obtain rfl := Option.some.inj (hhead.symm.trans hb)
            exact absurd hlt hge
          · exact haim
        split at hrun
        · rename_i b hb
          have hmem := List.mem_of_find?_eq_some hb
          have hreach : b.reaches n = true := List.find?_some hb
          obtain ⟨hlookup, hright⟩ := h.lookup hfit hmem (haim b hb) hreach
          rw [hlookup] at hrun hright
          dsimp only at hrun
          split at hrun
          · cases hrun
            exact ⟨h, hright⟩
          · split at hrun
            · cases hrun
              exact ⟨h, fun hfinal => by cases hfinal⟩
            · obtain ⟨⟨s, d₁⟩, hfetch, heq⟩ := Option.map_eq_some_iff.mp hrun
              cases heq
              obtain ⟨hd, hpage⟩ := h.fetchState hfit hfetch
              exact ⟨hd.sound, fun _ => .inl hpage⟩
        · rename_i hnone
          refine h.extendCache hfit ?_ hnone (hext hnone) hrun
          rw [hcache, List.getLast?_eq_some_getLast]

theorem Sound.snapshotState (h : Sound d) (hfit : Fits d) {n : ℕ} (hloc : Located d n)
    (hext : Extendable d n) {lockable : Bool} {r : Reply} {d' : Dbb pgc}
    (hrun : d.tpcSnapshotState n lockable = some (r, d')) : Sound d' ∧ Right d' n r := by
  rw [Dbb.tpcSnapshotState] at hrun
  split at hrun
  · rename_i hnil
    obtain ⟨⟨o, d₁⟩, hcache, hrun⟩ := Option.bind_eq_some_iff.mp hrun
    have hd := (h.cacheTransactions hfit (.inl ⟨by rw [hnil]; rfl, rfl⟩) hcache).2
    have hfresh := fresh_of_nil h hfit hnil hd
    refine hd.sound.snapshotLookup (hd.fits hfit) hfresh.ne_nil (hfresh.located n)
      (fun hnone _ => ?_) hrun
    have hlt := hfresh.reaches n hnone
    have hdiv := Nat.div_add_mod' n pgc.tpt
    have hmod := Nat.mod_lt n pgc.tpt_pos
    rw [Nat.add_mul, Nat.one_mul]
    omega
  · rename_i hne
    exact h.snapshotLookup hfit hne hloc (fun hnone => hext hne hnone) hrun

theorem snapshotLookup_isSome (h : Sound d) (hfit : Fits d) {n : ℕ} (hn : n ≤ d.hdrNext)
    (lockable : Bool) : ∃ r, d.snapshotLookup n lockable = some r := by
  rw [Dbb.snapshotLookup]
  split
  · exact ⟨_, rfl⟩
  · split
    · exact ⟨_, rfl⟩
    · rename_i first rest hcache
      split
      · exact ⟨_, rfl⟩
      · split
        · split
          · split
            · exact ⟨_, rfl⟩
            · split
              · exact ⟨_, rfl⟩
              · obtain ⟨page, d', hfetch⟩ := fetch_isSome (d := d) (by
                  rw [h.pages]
                  exact Nat.lt_succ_of_le (Nat.div_le_div_right hn))
                exact ⟨_, by rw [Dbb.traFetchState, hfetch]; rfl⟩
          · exact ⟨_, rfl⟩
        · rename_i hnone
          -- no block reaches the number, so the next page is there
          have hlast : (first :: rest).getLast (List.cons_ne_nil _ _) ∈ d.tipCache := by
            rw [hcache]
            exact List.getLast_mem _
          have hno := List.find?_eq_none.mp hnone _ hlast
          rw [reaches_iff h hfit hlast] at hno
          obtain ⟨r, hrun⟩ := cacheTransactions_isSome h ((Nat.not_lt.mp hno).trans hn)
          rw [Dbb.extendCache, Tpc.bound, hrun]
          exact ⟨_, rfl⟩

theorem snapshotState_isSome (h : Sound d) (hfit : Fits d) {n : ℕ} (hn : n ≤ d.hdrNext)
    (lockable : Bool) : ∃ r, d.tpcSnapshotState n lockable = some r := by
  rw [Dbb.tpcSnapshotState]
  split
  · rename_i hnil
    obtain ⟨r, hcache⟩ := cacheTransactions_isSome h (Nat.zero_le _)
    have hd := (h.cacheTransactions hfit (.inl ⟨by rw [hnil]; rfl, rfl⟩) hcache).2
    rw [hcache]
    exact snapshotLookup_isSome hd.sound (hd.fits hfit) (hd.next ▸ hn) lockable
  · exact snapshotLookup_isSome h hfit hn lockable

/-! ## Every step -/

theorem pageState_append {pages : List (Bits pgc)} {n : ℕ} {s : TraState}
    (h : pageState pages n = some s) (page : Bits pgc) : pageState (pages ++ [page]) n = some s := by
  have hlt : n / pgc.tpt < pages.length := pageState_isSome.mp (by rw [h]; rfl)
  rw [pageState, List.getElem?_append_left hlt]
  exact h

theorem Sound.bump (h : Sound d) : Sound d.bump where
  pages := by
    have hdiv := Nat.div_add_mod' (d.hdrNext + 1) pgc.tpt
    rw [Dbb.bump]
    dsimp only
    rw [Nat.succ_div]
    split
    · rename_i hzero
      rw [if_pos (Nat.dvd_of_mod_eq_zero hzero), List.length_append, h.pages]
      rfl
    · rename_i hne
      rw [if_neg fun hdvd => hne (Nat.mod_eq_zero_of_dvd hdvd)]
      exact h.pages
  hdr_le := h.hdr_le.trans (Nat.le_succ _)
  oldest_le := h.oldest_le.trans (Nat.le_succ _)
  blocks := h.blocks.mono (Nat.le_succ _) (Nat.le_refl _)
  faithful b hb n hn hfinal := by
    have hold := h.faithful b hb n hn hfinal
    rw [Dbb.bump]
    dsimp only
    split
    · exact pageState_append hold _
    · exact hold

theorem Sound.precommited (h : Sound d) (old new : ℕ) : Sound (d.traPrecommited old new).2 := by
  rw [Dbb.traPrecommited]
  split
  · exact h
  · dsimp only
    split
    · exact ⟨h.pages, h.hdr_le, h.oldest_le, h.blocks, h.faithful⟩
    · split
      · exact ⟨h.pages, h.hdr_le, h.oldest_le, h.blocks, h.faithful⟩
      · exact ⟨h.pages, h.hdr_le, h.oldest_le, h.blocks, h.faithful⟩

/-- Another process sets a state that was not final. -/
theorem Sound.setByOther (h : Sound d) {n : ℕ} {s old : TraState} (hn : pageState d.pages n = some old)
    (hold : old.final = false) : Sound { d with pages := setPage d.pages n s } := by
  have hlt : n / pgc.tpt < d.pages.length := pageState_isSome.mp (by rw [hn]; rfl)
  refine ⟨(length_setPage ..).trans h.pages, h.hdr_le, h.oldest_le, h.blocks, ?_⟩
  intro b hb m hm hfinal
  have hsame := h.faithful b hb m hm hfinal
  rw [pageState_setPage hlt]
  split
  · rename_i hnm
    subst hnm
    rw [hn] at hsame
    rw [← Option.some.inj hsame, hold] at hfinal
    cases hfinal
  · exact hsame

theorem cacheState_sound (h : Sound d) (hfit : Fits d) {n : ℕ} {r : Reply} {d' : Dbb pgc}
    (hrun : d.tpcCacheState n = some (r, d')) : Sound d' := by
  rw [Dbb.tpcCacheState] at hrun
  split at hrun
  · obtain ⟨d₁, hinit, heq⟩ := Option.map_eq_some_iff.mp hrun
    cases heq
    exact h.initializeTpc hfit hinit
  · cases hrun
    exact h

theorem Sound.step (h : Sound d) {op : Op} (hapt : Apt d op) {d' : Dbb pgc}
    (hstep : d.step op d') : Sound d' := by
  cases op with
  | setState precommitted n s =>
      obtain ⟨hfit, hpre | ⟨hro, haim⟩⟩ := hapt
      · obtain ⟨-, hrun⟩ := hstep
        rw [hpre] at hrun
        cases hrun
        exact h
      · obtain ⟨hn, hrun⟩ := hstep
        cases precommitted with
        | true =>
            cases hrun
            exact h
        | false => exact h.setState hfit hro hn haim hrun
  | initializeTpc n => exact h.initializeTpc hapt hstep
  | getInventory base top =>
      obtain ⟨v, hrun⟩ := hstep
      exact (h.getInventory hapt hrun).sound
  | fetchState n =>
      obtain ⟨s, hrun⟩ := hstep
      exact (h.fetchState hapt hrun).1.sound
  | cacheState n =>
      obtain ⟨r, hrun⟩ := hstep
      exact cacheState_sound h hapt.1 hrun
  | snapshotState n lockable =>
      obtain ⟨r, hrun⟩ := hstep
      exact (h.snapshotState hapt.1 hapt.2.1 hapt.2.2 hrun).1
  | precommited old new =>
      obtain rfl := hstep
      exact h.precommited old new
  | start =>
      obtain ⟨-, rfl⟩ := hstep
      exact h.bump
  | setByOther n s =>
      obtain ⟨⟨old, hn, hold⟩, rfl⟩ := hstep
      exact h.setByOther hn hold
  | advanceHeader oldest =>
      obtain ⟨hle, htop, rfl⟩ := hstep
      exact ⟨h.pages, htop, h.oldest_le,
        h.blocks.mono (Nat.le_refl _) (max_le_max_right _ hle), h.faithful⟩
  | advance oldest =>
      obtain ⟨hle, htop, rfl⟩ := hstep
      exact ⟨h.pages, h.hdr_le, htop,
        h.blocks.mono (Nat.le_refl _) (max_le_max_left _ hle), h.faithful⟩

theorem sound_reachable (h : Reachable ((tipCache pgc).restrict Apt) d) : Sound d := by
  refine h.invariant (fun s hs => ?_) fun s op s' hs hstep => hs.step hstep.2 hstep.1
  refine ⟨hs.pages, hs.hdr_le, hs.oldest_le, ?_, ?_⟩
  · rw [hs.cache]
    exact ⟨by simp [bases], by simp [bases], List.Pairwise.nil, by simp [bases]⟩
  · rw [hs.cache]
    simp

/-! ## Main result -/

/-- The pages and the cache after `TRA_set_state`: the transaction has the new state on its
page and in its block. The other states on the pages are as before, those in the cache are as
before or as on the page that was fetched. -/
structure SetExactly (n : ℕ) (s : TraState) (d d' : Dbb pgc) : Prop where
  pages : ∀ m, pageState d'.pages m = if n = m then some s else pageState d.pages m
  named : ∀ b ∈ d'.tipCache, n / pgc.tpt * pgc.tpt = b.base → b.transactions.state n = s
  others : ∀ b ∈ d'.tipCache, ∀ m, m / pgc.tpt * pgc.tpt = b.base → m ≠ n →
    pageState d.pages m = some (b.transactions.state m) ∨
      ∃ c ∈ d.tipCache, c.base = b.base ∧ b.transactions.state m = c.transactions.state m

/-- The cache agrees with the inventory pages. -/
structure Agrees (d : Dbb pgc) : Prop where
  set_state : ∀ n s, Fits d → d.readOnly = false → Aimed d n → d.oldest ≤ n →
    n / pgc.tpt < d.pages.length → ∃ d', d.traSetState false n s = some d' ∧ SetExactly n s d d'
  inventory : ∀ base top, Fits d → base % 4 = 0 → base ≤ top → top / pgc.tpt < d.pages.length →
    ∃ v d', d.traGetInventory base top = some (v, d') ∧ v.length ≤ (top - base + 3) / 4 ∧
      ∀ n, base ≤ n → n < top →
        ∃ s d'', d'.traFetchState n = some (s, d'') ∧ traState v base n = some s
  cache_state : ∀ n, Fits d → ∃ r d', d.tpcCacheState n = some (r, d') ∧
    (Right d' n r ↔ Located d n)
  snapshot_state : ∀ n lockable, Fits d → Located d n → Extendable d n →
    (n ≤ d.hdrNext → ∃ r, d.tpcSnapshotState n lockable = some r) ∧
      ∀ r d', d.tpcSnapshotState n lockable = some (r, d') → Right d' n r

theorem Sound.setExactly (h : Sound d) (hfit : Fits d) (hro : d.readOnly = false) {n : ℕ}
    (s : TraState) (haim : Aimed d n) (hn : d.oldest ≤ n) (hpage : n / pgc.tpt < d.pages.length) :
    ∃ d', d.traSetState false n s = some d' ∧ SetExactly n s d d' := by
  obtain ⟨page, d₁, hfetch⟩ := fetch_isSome hpage
  obtain ⟨hget, hd⟩ := h.fetched hfit hfetch
  have hset := cacheSet_tpcSetState hd.sound (hd.fits hfit) s (hd.aimed hn haim)
  refine ⟨_, by rw [Dbb.traSetState, hro, hfetch]; rfl, ?_, hset.named, ?_⟩
  · intro m
    rw [← hd.pages]
    exact pageState_setPage (by rw [hd.pages]; exact hpage) s m
  · intro b hb m hm hne
    obtain ⟨c, hc, hbase, hsame⟩ := hset.others b hb
    obtain ⟨-, rfl⟩ := fetch_eq hfetch
    rcases mem_refresh hc with hc | ⟨hcbase, htrans⟩
    · exact .inr ⟨c, List.dropWhile_subset _ hc, hbase, hsame m hm hne⟩
    · have hdiv : m / pgc.tpt = n / pgc.tpt :=
        Nat.eq_of_mul_eq_mul_right pgc.tpt_pos (hm.trans (hbase.symm.trans hcbase))
      rw [hsame m hm hne, htrans]
      exact .inl (pageState_eq hget hdiv)

/-- A lookup in a gap reads outside the block behind it. -/
theorem Sound.cacheState_outside (h : Sound d) (hfit : Fits d) {n : ℕ} (hloc : ¬Located d n) :
    d.tpcCacheState n = some (.outside, d) := by
  rw [Located, not_or, not_or] at hloc
  obtain ⟨hpre, hfirst, haim⟩ := hloc
  obtain ⟨b, hb, hlt⟩ : ∃ b, d.tipCache.find? (Tpc.reaches n) = some b ∧ ¬b.base ≤ n := by
    by_contra hno
    exact haim fun b hb => by_contra fun hlt => hno ⟨b, hb, hlt⟩
  have hmem := List.mem_of_find?_eq_some hb
  have hout := h.lookup_outside hfit hmem (Nat.not_le.mp hlt)
  rw [Dbb.tpcCacheState, if_neg (List.ne_nil_of_mem hmem), Dbb.cacheLookup, if_neg hpre]
  obtain ⟨first, rest, hcache⟩ := List.exists_cons_of_ne_nil (List.ne_nil_of_mem hmem)
  have hge : ¬n < first.base := fun hlt => hfirst ⟨first, by rw [hcache]; rfl, hlt⟩
  rw [hcache] at hb ⊢
  simp only [if_neg hge, hb, hout]

/-- In every run of apt calls the cache agrees with the inventory pages. -/
theorem tip_cache_agrees (h : Reachable ((tipCache pgc).restrict Apt) d) : Agrees d := by
  have hsound := sound_reachable h
  refine ⟨fun n s hfit hro haim hn hpage => hsound.setExactly hfit hro s haim hn hpage, ?_, ?_, ?_⟩
  · intro base top hfit hbase hle htop
    have hdiv : base / pgc.tpt ≤ top / pgc.tpt := Nat.div_le_div_right hle
    obtain ⟨v, d', hrun⟩ := getInventory_isSome (hdiv.trans_lt htop) htop
    have hd := hsound.getInventory hfit hrun
    have hinv := inventory_of_run hsound hfit hbase hle hrun
    refine ⟨v, d', hrun, by have := hinv.length_le; omega, fun n hn hlt => ?_⟩
    have hnpage : n / pgc.tpt < d'.pages.length := by
      rw [hd.pages]
      exact (Nat.div_le_div_right hlt.le).trans_lt htop
    obtain ⟨page, d'', hfetch⟩ := fetch_isSome hnpage
    refine ⟨page.state n, d'', by rw [Dbb.traFetchState, hfetch]; rfl, ?_⟩
    have hsmall : n < 2 ^ 31 := by
      have hlast := Nat.mul_le_mul_right pgc.tpt (Nat.succ_le_of_lt htop)
      have hmod := Nat.lt_div_mul_add (a := top) pgc.tpt_pos
      rw [hsound.pages] at hlast
      rw [Fits] at hfit
      rw [Nat.succ_mul] at hlast
      omega
    have hpage := (fetch_eq hfetch).1
    rw [hd.pages] at hpage
    rw [traState_eq v hbase hn hsmall, hinv.states n hn hlt]
    exact pageState_eq hpage rfl
  · intro n hfit
    by_cases hloc : Located d n
    · obtain ⟨r, d', hrun, hright⟩ := hsound.cacheState hfit hloc
      exact ⟨r, d', hrun, iff_of_true hright hloc⟩
    · exact ⟨.outside, d, hsound.cacheState_outside hfit hloc, iff_of_false id hloc⟩
  · intro n lockable hfit hloc hext
    refine ⟨fun hn => snapshotState_isSome hsound hfit hn lockable, fun r d' hrun => ?_⟩
    exact (hsound.snapshotState hfit hloc hext hrun).2

/-! ## A gap -/

/-- Pages of 1024 bytes -/
def pgc1024 : Pgc := ⟨1004, by decide, by decide⟩

/-- A process attaches to a database with one inventory page. -/
def attached (next : ℕ) (_ : next < 4016) : Dbb pgc1024 where
  pages := [.zero pgc1024]
  hdrNext := next
  hdrOldest := 1
  oldest := 1
  tipCache := []
  pcTransactions := none
  readOnly := false

theorem attached_init {next : ℕ} (hnext : next < 4016) (hpos : 0 < next) :
    Attached (attached next hnext) where
  pages := by
    show 1 = next / 4016 + 1
    omega
  hdr_le := hpos
  oldest_le := hpos
  cache := rfl

/-- A process commits the first transaction. -/
theorem tip_cache_agrees_commit :
    ∃ d d' : Dbb pgc1024, Attached d ∧ d.traSetState false 1 .committed = some d' ∧
      pageState d'.pages 1 = some .committed ∧ Agrees d' := by
  let d := attached 1 (by decide)
  have hd : Attached d := attached_init _ (by decide)
  have hfit : Fits d := show (1 / 4016 + 1) * 4016 < 2 ^ 31 by decide
  have haim : Aimed d 1 := fun b hb => by cases hb
  have hagree := @tip_cache_agrees _ d (.init hd)
  obtain ⟨d', hrun, hset⟩ :=
    hagree.set_state 1 .committed hfit rfl haim (Nat.le_refl 1) (by decide)
  have hstep : d.step (.setState false 1 .committed) d' := ⟨Nat.le_refl 1, hrun⟩
  have hreach : Reachable ((tipCache pgc1024).restrict Apt) d' :=
    .step (i := .setState false 1 .committed) (.init hd) ⟨hstep, hfit, .inr ⟨rfl, haim⟩⟩
  exact ⟨d, d', hd, hrun, by rw [hset.pages]; rfl, tip_cache_agrees hreach⟩

/-- Transactions that other processes start. -/
theorem reachable_bumps {d : Dbb pgc} (h : Reachable (tipCache pgc) d) (k : ℕ)
    (hk : d.hdrNext + k ≤ 2 ^ 31 - 2) :
    ∃ d', Reachable (tipCache pgc) d' ∧ d'.hdrNext = d.hdrNext + k ∧ d'.tipCache = d.tipCache ∧
      d'.hdrOldest = d.hdrOldest ∧ d'.oldest = d.oldest ∧ d'.pcTransactions = d.pcTransactions ∧
      (Sound d → Sound d') := by
  induction k with
  | zero => exact ⟨d, h, rfl, rfl, rfl, rfl, rfl, id⟩
  | succ k ih =>
      obtain ⟨d', hd', hnext, hcache, hhdr, hold, hpc, hsound⟩ := ih (by omega)
      refine ⟨d'.bump, reach .start hd' ⟨by omega, rfl⟩, ?_, hcache, hhdr, hold, hpc,
        fun h => (hsound h).bump⟩
      show d'.hdrNext + 1 = d.hdrNext + (k + 1)
      omega

/-- The process has cached the first page. Then 4017 transactions start elsewhere and all
but the last one end; a read-committed transaction of the process starts and caches the third
page. A lookup of a transaction of the second page reads far outside the block. -/
theorem cache_state_outside :
    ∃ (pgc : Pgc) (d : Dbb pgc) (n : ℕ), Reachable (tipCache pgc) d ∧ n ≤ d.hdrNext ∧
      d.tpcCacheState n = some (.outside, d) := by
  let d₀ := attached 4015 (by decide)
  have hinit : Attached d₀ := attached_init _ (by decide)
  have hs₀ : Sound d₀ := sound_reachable (.init hinit)
  have hfit₀ : Fits d₀ := show (4015 / 4016 + 1) * 4016 < 2 ^ 31 by decide
  -- the first page is cached
  obtain ⟨r₁, hcache₁⟩ := cacheTransactions_isSome hs₀ (Nat.zero_le _)
  have hd₁ := (hs₀.cacheTransactions hfit₀ (.inl ⟨rfl, rfl⟩) hcache₁).2
  have hstep₁ : d₀.step (.initializeTpc 1) r₁.2 := by
    show d₀.tpcInitializeTpc 1 = some r₁.2
    rw [initializeTpc_of_nil rfl, hcache₁]
    rfl
  have hmem₁ : ∀ b, b ∈ bases r₁.2.tipCache ↔ b = 0 := by
    intro b
    rw [mem_fresh hs₀ hfit₀ rfl hd₁]
    show (b % 4016 = 0 ∧ 0 ≤ b ∧ b ≤ 4015) ∧ 1 < b + 4016 ↔ b = 0
    omega
  -- other processes
  obtain ⟨d₂, hreach₂, hnext₂, hcache₂, -, hold₂, hpc₂, hs₂⟩ :=
    reachable_bumps (reach _ (.init hinit) hstep₁) 4017 (by rw [hd₁.next]; decide)
  have hnext₂' : d₂.hdrNext = 8032 := by rw [hnext₂, hd₁.next]; rfl
  let d₃ : Dbb pgc1024 := { d₂ with hdrOldest := 8032 }
  have hs₂' := hs₂ hd₁.sound
  have hle₂ : d₂.hdrOldest ≤ 8032 := hnext₂' ▸ hs₂'.hdr_le
  have hstep₃ : d₂.step (.advanceHeader 8032) d₃ := ⟨hle₂, by rw [hnext₂'], rfl⟩
  have hs₃ : Sound d₃ :=
    ⟨hs₂'.pages, by show 8032 ≤ d₂.hdrNext; rw [hnext₂'], hs₂'.oldest_le,
      hs₂'.blocks.mono (Nat.le_refl _) (max_le_max_right _ hle₂), hs₂'.faithful⟩
  have hfit₃ : Fits d₃ := by
    show (d₂.hdrNext / 4016 + 1) * 4016 < 2 ^ 31
    rw [hnext₂']
    decide
  -- the third page is cached
  have hbases₃ : ∀ b, b ∈ bases d₃.tipCache ↔ b = 0 := by
    intro b
    show b ∈ bases d₂.tipCache ↔ _
    rw [hcache₂]
    exact hmem₁ b
  obtain ⟨first, hfirst, hzero⟩ := List.mem_map.mp ((hbases₃ 0).mpr rfl)
  obtain ⟨last, hlast⟩ : ∃ last, d₃.tipCache.getLast? = some last :=
    ⟨_, List.getLast?_eq_some_getLast (List.ne_nil_of_mem hfirst)⟩
  have hlast0 : last.base = 0 :=
    (hbases₃ _).mp (List.mem_map_of_mem (List.mem_of_getLast? hlast))
  have hbound : last.bound = 4016 := by rw [Tpc.bound, hlast0]; rfl
  obtain ⟨r₄, hcache₄⟩ := cacheTransactions_isSome hs₃ (by
    show last.bound ≤ d₂.hdrNext
    rw [hbound, hnext₂']
    decide)
  have hd₄ := (hs₃.cacheTransactions hfit₃ (hs₃.endsAt hlast) hcache₄).2
  have hstep₄ : d₃.step (.initializeTpc 8032) r₄.2 := by
    show d₃.tpcInitializeTpc 8032 = some r₄.2
    have hno : last.reaches 8032 = false := by
      rw [Tpc.reaches, hbound]
      decide
    rw [Dbb.tpcInitializeTpc, hlast]
    dsimp only
    rw [hno, hcache₄]
    rfl
  have hmem₄ : ∀ b, b ∈ bases r₄.2.tipCache ↔ b = 0 ∨ b = 8032 := by
    intro b
    have hold : (d₃.allocated last.bound).oldest = 1 := by
      show d₂.oldest = 1
      rw [hold₂, hd₁.oldest]
      rfl
    have hnew : firstCached d₃ 4016 = 8032 :=
      show max 4016 8032 - max 4016 8032 % 4016 = 8032 by decide
    have htop : d₃.hdrNext = 8032 := hnext₂'
    rw [hd₄.bases, (hs₃.allocated (hs₃.endsAt hlast)).mem_kept hfit₃, bases_allocated,
      List.mem_append, hbases₃, hold, hbound, hnew, htop,
      mem_allocateTpcs (show 8032 % pgc1024.tpt = 0 from rfl)]
    show (b = 0 ∨ b % 4016 = 0 ∧ 8032 ≤ b ∧ b ≤ 8032) ∧ 1 < b + 4016 ↔ b = 0 ∨ b = 8032
    omega
  refine ⟨pgc1024, r₄.2, 4016, reach _ (reach _ hreach₂ hstep₃) hstep₄, ?_,
    hd₄.sound.cacheState_outside (hd₄.fits hfit₃) ?_⟩
  · rw [hd₄.next]
    show 4016 ≤ d₂.hdrNext
    rw [hnext₂']
    decide
  · rw [Located, not_or, not_or]
    refine ⟨?_, ?_, fun haim => ?_⟩
    · have hpc : r₄.2.pcTransactions = none := by
        rw [hd₄.pc]
        show d₂.pcTransactions = none
        rw [hpc₂, hd₁.pc]
        rfl
      simp [Dbb.isPrecommitted, Dbb.traPrecommited, hpc]
    · rintro ⟨b, hb, hlt⟩
      have hhead : (bases r₄.2.tipCache).head? = some b.base := by
        rw [bases, List.head?_map, hb]
        rfl
      have hle := head_le hd₄.sound.blocks.sorted hhead ((hmem₄ 0).mpr (.inl rfl))
      omega
    · obtain ⟨b, hb, hbase⟩ := List.mem_map.mp ((hmem₄ 8032).mpr (.inr rfl))
      have hreach : b.reaches 4016 = true := by
        rw [Tpc.reaches, Tpc.bound, hbase]
        decide
      obtain ⟨c, hc⟩ : ∃ c, r₄.2.tipCache.find? (Tpc.reaches 4016) = some c :=
        Option.isSome_iff_exists.mp (List.find?_isSome.mpr ⟨b, hb, hreach⟩)
      have hcmem := List.mem_of_find?_eq_some hc
      have hcreach := List.find?_some hc
      rw [reaches_iff hd₄.sound (hd₄.fits hfit₃) hcmem] at hcreach
      have hle := haim c hc
      have htpt : pgc1024.tpt = 4016 := rfl
      rcases (hmem₄ c.base).mp (List.mem_map_of_mem hcmem) with h0 | h8
      · omega
      · omega

end Firebird.Tra
