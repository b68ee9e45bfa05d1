import Firebird.Tra.Tpc
import Mathlib.Data.List.DropRight

/-! # The blocks of the TIP cache

The cache blocks lie on page boundaries in ascending order, and from the oldest interesting
transaction on they have no gap. Each final state in a block is the one of the inventory
page. Fetching inventory pages, setting a state and extending the cache keep this.
-/

namespace Firebird.Tra

variable {pgc : Pgc} {d : Dbb pgc}

/-! ## Where a lookup ends -/

/-- The last page ends below `2^31`. -/
def Fits (d : Dbb pgc) : Prop := (d.hdrNext / pgc.tpt + 1) * pgc.tpt < 2 ^ 31

/-- The block found for a number starts at or before it. -/
def Aimed (d : Dbb pgc) (number : ℕ) : Prop :=
  ∀ b, d.tipCache.find? (Tpc.reaches number) = some b → b.base ≤ number

/-- No cached block lies behind a number that no block holds, unless all do. -/
def Located (d : Dbb pgc) (number : ℕ) : Prop :=
  d.isPrecommitted number ∨ (∃ b, d.tipCache.head? = some b ∧ number < b.base) ∨ Aimed d number

/-- A number behind all cached blocks whose page is not released while the cache is
extended to it. -/
def Extendable (d : Dbb pgc) (number : ℕ) : Prop :=
  d.tipCache ≠ [] → d.tipCache.find? (Tpc.reaches number) = none → d.hdrOldest ≤ number →
    d.oldest < (number / pgc.tpt + 1) * pgc.tpt

/-! ## The blocks -/

/-- The first numbers of the cache blocks. -/
def bases (cache : List (Tpc pgc)) : List ℕ := cache.map (·.base)

/-- Blocks on page boundaries, in order, without gaps from `oit` on. -/
structure Blocks (pgc : Pgc) (next oit : ℕ) (bs : List ℕ) : Prop where
  aligned : ∀ b ∈ bs, b % pgc.tpt = 0
  within : ∀ b ∈ bs, b ≤ next
  sorted : bs.Pairwise (· < ·)
  covers : ∀ b ∈ bs, ∀ n, oit ≤ n → n < b → n / pgc.tpt * pgc.tpt ∈ bs

/-- A block whose final states are those of the pages. -/
def Faithful (pages : List (Bits pgc)) (b : Tpc pgc) : Prop :=
  ∀ n, n / pgc.tpt * pgc.tpt = b.base → (b.transactions.state n).final →
    pageState pages n = some (b.transactions.state n)

/-- The oldest interesting transaction: the header's or the one of this process. -/
def Dbb.oit (d : Dbb pgc) : ℕ := max d.hdrOldest d.oldest

structure Sound (d : Dbb pgc) : Prop where
  pages : d.pages.length = d.hdrNext / pgc.tpt + 1
  hdr_le : d.hdrOldest ≤ d.hdrNext
  oldest_le : d.oldest ≤ d.hdrNext
  blocks : Blocks pgc d.hdrNext d.oit (bases d.tipCache)
  faithful : ∀ b ∈ d.tipCache, Faithful d.pages b

theorem mem_dropWhile {α : Type*} {p : α → Bool} {l : List α} {a : α} (ha : a ∈ l) (hp : ¬p a) :
    a ∈ l.dropWhile p := by
  induction l with
  | nil => simp at ha
  | cons x xs ih =>
      rw [List.dropWhile_cons]
      split
      · rename_i hx
        rcases List.mem_cons.mp ha with rfl | ha
        · exact absurd hx hp
        · exact ih ha
      · exact ha

/-- In ascending order the first element that reaches a number is the lowest one. -/
theorem find?_le {bs : List ℕ} (h : bs.Pairwise (· < ·)) {p : ℕ → Bool} {b c : ℕ}
    (hb : bs.find? p = some b) (hc : c ∈ bs) (hp : p c) : b ≤ c := by
  induction bs with
  | nil => simp at hb
  | cons x xs ih =>
      rw [List.pairwise_cons] at h
      rw [List.find?_cons] at hb
      split at hb
      · obtain rfl := Option.some.inj hb
        rcases List.mem_cons.mp hc with rfl | hc
        · exact Nat.le_refl _
        · exact (h.1 c hc).le
      · rename_i hx
        rcases List.mem_cons.mp hc with rfl | hc
        · rw [hx] at hp
          cases hp
        · exact ih h.2 hb hc

theorem Blocks.mono {next next' oit oit' : ℕ} {bs : List ℕ} (h : Blocks pgc next oit bs)
    (hnext : next ≤ next') (hoit : oit ≤ oit') : Blocks pgc next' oit' bs where
  aligned := h.aligned
  within b hb := (h.within b hb).trans hnext
  sorted := h.sorted
  covers b hb n hn := h.covers b hb n (hoit.trans hn)

theorem Blocks.dropWhile {next oit : ℕ} {bs : List ℕ} (h : Blocks pgc next oit bs)
    {p : ℕ → Bool} (hp : ∀ b ∈ bs, p b → b + pgc.tpt ≤ oit) :
    Blocks pgc next oit (bs.dropWhile p) where
  aligned b hb := h.aligned b (List.dropWhile_subset p hb)
  within b hb := h.within b (List.dropWhile_subset p hb)
  sorted := h.sorted.sublist (List.dropWhile_sublist p)
  covers b hb n hn hlt := by
    have hmem := h.covers b (List.dropWhile_subset p hb) n hn hlt
    refine mem_dropWhile hmem fun hpos => ?_
    -- the block of `n` ends behind the oldest interesting transaction
    have hle := hp _ hmem hpos
    have hmod := Nat.div_add_mod' n pgc.tpt
    have hlt := Nat.mod_lt n pgc.tpt_pos
    omega

/-- The page of `dbb_next_transaction` ends below `2^31`, and so do all blocks. -/
theorem Blocks.bound_lt {next oit : ℕ} {bs : List ℕ} (h : Blocks pgc next oit bs)
    (hfit : (next / pgc.tpt + 1) * pgc.tpt < 2 ^ 31) {b : ℕ} (hb : b ∈ bs) :
    b + pgc.tpt < 2 ^ 31 := by
  have hbase := Nat.div_add_mod' b pgc.tpt
  rw [h.aligned b hb, Nat.add_zero] at hbase
  have hdiv : b / pgc.tpt ≤ next / pgc.tpt := Nat.div_le_div_right (h.within b hb)
  have hmul := Nat.mul_le_mul_right pgc.tpt hdiv
  rw [Nat.add_mul, Nat.one_mul] at hfit
  omega

/-- Under `Fits` the upper ends of the blocks do not wrap. -/
theorem reaches_iff (h : Sound d) (hfit : Fits d) {b : Tpc pgc} (hb : b ∈ d.tipCache) (n : ℕ) :
    b.reaches n = true ↔ n < b.base + pgc.tpt := by
  have hlt := h.blocks.bound_lt hfit (List.mem_map_of_mem hb)
  rw [Tpc.reaches, Tpc.bound, slong_of_lt hlt, decide_eq_true_iff]
  omega

@[simp] theorem bases_refresh (page : Bits pgc) (first : ℕ) (cache : List (Tpc pgc)) :
    bases (refresh page first cache) = bases cache := by
  induction cache with
  | nil => rfl
  | cons b bs ih =>
      rw [refresh]
      split
      · rfl
      · simpa [bases] using ih

@[simp] theorem bases_tpcSetState (n : ℕ) (s : TraState) (cache : List (Tpc pgc)) :
    bases (tpcSetState n s cache) = bases cache := by
  induction cache with
  | nil => rfl
  | cons b bs ih =>
      rw [tpcSetState]
      split
      · rfl
      · simpa [bases] using ih

theorem mem_refresh {page : Bits pgc} {first : ℕ} {cache : List (Tpc pgc)} {b : Tpc pgc}
    (hb : b ∈ refresh page first cache) : b ∈ cache ∨ (b.base = first ∧ b.transactions = page) := by
  induction cache with
  | nil => exact absurd hb List.not_mem_nil
  | cons c cs ih =>
      rw [refresh] at hb
      split at hb
      · rename_i hc
        rcases List.mem_cons.mp hb with rfl | hb
        · exact .inr ⟨hc, rfl⟩
        · exact .inl (List.mem_cons_of_mem _ hb)
      · rcases List.mem_cons.mp hb with rfl | hb
        · exact .inl List.mem_cons_self
        · rcases ih hb with hb | hb
          · exact .inl (List.mem_cons_of_mem _ hb)
          · exact .inr hb

/-- The blocks behind the released ones. -/
def Dbb.kept (d : Dbb pgc) : List (Tpc pgc) :=
  d.tipCache.dropWhile fun b => slong b.bound ≤ d.oldest

theorem bases_dropWhile (p : ℕ → Bool) (cache : List (Tpc pgc)) :
    bases (cache.dropWhile fun b => p b.base) = (bases cache).dropWhile p := by
  rw [bases, bases, List.dropWhile_map]
  rfl

theorem bases_kept (d : Dbb pgc) :
    bases d.kept = (bases d.tipCache).dropWhile fun b => slong (b + pgc.tpt) ≤ d.oldest :=
  bases_dropWhile (fun b => slong (b + pgc.tpt) ≤ d.oldest) d.tipCache

theorem Sound.kept (h : Sound d) (hfit : Fits d) :
    Blocks pgc d.hdrNext d.oit (bases d.kept) := by
  rw [bases_kept]
  refine h.blocks.dropWhile fun b hb hle => ?_
  rw [slong_of_lt (h.blocks.bound_lt hfit hb), decide_eq_true_iff] at hle
  have hoit : d.oldest ≤ d.oit := Nat.le_max_right ..
  omega

/-! ## Fetching inventory pages -/

theorem fetch_eq {sequence : ℕ} {page : Bits pgc} {d' : Dbb pgc}
    (h : d.fetchInventoryPage sequence = some (page, d')) :
    d.pages[sequence]? = some page ∧ d' = d.tpcUpdateCache page sequence := by
  rw [Dbb.fetchInventoryPage, Option.map_eq_some_iff] at h
  obtain ⟨page', hpage, heq⟩ := h
  cases heq
  exact ⟨hpage, rfl⟩

theorem Sound.fetch (h : Sound d) (hfit : Fits d) {sequence : ℕ} {page : Bits pgc}
    {d' : Dbb pgc} (hfetch : d.fetchInventoryPage sequence = some (page, d')) : Sound d' := by
  obtain ⟨hpage, rfl⟩ := fetch_eq hfetch
  refine ⟨h.pages, h.hdr_le, h.oldest_le, ?_, ?_⟩
  · have hbases : bases (d.tpcUpdateCache page sequence).tipCache = bases d.kept :=
      bases_refresh ..
    rw [hbases]
    exact h.kept hfit
  · intro b hb
    rcases mem_refresh hb with hb | ⟨hbase, htrans⟩
    · exact h.faithful b (List.dropWhile_subset _ hb)
    · intro n hn _
      have hseq : n / pgc.tpt = sequence := Nat.eq_of_mul_eq_mul_right pgc.tpt_pos (hn.trans hbase)
      show pageState d.pages n = _
      rw [pageState, hseq, hpage, htrans]
      rfl

/-- What fetching pages leaves: only the cache changes. -/
structure Fetched (d d' : Dbb pgc) : Prop where
  sound : Sound d'
  pages : d'.pages = d.pages
  next : d'.hdrNext = d.hdrNext
  hdr : d'.hdrOldest = d.hdrOldest
  oldest : d'.oldest = d.oldest
  pc : d'.pcTransactions = d.pcTransactions
  bases : bases d'.tipCache = bases d.kept

theorem Fetched.fits {d' : Dbb pgc} (h : Fetched d d') (hfit : Fits d) : Fits d' := by
  rw [Fits, h.next]
  exact hfit

theorem Sound.fetched (h : Sound d) (hfit : Fits d) {sequence : ℕ} {page : Bits pgc}
    {d' : Dbb pgc} (hfetch : d.fetchInventoryPage sequence = some (page, d')) :
    d.pages[sequence]? = some page ∧ Fetched d d' := by
  have hsound := h.fetch hfit hfetch
  obtain ⟨hpage, rfl⟩ := fetch_eq hfetch
  exact ⟨hpage, hsound, rfl, rfl, rfl, rfl, rfl, bases_refresh ..⟩

/-- A second fetch releases no more blocks. -/
theorem Fetched.trans {d' d'' : Dbb pgc} (h : Fetched d d') (h' : Fetched d' d'') :
    Fetched d d'' where
  sound := h'.sound
  pages := h'.pages.trans h.pages
  next := h'.next.trans h.next
  hdr := h'.hdr.trans h.hdr
  oldest := h'.oldest.trans h.oldest
  pc := h'.pc.trans h.pc
  bases := by
    rw [h'.bases, bases_kept, h.bases, h.oldest, bases_kept, List.dropWhile_idempotent]

theorem fetch_isSome {sequence : ℕ} (hlt : sequence < d.pages.length) :
    ∃ page d', d.fetchInventoryPage sequence = some (page, d') :=
  ⟨d.pages[sequence], _, by rw [Dbb.fetchInventoryPage, List.getElem?_eq_getElem hlt]; rfl⟩

/-! ## `TRA_get_inventory` -/

/-- A bit vector with the states of the transactions from `base` up to `top`. -/
structure Inventory (pages : List (Bits pgc)) (base top : ℕ) (v : List (BitVec 8)) : Prop where
  length_le : v.length ≤ (top + 3 - base) / 4
  states : ∀ n, base ≤ n → n < top →
    (Crumbs.get? v (n - base)).map TraState.ofBits = pageState pages n

theorem pageState_eq {pages : List (Bits pgc)} {page : Bits pgc} {n sequence : ℕ}
    (hpage : pages[sequence]? = some page) (hn : n / pgc.tpt = sequence) :
    pageState pages n = some (page.state n) := by
  rw [pageState, hn, hpage]
  rfl

theorem Pgc.dvd_mod (pgc : Pgc) (n : ℕ) : n * pgc.tpt % 4 = 0 := by
  rw [Pgc.tpt, ← Nat.mul_assoc]
  exact Nat.mul_mod_left ..

/-- The last page. -/
theorem inventory_last {pages : List (Bits pgc)} {page : Bits pgc} {base top : ℕ}
    (hbase : base % 4 = 0) (hpage : pages[base / pgc.tpt]? = some page)
    (hlast : top / pgc.tpt = base / pgc.tpt) : Inventory pages base top (copied page base top) where
  length_le := by
    rw [length_copied]
    exact Nat.div_le_div_right (Nat.min_le_left ..)
  states n hle hlt := by
    have hn : n / pgc.tpt = base / pgc.tpt :=
      Nat.le_antisymm (hlast ▸ Nat.div_le_div_right hlt.le) (Nat.div_le_div_right hle)
    rw [get?_copied page hbase hle hlt hn, pageState_eq hpage hn]

/-- A page before the last one, all of it from `base` on. -/
theorem inventory_cons {pages : List (Bits pgc)} {page : Bits pgc} {base top : ℕ}
    {v : List (BitVec 8)} (hbase : base % 4 = 0) (hpage : pages[base / pgc.tpt]? = some page)
    (hnext : (base / pgc.tpt + 1) * pgc.tpt ≤ top)
    (hv : Inventory pages ((base / pgc.tpt + 1) * pgc.tpt) top v) :
    Inventory pages base top (copied page base top ++ v) := by
  have hdiv := Nat.div_add_mod' base pgc.tpt
  have hmod := Nat.mod_lt base pgc.tpt_pos
  have hmod4 : (base / pgc.tpt + 1) * pgc.tpt % 4 = 0 := pgc.dvd_mod _
  have hlen : 4 * (copied page base top).length = (base / pgc.tpt + 1) * pgc.tpt - base := by
    rw [length_copied]
    rw [Nat.add_mul, Nat.one_mul] at *
    omega
  refine ⟨?_, fun n hle hlt => ?_⟩
  · have hvlen := hv.length_le
    rw [List.length_append]
    rw [Nat.add_mul, Nat.one_mul] at *
    omega
  · by_cases hn : n / pgc.tpt = base / pgc.tpt
    · have hmodn := Nat.mod_lt n pgc.tpt_pos
      have hdivn := Nat.div_add_mod' n pgc.tpt
      rw [hn] at hdivn
      have hin : (n - base) / 4 < (copied page base top).length := by
        rw [Nat.add_mul, Nat.one_mul] at *
        omega
      rw [Crumbs.get?_append_left _ _ hin, get?_copied page hbase hle hlt hn,
        pageState_eq hpage hn]
    · have hgt : base / pgc.tpt + 1 ≤ n / pgc.tpt :=
        Nat.lt_of_le_of_ne (Nat.div_le_div_right hle) (Ne.symm hn)
      have hge : (base / pgc.tpt + 1) * pgc.tpt ≤ n :=
        (Nat.mul_le_mul_right _ hgt).trans (Nat.div_mul_le_self ..)
      have hidx : n - base =
          4 * (copied page base top).length + (n - (base / pgc.tpt + 1) * pgc.tpt) := by
        rw [hlen]
        rw [Nat.add_mul, Nat.one_mul] at *
        omega
      rw [hidx, Crumbs.get?_append_right, hv.states n hge hlt]

theorem inventoryLoop_succ {top count sequence : ℕ} {v : List (BitVec 8)} {d' : Dbb pgc}
    (h : d.inventoryLoop top (count + 1) sequence = some (v, d')) :
    ∃ page d₁ v', d.fetchInventoryPage sequence = some (page, d₁) ∧
      d₁.inventoryLoop top count (sequence + 1) = some (v', d') ∧
      v = copied page (sequence * pgc.tpt) top ++ v' := by
  rw [Dbb.inventoryLoop] at h
  simp only [Option.bind_eq_bind, Option.bind_eq_some_iff, Prod.exists] at h
  obtain ⟨page, d₁, hfetch, v', d₂, hloop, heq⟩ := h
  cases heq
  exact ⟨page, d₁, v', hfetch, hloop, rfl⟩

/-- A page and the ones behind it, up to the page of `top`. -/
theorem inventory_step {top count base : ℕ} {page : Bits pgc} {v : List (BitVec 8)}
    {d₁ d' : Dbb pgc} (h : Sound d) (hfit : Fits d) (hbase : base % 4 = 0)
    (hcount : base / pgc.tpt + count = top / pgc.tpt)
    (hfetch : d.fetchInventoryPage (base / pgc.tpt) = some (page, d₁))
    (hloop : d₁.inventoryLoop top count (base / pgc.tpt + 1) = some (v, d')) :
    Fetched d d' ∧ Inventory d.pages base top (copied page base top ++ v) := by
  induction count generalizing d d₁ base page v with
  | zero =>
      obtain ⟨hpage, hd⟩ := h.fetched hfit hfetch
      cases hloop
      rw [List.append_nil]
      exact ⟨hd, inventory_last hbase hpage hcount.symm⟩
  | succ count ih =>
      obtain ⟨hpage, hd⟩ := h.fetched hfit hfetch
      obtain ⟨page', d₂, v', hfetch', hloop', rfl⟩ := inventoryLoop_succ hloop
      have hdiv : (base / pgc.tpt + 1) * pgc.tpt / pgc.tpt = base / pgc.tpt + 1 :=
        Nat.mul_div_cancel _ pgc.tpt_pos
      have hrest := ih hd.sound (hd.fits hfit) (pgc.dvd_mod _) (by rw [hdiv]; omega)
        (by rw [hdiv]; exact hfetch') (by rw [hdiv]; exact hloop')
      have hnext : (base / pgc.tpt + 1) * pgc.tpt ≤ top :=
        (Nat.mul_le_mul_right _ (by omega)).trans (Nat.div_mul_le_self top pgc.tpt)
      rw [hd.pages] at hrest
      exact ⟨hd.trans hrest.1, inventory_cons hbase hpage hnext hrest.2⟩

theorem getInventory_eq {base top : ℕ} {v : List (BitVec 8)} {d' : Dbb pgc}
    (h : d.traGetInventory base top = some (v, d')) :
    ∃ page d₁ v', d.fetchInventoryPage (base / pgc.tpt) = some (page, d₁) ∧
      d₁.inventoryLoop top (top / pgc.tpt - base / pgc.tpt) (base / pgc.tpt + 1) = some (v', d') ∧
      v = copied page base top ++ v' := by
  rw [Dbb.traGetInventory] at h
  simp only [Option.bind_eq_bind, Option.bind_eq_some_iff, Prod.exists] at h
  obtain ⟨page, d₁, hfetch, v', d₂, hloop, heq⟩ := h
  cases heq
  exact ⟨page, d₁, v', hfetch, hloop, rfl⟩

theorem inventoryLoop_fetched {top count sequence : ℕ} {v : List (BitVec 8)} {d' : Dbb pgc}
    (h : Sound d) (hfit : Fits d) {d₀ : Dbb pgc} (hd : Fetched d₀ d)
    (hloop : d.inventoryLoop top count sequence = some (v, d')) : Fetched d₀ d' := by
  induction count generalizing d sequence v with
  | zero =>
      cases hloop
      exact hd
  | succ count ih =>
      obtain ⟨page, d₁, v', hfetch, hloop', -⟩ := inventoryLoop_succ hloop
      have hd₁ := (h.fetched hfit hfetch).2
      exact ih hd₁.sound (hd₁.fits hfit) (hd.trans hd₁) hloop'

/-- Taking an inventory leaves the pages alone. -/
theorem Sound.getInventory (h : Sound d) (hfit : Fits d) {base top : ℕ} {v : List (BitVec 8)}
    {d' : Dbb pgc} (hrun : d.traGetInventory base top = some (v, d')) : Fetched d d' := by
  obtain ⟨page, d₁, v', hfetch, hloop, -⟩ := getInventory_eq hrun
  have hd := (h.fetched hfit hfetch).2
  exact inventoryLoop_fetched hd.sound (hd.fits hfit) hd hloop

theorem inventory_of_run (h : Sound d) (hfit : Fits d) {base top : ℕ} (hbase : base % 4 = 0)
    (hle : base ≤ top) {v : List (BitVec 8)} {d' : Dbb pgc}
    (hrun : d.traGetInventory base top = some (v, d')) : Inventory d.pages base top v := by
  obtain ⟨page, d₁, v', hfetch, hloop, rfl⟩ := getInventory_eq hrun
  have hdiv : base / pgc.tpt ≤ top / pgc.tpt := Nat.div_le_div_right hle
  exact (inventory_step h hfit hbase (by omega) hfetch hloop).2

theorem inventoryLoop_isSome (top : ℕ) {count sequence : ℕ}
    (hlt : sequence + count ≤ d.pages.length) :
    ∃ v d', d.inventoryLoop top count sequence = some (v, d') := by
  induction count generalizing d sequence with
  | zero => exact ⟨[], d, rfl⟩
  | succ count ih =>
      obtain ⟨page, d₁, hfetch⟩ := fetch_isSome (show sequence < d.pages.length by omega)
      obtain ⟨-, rfl⟩ := fetch_eq hfetch
      obtain ⟨v, d', hloop⟩ := ih (d := d.tpcUpdateCache page sequence)
        (show sequence + 1 + count ≤ d.pages.length by omega)
      exact ⟨_, d', by rw [Dbb.inventoryLoop, hfetch]; simp [hloop]; rfl⟩

/-- With a page for each number the inventory can be taken. -/
theorem getInventory_isSome {base top : ℕ} (hbase : base / pgc.tpt < d.pages.length)
    (htop : top / pgc.tpt < d.pages.length) :
    ∃ v d', d.traGetInventory base top = some (v, d') := by
  obtain ⟨page, d₁, hfetch⟩ := fetch_isSome hbase
  obtain ⟨-, rfl⟩ := fetch_eq hfetch
  obtain ⟨v, d', hloop⟩ := inventoryLoop_isSome top
    (d := d.tpcUpdateCache page (base / pgc.tpt))
    (show base / pgc.tpt + 1 + (top / pgc.tpt - base / pgc.tpt) ≤ d.pages.length by omega)
  exact ⟨_, d', by rw [Dbb.traGetInventory, hfetch]; simp [hloop]; rfl⟩

/-! ## `TRA_set_state` -/

/-- Whether the block that starts at `b` reaches a number. -/
def reachesBase (pgc : Pgc) (n b : ℕ) : Bool := (n : ℤ) < slong (b + pgc.tpt)

theorem find?_bases (n : ℕ) (cache : List (Tpc pgc)) :
    (cache.find? (Tpc.reaches n)).map (·.base) = (bases cache).find? (reachesBase pgc n) := by
  rw [bases, List.find?_map]
  rfl

theorem aimed_iff {n : ℕ} :
    Aimed d n ↔ ∀ b, (bases d.tipCache).find? (reachesBase pgc n) = some b → b ≤ n := by
  rw [← find?_bases, Aimed]
  constructor
  · rintro h b hb
    obtain ⟨c, hc, rfl⟩ := Option.map_eq_some_iff.mp hb
    exact h c hc
  · intro h b hb
    exact h b.base (by rw [hb]; rfl)

theorem find?_dropWhile {α : Type*} {p q : α → Bool} {l : List α}
    (h : ∀ a ∈ l, p a → q a = false) : (l.dropWhile p).find? q = l.find? q := by
  induction l with
  | nil => rfl
  | cons a l ih =>
      rw [List.dropWhile_cons]
      split
      · rename_i ha
        rw [List.find?_cons, h a List.mem_cons_self ha]
        exact ih fun b hb => h b (List.mem_cons_of_mem _ hb)
      · rfl

/-- Fetching a page releases no block that reaches a number from `dbb_oldest_transaction` on. -/
theorem Fetched.aimed {d' : Dbb pgc} (h : Fetched d d') {n : ℕ} (hn : d.oldest ≤ n)
    (haim : Aimed d n) : Aimed d' n := by
  rw [aimed_iff] at haim ⊢
  rw [h.bases, bases_kept, find?_dropWhile]
  · exact haim
  · intro b _ hle
    rw [decide_eq_true_iff] at hle
    rw [reachesBase, decide_eq_false_iff_not]
    omega

theorem tpcSetState_none {n : ℕ} (s : TraState) {cache : List (Tpc pgc)}
    (h : cache.find? (Tpc.reaches n) = none) : tpcSetState n s cache = cache := by
  induction cache with
  | nil => rfl
  | cons b bs ih =>
      rw [List.find?_cons] at h
      split at h
      · cases h
      · rename_i hb
        rw [tpcSetState, hb, ih h]
        rfl

theorem tpcSetState_some {n : ℕ} (s : TraState) {cache : List (Tpc pgc)} {b : Tpc pgc}
    (h : cache.find? (Tpc.reaches n) = some b) :
    ∃ l r, cache = l ++ b :: r ∧ b.reaches n ∧ (∀ c ∈ l, c.reaches n = false) ∧
      tpcSetState n s cache = l ++ { b with transactions := b.transactions.set n s } :: r := by
  induction cache with
  | nil => cases h
  | cons c cs ih =>
      rw [List.find?_cons] at h
      split at h
      · rename_i hc
        obtain rfl := Option.some.inj h
        exact ⟨[], cs, rfl, hc, by simp, by rw [tpcSetState, if_pos hc]; rfl⟩
      · rename_i hc
        obtain ⟨l, r, rfl, hb, hl, heq⟩ := ih h
        refine ⟨c :: l, r, rfl, hb, ?_, ?_⟩
        · intro x hx
          rcases List.mem_cons.mp hx with rfl | hx
          · exact hc
          · exact hl x hx
        · rw [tpcSetState, hc, heq]
          rfl

/-- The block of a number. -/
theorem base_eq_iff {b n : ℕ} (hb : b % pgc.tpt = 0) :
    n / pgc.tpt * pgc.tpt = b ↔ b ≤ n ∧ n < b + pgc.tpt := by
  have hn := Nat.div_add_mod' n pgc.tpt
  have hlt := Nat.mod_lt n pgc.tpt_pos
  constructor
  · rintro rfl
    omega
  · rintro ⟨hle, hlt⟩
    have hdiv : n / pgc.tpt = b / pgc.tpt := by
      have hb' := Nat.div_add_mod' b pgc.tpt
      rw [hb, Nat.add_zero] at hb'
      rw [← hb'] at hle hlt ⊢
      rw [Nat.mul_div_cancel _ pgc.tpt_pos]
      exact Nat.div_eq_of_lt_le hle (by rwa [Nat.add_mul, Nat.one_mul])
    have hb' := Nat.div_add_mod' b pgc.tpt
    rw [hdiv]
    omega

/-- What setting a state does to a cache: the block of the transaction has the new state,
every other state is as before. -/
structure CacheSet (n : ℕ) (s : TraState) (cache cache' : List (Tpc pgc)) : Prop where
  named : ∀ b ∈ cache', n / pgc.tpt * pgc.tpt = b.base → b.transactions.state n = s
  others : ∀ b ∈ cache', ∃ c ∈ cache, c.base = b.base ∧
    ∀ m, m / pgc.tpt * pgc.tpt = b.base → m ≠ n → b.transactions.state m = c.transactions.state m

theorem cacheSet_tpcSetState (h : Sound d) (hfit : Fits d) {n : ℕ} (s : TraState)
    (haim : Aimed d n) : CacheSet n s d.tipCache (tpcSetState n s d.tipCache) := by
  have hal : ∀ b ∈ d.tipCache, b.base % pgc.tpt = 0 :=
    fun b hb => h.blocks.aligned _ (List.mem_map_of_mem hb)
  cases hfind : d.tipCache.find? (Tpc.reaches n) with
  | none =>
      rw [tpcSetState_none s hfind]
      refine ⟨fun b hb hn => ?_, fun b hb => ⟨b, hb, rfl, fun _ _ _ => rfl⟩⟩
      -- no block holds the number
      have hno := List.find?_eq_none.mp hfind b hb
      rw [reaches_iff h hfit hb] at hno
      exact absurd ((base_eq_iff (hal b hb)).mp hn).2 hno
  | some b =>
      obtain ⟨l, r, hcache, hreach, hl, heq⟩ := tpcSetState_some s hfind
      have hb : b ∈ d.tipCache := List.mem_of_find?_eq_some hfind
      have hn : n / pgc.tpt * pgc.tpt = b.base :=
        (base_eq_iff (hal b hb)).mpr ⟨haim b hfind, (reaches_iff h hfit hb n).mp hreach⟩
      have hsorted := h.blocks.sorted
      rw [hcache, bases, List.map_append, List.map_cons, List.pairwise_append,
        List.pairwise_cons] at hsorted
      have hother : ∀ c ∈ d.tipCache, c ∈ l ∨ c ∈ r → c.base ≠ b.base := by
        rintro c - (hc | hc)
        · exact (hsorted.2.2 _ (List.mem_map_of_mem hc) _ List.mem_cons_self).ne
        · exact (hsorted.2.1.1 _ (List.mem_map_of_mem hc)).ne'
      rw [heq]
      refine ⟨fun c hc hnc => ?_, fun c hc => ?_⟩
      · rcases List.mem_append.mp hc with hc | hc
        · exact absurd (hnc.symm.trans hn) (hother c (by simp [hcache, hc]) (.inl hc))
        · rcases List.mem_cons.mp hc with rfl | hc
          · simp [Bits.state_set]
          · exact absurd (hnc.symm.trans hn) (hother c (by simp [hcache, hc]) (.inr hc))
      · rcases List.mem_append.mp hc with hc | hc
        · exact ⟨c, by simp [hcache, hc], rfl, fun _ _ _ => rfl⟩
        · rcases List.mem_cons.mp hc with rfl | hc
          · refine ⟨b, hb, rfl, fun m hm hne => ?_⟩
            have hmod : n % pgc.tpt ≠ m % pgc.tpt := fun hmod =>
              hne (eq_of_div_mod (Nat.eq_of_mul_eq_mul_right pgc.tpt_pos (hm.trans hn.symm))
                hmod.symm)
            simp [Bits.state_set, hmod]
          · exact ⟨c, by simp [hcache, hc], rfl, fun _ _ _ => rfl⟩

/-- A cache set like the pages. -/
theorem CacheSet.faithful {n : ℕ} {s : TraState} {cache cache' : List (Tpc pgc)}
    (h : CacheSet n s cache cache') {pages : List (Bits pgc)} (hn : n / pgc.tpt < pages.length)
    (hold : ∀ b ∈ cache, Faithful pages b) : ∀ b ∈ cache', Faithful (setPage pages n s) b := by
  intro b hb m hm hfinal
  rw [pageState_setPage hn]
  split
  · rename_i hnm
    subst hnm
    rw [h.named b hb hm]
  · rename_i hnm
    obtain ⟨c, hc, hbase, hsame⟩ := h.others b hb
    rw [hsame m hm (Ne.symm hnm)] at hfinal ⊢
    exact hold c hc m (hm.trans hbase.symm) hfinal

theorem setState_eq {n : ℕ} {s : TraState} {d' : Dbb pgc} (hro : d.readOnly = false)
    (h : d.traSetState false n s = some d') :
    ∃ page d₁, d.fetchInventoryPage (n / pgc.tpt) = some (page, d₁) ∧
      d' = { d₁ with pages := setPage d₁.pages n s, tipCache := tpcSetState n s d₁.tipCache } := by
  rw [Dbb.traSetState, hro] at h
  simp only [Bool.false_eq_true, false_and, if_false, Option.map_eq_some_iff, Prod.exists] at h
  obtain ⟨page, d₁, hfetch, heq⟩ := h
  exact ⟨page, d₁, hfetch, heq.symm⟩

theorem Sound.setState (h : Sound d) (hfit : Fits d) (hro : d.readOnly = false) {n : ℕ}
    {s : TraState} {d' : Dbb pgc} (hn : d.oldest ≤ n) (haim : Aimed d n)
    (hrun : d.traSetState false n s = some d') : Sound d' := by
  obtain ⟨page, d₁, hfetch, rfl⟩ := setState_eq hro hrun
  obtain ⟨hpage, hd⟩ := h.fetched hfit hfetch
  have hlt : n / pgc.tpt < d₁.pages.length := by
    rw [hd.pages]
    exact (List.getElem?_eq_some_iff.mp hpage).1
  have hset := cacheSet_tpcSetState hd.sound (hd.fits hfit) s (hd.aimed hn haim)
  refine ⟨?_, hd.sound.hdr_le, hd.sound.oldest_le, ?_, hset.faithful hlt hd.sound.faithful⟩
  · exact (length_setPage ..).trans hd.sound.pages
  · show Blocks pgc d₁.hdrNext d₁.oit (bases (tpcSetState n s d₁.tipCache))
    rw [bases_tpcSetState]
    exact hd.sound.blocks

/-! ## Extending the cache -/

theorem mem_allocateTpcs {base top b : ℕ} (hbase : base % pgc.tpt = 0) :
    b ∈ bases (allocateTpcs pgc base top) ↔ b % pgc.tpt = 0 ∧ base ≤ b ∧ b ≤ top := by
  have hpos := pgc.tpt_pos
  rw [bases, allocateTpcs, List.map_map]
  simp only [List.mem_map, List.mem_range, Function.comp_apply]
  constructor
  · rintro ⟨i, hi, rfl⟩
    have hmul : (i + 1) * pgc.tpt ≤ top + pgc.tpt - base := Nat.mul_le_of_le_div _ _ _ hi
    refine ⟨by rw [Nat.add_mul_mod_self_right, hbase], by omega, ?_⟩
    rw [Nat.add_mul, Nat.one_mul] at hmul
    omega
  · rintro ⟨hb, hle, htop⟩
    refine ⟨(b - base) / pgc.tpt, ?_, ?_⟩
    · refine Nat.lt_of_lt_of_le
        (Nat.div_lt_div_of_lt_of_dvd ?_ (show b - base < b - base + pgc.tpt by omega)) ?_
      · exact (Nat.dvd_add_right ((Nat.dvd_sub (Nat.dvd_of_mod_eq_zero hb)
          (Nat.dvd_of_mod_eq_zero hbase)))).mpr (Nat.dvd_refl _)
      · exact Nat.div_le_div_right (by omega)
    · rw [Nat.div_mul_cancel (Nat.dvd_sub (Nat.dvd_of_mod_eq_zero hb) (Nat.dvd_of_mod_eq_zero hbase))]
      omega

theorem sorted_allocateTpcs (base top : ℕ) :
    (bases (allocateTpcs pgc base top)).Pairwise (· < ·) := by
  rw [bases, allocateTpcs, List.map_map, List.pairwise_map]
  refine List.pairwise_lt_range.imp fun {i j} hlt => ?_
  have := Nat.mul_lt_mul_of_pos_right hlt pgc.tpt_pos
  simp only [Function.comp_apply]
  omega

/-- The start of the list, or the end of its last block. -/
def EndsAt (bs : List ℕ) (tpt oldest : ℕ) : Prop :=
  (bs = [] ∧ oldest = 0) ∨ ∃ b ∈ bs, oldest = b + tpt ∧ ∀ c ∈ bs, c ≤ b

/-- The first page that is cached when the cache is extended. -/
def firstCached (d : Dbb pgc) (oldest : ℕ) : ℕ :=
  max oldest d.hdrOldest - max oldest d.hdrOldest % pgc.tpt

theorem firstCached_mod (d : Dbb pgc) (oldest : ℕ) : firstCached d oldest % pgc.tpt = 0 := by
  rw [firstCached]
  exact Nat.sub_mod_eq_zero_of_mod_eq (Nat.mod_mod _ _).symm

theorem firstCached_le (d : Dbb pgc) (oldest : ℕ) : firstCached d oldest ≤ max oldest d.hdrOldest :=
  Nat.sub_le ..

theorem le_firstCached (d : Dbb pgc) {oldest : ℕ} (h : oldest % pgc.tpt = 0) :
    oldest ≤ firstCached d oldest := by
  rw [firstCached]
  have hdiv := Nat.div_add_mod' (max oldest d.hdrOldest) pgc.tpt
  have hle : oldest / pgc.tpt ≤ max oldest d.hdrOldest / pgc.tpt :=
    Nat.div_le_div_right (Nat.le_max_left ..)
  have hmul := Nat.mul_le_mul_right pgc.tpt hle
  have hold := Nat.div_add_mod' oldest pgc.tpt
  omega

theorem EndsAt.mod {bs : List ℕ} {oldest : ℕ} (h : EndsAt bs pgc.tpt oldest)
    (hbs : ∀ b ∈ bs, b % pgc.tpt = 0) : oldest % pgc.tpt = 0 := by
  rcases h with ⟨-, rfl⟩ | ⟨b, hb, rfl, -⟩
  · exact Nat.zero_mod _
  · rw [Nat.add_mod_right, hbs b hb]

/-- The cache with the blocks that `cache_transactions` allocates. -/
def Dbb.allocated (d : Dbb pgc) (oldest : ℕ) : Dbb pgc :=
  { d with tipCache := d.tipCache ++ allocateTpcs pgc (firstCached d oldest) d.hdrNext }

theorem bases_allocated (d : Dbb pgc) (oldest : ℕ) : bases (d.allocated oldest).tipCache =
    bases d.tipCache ++ bases (allocateTpcs pgc (firstCached d oldest) d.hdrNext) := by
  rw [Dbb.allocated, bases, List.map_append]
  rfl

theorem Sound.allocated (h : Sound d) {oldest : ℕ} (hends : EndsAt (bases d.tipCache) pgc.tpt oldest) :
    Sound (d.allocated oldest) := by
  have hmod := firstCached_mod d oldest
  have holdest := le_firstCached d (hends.mod h.blocks.aligned)
  have hnew : ∀ b, b ∈ bases (allocateTpcs pgc (firstCached d oldest) d.hdrNext) ↔ _ :=
    fun b => mem_allocateTpcs hmod
  refine ⟨h.pages, h.hdr_le, h.oldest_le, ?_, ?_⟩
  · rw [bases_allocated]
    refine ⟨fun b hb => ?_, fun b hb => ?_, ?_, fun b hb n hn hlt => ?_⟩
    · rcases List.mem_append.mp hb with hb | hb
      · exact h.blocks.aligned b hb
      · exact ((hnew b).mp hb).1
    · rcases List.mem_append.mp hb with hb | hb
      · exact h.blocks.within b hb
      · exact ((hnew b).mp hb).2.2
    · refine List.pairwise_append.mpr ⟨h.blocks.sorted, sorted_allocateTpcs _ _, fun b hb c hc => ?_⟩
      have hc := ((hnew c).mp hc).2.1
      have hpos := pgc.tpt_pos
      rcases hends with ⟨hnil, -⟩ | ⟨last, -, rfl, hlast⟩
      · rw [hnil] at hb
        cases hb
      · have := hlast b hb
        omega
    · rw [List.mem_append]
      rcases List.mem_append.mp hb with hb | hb
      · exact .inl (h.blocks.covers b hb n hn hlt)
      · have hbn := (hnew b).mp hb
        have hdiv := Nat.div_add_mod' n pgc.tpt
        have hmodn := Nat.mod_lt n pgc.tpt_pos
        by_cases hge : firstCached d oldest ≤ n
        · refine .inr ((hnew _).mpr ⟨Nat.mul_mod_left .., ?_, by omega⟩)
          have hfirst := Nat.div_add_mod' (firstCached d oldest) pgc.tpt
          have hle := Nat.mul_le_mul_right pgc.tpt (Nat.div_le_div_right (c := pgc.tpt) hge)
          omega
        · -- the number lies before the new blocks, so these start where the old ones end
          have hfirst := firstCached_le d oldest
          have hhdr : d.hdrOldest ≤ n := (Nat.le_max_left ..).trans hn
          have hend : n < oldest := by omega
          rcases hends with ⟨-, rfl⟩ | ⟨last, hmem, rfl, -⟩
          · omega
          · by_cases hlast : n < last
            · exact .inl (h.blocks.covers last hmem n hn hlast)
            · rw [(base_eq_iff (h.blocks.aligned last hmem)).mpr ⟨by omega, hend⟩]
              exact .inl hmem
  · intro b hb
    rcases List.mem_append.mp hb with hb | hb
    · exact h.faithful b hb
    · rw [allocateTpcs, List.mem_map] at hb
      obtain ⟨i, -, rfl⟩ := hb
      intro n _ hfinal
      rw [Bits.state_zero] at hfinal
      cases hfinal

theorem cacheTransactions_eq {oldest : ℕ} {r : ℕ × Dbb pgc}
    (h : d.cacheTransactions oldest = some r) :
    ∃ v, r.1 = d.hdrOldest ∧
      (d.allocated oldest).traGetInventory (max oldest d.hdrOldest) d.hdrNext = some (v, r.2) := by
  rw [Dbb.cacheTransactions, Option.map_eq_some_iff] at h
  obtain ⟨⟨v, d'⟩, hrun, rfl⟩ := h
  exact ⟨v, rfl, hrun⟩

theorem Sound.cacheTransactions (h : Sound d) (hfit : Fits d) {oldest : ℕ} {r : ℕ × Dbb pgc}
    (hends : EndsAt (bases d.tipCache) pgc.tpt oldest) (hrun : d.cacheTransactions oldest = some r) :
    r.1 = d.hdrOldest ∧ Fetched (d.allocated oldest) r.2 := by
  obtain ⟨v, hr, hget⟩ := cacheTransactions_eq hrun
  exact ⟨hr, (h.allocated hends).getInventory hfit hget⟩

theorem cacheTransactions_isSome {oldest : ℕ} (h : Sound d) (hle : oldest ≤ d.hdrNext) :
    ∃ r, d.cacheTransactions oldest = some r := by
  have hpage : ∀ n ≤ d.hdrNext, n / pgc.tpt < d.pages.length := by
    intro n hn
    rw [h.pages]
    exact Nat.lt_succ_of_le (Nat.div_le_div_right hn)
  obtain ⟨v, d', hrun⟩ := getInventory_isSome (d := d.allocated oldest)
    (hpage _ (Nat.max_le.mpr ⟨hle, h.hdr_le⟩)) (hpage _ (Nat.le_refl _))
  exact ⟨(d.hdrOldest, d'), Option.map_eq_some_iff.mpr ⟨(v, d'), hrun, rfl⟩⟩

end Firebird.Tra
