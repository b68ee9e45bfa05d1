import Firebird.Tra.Tip

/-! # The TIP cache (`jrd/tpc.cpp`)

A process keeps copies of inventory pages in a list of cache blocks, one for each page, in
ascending order. A block is looked up by its upper end. Blocks go as
`dbb_oldest_transaction` passes them, and new ones are appended from the page of the
header's oldest transaction on, so that the list can have gaps. Fetching an inventory page
refreshes the block of that page.
-/

namespace Firebird.Tra

variable {pgc : Pgc}

/-- A number as a signed long -/
def slong (n : ℕ) : ℤ := (BitVec.ofNat 32 n).toInt

theorem slong_of_lt {n : ℕ} (h : n < 2 ^ 31) : slong n = n := by
  rw [slong, BitVec.toInt_eq_toNat_of_lt] <;> rw [BitVec.toNat_ofNat] <;> omega

/-- `tpc`: a cache block -/
structure Tpc (pgc : Pgc) where
  base : ℕ
  transactions : Bits pgc

/-- The first number behind a block. -/
def Tpc.bound (b : Tpc pgc) : ℕ := b.base + pgc.tpt

/-- `number < (SLONG) (tip_cache->tpc_base + trans_per_tip)` -/
def Tpc.reaches (number : ℕ) (b : Tpc pgc) : Bool := (number : ℤ) < slong b.bound

/-- What a process knows of the transactions: the inventory pages and the header page
that all processes share, its own `dbb_oldest_transaction`, `dbb_tip_cache` and
`dbb_pc_transactions`. -/
structure Dbb (pgc : Pgc) where
  pages : List (Bits pgc)
  hdrNext : ℕ
  hdrOldest : ℕ
  oldest : ℕ
  tipCache : List (Tpc pgc)
  pcTransactions : Option (List ℕ)
  readOnly : Bool

/-! ## Fetching inventory pages -/

/-- The copy into the block of a page, if there is one. -/
def refresh (page : Bits pgc) (first : ℕ) : List (Tpc pgc) → List (Tpc pgc)
  | [] => []
  | b :: bs => if b.base = first then { b with transactions := page } :: bs
      else b :: refresh page first bs

/-- `TPC_update_cache` -/
def Dbb.tpcUpdateCache (d : Dbb pgc) (page : Bits pgc) (sequence : ℕ) : Dbb pgc :=
  let kept := d.tipCache.dropWhile fun b => slong b.bound ≤ d.oldest
  { d with tipCache := refresh page (sequence * pgc.tpt) kept }

/-- `fetch_inventory_page`, and `CCH_HANDOFF` with `TPC_update_cache`; `none` if there is no
such page. -/
def Dbb.fetchInventoryPage (d : Dbb pgc) (sequence : ℕ) : Option (Bits pgc × Dbb pgc) :=
  d.pages[sequence]?.map fun page => (page, d.tpcUpdateCache page sequence)

/-- `TRA_fetch_state` -/
def Dbb.traFetchState (d : Dbb pgc) (number : ℕ) : Option (TraState × Dbb pgc) :=
  (d.fetchInventoryPage (number / pgc.tpt)).map fun r => (r.1.state number, r.2)

/-- `while (sequence <= last)`, for the next `count` pages -/
def Dbb.inventoryLoop (top : ℕ) : ℕ → ℕ → Dbb pgc → Option (List (BitVec 8) × Dbb pgc)
  | 0, _, d => some ([], d)
  | count + 1, sequence, d => do
      let (page, d) ← d.fetchInventoryPage sequence
      let (v, d) ← d.inventoryLoop top count (sequence + 1)
      return (copied page (sequence * pgc.tpt) top ++ v, d)

/-- `TRA_get_inventory`: the bytes moved to the bit vector; with a null vector they are
not moved. -/
def Dbb.traGetInventory (d : Dbb pgc) (base top : ℕ) : Option (List (BitVec 8) × Dbb pgc) := do
  let (page, d) ← d.fetchInventoryPage (base / pgc.tpt)
  let (v, d) ← d.inventoryLoop top (top / pgc.tpt - base / pgc.tpt) (base / pgc.tpt + 1)
  return (copied page base top ++ v, d)

/-! ## Extending the cache -/

/-- The blocks for the pages from `base` up to `top`. -/
def allocateTpcs (pgc : Pgc) (base top : ℕ) : List (Tpc pgc) :=
  (List.range ((top + pgc.tpt - base) / pgc.tpt)).map fun i => ⟨base + i * pgc.tpt, .zero pgc⟩

/-- `cache_transactions`, at the end of the list: the header's oldest transaction. -/
def Dbb.cacheTransactions (d : Dbb pgc) (oldest : ℕ) : Option (ℕ × Dbb pgc) :=
  let top := d.hdrNext
  let from_ := max oldest d.hdrOldest
  let blocks := allocateTpcs pgc (from_ - from_ % pgc.tpt) top
  (Dbb.traGetInventory { d with tipCache := d.tipCache ++ blocks } from_ top).map
    fun r => (d.hdrOldest, r.2)

/-- `TPC_initialize_tpc` -/
def Dbb.tpcInitializeTpc (d : Dbb pgc) (number : ℕ) : Option (Dbb pgc) :=
  match d.tipCache.getLast? with
  | none => (d.cacheTransactions 0).map (·.2)
  | some last =>
      if last.reaches number then some d else (d.cacheTransactions last.bound).map (·.2)

/-! ## Reading the cache -/

/-- What a lookup returns; `outside` is a read outside a block. -/
inductive Reply where
  | state (s : TraState)
  | precommitted
  | outside
deriving DecidableEq, Repr

/-- The first free slot of the vector takes the number, or it goes to the end. -/
def putFree (number : ℕ) : List ℕ → List ℕ
  | [] => [number]
  | p :: ps => if p = 0 then number :: ps else p :: putFree number ps

/-- `TRA_precommited` -/
def Dbb.traPrecommited (d : Dbb pgc) (old new : ℕ) : Bool × Dbb pgc :=
  if d.pcTransactions = none ∧ old = new then (false, d)
  else
    let vector := d.pcTransactions.getD [0]
    if old ∈ vector then
      (new ≠ 0, { d with pcTransactions := some (vector.replace old new) })
    else if old = new ∨ new = 0 then (false, { d with pcTransactions := some vector })
    else (true, { d with pcTransactions := some (putFree new vector) })

/-- `number && dbb->dbb_pc_transactions && TRA_precommited (tdbb, number, number)` -/
def Dbb.isPrecommitted (d : Dbb pgc) (number : ℕ) : Bool :=
  number ≠ 0 && (d.traPrecommited number number).1

/-- The state in a block. -/
def Tpc.lookup (b : Tpc pgc) (number : ℕ) : Reply :=
  match traState b.transactions.bytes b.base number with
  | some s => .state s
  | none => .outside

/-- `TPC_cache_state`, once there is a cache -/
def Dbb.cacheLookup (d : Dbb pgc) (number : ℕ) : Reply :=
  if d.isPrecommitted number then .precommitted
  else
    match d.tipCache with
    | [] => .outside
    | first :: _ =>
        if number < first.base then .state .committed
        else
          match d.tipCache.find? (Tpc.reaches number) with
          | some b => b.lookup number
          | none => .state .active

/-- `TPC_cache_state` -/
def Dbb.tpcCacheState (d : Dbb pgc) (number : ℕ) : Option (Reply × Dbb pgc) :=
  if d.tipCache = [] then (d.tpcInitializeTpc number).map fun d => (d.cacheLookup number, d)
  else some (d.cacheLookup number, d)

/-- `extend_cache`, on the list with the given last block -/
def Dbb.extendCache (d : Dbb pgc) (last : Tpc pgc) (number : ℕ) : Option (Reply × Dbb pgc) :=
  (d.cacheTransactions last.bound).map fun (oldest, d) =>
    let d := { d with tipCache := d.tipCache.dropWhile fun b => b.bound < oldest }
    if number < oldest then (.state .committed, d)
    else
      match d.tipCache.find? (Tpc.reaches number) with
      | some b => (b.lookup number, d)
      | none => (.state .active, d)

/-- `TPC_snapshot_state`, once there is a cache. `lockable` tells whether
`LCK_lock_non_blocking` gets the lock of the transaction. -/
def Dbb.snapshotLookup (d : Dbb pgc) (number : ℕ) (lockable : Bool) : Option (Reply × Dbb pgc) :=
  if d.isPrecommitted number then some (.precommitted, d)
  else
    match d.tipCache with
    | [] => some (.outside, d)
    | first :: rest =>
        if number < first.base then some (.state .committed, d)
        else
          match d.tipCache.find? (Tpc.reaches number) with
          | some b =>
              match b.lookup number with
              | .state s =>
                  if s.final then some (.state s, d)
                  else if lockable = false then some (.state .active, d)
                  else (d.traFetchState number).map fun r => (.state r.1, r.2)
              | r => some (r, d)
          | none => d.extendCache ((first :: rest).getLast (List.cons_ne_nil _ _)) number

/-- `TPC_snapshot_state` -/
def Dbb.tpcSnapshotState (d : Dbb pgc) (number : ℕ) (lockable : Bool) :
    Option (Reply × Dbb pgc) :=
  if d.tipCache = [] then (d.cacheTransactions 0).bind fun r => r.2.snapshotLookup number lockable
  else d.snapshotLookup number lockable

/-! ## Setting a state -/

/-- `TPC_set_state`: the block is the first one with an upper end above the number. -/
def tpcSetState (number : ℕ) (s : TraState) : List (Tpc pgc) → List (Tpc pgc)
  | [] => []
  | b :: bs =>
      if b.reaches number then { b with transactions := b.transactions.set number s } :: bs
      else b :: tpcSetState number s bs

/-- `TRA_set_state`; `precommitted` tells that a transaction ends itself that has been
precommitted. -/
def Dbb.traSetState (d : Dbb pgc) (precommitted : Bool) (number : ℕ) (s : TraState) :
    Option (Dbb pgc) :=
  if precommitted then some d
  else if d.readOnly ∧ d.tipCache ≠ [] then
    some { d with tipCache := tpcSetState number s d.tipCache }
  else
    (d.fetchInventoryPage (number / pgc.tpt)).map fun (_, d) =>
      { d with pages := setPage d.pages number s, tipCache := tpcSetState number s d.tipCache }

end Firebird.Tra
