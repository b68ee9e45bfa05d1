import Firebird.Lib.Transition
import Firebird.Tra.Tip
import Mathlib.Logic.Function.Basic

/-! # Transactions of several processes (`jrd/tra.cpp`)

`TRA_start` takes the next number and the transaction lock under the header page, reads a
snapshot of the inventory pages, looks for the oldest active transaction, writes it to the
lock and publishes what it has found in the `dbb`, from where the next start of the process
takes it to the header page. Other transactions run between any two of these. Every step is
a function of its own; a transaction is known by its number.
-/

namespace Firebird.Tra

open Transition (Reachable System)

/-- `hdr_oldest_*` of the header page, `dbb_oldest_*` of a process -/
structure Oldest where
  transaction : ℕ
  active : ℕ
  snapshot : ℕ

/-- How far a transaction is. The arguments are local variables: `active` and `cleanup` of
the loop over the snapshot, `oldest_active`, and the saved `transaction_oldest_active` and
`active` of `TRA_sweep`. -/
inductive Phase where
  | inventory
  | scan (active : ℕ) (cleanup : Bool)
  | wait (active : ℕ) (cleanup : Bool)
  | query (oldestActive : ℕ)
  | write (oldestActive : ℕ)
  | publish (oldestActive : ℕ)
  | started
  | collecting
  | sweeping (transactionOldestActive : ℕ)
  | swept (transactionOldestActive active : ℕ)
  | gone

/-- `jrd_tra`, with the header's oldest snapshot as `TRA_start` has read it. The snapshot
`transactions` holds the states from `base` on that have been read. -/
structure JrdTra where
  process : ℕ
  readCommitted : Bool
  oldest : ℕ
  oldestActive : ℕ
  oldestSnapshot : ℕ
  transactions : List TraState
  phase : Phase

/-- The shared pages and locks, the fields of the processes, and the transactions. Numbers
that are not in use are active on the inventory pages. `versions` tells for which
transactions there are record versions. -/
structure Db where
  next : ℕ
  header : Oldest
  tip : ℕ → TraState
  locks : ℕ → Option ℕ
  dbb : ℕ → Oldest
  tpc : ℕ → ℕ → TraState
  tra : ℕ → Option JrdTra
  versions : ℕ → Bool

/-- `oldest & ~TRA_MASK` -/
def JrdTra.base (T : JrdTra) : ℕ := T.oldest - T.oldest % 4

/-- The state in the snapshot. -/
def JrdTra.seen (T : JrdTra) (n : ℕ) : Option TraState := T.transactions[n - T.base]?

/-- The state a transaction looks at: `TPC_cache_state` or the one in its snapshot -/
def Db.view (s : Db) (T : JrdTra) (n : ℕ) : TraState :=
  if T.readCommitted then s.tpc T.process n else (T.seen n).getD .active

/-- The first of `count` numbers from `n` on that meets `p`, or the one behind them. -/
def firstFrom (p : ℕ → Bool) : ℕ → ℕ → ℕ
  | 0, n => n
  | count + 1, n => if p n then n else firstFrom p count (n + 1)

/-- The transaction is at another point of its run. -/
def Db.put (s : Db) (t : ℕ) (T : JrdTra) : Db :=
  { s with tra := Function.update s.tra t (some T) }

/-! ## `TRA_start` -/

/-- `bump_transaction_id`: what the process has found goes to the header page. -/
def Oldest.raise (header dbb : Oldest) : Oldest where
  transaction := max header.transaction dbb.transaction
  active := max header.active dbb.active
  snapshot := max header.snapshot dbb.snapshot

/-- The number and the lock, under the header page. -/
def Db.start (s : Db) (process : ℕ) (readCommitted : Bool) : Option Db :=
  if s.next < 2 ^ 31 - 2 then
    let header := s.header.raise (s.dbb process)
    let active := max header.active header.transaction
    let T : JrdTra := ⟨process, readCommitted, header.transaction, active, header.snapshot, [],
      .inventory⟩
    some { s with
      next := s.next + 1
      header := header
      locks := Function.update s.locks (s.next + 1) (some active)
      tra := Function.update s.tra (s.next + 1) (some T) }
  else none

/-- From the snapshot to the loop over it; `TRA_ACTIVE_CLEANUP` is 100. -/
def JrdTra.beginScan (T : JrdTra) (t : ℕ) : JrdTra :=
  { T with oldestActive := t, phase := .scan T.oldestActive (t % 100 = 0) }

/-- `TRA_get_inventory`, the next `count` states, and `TPC_initialize_tpc` -/
def Db.inventory (s : Db) (t count : ℕ) : Option Db := do
  let T ← s.tra t
  match T.phase with
  | .inventory =>
      if T.readCommitted then return s.put t (T.beginScan t)
      else
        let first := T.base + T.transactions.length
        if first + count ≤ t then
          let states := (List.range count).map fun i => s.tip (first + i)
          let T := { T with transactions := T.transactions ++ states }
          return s.put t (if first + count = t then T.beginScan t else T)
        else none
  | _ => none

/-- `LCK_read_data`, zero without a lock -/
def Db.readData (s : Db) (n : ℕ) : ℕ := (s.locks n).getD 0

/-- `LCK_query_data (dbb->dbb_lock, LCK_tra, LCK_MIN)` -/
def Db.queryData (s : Db) : ℕ :=
  (((List.range (s.next + 1)).filterMap s.locks).filter (· ≠ 0)).min?.getD 0

/-- An active transaction has been found, with the given lock data. -/
def JrdTra.found (T : JrdTra) (t active data : ℕ) : JrdTra :=
  let T := { T with oldestActive := min T.oldestActive data }
  { T with
    phase := if T.oldestActive = T.oldestSnapshot then .write (min t active)
      else .query (min t active) }

/-- One iteration of the loop for the oldest active transaction. -/
def Db.scan (s : Db) (t : ℕ) : Option Db := do
  let T ← s.tra t
  match T.phase with
  | .scan active cleanup =>
      if active < t then
        if s.view T active = .active then
          let data := s.readData active
          if data = 0 then
            if cleanup then return s.put t { T with phase := .wait active cleanup }
            else return s.put t (T.found t active active)
          else return s.put t (T.found t active data)
        else return s.put t { T with phase := .scan (active + 1) cleanup }
      else return s.put t { T with phase := .write t }
  | _ => none

/-- `TRA_get_state`, for a transaction without a lock -/
def Db.getState (s : Db) (process n : ℕ) : TraState :=
  if (s.tpc process n).final then s.tpc process n else s.tip n

/-- `TPC_set_state` -/
def Db.setCache (s : Db) (process n : ℕ) (state : TraState) : Db :=
  { s with tpc := Function.update s.tpc process (Function.update (s.tpc process) n state) }

/-- `TRA_set_state` of a process: the page and its TIP cache -/
def Db.setState (s : Db) (process n : ℕ) (state : TraState) : Db :=
  { s.setCache process n state with tip := Function.update s.tip n state }

/-- The new state in the snapshot; a read-committed transaction has none. -/
def JrdTra.tweak (T : JrdTra) (n : ℕ) (state : TraState) : JrdTra :=
  { T with transactions := T.transactions.set (n - T.base) state }

/-- `TRA_wait` without waiting, and on with the loop -/
def Db.wait (s : Db) (t : ℕ) : Option Db := do
  let T ← s.tra t
  match T.phase with
  | .wait active cleanup =>
      let old := s.getState T.process active
      let state := if old = .active then .dead else old
      let s := if old = .active then s.setState T.process active .dead else s
      let s := if T.readCommitted then s.setCache T.process active state else s
      let phase := Phase.scan (active + 1) (cleanup && state ≠ .committed)
      return s.put t { T.tweak active state with phase := phase }
  | _ => none

/-- The query for the minimum lock data. -/
def Db.query (s : Db) (t : ℕ) : Option Db := do
  let T ← s.tra t
  match T.phase with
  | .query oldestActive =>
      let data := s.queryData
      let oldest := if data ≠ 0 ∧ data < T.oldestActive then data else T.oldestActive
      return s.put t { T with oldestActive := oldest, phase := .write oldestActive }
  | _ => none

/-- `LCK_write_data`, to the lock of the transaction -/
def Db.writeData (s : Db) (t : ℕ) : Option Db := do
  let T ← s.tra t
  match T.phase with
  | .write oldestActive =>
      if s.locks t ≠ none then
        return { s with locks := Function.update s.locks t (some oldestActive) }.put t
          { T with phase := .publish oldestActive }
      else none
  | _ => none

/-- The search for the oldest interesting transaction; what has been found goes to the
`dbb`. Without `MULTI_THREAD` the values are assigned. -/
def Db.publish (s : Db) (multiThread : Bool) (t : ℕ) : Option Db := do
  let T ← s.tra t
  match T.phase with
  | .publish oldestActive =>
      let oldest := firstFrom (fun n => s.view T n ≠ .committed) (t - T.oldest) T.oldest - 1
      let dbb := s.dbb T.process
      let dbb : Oldest :=
        { transaction := if multiThread then max dbb.transaction oldest else oldest
          active := if multiThread then max dbb.active oldestActive else oldestActive
          snapshot := max dbb.snapshot T.oldestActive }
      return { s with dbb := Function.update s.dbb T.process dbb }.put t { T with phase := .started }
  | _ => none

/-! ## The end of a transaction -/

/-- A transaction prepares, commits or rolls back. -/
def Db.finish (s : Db) (t : ℕ) (state : TraState) : Option Db := do
  let T ← s.tra t
  match T.phase with
  | .started =>
      if s.locks t ≠ none ∧ (s.tip t).final = false ∧ state ≠ .active then
        return s.setState T.process t state
      else none
  | _ => none

/-- A read-only read-committed transaction is precommitted and gives its lock back. -/
def Db.precommit (s : Db) (t : ℕ) : Option Db := do
  let T ← s.tra t
  match T.phase with
  | .started =>
      if T.readCommitted ∧ s.locks t ≠ none ∧ s.tip t = .active then
        return { s.setState T.process t .committed with locks := Function.update s.locks t none }
      else none
  | _ => none

/-- The lock goes once the state is set. -/
def Db.release (s : Db) (t : ℕ) : Option Db := do
  let T ← s.tra t
  match T.phase with
  | .started =>
      if s.tip t ≠ .active then
        return { s with locks := Function.update s.locks t none }.put t { T with phase := .gone }
      else none
  | _ => none

/-- The process dies. -/
def Db.crash (s : Db) (t : ℕ) : Option Db := do
  let T ← s.tra t
  return { s with locks := Function.update s.locks t none }.put t { T with phase := .gone }

/-- A process ends a transaction that is in limbo. -/
def Db.resolve (s : Db) (process n : ℕ) (state : TraState) : Option Db :=
  if s.tip n = .limbo ∧ state.final then some (s.setState process n state) else none

/-! ## TIP caches and record versions -/

/-- An attachment reads the header page. -/
def Db.attach (s : Db) (process : ℕ) : Db :=
  { s with dbb := Function.update s.dbb process s.header }

/-- A process fetches inventory pages: the states of the given numbers are copied. -/
def Db.fetch (s : Db) (process : ℕ) (numbers : ℕ → Bool) : Db :=
  let tpc n := if numbers n then s.tip n else s.tpc process n
  { s with tpc := Function.update s.tpc process tpc }

/-- A cache block behind the oldest interesting transaction goes: its transactions are read
as committed. -/
def Db.drop (s : Db) (process n : ℕ) : Option Db :=
  if n < max s.header.transaction (s.dbb process).transaction then
    some (s.setCache process n .committed)
  else none

/-- An active transaction writes a record version. -/
def Db.store (s : Db) (t : ℕ) : Option Db := do
  let T ← s.tra t
  match T.phase with
  | .started =>
      if s.locks t ≠ none ∧ s.tip t = .active then
        return { s with versions := Function.update s.versions t true }
      else none
  | _ => none

/-- The last version of a transaction is removed. -/
def Db.collect (s : Db) (n : ℕ) : Db := { s with versions := Function.update s.versions n false }

/-! ## `TRA_sweep` -/

/-- The horizon of the transaction is saved. -/
def Db.sweep (s : Db) (t : ℕ) : Option Db := do
  let T ← s.tra t
  match T.phase with
  | .started => return s.put t { T with phase := .sweeping T.oldestActive }
  | _ => none

/-- `VIO_sweep` refreshes the horizon of the transaction. -/
def Db.refresh (s : Db) (t : ℕ) : Option Db := do
  let T ← s.tra t
  match T.phase with
  | .sweeping saved =>
      return s.put t { T with oldestActive := (s.dbb T.process).snapshot, phase := .sweeping saved }
  | _ => none

/-- The garbage collector refreshes its read-committed transaction. -/
def Db.refreshCollector (s : Db) (t : ℕ) : Option Db := do
  let T ← s.tra t
  match T.phase with
  | .started | .collecting =>
      if T.readCommitted then
        let dbb := s.dbb T.process
        return s.put t { T with
          oldest := dbb.transaction
          oldestActive := dbb.snapshot
          phase := .collecting }
      else none
  | _ => none

/-- `VIO_sweep` has returned TRUE: no dead transaction below the saved horizon has a version
left. Then the first transaction in limbo is looked up. -/
def Db.sweptBy (s : Db) (t : ℕ) : Option Db := do
  let T ← s.tra t
  match T.phase with
  | .sweeping saved =>
      if ∀ n < saved, s.tip n = .dead → s.versions n = false then
        let active := firstFrom (fun n => s.view T n = .limbo) (t - T.oldest) T.oldest
        return s.put t { T with phase := .swept saved active }
      else none
  | _ => none

/-- `VIO_sweep` has returned FALSE. -/
def Db.unswept (s : Db) (t : ℕ) : Option Db := do
  let T ← s.tra t
  match T.phase with
  | .sweeping _ => return s.put t { T with phase := .started }
  | _ => none

/-- The header page is written. -/
def Db.advance (s : Db) (t : ℕ) : Option Db := do
  let T ← s.tra t
  match T.phase with
  | .swept saved active =>
      let oldest := if s.header.transaction < saved - 1 then min active (saved - 1)
        else s.header.transaction
      return { s with header := { s.header with transaction := oldest } }.put t
        { T with phase := .started }
  | _ => none

/-! ## Runs -/

inductive Event where
  | attach (process : ℕ)
  | start (process : ℕ) (readCommitted : Bool)
  | inventory (t count : ℕ)
  | scan (t : ℕ)
  | wait (t : ℕ)
  | query (t : ℕ)
  | writeData (t : ℕ)
  | publish (multiThread : Bool) (t : ℕ)
  | finish (t : ℕ) (state : TraState)
  | precommit (t : ℕ)
  | release (t : ℕ)
  | crash (t : ℕ)
  | resolve (process n : ℕ) (state : TraState)
  | fetch (process : ℕ) (numbers : ℕ → Bool)
  | drop (process n : ℕ)
  | store (t : ℕ)
  | collect (n : ℕ)
  | sweep (t : ℕ)
  | refresh (t : ℕ)
  | refreshCollector (t : ℕ)
  | sweptBy (t : ℕ)
  | unswept (t : ℕ)
  | advance (t : ℕ)

/-- One step; `none` where the transaction is not that far. -/
def Db.step (s : Db) : Event → Option Db
  | .attach process => some (s.attach process)
  | .start process readCommitted => s.start process readCommitted
  | .inventory t count => s.inventory t count
  | .scan t => s.scan t
  | .wait t => s.wait t
  | .query t => s.query t
  | .writeData t => s.writeData t
  | .publish multiThread t => s.publish multiThread t
  | .finish t state => s.finish t state
  | .precommit t => s.precommit t
  | .release t => s.release t
  | .crash t => s.crash t
  | .resolve process n state => s.resolve process n state
  | .fetch process numbers => some (s.fetch process numbers)
  | .drop process n => s.drop process n
  | .store t => s.store t
  | .collect n => some (s.collect n)
  | .sweep t => s.sweep t
  | .refresh t => s.refresh t
  | .refreshCollector t => s.refreshCollector t
  | .sweptBy t => s.sweptBy t
  | .unswept t => s.unswept t
  | .advance t => s.advance t

/-- A database that has just been created: `PAG_format_header`. -/
def created : Db where
  next := 0
  header := ⟨1, 0, 0⟩
  tip _ := .active
  locks _ := none
  dbb _ := ⟨0, 0, 0⟩
  tpc _ _ := .active
  tra _ := none
  versions _ := false

/-- The runs of all processes. -/
def transactions : System Db Event where
  init s := s = created
  step s op s' := s.step op = some s'

theorem step_restrict {C : Db → Event → Prop} {s s' : Db}
    (h : Reachable (transactions.restrict C) s) (e : Event) (hstep : s.step e = some s')
    (hC : C s e) : Reachable (transactions.restrict C) s' :=
  Reachable.step h (show (transactions.restrict C).step s e s' from ⟨hstep, hC⟩)

/-- Several steps. -/
def Db.run (s : Db) : List Event → Option Db
  | [] => some s
  | e :: es => (s.step e).bind fun s => s.run es

theorem run_restrict {C : Db → Event → Prop} {es : List Event} {s s' : Db}
    (h : Reachable (transactions.restrict C) s) (hC : ∀ e ∈ es, ∀ s, C s e)
    (hrun : s.run es = some s') : Reachable (transactions.restrict C) s' := by
  induction es generalizing s with
  | nil => cases hrun; exact h
  | cons e es ih =>
      obtain ⟨s₁, hstep, hrun⟩ := Option.bind_eq_some_iff.mp hrun
      rw [List.forall_mem_cons] at hC
      exact ih (step_restrict h e hstep (hC.1 s)) hC.2 hrun

theorem run_reachable {es : List Event} {s s' : Db} (h : Reachable transactions s)
    (hrun : s.run es = some s') : Reachable transactions s' := by
  induction es generalizing s with
  | nil => cases hrun; exact h
  | cons e es ih =>
      obtain ⟨s₁, hstep, hrun⟩ := Option.bind_eq_some_iff.mp hrun
      exact ih (h.step hstep) hrun

end Firebird.Tra
