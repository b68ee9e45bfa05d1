import Mathlib.Algebra.Order.Group.Int
import Mathlib.Algebra.Ring.Int.Defs
import Mathlib.Algebra.BigOperators.Group.List.Basic
import Mathlib.Data.List.Perm.Subperm
import Mathlib.Data.Set.List
import Firebird.Lib.Ring
import Firebird.Lib.Transition

/-! # Lock series data (`insert_data_que` and `LOCK_query_data` in `lock/lock.cpp`)

Each lock has a longword of data. For each series below `LCK_MAX_SERIES` there is one queue of the
locks that have a parent and data other than 0, whatever their parents are. For each parent alone
its locks are in ascending order of their data, and `LOCK_query_data` goes by that.
-/

namespace Firebird.Series

open Ring (IsRings Links Nodes Path)

/-- A signed longword -/
abbrev SLONG := BitVec 32

def LCK_MAX_SERIES : ℕ := 7

/-! ## The lock table -/

/-- The queue headers in `lhb_data`, and `lbl_lhb_data` in the lock blocks -/
inductive Node where
  | header (series : ℕ)
  | lock (lbl : ℕ)
deriving DecidableEq

/-- A lock block: `lbl_series`, `lbl_parent` and `lbl_data` -/
structure Lbl where
  series : ℕ
  parent : ℕ
  data : SLONG

/-- A request block: `lrq_lock`, and the `lrq_data` that a grant will carry over -/
structure Lrq where
  lock : ℕ
  data : SLONG

/-- The lock blocks and request blocks, those in use, and the links of the data queues -/
structure Table where
  links : Links Node
  lbl : ℕ → Lbl
  locks : List ℕ
  lrq : ℕ → Lrq
  requests : List ℕ

namespace Table

variable (t : Table)

/-! ## `insert_data_que` -/

/-- The loop over the queue: where the lock is to be inserted -/
def dataQueLoop (lock : Lbl) : ℕ → Node → Option Node
  | 0, _ => none
  | _ + 1, .header series => if series = lock.series then some (.header series) else none
  | fuel + 1, .lock lbl =>
      let lock2 := t.lbl lbl
      if lock2.parent ≠ lock.parent then dataQueLoop lock fuel (t.links.next (.lock lbl))
      else if lock.data.toInt ≤ lock2.data.toInt then some (.lock lbl)
      else dataQueLoop lock fuel (t.links.next (.lock lbl))

/-- `insert_data_que` -/
def insertDataQue (lbl : ℕ) : Option Table :=
  let lock := t.lbl lbl
  if lock.series < LCK_MAX_SERIES ∧ lock.parent ≠ 0 ∧ lock.data ≠ 0 then do
    let que ← t.dataQueLoop lock (t.locks.length + 1) (t.links.next (.header lock.series))
    some { t with links := t.links.insert que (.lock lbl) }
  else some t

/-- `remove_que(&lock->lbl_lhb_data)` -/
def removeDataQue (lbl : ℕ) : Table :=
  { t with links := (t.links.unlink (.lock lbl)).init (.lock lbl) }

/-- The lock gets other data, and another place in the queue. -/
def setData (lbl : ℕ) (data : SLONG) : Option Table :=
  let t := t.removeDataQue lbl
  let t := { t with lbl := Function.update t.lbl lbl { t.lbl lbl with data := data } }
  if data ≠ 0 then t.insertDataQue lbl else some t

/-! ## Calls -/

/-- `LOCK_enq` on a new lock, with the block `lbl`, for the request block `lrq` -/
def enqNew (lrq lbl series : ℕ) (parentRequest : Option ℕ) (data : SLONG) : Option Table :=
  if lrq ∈ t.requests ∨ lbl ∈ t.locks ∨ lbl = 0 then none
  else if ∃ r ∈ parentRequest, r ∉ t.requests then none
  else
    let parent := match parentRequest with
      | some r => (t.lrq r).lock
      | none => 0
    let t := { t with
      links := t.links.init (.lock lbl)
      lbl := Function.update t.lbl lbl ⟨series, parent, data⟩
      locks := lbl :: t.locks
      lrq := Function.update t.lrq lrq ⟨lbl, 0⟩
      requests := lrq :: t.requests }
    if data ≠ 0 then t.insertDataQue lbl else some t

/-- `LOCK_enq` on a lock that exists: the request keeps the data until it is granted. -/
def enqOld (lrq lbl : ℕ) (data : SLONG) : Option Table :=
  if lrq ∈ t.requests ∨ lbl ∉ t.locks then none
  else some { t with
    lrq := Function.update t.lrq lrq ⟨lbl, data⟩
    requests := lrq :: t.requests }

/-- `grant` -/
def grant (lrq : ℕ) : Option Table :=
  let request := t.lrq lrq
  if lrq ∉ t.requests then none
  else if request.data ≠ 0 then do
    let t ← t.setData request.lock request.data
    some { t with lrq := Function.update t.lrq lrq { request with data := 0 } }
  else some t

/-- `LOCK_write_data` -/
def writeData (lrq : ℕ) (data : SLONG) : Option Table :=
  if lrq ∉ t.requests then none else t.setData (t.lrq lrq).lock data

/-- `release_request`; with its last request the lock is released. -/
def releaseRequest (lrq : ℕ) : Option Table :=
  if lrq ∉ t.requests then none
  else
    let lbl := (t.lrq lrq).lock
    let t := { t with requests := t.requests.erase lrq }
    if ∃ r ∈ t.requests, (t.lrq r).lock = lbl then some t
    else some { t.removeDataQue lbl with locks := t.locks.erase lbl }

/-! ## `LOCK_query_data` -/

end Table

/-- `LCK_MIN`, `LCK_MAX`, `LCK_CNT`, `LCK_SUM`, `LCK_AVG` and `LCK_ANY` -/
inductive Aggregate where
  | min
  | max
  | cnt
  | sum
  | avg
  | any
deriving DecidableEq

namespace Table

variable (t : Table)

/-- The loop forward, with `data` and `count`. The smallest data come first. -/
def queryLoop (series parent : ℕ) (aggregate : Aggregate) :
    ℕ → Node → SLONG × SLONG → Option (SLONG × SLONG)
  | 0, _, _ => none
  | _ + 1, .header series', (data, count) => if series' = series then some (data, count) else none
  | fuel + 1, .lock lbl, (data, count) =>
      let lock := t.lbl lbl
      let next := queryLoop series parent aggregate fuel (t.links.next (.lock lbl))
      if lock.parent ≠ parent then next (data, count)
      else match aggregate with
        | .min => some (lock.data, count)
        | .any => some (data, count + 1)
        | .cnt => next (data, count + 1)
        | .avg => next (data + lock.data, count + 1)
        | .sum => next (data + lock.data, count)
        | .max => none

/-- The loop backward for `LCK_MAX` -/
def maxLoop (series parent : ℕ) : ℕ → Node → Option SLONG
  | 0, _ => none
  | _ + 1, .header series' => if series' = series then some 0 else none
  | fuel + 1, .lock lbl =>
      if (t.lbl lbl).parent ≠ parent then
        maxLoop series parent fuel (t.links.prev (.lock lbl))
      else some (t.lbl lbl).data

/-- `LOCK_query_data` -/
def queryData (parentRequest series : ℕ) (aggregate : Aggregate) : Option SLONG :=
  if parentRequest ∉ t.requests then none
  else if ¬series < LCK_MAX_SERIES then some 0
  else
    let parent := (t.lrq parentRequest).lock
    let fuel := t.locks.length + 1
    match aggregate with
    | .max => t.maxLoop series parent fuel (t.links.prev (.header series))
    | aggregate => do
        let (data, count) ←
          t.queryLoop series parent aggregate fuel (t.links.next (.header series)) (0, 0)
        match aggregate with
        | .cnt => some count
        | .any => some count
        | .avg => some (if count ≠ 0 then data.sdiv count else 0)
        | _ => some data

end Table

/-! ## Runs -/

/-- What happens to lock data -/
inductive Action where
  | enqNew (lrq lbl series : ℕ) (parentRequest : Option ℕ) (data : SLONG)
  | enqOld (lrq lbl : ℕ) (data : SLONG)
  | grant (lrq : ℕ)
  | writeData (lrq : ℕ) (data : SLONG)
  | releaseRequest (lrq : ℕ)

/-- One action, if it can happen -/
def Table.step (t : Table) : Action → Option Table
  | .enqNew lrq lbl series parentRequest data => t.enqNew lrq lbl series parentRequest data
  | .enqOld lrq lbl data => t.enqOld lrq lbl data
  | .grant lrq => t.grant lrq
  | .writeData lrq data => t.writeData lrq data
  | .releaseRequest lrq => t.releaseRequest lrq

/-- What a call is made with: locks and requests that exist, and blocks that are free. -/
def Valid (t : Table) : Action → Prop
  | .enqNew lrq lbl _ parentRequest _ =>
      lrq ∉ t.requests ∧ lbl ∉ t.locks ∧ lbl ≠ 0 ∧ ∀ r ∈ parentRequest, r ∈ t.requests
  | .enqOld lrq lbl _ => lrq ∉ t.requests ∧ lbl ∈ t.locks
  | .grant lrq => lrq ∈ t.requests
  | .writeData lrq _ => lrq ∈ t.requests
  | .releaseRequest lrq => lrq ∈ t.requests

/-- The headers of the queues -/
def headers : Set Node := {n | ∃ series < LCK_MAX_SERIES, n = .header series}

/-- Runs from the table of `init_lock_table` -/
def system : Transition.System Table Action where
  init t := (∀ h ∈ headers, t.links.next h = h ∧ t.links.prev h = h) ∧ t.locks = [] ∧
    t.requests = []
  step t a t' := t.step a = some t'

/-! ## The queues -/

section

variable {t t' : Table} {S : ℕ → Prop} {Q : Node → List Node} {series parent lbl b : ℕ}
  {x h : Node} {K : List Node} {fuel : ℕ}

theorem header_mem (hs : series < LCK_MAX_SERIES) : Node.header series ∈ headers :=
  ⟨series, hs, rfl⟩

theorem lock_notMem (b : ℕ) : Node.lock b ∉ headers := by
  rintro ⟨series, -, heq⟩
  cases heq

/-- Locks with one parent are in the order of their data. -/
def Ordered (t : Table) : Node → Node → Prop
  | .lock b, .lock c =>
      (t.lbl b).parent = (t.lbl c).parent → (t.lbl b).data.toInt ≤ (t.lbl c).data.toInt
  | _, _ => True

/-- The locks that belong in the queue of a series -/
def Counts (t : Table) (series b : ℕ) : Prop :=
  (t.lbl b).series = series ∧ (t.lbl b).parent ≠ 0 ∧ (t.lbl b).data ≠ 0

/-- The queues have the locks in `S` that belong in them, and the locks in no queue are linked to
themselves. -/
structure Queues (t : Table) (S : ℕ → Prop) (Q : Node → List Node) : Prop where
  rings : IsRings t.links headers Q
  lock_of_mem : ∀ series < LCK_MAX_SERIES, ∀ x ∈ Q (.header series), ∃ b, x = .lock b
  mem_iff : ∀ series < LCK_MAX_SERIES, ∀ b,
    .lock b ∈ Q (.header series) ↔ S b ∧ Counts t series b
  ordered : ∀ series < LCK_MAX_SERIES, (Q (.header series)).Pairwise (Ordered t)
  alone : ∀ b ∈ t.locks, ¬Nodes headers Q (.lock b) → t.links.Alone (.lock b)
  locks_of : ∀ b, S b → b ∈ t.locks

namespace Queues

theorem nodes_lock (hq : Queues t S Q) : Nodes headers Q (.lock b) ↔
    ∃ series < LCK_MAX_SERIES, S b ∧ Counts t series b := by
  constructor
  · rintro ⟨h, ⟨series, hs, rfl⟩, hmem⟩
    have hmem : .lock b ∈ Q (.header series) := by
      rcases List.mem_cons.mp hmem with heq | hmem
      · cases heq
      · exact hmem
    exact ⟨series, hs, (hq.mem_iff series hs b).mp hmem⟩
  · rintro ⟨series, hs, hcounts⟩
    exact ⟨.header series, header_mem hs,
      List.mem_cons_of_mem _ ((hq.mem_iff series hs b).mpr hcounts)⟩

/-- Only the blocks of the locks that are counted matter. -/
theorem congr_lbl (hq : Queues t S Q) (hlinks : t'.links = t.links) (hlocks : t'.locks = t.locks)
    (hlbl : ∀ b, S b → t'.lbl b = t.lbl b) : Queues t' S Q where
  rings := by
    rw [hlinks]
    exact hq.rings
  lock_of_mem := hq.lock_of_mem
  mem_iff series hs b := by
    rw [hq.mem_iff series hs b]
    refine and_congr_right fun hb => ?_
    rw [Counts, Counts, hlbl b hb]
  ordered series hs := by
    refine (hq.ordered series hs).imp_of_mem fun {x y} hx hy hxy => ?_
    obtain ⟨b, rfl⟩ := hq.lock_of_mem series hs x hx
    obtain ⟨c, rfl⟩ := hq.lock_of_mem series hs y hy
    rw [Ordered, hlbl b ((hq.mem_iff series hs b).mp hx).1, hlbl c ((hq.mem_iff series hs c).mp hy).1]
    exact hxy
  alone b hb hnot := by
    rw [hlinks]
    rw [hlocks] at hb
    exact hq.alone b hb hnot
  locks_of b hb := by
    rw [hlocks]
    exact hq.locks_of b hb

theorem nodes_or_alone (hq : Queues t S Q) (hb : b ∈ t.locks) :
    Nodes headers Q (.lock b) ∨ t.links.Alone (.lock b) := by
  by_cases hmem : Nodes headers Q (.lock b)
  · exact .inl hmem
  · exact .inr (hq.alone b hb hmem)

/-- A lock is taken out of its queue, or out of none. -/
theorem removeDataQue (hq : Queues t S Q) (hb : b ∈ t.locks) :
    Queues (t.removeDataQue b) (fun c => S c ∧ c ≠ b) (Ring.removeQue (.lock b) Q) where
  rings := hq.rings.remove (lock_notMem b) (hq.nodes_or_alone hb)
  lock_of_mem series hs x hx := hq.lock_of_mem series hs x (List.mem_of_mem_erase hx)
  mem_iff series hs c := by
    have hnodup := (List.nodup_cons.mp (hq.rings.ring _ (header_mem hs)).nodup).2
    rw [Ring.removeQue, hnodup.mem_erase_iff, hq.mem_iff series hs c]
    constructor
    · rintro ⟨hne, hS, hcounts⟩
      exact ⟨⟨hS, fun heq => hne (heq ▸ rfl)⟩, hcounts⟩
    · rintro ⟨⟨hS, hne⟩, hcounts⟩
      exact ⟨fun heq => hne (Node.lock.inj heq), hS, hcounts⟩
  ordered series hs := (hq.ordered series hs).sublist (List.erase_sublist ..)
  alone c hc hnot := by
    by_cases hcb : c = b
    · rw [hcb]
      exact IsRings.alone_init _ _
    · have hmem : ¬Nodes headers Q (.lock c) := fun hmem =>
        hnot ((hq.rings.nodes_removeQue (lock_notMem b)).mpr ⟨fun heq => hcb (Node.lock.inj heq), hmem⟩)
      exact hq.rings.alone_remove (hq.nodes_or_alone hb) (hq.alone c hc hmem) hmem
  locks_of c hc := hq.locks_of c hc.1

/-! ### The loop of `insert_data_que` -/

/-- Where the loop stops -/
def Stops (t : Table) (lock : Lbl) : Node → Bool
  | .header _ => false
  | .lock lbl => (t.lbl lbl).parent = lock.parent ∧ lock.data.toInt ≤ (t.lbl lbl).data.toInt

/-- The loop finds the first lock to stop at, or comes to the header. -/
theorem dataQueLoop_eq (lock : Lbl) (hpath : Path t.links.next (.header lock.series) x K)
    (hlock : ∀ x ∈ K, ∃ b, x = .lock b) (hfuel : K.length < fuel) :
    t.dataQueLoop lock fuel x = some ((K.find? (Stops t lock)).getD (.header lock.series)) := by
  induction fuel generalizing x K with
  | zero => exact absurd hfuel (Nat.not_lt_zero _)
  | succ fuel ih =>
      cases hpath with
      | nil =>
          rw [Table.dataQueLoop, if_pos rfl]
          rfl
      | cons hrest =>
          rename_i K
          obtain ⟨c, rfl⟩ := hlock x List.mem_cons_self
          have hnext := ih hrest (fun y hy => hlock y (List.mem_cons_of_mem _ hy))
            (Nat.lt_of_succ_lt_succ hfuel)
          rw [Table.dataQueLoop, List.find?_cons]
          by_cases hparent : (t.lbl c).parent = lock.parent
          · by_cases hle : lock.data.toInt ≤ (t.lbl c).data.toInt
            · have hstop : Stops t lock (.lock c) = true := decide_eq_true ⟨hparent, hle⟩
              rw [hstop, if_neg (not_not.mpr hparent), if_pos hle]
              rfl
            · have hstop : Stops t lock (.lock c) = false := decide_eq_false fun hand => hle hand.2
              rw [hstop, if_neg (not_not.mpr hparent), if_neg hle, hnext]
          · have hstop : Stops t lock (.lock c) = false := decide_eq_false fun hand => hparent hand.1
            rw [hstop, if_pos hparent, hnext]

/-- Before that, all locks of the parent have smaller data. -/
theorem ordered_of_not_stops (hlock : ∃ c, x = .lock c) (hx : Stops t (t.lbl b) x = false) :
    Ordered t x (.lock b) := by
  obtain ⟨c, rfl⟩ := hlock
  intro hparent
  rw [Stops, decide_eq_false_iff_not, not_and] at hx
  exact (not_le.mp (hx hparent)).le

theorem ordered_insertAt (hK : K.Pairwise (Ordered t)) (hnodup : (Node.header series :: K).Nodup)
    (hlock : ∀ x ∈ K, ∃ b, x = .lock b) :
    (Ring.insertAt ((K.find? (Stops t (t.lbl b))).getD (.header series)) (.lock b) K).Pairwise
      (Ordered t) := by
  rw [List.nodup_cons] at hnodup
  cases hfind : K.find? (Stops t (t.lbl b)) with
  | none =>
      -- at the end of the queue
      rw [Option.getD_none, Ring.insertAt_of_notMem hnodup.1]
      rw [List.find?_eq_none] at hfind
      refine List.pairwise_append.mpr ⟨hK, List.pairwise_singleton _ _, fun x hx y hy => ?_⟩
      rw [List.mem_singleton.mp hy]
      exact ordered_of_not_stops (hlock x hx) (Bool.not_eq_true _ ▸ hfind x hx)
  | some c =>
      rw [Option.getD_some]
      obtain ⟨hstop, K₁, K₂, rfl, hbefore⟩ := List.find?_eq_some_iff_append.mp hfind
      have hc₁ : c ∉ K₁ := by
        have hdisjoint := hnodup.2
        rw [List.nodup_middle, List.nodup_cons] at hdisjoint
        exact fun hmem => hdisjoint.1 (List.mem_append_left _ hmem)
      rw [Ring.insertAt_append hc₁]
      obtain ⟨h₁, h₂, h₁₂⟩ := List.pairwise_append.mp hK
      have hc : Ordered t (.lock b) c ∧ ∀ y ∈ K₂, Ordered t (.lock b) y := by
        obtain ⟨d, rfl⟩ := hlock c (List.mem_append_right _ List.mem_cons_self)
        obtain ⟨hparent, hle⟩ := of_decide_eq_true hstop
        refine ⟨fun _ => hle, fun y hy => ?_⟩
        obtain ⟨e, rfl⟩ := hlock y (List.mem_append_right _ (List.mem_cons_of_mem _ hy))
        have hde : Ordered t (.lock d) (.lock e) := (List.pairwise_cons.mp h₂).1 _ hy
        exact fun heq => hle.trans (hde (hparent.trans heq))
      refine List.pairwise_append.mpr ⟨h₁, List.pairwise_cons.mpr ⟨?_, h₂⟩, fun x hx y hy => ?_⟩
      · intro y hy
        rcases List.mem_cons.mp hy with rfl | hy
        · exact hc.1
        · exact hc.2 y hy
      · rcases List.mem_cons.mp hy with rfl | hy
        · refine ordered_of_not_stops (hlock x (List.mem_append_left _ hx)) ?_
          have hnot := hbefore x hx
          rwa [Bool.not_eq_true'] at hnot
        · exact h₁₂ x hx y hy

/-- A queue has no more locks than there are. -/
theorem length_le (hq : Queues t S Q) (hs : series < LCK_MAX_SERIES) :
    (Q (.header series)).length ≤ t.locks.length := by
  have hnodup := (List.nodup_cons.mp (hq.rings.ring _ (header_mem hs)).nodup).2
  have hsub : Q (.header series) ⊆ t.locks.map Node.lock := fun x hx => by
    obtain ⟨b, rfl⟩ := hq.lock_of_mem series hs x hx
    exact List.mem_map_of_mem (hq.locks_of b ((hq.mem_iff series hs b).mp hx).1)
  have hle := (List.subperm_of_subset hnodup hsub).length_le
  rwa [List.length_map] at hle

/-- A lock is put before a node of the queue that it belongs in. -/
theorem insert (hq : Queues t S Q) (hb : b ∈ t.locks) (hS : ¬S b)
    (hcounts : (t.lbl b).series < LCK_MAX_SERIES ∧ (t.lbl b).parent ≠ 0 ∧ (t.lbl b).data ≠ 0)
    (hx : x ∈ .header (t.lbl b).series :: Q (.header (t.lbl b).series))
    (hordered : (Ring.insertAt x (.lock b) (Q (.header (t.lbl b).series))).Pairwise (Ordered t)) :
    Queues { t with links := t.links.insert x (.lock b) } (fun c => S c ∨ c = b)
      (Ring.insertQue x (.lock b) Q) := by
  obtain ⟨hs, hvalid⟩ := hcounts
  have hnot : ¬Nodes headers Q (.lock b) := fun hmem => by
    obtain ⟨series, hs, hSb, -⟩ := hq.nodes_lock.mp hmem
    exact hS hSb
  have hxs : Nodes headers Q x := ⟨_, header_mem hs, hx⟩
  -- the place is in no other queue
  have hwhere : ∀ series < LCK_MAX_SERIES,
      x ∈ Node.header series :: Q (.header series) → (t.lbl b).series = series :=
    fun series hs' hx' => Node.header.inj (hq.rings.eq_of_mem (header_mem hs) (header_mem hs') hx hx')
  refine ⟨hq.rings.insert hxs hnot, fun series hs' y hy => ?_, fun series hs' c => ?_,
    fun series hs' => ?_, fun c hc halone => ?_, ?_⟩
  · rcases IsRings.mem_insertQue.mp hy with ⟨rfl, -⟩ | hy
    · exact ⟨b, rfl⟩
    · exact hq.lock_of_mem series hs' y hy
  · rw [IsRings.mem_insertQue, hq.mem_iff series hs' c]
    constructor
    · rintro (⟨heq, hx'⟩ | ⟨hSc, hc⟩)
      · rw [Node.lock.inj heq]
        exact ⟨.inr rfl, hwhere series hs' hx', hvalid⟩
      · exact ⟨.inl hSc, hc⟩
    · rintro ⟨hSc | rfl, hc⟩
      · exact .inr ⟨hSc, hc⟩
      · refine .inl ⟨rfl, ?_⟩
        rw [← hc.1]
        exact hx
  · rw [Ring.insertQue]
    split
    · rename_i hx'
      rw [← hwhere series hs' hx']
      exact hordered
    · exact hq.ordered series hs'
  · rw [IsRings.nodes_insertQue hxs, not_or] at halone
    exact hq.rings.alone_insert hxs (hq.alone c hc halone.2) halone.2 halone.1
  · rintro c (hc | rfl)
    · exact hq.locks_of c hc
    · exact hb

theorem congr_set {S' : ℕ → Prop} (hq : Queues t S Q) (h : ∀ c, S' c ↔ S c) : Queues t S' Q := by
  have heq : S' = S := funext fun c => propext (h c)
  rw [heq]
  exact hq

/-- Locks that are in no queue may be gone. -/
theorem congr_locks (hq : Queues t S Q) {locks : List ℕ} (hsub : locks ⊆ t.locks)
    (hS : ∀ c, S c → c ∈ locks) : Queues { t with locks := locks } S Q where
  rings := hq.rings
  lock_of_mem := hq.lock_of_mem
  mem_iff := hq.mem_iff
  ordered := hq.ordered
  alone c hc := hq.alone c (hsub hc)
  locks_of := hS

/-- A new lock block, in no queue yet -/
theorem initNew (hq : Queues t S Q) (hb : b ∉ t.locks) (lock : Lbl) :
    Queues { t with
      links := t.links.init (.lock b), lbl := Function.update t.lbl b lock,
      locks := b :: t.locks } S Q := by
  have hne : ∀ c, S c → c ≠ b := by
    rintro c hc rfl
    exact hb (hq.locks_of c hc)
  have hnot : ¬Nodes headers Q (.lock b) := fun hmem => by
    obtain ⟨series, hs, hSb, -⟩ := hq.nodes_lock.mp hmem
    exact hne b hSb rfl
  have hblock : Queues { t with lbl := Function.update t.lbl b lock } S Q :=
    hq.congr_lbl rfl rfl fun c hc => Function.update_of_ne (hne c hc) ..
  refine ⟨hblock.rings.init hnot, hblock.lock_of_mem, hblock.mem_iff, hblock.ordered,
    fun c hc hmem => ?_, fun c hc => List.mem_cons_of_mem b (hq.locks_of c hc)⟩
  rcases List.mem_cons.mp hc with rfl | hc
  · exact IsRings.alone_init _ _
  · refine IsRings.alone_init_of_ne (hq.alone c hc hmem) fun heq => hb ?_
    rwa [Node.lock.inj heq] at hc

/-- A lock that belongs in no queue may be counted. -/
theorem add (hq : Queues t S Q) (hb : b ∈ t.locks)
    (hnot : ∀ series < LCK_MAX_SERIES, ¬Counts t series b) : Queues t (fun c => S c ∨ c = b) Q where
  rings := hq.rings
  lock_of_mem := hq.lock_of_mem
  mem_iff series hs c := by
    rw [hq.mem_iff series hs c]
    refine ⟨fun hand => ⟨.inl hand.1, hand.2⟩, fun hand => ⟨hand.1.resolve_right ?_, hand.2⟩⟩
    rintro rfl
    exact hnot series hs hand.2
  ordered := hq.ordered
  alone := hq.alone
  locks_of c hc := by
    rcases hc with hc | rfl
    · exact hq.locks_of c hc
    · exact hb

/-- A lock that is in no queue is put into the queue that it belongs in. -/
theorem insertDataQue (hq : Queues t S Q) (hb : b ∈ t.locks) (hS : ¬S b) :
    ∃ links Q', t.insertDataQue b = some { t with links := links } ∧
      Queues { t with links := links } (fun c => S c ∨ c = b) Q' := by
  by_cases hcounts : (t.lbl b).series < LCK_MAX_SERIES ∧ (t.lbl b).parent ≠ 0 ∧ (t.lbl b).data ≠ 0
  · have hs := hcounts.1
    have hring := hq.rings.ring _ (header_mem hs)
    have hlock := hq.lock_of_mem _ hs
    have hplace := dataQueLoop_eq (t.lbl b) hring.path_next hlock
      (Nat.lt_succ_of_le (hq.length_le hs))
    rw [Table.insertDataQue, if_pos hcounts, hplace]
    refine ⟨_, _, rfl, hq.insert hb hS hcounts ?_ ?_⟩
    · cases hfind : (Q (.header (t.lbl b).series)).find? (Stops t (t.lbl b)) with
      | none => exact List.mem_cons_self
      | some c => exact List.mem_cons_of_mem _ (List.mem_of_find?_eq_some hfind)
    · exact ordered_insertAt (hq.ordered _ hs) hring.nodup hlock
  · rw [Table.insertDataQue, if_neg hcounts]
    refine ⟨t.links, Q, rfl, hq.add hb fun series hs hc => hcounts ?_⟩
    rw [hc.1]
    exact ⟨hs, hc.2⟩

/-- The end of `LOCK_write_data`, of `grant` and of the setting up of a lock -/
theorem place (hq : Queues t S Q) (hb : b ∈ t.locks) (hS : ¬S b) {data : SLONG}
    (hdata : (t.lbl b).data = data) :
    ∃ links Q', (if data ≠ 0 then t.insertDataQue b else some t) = some { t with links := links } ∧
      Queues { t with links := links } (fun c => S c ∨ c = b) Q' := by
  by_cases hzero : data ≠ 0
  · rw [if_pos hzero]
    exact hq.insertDataQue hb hS
  · rw [if_neg hzero]
    refine ⟨t.links, Q, rfl, hq.add hb fun series hs hc => hzero ?_⟩
    rw [← hdata]
    exact hc.2.2

/-- A lock gets other data. -/
theorem setData (hq : Queues t S Q) (hb : S b) (data : SLONG) :
    ∃ links lbl Q', t.setData b data = some { t with links := links, lbl := lbl } ∧
      Queues { t with links := links, lbl := lbl } S Q' := by
  have hremoved := hq.removeDataQue (hq.locks_of b hb)
  have hset : Queues { t.removeDataQue b with
      lbl := Function.update t.lbl b { t.lbl b with data := data } }
      (fun c => S c ∧ c ≠ b) (Ring.removeQue (.lock b) Q) :=
    hremoved.congr_lbl rfl rfl fun c hc => Function.update_of_ne hc.2 ..
  have hdata : (Function.update t.lbl b { t.lbl b with data := data } b).data = data := by
    rw [Function.update_self]
  obtain ⟨links, Q', hplace, hq'⟩ := hset.place (hq.locks_of b hb) (fun hand => hand.2 rfl) hdata
  refine ⟨links, _, Q', hplace, hq'.congr_set fun c => ?_⟩
  by_cases hcb : c = b
  · rw [hcb]
    exact ⟨fun _ => .inr rfl, fun _ => hb⟩
  · exact ⟨fun hc => .inl ⟨hc, hcb⟩, fun hor => (hor.resolve_right hcb).1⟩

end Queues

end

/-! ## Every run -/

section

variable {t t' : Table} {lrq lbl series : ℕ} {data : SLONG} {a : Action}

/-- The queues have exactly the locks that belong in them, and every request has a lock. -/
structure Sound (t : Table) : Prop where
  queues : ∃ Q, Queues t (fun b => b ∈ t.locks) Q
  nodup : t.locks.Nodup
  zero : 0 ∉ t.locks
  lock_mem : ∀ r ∈ t.requests, (t.lrq r).lock ∈ t.locks

namespace Sound

theorem setData (h : Sound t) (hb : lbl ∈ t.locks) (data : SLONG) :
    ∃ t', t.setData lbl data = some t' ∧ t'.lrq = t.lrq ∧ t'.requests = t.requests ∧ Sound t' := by
  obtain ⟨Q, hq⟩ := h.queues
  obtain ⟨links, blocks, Q', hset, hq'⟩ := hq.setData hb data
  exact ⟨_, hset, rfl, rfl, ⟨Q', hq'⟩, h.nodup, h.zero, h.lock_mem⟩

/-- Requests for the locks there are -/
theorem setRequests (h : Sound t) {lrq' : ℕ → Lrq} {requests : List ℕ}
    (hlock : ∀ r ∈ requests, (lrq' r).lock ∈ t.locks) :
    Sound { t with lrq := lrq', requests := requests } := by
  obtain ⟨Q, hq⟩ := h.queues
  exact ⟨⟨Q, hq.congr_lbl rfl rfl fun _ _ => rfl⟩, h.nodup, h.zero, hlock⟩

theorem enqNew (h : Sound t) {parentRequest : Option ℕ}
    (hv : Valid t (.enqNew lrq lbl series parentRequest data)) :
    ∃ t', t.enqNew lrq lbl series parentRequest data = some t' ∧ Sound t' := by
  obtain ⟨hlrq, hlbl, hzero, hparent⟩ := hv
  have hfree : ¬(lrq ∈ t.requests ∨ lbl ∈ t.locks ∨ lbl = 0) := by
    rw [not_or, not_or]
    exact ⟨hlrq, hlbl, hzero⟩
  have hvalid : ¬∃ r ∈ parentRequest, r ∉ t.requests := by
    rintro ⟨r, hr, hnot⟩
    exact hnot (hparent r hr)
  unfold Table.enqNew
  rw [if_neg hfree, if_neg hvalid]
  dsimp only
  generalize (match parentRequest with | some r => (t.lrq r).lock | none => 0) = parent
  obtain ⟨Q, hq⟩ := h.queues
  have hnew : Queues { t with
      links := t.links.init (.lock lbl)
      lbl := Function.update t.lbl lbl ⟨series, parent, data⟩
      locks := lbl :: t.locks
      lrq := Function.update t.lrq lrq ⟨lbl, 0⟩
      requests := lrq :: t.requests } (fun b => b ∈ t.locks) Q :=
    (hq.initNew hlbl ⟨series, parent, data⟩).congr_lbl rfl rfl fun _ _ => rfl
  have hdata : (Function.update t.lbl lbl ⟨series, parent, data⟩ lbl).data = data := by
    rw [Function.update_self]
  obtain ⟨links, Q', hplace, hq'⟩ := hnew.place List.mem_cons_self hlbl hdata
  refine ⟨_, hplace, ⟨Q', hq'.congr_set fun c => ?_⟩, List.nodup_cons.mpr ⟨hlbl, h.nodup⟩, ?_,
    fun r hr => ?_⟩
  · rw [List.mem_cons, or_comm]
  · rw [List.mem_cons, not_or]
    exact ⟨fun heq => hzero heq.symm, h.zero⟩
  · change (Function.update t.lrq lrq ⟨lbl, 0⟩ r).lock ∈ lbl :: t.locks
    rw [Function.update_apply]
    split
    · exact List.mem_cons_self
    · rename_i hne
      exact List.mem_cons_of_mem _ (h.lock_mem r ((List.mem_cons.mp hr).resolve_left hne))

theorem enqOld (h : Sound t) (hv : Valid t (.enqOld lrq lbl data)) :
    ∃ t', t.enqOld lrq lbl data = some t' ∧ Sound t' := by
  have hfree : ¬(lrq ∈ t.requests ∨ lbl ∉ t.locks) := by
    rw [not_or, not_not]
    exact hv
  rw [Table.enqOld, if_neg hfree]
  refine ⟨_, rfl, h.setRequests fun r hr => ?_⟩
  rw [Function.update_apply]
  split
  · exact hv.2
  · rename_i hne
    exact h.lock_mem r ((List.mem_cons.mp hr).resolve_left hne)

theorem writeData (h : Sound t) (hr : lrq ∈ t.requests) (data : SLONG) :
    ∃ t', t.writeData lrq data = some t' ∧ Sound t' := by
  obtain ⟨t', hset, -, -, hsound⟩ := h.setData (h.lock_mem lrq hr) data
  rw [Table.writeData, if_neg (not_not.mpr hr)]
  exact ⟨t', hset, hsound⟩

theorem grant (h : Sound t) (hr : lrq ∈ t.requests) : ∃ t', t.grant lrq = some t' ∧ Sound t' := by
  unfold Table.grant
  dsimp only
  rw [if_neg (not_not.mpr hr)]
  by_cases hdata : (t.lrq lrq).data ≠ 0
  · rw [if_pos hdata]
    obtain ⟨t', hset, hlrq, hrequests, hsound⟩ := h.setData (h.lock_mem lrq hr) (t.lrq lrq).data
    rw [hset]
    refine ⟨_, rfl, hsound.setRequests fun r hr' => ?_⟩
    -- the request keeps its lock
    have hlock := hsound.lock_mem r hr'
    rw [hlrq] at hlock ⊢
    rw [Function.update_apply]
    split
    · rename_i heq
      rw [heq] at hlock
      exact hlock
    · exact hlock
  · rw [if_neg hdata]
    exact ⟨t, rfl, h⟩

theorem releaseRequest (h : Sound t) (hr : lrq ∈ t.requests) :
    ∃ t', t.releaseRequest lrq = some t' ∧ Sound t' := by
  have hlock := h.lock_mem lrq hr
  have hsub : ∀ r ∈ t.requests.erase lrq, (t.lrq r).lock ∈ t.locks := fun r hr =>
    h.lock_mem r (List.mem_of_mem_erase hr)
  unfold Table.releaseRequest
  dsimp only
  rw [if_neg (not_not.mpr hr)]
  split
  · exact ⟨_, rfl, h.setRequests hsub⟩
  · -- the last request of the lock
    rename_i hlast
    obtain ⟨Q, hq⟩ := h.queues
    have hmem : ∀ c, c ∈ t.locks.erase (t.lrq lrq).lock ↔
        c ∈ t.locks ∧ c ≠ (t.lrq lrq).lock := fun c => by
      rw [h.nodup.mem_erase_iff, and_comm]
    have hqueues := ((hq.removeDataQue hlock).congr_set hmem).congr_locks List.erase_subset
      fun _ hc => hc
    exact ⟨_, rfl, ⟨_, hqueues.congr_lbl rfl rfl fun _ _ => rfl⟩, h.nodup.erase _,
      fun hzero => h.zero (List.mem_of_mem_erase hzero),
      fun r hr => (hmem _).mpr ⟨hsub r hr, fun heq => hlast ⟨r, hr, heq⟩⟩⟩

/-- Every call returns, and leaves the queues as they should be. -/
theorem step (h : Sound t) (hv : Valid t a) : ∃ t', t.step a = some t' ∧ Sound t' := by
  cases a with
  | enqNew lrq lbl series parentRequest data => exact h.enqNew hv
  | enqOld lrq lbl data => exact h.enqOld hv
  | grant lrq => exact h.grant hv
  | writeData lrq data => exact h.writeData hv data
  | releaseRequest lrq => exact h.releaseRequest hv

end Sound

theorem valid_of_step (hstep : t.step a = some t') : Valid t a := by
  cases a with
  | enqNew lrq lbl series parentRequest data =>
      change t.enqNew lrq lbl series parentRequest data = some t' at hstep
      unfold Table.enqNew at hstep
      split at hstep
      · cases hstep
      · rename_i hfree
        rw [not_or, not_or] at hfree
        split at hstep
        · cases hstep
        · rename_i hparent
          exact ⟨hfree.1, hfree.2.1, hfree.2.2, fun r hr =>
            not_not.mp fun hnot => hparent ⟨r, hr, hnot⟩⟩
  | enqOld lrq lbl data =>
      rw [Table.step, Table.enqOld] at hstep
      split at hstep
      · cases hstep
      · rename_i hfree
        rwa [not_or, not_not] at hfree
  | grant lrq =>
      by_contra hr
      rw [Table.step, Table.grant, if_pos (show lrq ∉ t.requests from hr)] at hstep
      cases hstep
  | writeData lrq data =>
      by_contra hr
      rw [Table.step, Table.writeData, if_pos (show lrq ∉ t.requests from hr)] at hstep
      cases hstep
  | releaseRequest lrq =>
      by_contra hr
      rw [Table.step, Table.releaseRequest, if_pos (show lrq ∉ t.requests from hr)] at hstep
      cases hstep

theorem sound_init (h : system.init t) : Sound t := by
  obtain ⟨hheaders, hlocks, hrequests⟩ := h
  refine ⟨⟨fun _ => [], ?_, fun _ _ x hx => ?_, fun _ _ b => ?_, fun _ _ => .nil, fun b hb => ?_,
    fun _ hb => hb⟩, ?_, ?_, fun r hr => ?_⟩
  · refine ⟨fun x hx => ⟨List.nodup_singleton x, ?_⟩, fun x hx y hy hne z hz hz' => hne ?_⟩
    · rw [List.singleton_append, List.isChain_pair]
      exact hheaders x hx
    · rw [← List.mem_singleton.mp hz, ← List.mem_singleton.mp hz']
  · cases hx
  · rw [hlocks]
    exact ⟨nofun, nofun⟩
  · rw [hlocks] at hb
    cases hb
  · rw [hlocks]
    exact List.nodup_nil
  · rw [hlocks]
    exact List.not_mem_nil
  · rw [hrequests] at hr
    cases hr

theorem sound_reachable (h : Transition.Reachable system t) : Sound t := by
  refine h.invariant (fun _ => sound_init) fun t a t' hsound hstep => ?_
  obtain ⟨t'', hstep', hsound'⟩ := hsound.step (valid_of_step hstep)
  rwa [Option.some.inj (hstep'.symm.trans hstep)] at hsound'

end

/-! ## Queries -/

/-- The data other than 0 of the locks with this series and parent -/
def Table.values (t : Table) (series parent : ℕ) : List SLONG :=
  ((t.locks.filter fun b => (t.lbl b).series = series ∧ (t.lbl b).parent = parent).map
    fun b => (t.lbl b).data).filter (· ≠ 0)

/-- The first of the data in an order, or 0 if there are none -/
def Best (le : ℤ → ℤ → Prop) (V : List SLONG) (v : SLONG) : Prop :=
  (V = [] → v = 0) ∧ (V ≠ [] → v ∈ V ∧ ∀ w ∈ V, le v.toInt w.toInt)

/-- The aggregates of some data -/
structure Exact (V : List SLONG) (query : Aggregate → Option SLONG) : Prop where
  min : ∃ v, query .min = some v ∧ Best (· ≤ ·) V v
  max : ∃ v, query .max = some v ∧ Best (· ≥ ·) V v
  sum : query .sum = some (BitVec.ofInt 32 (V.map BitVec.toInt).sum)
  cnt : query .cnt = some (BitVec.ofNat 32 V.length)
  any : query .any = some (if V = [] then 0 else 1)

section

variable {t : Table} {series parent fuel : ℕ} {x : Node} {L : List ℕ} {D V V' : List SLONG}
  {aggregate : Aggregate} {le : ℤ → ℤ → Prop} {v data count : SLONG}

/-- The data of the locks with this parent, in the order of a queue -/
def dataOf (t : Table) (parent : ℕ) (L : List ℕ) : List SLONG :=
  (L.filter fun b => (t.lbl b).parent = parent).map fun b => (t.lbl b).data

theorem dataOf_cons_of_ne {b : ℕ} (h : (t.lbl b).parent ≠ parent) :
    dataOf t parent (b :: L) = dataOf t parent L := by
  rw [dataOf, List.filter_cons_of_neg (by simpa using h)]
  rfl

theorem dataOf_cons {b : ℕ} (h : (t.lbl b).parent = parent) :
    dataOf t parent (b :: L) = (t.lbl b).data :: dataOf t parent L := by
  rw [dataOf, List.filter_cons_of_pos (by simpa using h)]
  rfl

/-! ### The loops -/

/-- What the loop forward does with the data that it finds -/
def collect (aggregate : Aggregate) : List SLONG → SLONG × SLONG → SLONG × SLONG
  | [], found => found
  | v :: D, (data, count) =>
      match aggregate with
      | .min => (v, count)
      | .any => (data, count + 1)
      | .cnt => collect aggregate D (data, count + 1)
      | .avg => collect aggregate D (data + v, count + 1)
      | .sum => collect aggregate D (data + v, count)
      | .max => (data, count)

theorem queryLoop_eq (haggregate : aggregate ≠ .max)
    (hpath : Path t.links.next (.header series) x (L.map .lock)) (hfuel : L.length < fuel) :
    t.queryLoop series parent aggregate fuel x (data, count) =
      some (collect aggregate (dataOf t parent L) (data, count)) := by
  induction L generalizing fuel x data count with
  | nil =>
      cases hpath
      obtain ⟨fuel, rfl⟩ := Nat.exists_eq_add_one_of_ne_zero hfuel.ne'
      rw [Table.queryLoop, if_pos rfl]
      rfl
  | cons b L ih =>
      obtain ⟨fuel, rfl⟩ := Nat.exists_eq_add_one_of_ne_zero (Nat.ne_zero_of_lt hfuel)
      rw [List.map_cons] at hpath
      cases hpath with
      | cons hrest =>
          have hnext : ∀ data count, t.queryLoop series parent aggregate fuel _ (data, count) = _ :=
            fun _ _ => ih hrest (Nat.lt_of_succ_lt_succ hfuel)
          unfold Table.queryLoop
          dsimp only
          by_cases hparent : (t.lbl b).parent = parent
          · rw [if_neg (not_not.mpr hparent), dataOf_cons hparent]
            cases aggregate with
            | min => rfl
            | any => rfl
            | cnt => exact hnext ..
            | avg => exact hnext ..
            | sum => exact hnext ..
            | max => exact absurd rfl haggregate
          · rw [if_pos hparent, dataOf_cons_of_ne hparent]
            exact hnext ..

theorem maxLoop_eq (hpath : Path t.links.prev (.header series) x (L.map .lock))
    (hfuel : L.length < fuel) :
    t.maxLoop series parent fuel x = some ((dataOf t parent L).headD 0) := by
  induction L generalizing fuel x with
  | nil =>
      cases hpath
      obtain ⟨fuel, rfl⟩ := Nat.exists_eq_add_one_of_ne_zero hfuel.ne'
      rw [Table.maxLoop, if_pos rfl]
      rfl
  | cons b L ih =>
      obtain ⟨fuel, rfl⟩ := Nat.exists_eq_add_one_of_ne_zero (Nat.ne_zero_of_lt hfuel)
      rw [List.map_cons] at hpath
      cases hpath with
      | cons hrest =>
          rw [Table.maxLoop]
          by_cases hparent : (t.lbl b).parent = parent
          · rw [if_neg (not_not.mpr hparent), dataOf_cons hparent, List.headD_cons]
          · rw [if_pos hparent, dataOf_cons_of_ne hparent]
            exact ih hrest (Nat.lt_of_succ_lt_succ hfuel)

theorem collect_min : (collect .min D (data, count)).1 = D.headD data := by
  cases D <;> rfl

theorem collect_any : (collect .any D (data, count)).2 = if D = [] then count else count + 1 := by
  cases D <;> rfl

theorem collect_cnt : (collect .cnt D (data, count)).2 = count + BitVec.ofNat 32 D.length := by
  induction D generalizing count with
  | nil => exact (BitVec.add_zero count).symm
  | cons v D ih =>
      rw [collect, ih, List.length_cons, Nat.add_comm, BitVec.ofNat_add, BitVec.add_assoc]
      rfl

theorem collect_sum :
    (collect .sum D (data, count)).1 = data + BitVec.ofInt 32 (D.map BitVec.toInt).sum := by
  induction D generalizing data with
  | nil => exact (BitVec.add_zero data).symm
  | cons v D ih =>
      rw [collect, ih, List.map_cons, List.sum_cons, BitVec.ofInt_add, BitVec.ofInt_toInt,
        BitVec.add_assoc]

/-! ### The smallest and the largest data -/

theorem Best.perm (h : Best le V v) (hperm : V.Perm V') : Best le V' v := by
  refine ⟨fun hnil => h.1 ?_, fun hne => ?_⟩
  · rwa [hnil, List.perm_nil] at hperm
  · have hne' : V ≠ [] := by
      rintro rfl
      exact hne (List.nil_perm.mp hperm)
    exact ⟨hperm.mem_iff.mp (h.2 hne').1, fun w hw => (h.2 hne').2 w (hperm.mem_iff.mpr hw)⟩

theorem best_head (hrefl : ∀ a, le a a)
    (hD : D.Pairwise fun v w => le v.toInt w.toInt) : Best le D (D.headD 0) := by
  cases D with
  | nil => exact ⟨fun _ => rfl, fun hne => absurd rfl hne⟩
  | cons v D =>
      refine ⟨fun hnil => absurd hnil (List.cons_ne_nil v D), fun _ => ⟨List.mem_cons_self, ?_⟩⟩
      intro w hw
      rcases List.mem_cons.mp hw with rfl | hw
      · exact hrefl _
      · exact (List.pairwise_cons.mp hD).1 w hw

/-! ### The queue and the locks -/

variable {Q : Node → List Node}

theorem exists_lbls (hq : Queues t (fun b => b ∈ t.locks) Q) (hs : series < LCK_MAX_SERIES) :
    ∃ L : List ℕ, L.map .lock = Q (.header series) := by
  have hrange : Q (.header series) ∈ {l | ∀ x ∈ l, x ∈ Set.range Node.lock} := fun x hx => by
    obtain ⟨b, rfl⟩ := hq.lock_of_mem series hs x hx
    exact ⟨b, rfl⟩
  rwa [← Set.range_list_map] at hrange

theorem pairwise_dataOf (hq : Queues t (fun b => b ∈ t.locks) Q) (hs : series < LCK_MAX_SERIES)
    (hL : L.map .lock = Q (.header series)) :
    (dataOf t parent L).Pairwise fun v w => v.toInt ≤ w.toInt := by
  have hordered := hq.ordered series hs
  rw [← hL, List.pairwise_map] at hordered
  rw [dataOf, List.pairwise_map]
  refine (hordered.sublist List.filter_sublist).imp_of_mem fun {b c} hb hc hbc => hbc ?_
  have hparent := fun b (hb : b ∈ L.filter fun b => (t.lbl b).parent = parent) =>
    of_decide_eq_true (List.mem_filter.mp hb).2
  rw [hparent b hb, hparent c hc]

/-- The queue has the data of all locks of the series with this parent. -/
theorem perm_dataOf (hq : Queues t (fun b => b ∈ t.locks) Q) (hnodup : t.locks.Nodup)
    (hs : series < LCK_MAX_SERIES) (hparent : parent ≠ 0)
    (hL : L.map .lock = Q (.header series)) :
    (dataOf t parent L).Perm (t.values series parent) := by
  have hnodupL : L.Nodup := by
    have hring := (List.nodup_cons.mp (hq.rings.ring _ (header_mem hs)).nodup).2
    rw [← hL] at hring
    exact hring.of_map _
  have hmem : ∀ b, b ∈ L ↔ b ∈ t.locks ∧ Counts t series b := fun b => by
    rw [← hq.mem_iff series hs b, ← hL, List.mem_map_of_injective fun _ _ => Node.lock.inj]
  rw [dataOf, Table.values, List.filter_map, List.filter_filter]
  refine List.Perm.map _ ((List.perm_ext_iff_of_nodup (hnodupL.filter _) (hnodup.filter _)).mpr ?_)
  intro b
  rw [List.mem_filter, List.mem_filter, hmem b, Bool.and_eq_true, decide_eq_true_iff,
    Function.comp_apply, decide_eq_true_iff, decide_eq_true_iff]
  constructor
  · rintro ⟨⟨hb, hseries, -, hdata⟩, heq⟩
    exact ⟨hb, hdata, hseries, heq⟩
  · rintro ⟨hb, hdata, hseries, heq⟩
    refine ⟨⟨hb, hseries, ?_, hdata⟩, heq⟩
    rwa [heq]

/-- What a query makes of `data` and `count` -/
def answer (aggregate : Aggregate) (found : SLONG × SLONG) : SLONG :=
  match aggregate with
  | .cnt => found.2
  | .any => found.2
  | .avg => if found.2 ≠ 0 then found.1.sdiv found.2 else 0
  | _ => found.1

theorem queryData_eq {r : ℕ} (hr : r ∈ t.requests) (hs : series < LCK_MAX_SERIES)
    (hmax : aggregate ≠ .max) {found : SLONG × SLONG}
    (hloop : t.queryLoop series (t.lrq r).lock aggregate (t.locks.length + 1)
      (t.links.next (.header series)) (0, 0) = some found) :
    t.queryData r series aggregate = some (answer aggregate found) := by
  unfold Table.queryData
  rw [if_neg (not_not.mpr hr), if_neg (not_not.mpr hs)]
  cases aggregate with
  | max => exact absurd rfl hmax
  | min | cnt | sum | avg | any =>
      dsimp only
      rw [hloop]
      rfl

/-- Queries answer from the queue. -/
theorem Sound.query (h : Sound t) {r : ℕ} (hr : r ∈ t.requests) (hs : series < LCK_MAX_SERIES) :
    ∃ D, D.Perm (t.values series (t.lrq r).lock) ∧ D.Pairwise (fun v w => v.toInt ≤ w.toInt) ∧
      t.queryData r series .max = some (D.reverse.headD 0) ∧
      ∀ aggregate, aggregate ≠ .max →
        t.queryData r series aggregate = some (answer aggregate (collect aggregate D (0, 0))) := by
  obtain ⟨Q, hq⟩ := h.queues
  obtain ⟨L, hL⟩ := exists_lbls hq hs
  have hparent : (t.lrq r).lock ≠ 0 := ne_of_mem_of_not_mem (h.lock_mem r hr) h.zero
  have hring := hq.rings.ring _ (header_mem hs)
  have hfuel : L.length < t.locks.length + 1 := by
    have hle := hq.length_le hs
    rw [← hL, List.length_map] at hle
    exact Nat.lt_succ_of_le hle
  rw [← hL] at hring
  refine ⟨dataOf t (t.lrq r).lock L, perm_dataOf hq h.nodup hs hparent hL,
    pairwise_dataOf hq hs hL, ?_, fun aggregate hmax =>
      queryData_eq hr hs hmax (queryLoop_eq hmax hring.path_next hfuel)⟩
  have hback := hring.path_prev
  rw [← List.map_reverse] at hback
  rw [Table.queryData, if_neg (not_not.mpr hr), if_neg (not_not.mpr hs)]
  dsimp only
  rw [maxLoop_eq hback (by rwa [List.length_reverse]), dataOf, dataOf, List.filter_reverse,
    List.map_reverse]

end

/-- In every run every valid call returns, and queries give the aggregates of the data of the
locks that have the series and the parent. -/
theorem query_exact {t : Table} (h : Transition.Reachable system t) :
    (∀ a, Valid t a → ∃ t', t.step a = some t') ∧
      ∀ r ∈ t.requests, ∀ series < LCK_MAX_SERIES,
        Exact (t.values series (t.lrq r).lock) (t.queryData r series) := by
  have hsound := sound_reachable h
  refine ⟨fun a hv => ?_, fun r hr series hs => ?_⟩
  · obtain ⟨t', hstep, -⟩ := hsound.step hv
    exact ⟨t', hstep⟩
  · obtain ⟨D, hperm, hsorted, hmax, hquery⟩ := hsound.query hr hs
    refine ⟨⟨D.headD 0, ?_, ?_⟩, ⟨D.reverse.headD 0, hmax, ?_⟩, ?_, ?_, ?_⟩
    · rw [hquery .min nofun]
      exact congrArg some collect_min
    · exact (best_head le_refl hsorted).perm hperm
    · have hbest : Best (· ≥ ·) D.reverse (D.reverse.headD 0) :=
        best_head le_refl (List.pairwise_reverse.mpr hsorted)
      exact hbest.perm (D.reverse_perm.trans hperm)
    · rw [hquery .sum nofun, ← (hperm.map BitVec.toInt).sum_eq]
      exact congrArg some (collect_sum.trans (BitVec.zero_add _))
    · rw [hquery .cnt nofun, ← hperm.length_eq]
      exact congrArg some (collect_cnt.trans (BitVec.zero_add _))
    · have hnil : D = [] ↔ t.values series (t.lrq r).lock = [] := by
        rw [← List.length_eq_zero_iff, hperm.length_eq, List.length_eq_zero_iff]
      rw [hquery .any nofun, ← if_congr hnil rfl rfl]
      exact congrArg some collect_any

/-- Two locks of one parent, a grant that carries data over, and data written -/
def twoLocks : List Action :=
  [.enqNew 1 10 9 none 0, .enqNew 2 20 0 (some 1) 5, .enqNew 3 30 0 (some 1) 7, .enqOld 4 20 9,
    .grant 4, .writeData 3 (-3)]

def empty : Table := ⟨⟨id, id⟩, fun _ => ⟨0, 0, 0⟩, [], fun _ => ⟨0, 0⟩, []⟩

theorem query_exact_twoLocks : ∃ t, twoLocks.foldlM Table.step empty = some t ∧
    t.values 0 10 = [-3, 9] ∧ Exact (t.values 0 10) (t.queryData 1 0) := by
  have hreturn : (twoLocks.foldlM Table.step empty).map
      (fun t => (t.requests, t.values 0 10, (t.lrq 1).lock)) = some ([4, 3, 2, 1], [-3, 9], 10) := by
    decide
  obtain ⟨t, ht, hfields⟩ := Option.map_eq_some_iff.mp hreturn
  obtain ⟨hrequests, hrest⟩ := Prod.ext_iff.mp hfields
  obtain ⟨hvalues, hlock⟩ := Prod.ext_iff.mp hrest
  have hempty : system.init empty := ⟨fun _ _ => ⟨rfl, rfl⟩, rfl, rfl⟩
  have hreach : Transition.Reachable system t :=
    Transition.Reachable.of_foldlM (fun _ _ _ _ hstep => hstep) (.init hempty) ht
  have hmem : 1 ∈ t.requests := by
    rw [show t.requests = [4, 3, 2, 1] from hrequests]
    decide
  have hexact := (query_exact hreach).2 1 hmem 0 (by decide)
  rw [show (t.lrq 1).lock = 10 from hlock] at hexact
  exact ⟨t, ht, hvalues, hexact⟩

end Firebird.Series
