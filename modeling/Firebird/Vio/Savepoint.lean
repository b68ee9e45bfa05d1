import Firebird.Lib.Transition
import Firebird.Vio.Version
import Mathlib.Logic.Function.Basic

/-! # Savepoints of a transaction (`jrd/vio.cpp`, `jrd/idx.cpp`)

One transaction stores, modifies and erases records of a relation under savepoints. Records
have nothing to do with each other, so all that concerns a record is kept with it: its chain
of versions, its nodes in the indexes, and what every savepoint has of it. `VIO_backout`,
`VIO_modify` and the others are taken here as what they do to the chain.
-/

namespace Firebird.Vio

open Transition (System)

/-- The formats and the indexes of a relation: `fmt_length`, the indexes in the order of the
index root page, and `BTR_key`, which reads the fields of the format only. -/
structure Relation (Key : Type) where
  fmtLength : ℕ → ℕ
  fmtLength_pos : ∀ f, 0 < fmtLength f
  indexes : List ℕ
  nodup : indexes.Nodup
  key : ℕ → Data → Key
  key_append : ∀ i f bytes tail, bytes.length = fmtLength f →
    key i ⟨f, bytes ++ tail⟩ = key i ⟨f, bytes⟩

/-- A record under `vct_undo`. Without data its `rec_length` is 0. The flags are
`REC_same_tx` and `REC_new_version`. -/
structure Undo where
  data : Data
  sameTx : Bool
  newVersion : Bool
deriving DecidableEq

/-- What a savepoint has of a record: its bit in `vct_records`, and its item in `vct_undo` -/
inductive Mark where
  | unseen
  | seen (undo : Option Undo)
deriving DecidableEq

/-- A record: its versions, how many nodes every index has for it with a key, and the
savepoints from the innermost one out. -/
structure Record (Key : Type) where
  chain : List Version
  nodes : ℕ → Key → ℕ
  marks : List Mark

variable {Key : Type} [DecidableEq Key] (T : JrdTra) (R : Relation Key)

/-! ## Indexes -/

/-- `idx_e_ok`, `idx_e_keytoobig`, `idx_e_duplicate` -/
inductive IdxE where
  | ok
  | keyTooBig
  | duplicate
deriving DecidableEq

/-- `BTR_insert`. A node may be there already; then there are two. -/
def btrInsert (nodes : ℕ → Key → ℕ) (i : ℕ) (key : Key) : ℕ → Key → ℕ :=
  Function.update nodes i (Function.update (nodes i) key (nodes i key + 1))

/-- `BTR_remove`. A node that does not exist does not matter. -/
def btrRemove (nodes : Key → ℕ) (key : Key) : Key → ℕ :=
  Function.update nodes key (nodes key - 1)

/-- The loop of `IDX_garbage_collect` over the records that go, for one index. -/
def collect (key : Data → Key) (staying : List Data) : List Data → (Key → ℕ) → Key → ℕ
  | [], nodes => nodes
  | rec1 :: going, nodes =>
      if (∃ rec2 ∈ going, key rec2 = key rec1) ∨ ∃ rec2 ∈ staying, key rec2 = key rec1 then
        collect key staying going nodes
      else collect key staying going (btrRemove nodes (key rec1))

/-- `IDX_garbage_collect` -/
def idxGarbageCollect (nodes : ℕ → Key → ℕ) (going staying : List Data) : ℕ → Key → ℕ :=
  fun i => if i ∈ R.indexes then collect (R.key i) staying going (nodes i) else nodes i

/-- The loop of `IDX_store` and `IDX_modify`: the key of `new` is inserted into the indexes
that do not have it as `same`; `errs` tells what `BTR_key` and `insert_key` return. -/
def insertLoop (new : Data) (same : ℕ → Bool) (errs : ℕ → IdxE) :
    List ℕ → (ℕ → Key → ℕ) → (ℕ → Key → ℕ) × Bool
  | [], nodes => (nodes, true)
  | i :: rest, nodes =>
      if errs i = .keyTooBig then (nodes, false)
      else if same i then insertLoop new same errs rest nodes
      else if errs i = .duplicate then (btrInsert nodes i (R.key i new), false)
      else insertLoop new same errs rest (btrInsert nodes i (R.key i new))

/-- `IDX_store` -/
def idxStore (new : Data) (errs : ℕ → IdxE) (nodes : ℕ → Key → ℕ) : (ℕ → Key → ℕ) × Bool :=
  insertLoop R new (fun _ => false) errs R.indexes nodes

/-- `IDX_modify` -/
def idxModify (org new : Data) (errs : ℕ → IdxE) (nodes : ℕ → Key → ℕ) :
    (ℕ → Key → ℕ) × Bool :=
  insertLoop R new (fun i => R.key i new = R.key i org) errs R.indexes nodes

/-! ## Versions -/

/-- `list_staying` -/
def listStaying (chain : List Version) : List Data := chain.filterMap Version.data

namespace Record

variable (s : Record Key)

/-- `VIO_backout` -/
def backout : Record Key :=
  match s.chain with
  | [] => s
  | v :: rest =>
      { s with
        chain := rest
        nodes :=
          match v.data with
          | none => s.nodes
          | some data => idxGarbageCollect R s.nodes [data] (listStaying rest) }

/-- `garbage_collect_idx` -/
def garbageCollectIdx (going : Data) (stayingData : Option Data) : Record Key :=
  { s with
    nodes := idxGarbageCollect R s.nodes [going] (stayingData.toList ++ listStaying s.chain) }

/-- The branch of `prepare_update` for dead versions, as often as it is taken -/
def backoutDead : List Version → (ℕ → Key → ℕ) → List Version × (ℕ → Key → ℕ)
  | [], nodes => ([], nodes)
  | v :: rest, nodes =>
      if T.Dead v then
        backoutDead rest
          (match v.data with
          | none => nodes
          | some data => idxGarbageCollect R nodes [data] (listStaying rest))
      else (v :: rest, nodes)

/-- `purge` -/
def purge : Record Key :=
  match s.chain with
  | [] => s
  | v :: rest =>
      { s with
        chain := [v]
        nodes := idxGarbageCollect R s.nodes (listStaying rest).reverse v.data.toList }

/-- `expunge` -/
def expunge : Record Key :=
  { s with
    chain := []
    nodes := idxGarbageCollect R s.nodes (listStaying s.chain).reverse [] }

/-! ## `verb_post` -/

/-- `verb_post`, for the innermost savepoint -/
def verbPost (oldData : Option Data) (sameTx newVer : Bool) : Record Key :=
  match s.marks with
  | [] => s
  | .unseen :: marks =>
      match oldData with
      | some data => { s with marks := .seen (some ⟨data, sameTx, false⟩) :: marks }
      | none =>
          if sameTx then { s with marks := .seen (some ⟨⟨0, []⟩, true, newVer⟩) :: marks }
          else { s with marks := .seen none :: marks }
  | .seen undo :: marks =>
      if sameTx then
        let item : Undo :=
          match undo with
          | some u => { u with sameTx := true }
          | none => ⟨⟨0, []⟩, true, true⟩
        let s := { s with marks := .seen (some item) :: marks }
        match oldData with
        | some data => s.garbageCollectIdx R data (undo.map fun u => u.data)
        | none => s
      else
        match oldData with
        | some data => s.garbageCollectIdx R data (undo.map fun u => u.data)
        | none => s

/-! ## Statements -/

/-- `VIO_store` and `IDX_store`, on a free record number; whether the statement succeeds. -/
def store (new : Data) (errs : ℕ → IdxE) : Option (Record Key × Bool) :=
  if s.chain = [] ∧ new.bytes.length = R.fmtLength new.format then
    let s := verbPost R { s with chain := [⟨T.number, new.format, some new.bytes⟩] } none false false
    let r := idxStore R new errs s.nodes
    some ({ s with nodes := r.1 }, r.2)
  else none

/-- `VIO_modify` and `IDX_modify`; `new` has the current format. The record buffer may be
longer than the record, by `tail`. -/
def modify (new : Data) (tail : List SCHAR) (errs : ℕ → IdxE) : Option (Record Key × Bool) :=
  match backoutDead T R s.chain s.nodes with
  | ([], _) => none
  | (v :: rest, nodes) =>
      match v.data with
      | none => none
      | some org =>
          if T.Sees v ∧ new.bytes.length = R.fmtLength new.format then
            let s :=
              if T.Owns v ∧ v.format = new.format then
                -- `update_in_place`
                verbPost R
                  { s with chain := ⟨v.transaction, new.format, some new.bytes⟩ :: rest, nodes }
                  (some ⟨org.format, org.bytes ++ tail⟩) false false
              else
                verbPost R
                  { s with chain := ⟨T.number, new.format, some new.bytes⟩ :: v :: rest, nodes }
                  none false false
            let r := idxModify R org new errs s.nodes
            some ({ s with nodes := r.1 }, r.2)
          else none

/-- `VIO_erase` -/
def erase : Option (Record Key) :=
  match backoutDead T R s.chain s.nodes with
  | ([], _) => none
  | (v :: rest, nodes) =>
      if T.Sees v ∧ v.data.isSome then
        some (verbPost R { s with chain := ⟨T.number, v.format, none⟩ :: v :: rest, nodes }
          none (T.Owns v) false)
      else none

/-- `VIO_writelock` -/
def writelock : Option (Record Key) :=
  match backoutDead T R s.chain s.nodes with
  | ([], _) => none
  | (v :: rest, nodes) =>
      if T.Sees v ∧ v.data.isSome then
        if T.Owns v then some { s with chain := v :: rest, nodes }
        else some (verbPost R { s with chain := ⟨T.number, v.format, v.image⟩ :: v :: rest, nodes }
          none false false)
      else none

/-! ## `VIO_verb_cleanup` -/

/-- The record as it was is written over the current version; `new_rpb` has the format of
this one, and the length of the undo record. -/
def restore (data : Data) : Option (Record Key) :=
  match s.chain with
  | [] => none
  | v :: rest =>
      match v.data with
      | none => none
      | some org =>
          some (garbageCollectIdx R
            { s with chain := ⟨v.transaction, v.format, some data.bytes⟩ :: rest } org none)

/-- The savepoint is undone, as far as a record goes; `none` is a BUGCHECK. -/
def undo : Option (Record Key) :=
  match s.marks with
  | [] => some s
  | .unseen :: marks => some { s with marks }
  | .seen item :: marks =>
      match s.chain with
      | [] => none
      | v :: _ =>
          if T.Owns v then
            match item with
            | none => some { s.backout R with marks }
            | some u =>
                let s := { s with marks }
                let s := if u.sameTx then s.backout R else s
                if u.data.bytes = [] then
                  if u.sameTx ∧ u.newVersion then
                    if s.chain = [] then none else some (s.backout R)
                  else some s
                else s.restore R u.data
          else none

/-- The savepoint is posted to the one before, if there is one. -/
def post : Record Key :=
  match s.marks with
  | [] => s
  | mark :: marks =>
      let s := { s with marks }
      match mark with
      | .unseen => s
      | .seen none => s.verbPost R none false false
      | .seen (some u) =>
          if u.data.bytes = [] then
            if u.sameTx then s.verbPost R none true u.newVersion else s
          else s.verbPost R (some u.data) u.sameTx u.newVersion

end Record

/-! ## Runs -/

/-- A savepoint: `SAV_trans_level`. The chains at its start are not kept by the code. -/
structure Level where
  transLevel : Bool
  start : ℕ → List Version

/-- The records by their numbers, and the savepoints, the innermost first -/
structure Db (Key : Type) where
  records : ℕ → Record Key
  levels : List Level

namespace Db

variable {T R} (s : Db Key)

/-- The transaction-level savepoint is given up when it, or the one to be cleaned up, is
`large`. It is the first savepoint, so `VIO_verb_cleanup` has nowhere to post it to. -/
def dropTransLevel (large : Bool) (above : ℕ) : Db Key :=
  match s.levels.drop above with
  | [l] =>
      if l.transLevel ∧ large then
        { records := fun r => { s.records r with marks := (s.records r).marks.take above }
          levels := s.levels.take above }
      else s
  | _ => s

/-- `VIO_verb_cleanup`: `undo` tells whether `sav_verb_count` is not 0. The other two are what
`VIO_savepoint_large` says of the savepoint, and in the end of the last one left. -/
inductive Cleanup (T : JrdTra) (R : Relation Key) (s : Db Key) (large large' : Bool) :
    Bool → Db Key → Prop where
  | none {undo : Bool} : s.levels = [] → Cleanup T R s large large' undo s
  | undo {records : ℕ → Record Key} : s.levels ≠ [] →
      (∀ r, ((s.dropTransLevel large 1).records r).undo T R = some (records r)) →
      Cleanup T R s large large' true
        (dropTransLevel ⟨records, (s.dropTransLevel large 1).levels.tail⟩ large' 0)
  | post : s.levels ≠ [] →
      Cleanup T R s large large' false
        (dropTransLevel ⟨fun r => ((s.dropTransLevel large 1).records r).post R,
          (s.dropTransLevel large 1).levels.tail⟩ large' 0)

/-- The savepoint of `VIO_start_save_point` -/
def start (transLevel : Bool) : Db Key where
  records r := { s.records r with marks := .unseen :: (s.records r).marks }
  levels := ⟨transLevel, fun r => (s.records r).chain⟩ :: s.levels

/-- One record has changed. -/
def set (r : ℕ) (rec : Record Key) : Db Key := { s with records := Function.update s.records r rec }

end Db

/-- What the transaction does; and the garbage collection of a record. What
`VIO_savepoint_large` says matters to a statement that fails. -/
inductive Event where
  | start (transLevel : Bool)
  | store (r : ℕ) (new : Data) (errs : ℕ → IdxE) (large large' : Bool)
  | modify (r : ℕ) (new : Data) (tail : List SCHAR) (errs : ℕ → IdxE) (large large' : Bool)
  | erase (r : ℕ)
  | writelock (r : ℕ)
  | release (large large' : Bool)
  | rollback (large large' : Bool)
  | backout (r : ℕ)
  | purge (r : ℕ)
  | expunge (r : ℕ)

/-- The steps. A statement has a savepoint; when it fails this is undone. -/
inductive Step (s : Db Key) : Event → Db Key → Prop where
  | start {transLevel : Bool} : (transLevel = true → s.levels = []) →
      Step s (.start transLevel) (s.start transLevel)
  | store {r : ℕ} {new : Data} {errs : ℕ → IdxE} {large large' : Bool} {rec : Record Key} :
      s.levels ≠ [] → (s.records r).store T R new errs = some (rec, true) →
      Step s (.store r new errs large large') (s.set r rec)
  | storeFails {r : ℕ} {new : Data} {errs : ℕ → IdxE} {large large' : Bool} {rec : Record Key}
      {s' : Db Key} : s.levels ≠ [] → (s.records r).store T R new errs = some (rec, false) →
      (s.set r rec).Cleanup T R large large' true s' → Step s (.store r new errs large large') s'
  | modify {r : ℕ} {new : Data} {tail : List SCHAR} {errs : ℕ → IdxE} {large large' : Bool}
      {rec : Record Key} : s.levels ≠ [] →
      (s.records r).modify T R new tail errs = some (rec, true) →
      Step s (.modify r new tail errs large large') (s.set r rec)
  | modifyFails {r : ℕ} {new : Data} {tail : List SCHAR} {errs : ℕ → IdxE} {large large' : Bool}
      {rec : Record Key} {s' : Db Key} : s.levels ≠ [] →
      (s.records r).modify T R new tail errs = some (rec, false) →
      (s.set r rec).Cleanup T R large large' true s' →
      Step s (.modify r new tail errs large large') s'
  | erase {r : ℕ} {rec : Record Key} : s.levels ≠ [] → (s.records r).erase T R = some rec →
      Step s (.erase r) (s.set r rec)
  | writelock {r : ℕ} {rec : Record Key} : (s.records r).writelock T R = some rec →
      Step s (.writelock r) (s.set r rec)
  | release {large large' : Bool} {s' : Db Key} : s.Cleanup T R large large' false s' →
      Step s (.release large large') s'
  | rollback {large large' : Bool} {s' : Db Key} : s.Cleanup T R large large' true s' →
      Step s (.rollback large large') s'
  | backout {r : ℕ} {v : Version} {rest : List Version} : (s.records r).chain = v :: rest →
      T.Dead v → Step s (.backout r) (s.set r ((s.records r).backout R))
  | purge {r : ℕ} {v : Version} {rest : List Version} : (s.records r).chain = v :: rest →
      v.deleted = false → v.transaction < T.oldestActive → T.state v.transaction = .committed →
      Step s (.purge r) (s.set r ((s.records r).purge R))
  | expunge {r : ℕ} {v : Version} {rest : List Version} : (s.records r).chain = v :: rest →
      v.deleted = true → v.transaction < T.oldestActive → T.state v.transaction = .committed →
      Step s (.expunge r) (s.set r ((s.records r).expunge R))

/-- The transaction finds any records, with index nodes for all their versions, of which
none is its own. -/
def system : System (Db Key) Event where
  init s := s.levels = [] ∧ ∀ r, (s.records r).marks = [] ∧
    ∀ v ∈ (s.records r).chain, ¬T.Owns v ∧ ∀ d, v.data = some d →
      d.bytes.length = R.fmtLength d.format ∧
        ∀ i ∈ R.indexes, 0 < (s.records r).nodes i (R.key i d)
  step := Step T R

end Firebird.Vio
