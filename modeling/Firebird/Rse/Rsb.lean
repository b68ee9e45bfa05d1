import Mathlib.Data.List.Basic
import Mathlib.Logic.Function.Basic
import Firebird.Lib.Settles

/-! # Record source blocks

The execution of a query plan: `rse.cpp` opens a tree of record source blocks
and reads it one record at a time, and `EVL_boolean` (`evl.cpp`) tests the
records at hand and reads subqueries of its own. The state of a call is the
request: a record parameter block for each stream, and an impure area for each
record source block.

The loops of the source are recursive functions given a number of steps; a
function that runs out of them returns `outOfSteps`.
-/

namespace Firebird.Rse

/-- Why a call did not return: an error that was posted, or no steps left -/
inductive Stop
  | bad_limit_param
  | bad_skip_param
  | outOfSteps
deriving DecidableEq, Repr

/-- `RPB`: where a stream stands and its record at hand, `none` for a record
whose `rec_format` is null. -/
structure Rpb (Row : Type) where
  rpb_number : Int
  rpb_record : Option Row

/-- The records at hand, stream by stream -/
abbrev Env (Row : Type) := Nat → Option Row

/-- `IRSB`: the impure area of a record source block, the fields of its kinds
side by side -/
structure Irsb where
  irsb_open : Bool
  irsb_first : Bool
  irsb_mustread : Bool
  irsb_joined : Bool
  irsb_in_opened : Bool
  irsb_join_full : Bool
  irsb_count : Int
  irsb_bitmap : List Nat

/-- `JRD_REQ`: what a request keeps for its record source blocks -/
structure Req (Row : Type) where
  rpbs : Nat → Rpb Row
  impures : Nat → Irsb
  req_null : Bool
  /-- `Config::getCompleteBooleanEvaluation` -/
  bEvalCompleteExpression : Bool

namespace Req

variable {Row : Type}

def env (q : Req Row) : Env Row := fun s => (q.rpbs s).rpb_record

def setRpb (q : Req Row) (s : Nat) (rpb : Rpb Row) : Req Row :=
  { q with rpbs := Function.update q.rpbs s rpb }

def setImpure (q : Req Row) (i : Nat) (irsb : Irsb) : Req Row :=
  { q with impures := Function.update q.impures i irsb }

def setCount (q : Req Row) (i : Nat) (count : Int) : Req Row :=
  q.setImpure i { q.impures i with irsb_count := count }

def setNull (q : Req Row) (null : Bool) : Req Row := { q with req_null := null }

/-- `rpb->rpb_number = -1` -/
def rewind (q : Req Row) (s : Nat) : Req Row :=
  q.setRpb s { q.rpbs s with rpb_number := -1 }

/-- The flags that `RSE_open` sets on every block -/
def opening (q : Req Row) (i : Nat) : Req Row :=
  q.setImpure i { q.impures i with irsb_first := true, irsb_open := true }

/-- `RSE_close` does nothing to a block that is not open. -/
def closing (q : Req Row) (i : Nat) (close : Req Row → Req Row) : Req Row :=
  if (q.impures i).irsb_open then
    close (q.setImpure i { q.impures i with irsb_open := false })
  else
    q

end Req

/-- Numbers and text as `MOV_compare` orders them -/
class MovCompare (Value : Type) where
  MOV_compare : Value → Value → Int

/-- The comparisons of `EVL_boolean` -/
inductive Comparison
  | nod_eql | nod_neq | nod_gtr | nod_geq | nod_lss | nod_leq
deriving DecidableEq, Repr

def Comparison.holds (comparison : Int) : Comparison → Bool
  | .nod_eql => comparison == 0
  | .nod_neq => comparison != 0
  | .nod_gtr => decide (comparison > 0)
  | .nod_geq => decide (comparison ≥ 0)
  | .nod_lss => decide (comparison < 0)
  | .nod_leq => decide (comparison ≤ 0)

mutual

/-- `JRD_NOD`: the boolean nodes. A value expression is what `EVL_expr` makes
of the records at hand, `none` for NULL. -/
inductive Nod (Row Value : Type)
  | compare (nod_type : Comparison) (arg0 arg1 : Env Row → Option Value)
  | between (arg0 arg1 arg2 : Env Row → Option Value)
  | missing (arg0 : Env Row → Option Value)
  | and (arg0 arg1 : Nod Row Value)
  | or (arg0 arg1 : Nod Row Value)
  | not (arg0 : Nod Row Value)
  | any (e_any_rsb : Rsb Row Value)

/-- `RSB`. The records of a relation stand at their record numbers, `none`
where the transaction sees no record. -/
inductive Rsb (Row Value : Type)
  | sequential (rsb_impure rsb_stream : Nat) (rsb_relation : List (Option Row))
  | indexed (rsb_impure rsb_stream : Nat) (rsb_relation : List (Option Row))
      (inversion : Env Row → List Nat)
  | boolean (rsb_impure : Nat) (condition : Nod Row Value) (rsb_next : Rsb Row Value)
  | first (rsb_impure : Nat) (count : Env Row → Int) (rsb_next : Rsb Row Value)
  | skip (rsb_impure : Nat) (count : Env Row → Int) (rsb_next : Rsb Row Value)
  | cross (rsb_impure : Nat) (rsb_arg : List (Rsb Row Value))
  | union (rsb_impure rsb_stream : Nat) (rsb_arg : List (Rsb Row Value))
      (maps : Nat → Env Row → Row)
  | left_cross (rsb_impure : Nat) (outer inner : Rsb Row Value)
      (boolean inner_boolean : Option (Nod Row Value)) (streams inner_streams : List Nat)

end

variable {Row Value : Type}

/-! ## Records -/

/-- The first record from position `k` on -/
def recordFrom : List (Option Row) → Nat → Option (Nat × Row)
  | [], _ => none
  | some row :: _, k => some (k, row)
  | none :: rows, k => recordFrom rows (k + 1)

/-- `VIO_next_record`: the next record that the transaction sees -/
def vioNextRecord (relation : List (Option Row)) (number : Int) : Option (Nat × Row) :=
  recordFrom (relation.drop (number + 1).toNat) (number + 1).toNat

/-- `VIO_get`: the record of that number, if the transaction sees it -/
def vioGet (relation : List (Option Row)) (number : Nat) : Option Row := (relation[number]?).join

/-- `SBM_next`: the next number of a bitmap -/
def sbmNext (bitmap : List Nat) (number : Int) : Option Nat :=
  (bitmap.filter fun n : Nat => decide (number < (n : Int))).min?

def joinToNulls (q : Req Row) (streams : List Nat) : Req Row :=
  streams.foldl (fun q s => q.setRpb s { q.rpbs s with rpb_record := none }) q

/-! ## Closing -/

mutual

/-- `RSE_close` -/
def rseClose : Rsb Row Value → Req Row → Req Row
  | .sequential i _ _, q => q.closing i id
  | .indexed i _ _ _, q => q.closing i id
  | .boolean i _ next, q => q.closing i (rseClose next)
  | .first i _ next, q => q.closing i (rseClose next)
  | .skip i _ next, q => q.closing i (rseClose next)
  | .cross i args, q => q.closing i (closeAll args)
  | .union i _ args _, q => q.closing i (closeNth args (q.impures i).irsb_count.toNat)
  | .left_cross i outer inner _ _ _ _, q =>
    q.closing i fun q => rseClose inner (rseClose outer q)

def closeAll : List (Rsb Row Value) → Req Row → Req Row
  | [], q => q
  | arg :: args, q => closeAll args (rseClose arg q)

def closeNth : List (Rsb Row Value) → Nat → Req Row → Req Row
  | [], _, q => q
  | arg :: _, 0, q => rseClose arg q
  | _ :: args, k + 1, q => closeNth args k q

end

/-- The inner stream of a full outer join without its boolean -/
def Rsb.full : Rsb Row Value → Rsb Row Value
  | .boolean _ _ next => next
  | rsb => rsb

/-- The boolean of the inner stream of a full outer join -/
def Rsb.condition? : Rsb Row Value → Option (Nod Row Value)
  | .boolean _ condition _ => some condition
  | _ => none

/-! ## Execution -/

section

variable [MovCompare Value]

open MovCompare

mutual

/-- `EVL_boolean`. The value is FALSE for an unknown truth too, which
`req_null` then tells. -/
def evlBoolean : Nat → Nod Row Value → Req Row → Except Stop (Bool × Req Row)
  | 0, _, _ => .error .outOfSteps
  | _ + 1, .compare nod_type arg0 arg1, q =>
    match arg0 q.env, arg1 q.env with
    | some x, some y => .ok (nod_type.holds (MOV_compare x y), q.setNull false)
    | _, _ => .ok (false, q.setNull true)
  | _ + 1, .between arg0 arg1 arg2, q =>
    match arg0 q.env, arg1 q.env, arg2 q.env with
    | some x, some y, some z =>
      .ok (decide (MOV_compare x y ≥ 0) && decide (MOV_compare x z ≤ 0), q.setNull false)
    | _, _, _ => .ok (false, q.setNull true)
  | _ + 1, .missing arg0, q => .ok ((arg0 q.env).isNone, q.setNull false)
  | n + 1, .not arg0, q => do
    let (value, q) ← evlBoolean n arg0 q
    if q.req_null then .ok (false, q) else .ok (!value, q)
  | n + 1, .and arg0 arg1, q => do
    let (value, q) ← evlBoolean n arg0 q
    let firstnull := q.req_null
    if !q.bEvalCompleteExpression && !value && !firstnull then
      .ok (false, q.setNull false)
    else do
      let (value2, q) ← evlBoolean n arg1 (q.setNull false)
      let secondnull := q.req_null
      if (!value && !firstnull) || (!value2 && !secondnull) then
        .ok (false, q.setNull false)
      else if value && value2 then
        .ok (true, q.setNull false)
      else
        .ok (false, q.setNull true)
  | n + 1, .or arg0 arg1, q => do
    let (value, q) ← evlBoolean n arg0 q
    let flags := q.req_null
    if !q.bEvalCompleteExpression && value then
      .ok (true, q.setNull false)
    else do
      let (value2, q) ← evlBoolean n arg1 (q.setNull false)
      if value || value2 then
        .ok (true, q.setNull false)
      else if flags then
        .ok (false, q.setNull true)
      else
        .ok (false, q)
  | n + 1, .any rsb, q => do
    let q ← rseOpen n rsb q
    let (value, q) ← getRecord n rsb q
    .ok (value, (rseClose rsb q).setNull false)
termination_by structural n => n

/-- A boolean that is not there lets every record pass. -/
def evlOptional : Nat → Option (Nod Row Value) → Req Row → Except Stop (Bool × Req Row)
  | 0, _, _ => .error .outOfSteps
  | _ + 1, none, q => .ok (true, q)
  | n + 1, some condition, q => evlBoolean n condition q
termination_by structural n => n

/-- `RSE_open` -/
def rseOpen : Nat → Rsb Row Value → Req Row → Except Stop (Req Row)
  | 0, _, _ => .error .outOfSteps
  | _ + 1, .sequential i s _, q => .ok ((q.opening i).rewind s)
  | _ + 1, .indexed i s _ inversion, q =>
    let q := q.opening i
    .ok ((q.setImpure i { q.impures i with irsb_bitmap := inversion q.env }).rewind s)
  | n + 1, .boolean i _ next, q => rseOpen n next (q.opening i)
  | n + 1, .first i count next, q =>
    let q := q.opening i
    let q := q.setCount i (count q.env)
    if (q.impures i).irsb_count < 0 then
      .error .bad_limit_param
    else
      rseOpen n next q
  | n + 1, .skip i count next, q =>
    let q := q.opening i
    let q := q.setCount i (count q.env)
    if (q.impures i).irsb_count < 0 then
      .error .bad_skip_param
    else
      rseOpen n next (q.setCount i ((q.impures i).irsb_count + 1))
  | _ + 1, .cross i _, q => .ok (q.opening i)
  | n + 1, .union i _ args _, q =>
    let q := q.opening i
    let q := q.setCount i 0
    match args with
    | [] => .ok q
    | arg :: _ => rseOpen n arg q
  | n + 1, .left_cross i outer _ _ _ _ _, q => do
    let q ← rseOpen n outer (q.opening i)
    .ok (q.setImpure i { q.impures i with
      irsb_first := false, irsb_in_opened := false, irsb_join_full := false
      irsb_mustread := true })
termination_by structural n => n

/-- `get_record`, in the mode `RSE_get_forward` -/
def getRecord : Nat → Rsb Row Value → Req Row → Except Stop (Bool × Req Row)
  | 0, _, _ => .error .outOfSteps
  | _ + 1, .sequential _ s relation, q =>
    match vioNextRecord relation (q.rpbs s).rpb_number with
    | some (k, row) => .ok (true, q.setRpb s ⟨k, some row⟩)
    | none => .ok (false, q)
  | n + 1, .indexed i s relation _, q => getIndexed n i s relation q
  | n + 1, .boolean _ condition next, q => getBoolean n condition next false q
  | n + 1, .first i _ next, q =>
    if (q.impures i).irsb_count ≤ 0 then
      .ok (false, q)
    else
      getRecord n next (q.setCount i ((q.impures i).irsb_count - 1))
  | n + 1, .skip i _ next, q => getSkip n i next q
  | n + 1, .cross i args, q =>
    if (q.impures i).irsb_first then do
      let (found, q) ← fetchFirst n args 0 q
      if found then
        .ok (true, q.setImpure i { q.impures i with irsb_first := false })
      else
        .ok (false, q)
    else
      fetchRecord n args (args.length - 1) q
  | n + 1, .union i s args maps, q => getUnion n i s args maps q
  | n + 1, .left_cross i outer inner boolean inner_boolean streams inner_streams, q =>
    fetchLeft n i outer inner boolean inner_boolean streams inner_streams q
termination_by structural n => n

/-- The loop of `get_record` through the bitmap of an index retrieval -/
def getIndexed : Nat → Nat → Nat → List (Option Row) → Req Row → Except Stop (Bool × Req Row)
  | 0, _, _, _, _ => .error .outOfSteps
  | n + 1, i, s, relation, q =>
    match sbmNext (q.impures i).irsb_bitmap (q.rpbs s).rpb_number with
    | none => .ok (false, q)
    | some k =>
      match vioGet relation k with
      | some row => .ok (true, q.setRpb s ⟨k, some row⟩)
      | none => getIndexed n i s relation (q.setRpb s { q.rpbs s with rpb_number := k })
termination_by structural n => n

/-- The loop of `get_record` that looks for a record its boolean holds of.
`flag` keeps that the boolean was unknown of a record passed over. -/
def getBoolean : Nat → Nod Row Value → Rsb Row Value → Bool → Req Row →
    Except Stop (Bool × Req Row)
  | 0, _, _, _, _ => .error .outOfSteps
  | n + 1, condition, next, flag, q => do
    let (found, q) ← getRecord n next q
    if !found then
      .ok (false, if flag then q.setNull true else q)
    else do
      let (value, q) ← evlBoolean n condition q
      if value then
        .ok (true, if flag then q.setNull true else q)
      else
        getBoolean n condition next (flag || q.req_null) q
termination_by structural n => n

/-- The loop of `get_record` that passes over the records to skip -/
def getSkip : Nat → Nat → Rsb Row Value → Req Row → Except Stop (Bool × Req Row)
  | 0, _, _, _ => .error .outOfSteps
  | n + 1, i, next, q =>
    let counted := q.setCount i ((q.impures i).irsb_count - 1)
    if (q.impures i).irsb_count > 1 then do
      let (found, q) ← getRecord n next counted
      if found then getSkip n i next q else .ok (false, q)
    else
      getRecord n next counted
termination_by structural n => n

/-- The first record of a cross: the streams are opened from the left. -/
def fetchFirst : Nat → List (Rsb Row Value) → Nat → Req Row → Except Stop (Bool × Req Row)
  | 0, _, _, _ => .error .outOfSteps
  | n + 1, args, k, q =>
    match args[k]? with
    | none => .ok (true, q)
    | some arg => do
      let q ← rseOpen n arg q
      let (found, q) ← fetchRecord n args k q
      if found then fetchFirst n args (k + 1) q else .ok (false, q)
termination_by structural n => n

/-- `fetch_record`: the next record of the sub-stream `k` of a cross -/
def fetchRecord : Nat → List (Rsb Row Value) → Nat → Req Row → Except Stop (Bool × Req Row)
  | 0, _, _, _ => .error .outOfSteps
  | n + 1, args, k, q =>
    match args[k]? with
    | none => .ok (false, q)
    | some arg => do
      let (found, q) ← getRecord n arg q
      if found then .ok (true, q) else fetchAgain n args k arg q
termination_by structural n => n

/-- The loop of `fetch_record` after its sub-stream has run dry -/
def fetchAgain : Nat → List (Rsb Row Value) → Nat → Rsb Row Value → Req Row →
    Except Stop (Bool × Req Row)
  | 0, _, _, _, _ => .error .outOfSteps
  | _ + 1, _, 0, arg, q => .ok (false, rseClose arg q)
  | n + 1, args, k + 1, arg, q => do
    let (found, q) ← fetchRecord n args k (rseClose arg q)
    if !found then
      .ok (false, q)
    else do
      let q ← rseOpen n arg q
      let (found, q) ← getRecord n arg q
      if found then .ok (true, q) else fetchAgain n args (k + 1) arg q
termination_by structural n => n

/-- `get_union`. `irsb_count` counts the sub-streams here, each of which stands
with its map in two places of `rsb_arg`. -/
def getUnion : Nat → Nat → Nat → List (Rsb Row Value) → (Nat → Env Row → Row) → Req Row →
    Except Stop (Bool × Req Row)
  | 0, _, _, _, _, _ => .error .outOfSteps
  | n + 1, i, s, args, maps, q =>
    let k := (q.impures i).irsb_count.toNat
    match args[k]? with
    | none => .ok (false, q)
    | some arg => do
      let (found, q) ← getRecord n arg q
      if found then
        .ok (true, q.setRpb s { q.rpbs s with rpb_record := some (maps k q.env) })
      else do
        let q := rseClose arg q
        let q := q.setCount i ((q.impures i).irsb_count + 1)
        match args[k + 1]? with
        | none => .ok (false, q)
        | some arg => do
          let q ← rseOpen n arg q
          getUnion n i s args maps q
termination_by structural n => n

/-- `fetch_left` -/
def fetchLeft : Nat → Nat → Rsb Row Value → Rsb Row Value → Option (Nod Row Value) →
    Option (Nod Row Value) → List Nat → List Nat → Req Row → Except Stop (Bool × Req Row)
  | 0, _, _, _, _, _, _, _, _ => .error .outOfSteps
  | n + 1, i, outer, inner, boolean, inner_boolean, streams, inner_streams, q =>
    if (q.impures i).irsb_join_full then
      fetchFull n i outer inner boolean inner_boolean inner_streams q
    else if (q.impures i).irsb_mustread then do
      let (found, q) ← getRecord n outer q
      if !found then
        if inner_streams = [] then
          .ok (false, q)
        else do
          -- a full outer join opens its inner stream once more
          let q := rseClose outer q
          let q ← rseOpen n inner (q.setImpure i { q.impures i with irsb_join_full := true })
          fetchFull n i outer inner boolean inner_boolean inner_streams q
      else do
        let (value, q) ← evlOptional n boolean q
        if !value then
          .ok (true, joinToNulls q streams)
        else do
          let q := q.setImpure i { q.impures i with
            irsb_mustread := false, irsb_joined := false, irsb_in_opened := true }
          let q ← rseOpen n inner q
          fetchInner n i outer inner boolean inner_boolean streams inner_streams q
    else
      fetchInner n i outer inner boolean inner_boolean streams inner_streams q
termination_by structural n => n

/-- The loop of `fetch_left` over the inner records of one outer record -/
def fetchInner : Nat → Nat → Rsb Row Value → Rsb Row Value → Option (Nod Row Value) →
    Option (Nod Row Value) → List Nat → List Nat → Req Row → Except Stop (Bool × Req Row)
  | 0, _, _, _, _, _, _, _, _ => .error .outOfSteps
  | n + 1, i, outer, inner, boolean, inner_boolean, streams, inner_streams, q => do
    let (found, q) ← getRecord n inner q
    if found then do
      let (value, q) ← evlOptional n inner_boolean q
      if value then
        .ok (true, q.setImpure i { q.impures i with irsb_joined := true })
      else
        fetchInner n i outer inner boolean inner_boolean streams inner_streams q
    else do
      let q := rseClose inner q
      let q := q.setImpure i { q.impures i with irsb_mustread := true }
      if (q.impures i).irsb_joined then
        fetchLeft n i outer inner boolean inner_boolean streams inner_streams q
      else
        .ok (true, joinToNulls q streams)
termination_by structural n => n

/-- The part of `fetch_left` that continues with a full outer join: the inner
records that no outer record was joined to -/
def fetchFull : Nat → Nat → Rsb Row Value → Rsb Row Value → Option (Nod Row Value) →
    Option (Nod Row Value) → List Nat → Req Row → Except Stop (Bool × Req Row)
  | 0, _, _, _, _, _, _, _ => .error .outOfSteps
  | n + 1, i, outer, inner, boolean, inner_boolean, inner_streams, q => do
    let (found, q) ← getRecord n inner.full q
    if !found then
      .ok (false, q)
    else if (q.impures i).irsb_in_opened then do
      let q ← rseOpen n outer q
      let (found, q) ← findOuter n outer boolean inner_boolean inner.condition? q
      let q := rseClose outer q
      if found then
        fetchFull n i outer inner boolean inner_boolean inner_streams q
      else
        .ok (true, joinToNulls q inner_streams)
    else
      .ok (true, joinToNulls q inner_streams)
termination_by structural n => n

/-- The loop of `fetch_left` that looks for an outer record joined to the inner
record at hand -/
def findOuter : Nat → Rsb Row Value → Option (Nod Row Value) → Option (Nod Row Value) →
    Option (Nod Row Value) → Req Row → Except Stop (Bool × Req Row)
  | 0, _, _, _, _, _ => .error .outOfSteps
  | n + 1, outer, boolean, inner_boolean, condition, q => do
    let (found, q) ← getRecord n outer q
    if !found then
      .ok (false, q)
    else do
      let (value, q) ← evlOptional n boolean q
      if !value then
        findOuter n outer boolean inner_boolean condition q
      else do
        let (value, q) ← evlOptional n inner_boolean q
        if !value then
          findOuter n outer boolean inner_boolean condition q
        else do
          let (value, q) ← evlOptional n condition q
          if value then .ok (true, q)
          else findOuter n outer boolean inner_boolean condition q
termination_by structural n => n

end

theorem evlBoolean_missing (n : Nat) (arg0 : Env Row → Option Value) (q : Req Row) :
    evlBoolean (n + 1) (.missing arg0) q = .ok ((arg0 q.env).isNone, q.setNull false) := by
  rw [evlBoolean]

/-- A request that reads a record source to its end: `RSE_open`, then
`RSE_get_record` until there are no more records, then `RSE_close` -/
def readAll : Nat → Rsb Row Value → Req Row → Except Stop (List (Env Row) × Req Row)
  | 0, _, _ => .error .outOfSteps
  | n + 1, rsb, q => do
    let (found, q) ← getRecord n rsb q
    if found then do
      let (rows, last) ← readAll n rsb q
      .ok (q.env :: rows, last)
    else
      .ok ([], rseClose rsb q)

/-- Opening a record source and reading it to its end -/
def forEach (n : Nat) (rsb : Rsb Row Value) (q : Req Row) :
    Except Stop (List (Env Row) × Req Row) := do
  let q ← rseOpen n rsb q
  readAll n rsb q

end

end Firebird.Rse
