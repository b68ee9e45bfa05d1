import Mathlib.Data.List.Forall2
import Firebird.Rse.Rsb

/-! # What a plan stands for

The rows of a plan, and the truth of a boolean, without open streams: a row is
what the streams of the plan hold, and a boolean is true, false or unknown of
the records at hand.

A plan is well scoped if every expression in it reads only streams that hold a
record by then, and no two of its parts share a stream or an impure area.
-/

namespace Firebird.Rse

variable {Row Value : Type}

/-- Kleene's conjunction, the unknown as `none` -/
def kleeneAnd : Option Bool → Option Bool → Option Bool
  | some false, _ => some false
  | _, some false => some false
  | some true, some true => some true
  | _, _ => none

/-- Kleene's disjunction -/
def kleeneOr : Option Bool → Option Bool → Option Bool
  | some true, _ => some true
  | _, some true => some true
  | some false, some false => some false
  | _, _ => none

/-- The streams without a record: what `join_to_nulls` does to the records at hand -/
def nulls (streams : List Nat) (e : Env Row) : Env Row :=
  fun s => if s ∈ streams then none else e s

/-- The rows of a left outer join: an outer row that is joined to nothing comes
out with nulls. -/
def leftJoin (streams : List Nat) (outers : List (Env Row)) (on : Env Row → Bool)
    (inners : Env Row → List (Env Row)) : List (Env Row) :=
  outers.flatMap fun o =>
    if on o = true ∧ inners o ≠ [] then inners o else [nulls streams o]

/-- The rows that a full outer join adds: the inner rows joined to no outer row -/
def unjoined (streams : List Nat) (inners : List (Env Row)) (outers : Env Row → List (Env Row))
    (joins : Env Row → Bool) : List (Env Row) :=
  (inners.filter fun f => !(outers f).any joins).map (nulls streams)

/-- The records whose numbers an index retrieval finds -/
def indexedRows (relation : List (Option Row)) (bitmap : List Nat) : List Row :=
  (List.range relation.length).filterMap fun k =>
    if k ∈ bitmap then vioGet relation k else none

/-! ## Streams and areas -/

/-- The streams that a row of the plan fills -/
def Rsb.streams : Rsb Row Value → List Nat
  | .sequential _ s _ => [s]
  | .indexed _ s _ _ => [s]
  | .boolean _ _ next => next.streams
  | .first _ _ next => next.streams
  | .skip _ _ next => next.streams
  | .cross _ args => streamsAll args
  | .union _ s _ _ => [s]
  | .left_cross _ outer inner _ _ _ _ => outer.streams ++ inner.streams
where
  streamsAll : List (Rsb Row Value) → List Nat
    | [] => []
    | arg :: args => arg.streams ++ streamsAll args

/-- A part of the state of a request: the record parameter block of a stream or
an impure area -/
inductive Cell
  | rpb (rsb_stream : Nat)
  | irsb (rsb_impure : Nat)
deriving DecidableEq, Repr

mutual

/-- What the evaluation of a boolean writes to -/
def Nod.cells : Nod Row Value → List Cell
  | .compare _ _ _ => []
  | .between _ _ _ => []
  | .missing _ => []
  | .and arg0 arg1 => arg0.cells ++ arg1.cells
  | .or arg0 arg1 => arg0.cells ++ arg1.cells
  | .not arg0 => arg0.cells
  | .any rsb => rsb.cells

def cellsOptional : Option (Nod Row Value) → List Cell
  | none => []
  | some condition => condition.cells

/-- What the execution of a plan writes to -/
def Rsb.cells : Rsb Row Value → List Cell
  | .sequential i s _ => [.irsb i, .rpb s]
  | .indexed i s _ _ => [.irsb i, .rpb s]
  | .boolean i condition next => .irsb i :: (condition.cells ++ next.cells)
  | .first i _ next => .irsb i :: next.cells
  | .skip i _ next => .irsb i :: next.cells
  | .cross i args => .irsb i :: cellsAll args
  | .union i s args _ => .irsb i :: .rpb s :: cellsAll args
  | .left_cross i outer inner boolean inner_boolean _ _ =>
    .irsb i :: (outer.cells ++ inner.cells ++ cellsOptional boolean ++ cellsOptional inner_boolean)

def cellsAll : List (Rsb Row Value) → List Cell
  | [] => []
  | arg :: args => arg.cells ++ cellsAll args

end

/-! ## Scopes -/

/-- What depends only on the records of the streams in scope -/
def Reads {α : Type} (scope : List Nat) (f : Env Row → α) : Prop :=
  ∀ e e' : Env Row, (∀ s ∈ scope, e s = e' s) → f e = f e'

mutual

/-- The value expressions of a boolean read streams in scope. -/
def Nod.Scoped : Nod Row Value → List Nat → Prop
  | .compare _ arg0 arg1, scope => Reads scope arg0 ∧ Reads scope arg1
  | .between arg0 arg1 arg2, scope => Reads scope arg0 ∧ Reads scope arg1 ∧ Reads scope arg2
  | .missing arg0, scope => Reads scope arg0
  | .and arg0 arg1, scope => arg0.Scoped scope ∧ arg1.Scoped scope
  | .or arg0 arg1, scope => arg0.Scoped scope ∧ arg1.Scoped scope
  | .not arg0, scope => arg0.Scoped scope
  | .any rsb, scope => rsb.Scoped scope

def ScopedOptional : Option (Nod Row Value) → List Nat → Prop
  | none, _ => True
  | some condition, scope => condition.Scoped scope

/-- The expressions of a plan read streams in scope, where the streams to the
left of a sub-plan and those it filters are in its scope. -/
def Rsb.Scoped : Rsb Row Value → List Nat → Prop
  | .sequential _ _ _, _ => True
  | .indexed _ _ _ inversion, scope => Reads scope inversion
  | .boolean _ condition next, scope =>
    next.Scoped scope ∧ condition.Scoped (scope ++ next.streams)
  | .first _ count next, scope => Reads scope count ∧ (∀ e, 0 ≤ count e) ∧ next.Scoped scope
  | .skip _ count next, scope => Reads scope count ∧ (∀ e, 0 ≤ count e) ∧ next.Scoped scope
  | .cross _ args, scope => args ≠ [] ∧ ScopedCross args scope
  | .union _ _ args maps, scope => args ≠ [] ∧ ScopedUnion args maps 0 scope
  | .left_cross _ outer inner boolean inner_boolean streams inner_streams, scope =>
    outer.Scoped scope ∧ inner.Scoped (scope ++ outer.streams) ∧
    ScopedOptional boolean (scope ++ outer.streams) ∧
    ScopedOptional inner_boolean (scope ++ outer.streams ++ inner.streams) ∧
    (∀ s, s ∈ streams ↔ s ∈ inner.streams) ∧
    (inner_streams ≠ [] → (∀ s, s ∈ inner_streams ↔ s ∈ outer.streams) ∧
      -- a full outer join reads its inner stream on its own as well
      match inner with
      | .boolean _ _ next => next.Scoped scope
      | inner => inner.Scoped scope)

def ScopedCross : List (Rsb Row Value) → List Nat → Prop
  | [], _ => True
  | arg :: args, scope => arg.Scoped scope ∧ ScopedCross args (scope ++ arg.streams)

def ScopedUnion : List (Rsb Row Value) → (Nat → Env Row → Row) → Nat → List Nat → Prop
  | [], _, _, _ => True
  | arg :: args, maps, k, scope =>
    arg.Scoped scope ∧ Reads (scope ++ arg.streams) (maps k) ∧ ScopedUnion args maps (k + 1) scope

end

/-- A plan that can be executed where the streams in scope hold their records -/
structure Rsb.WellFormed (rsb : Rsb Row Value) (scope : List Nat) : Prop where
  inScope : rsb.Scoped scope
  nodup : rsb.cells.Nodup
  apart : ∀ s ∈ scope, Cell.rpb s ∉ rsb.cells

/-! ## Rows -/

section

variable [MovCompare Value]

open MovCompare

mutual

/-- The truth of a boolean, `none` for unknown -/
def Nod.truth : Nod Row Value → Env Row → Option Bool
  | .compare nod_type arg0 arg1, e =>
    match arg0 e, arg1 e with
    | some x, some y => some (nod_type.holds (MOV_compare x y))
    | _, _ => none
  | .between arg0 arg1 arg2, e =>
    match arg0 e, arg1 e, arg2 e with
    | some x, some y, some z =>
      some (decide (MOV_compare x y ≥ 0) && decide (MOV_compare x z ≤ 0))
    | _, _, _ => none
  | .missing arg0, e => some (arg0 e).isNone
  | .and arg0 arg1, e => kleeneAnd (arg0.truth e) (arg1.truth e)
  | .or arg0 arg1, e => kleeneOr (arg0.truth e) (arg1.truth e)
  | .not arg0, e => (arg0.truth e).map Bool.not
  | .any rsb, e => some !(rsb.rows e).isEmpty

/-- A boolean holds of the records at hand if it is true, not unknown. -/
def holdsOptional : Option (Nod Row Value) → Env Row → Bool
  | none, _ => true
  | some condition, e => condition.truth e == some true

/-- The rows of a plan, in the order it gives them -/
def Rsb.rows : Rsb Row Value → Env Row → List (Env Row)
  | .sequential _ s relation, e =>
    (relation.filterMap id).map fun row => Function.update e s (some row)
  | .indexed _ s relation inversion, e =>
    (indexedRows relation (inversion e)).map fun row => Function.update e s (some row)
  | .boolean _ condition next, e => (next.rows e).filter fun f => condition.truth f == some true
  | .first _ count next, e => (next.rows e).take (count e).toNat
  | .skip _ count next, e => (next.rows e).drop (count e).toNat
  | .cross _ args, e => rowsCross args e
  | .union _ s args maps, e => rowsUnion s args maps 0 e
  | .left_cross _ outer inner boolean inner_boolean streams inner_streams, e =>
    leftJoin streams (outer.rows e) (holdsOptional boolean)
      (fun o => (inner.rows o).filter (holdsOptional inner_boolean)) ++
    if inner_streams = [] then
      []
    else
      match inner with
      | .boolean _ condition next =>
        unjoined inner_streams (next.rows e) outer.rows fun o =>
          holdsOptional boolean o && holdsOptional inner_boolean o && condition.truth o == some true
      | inner =>
        unjoined inner_streams (inner.rows e) outer.rows fun o =>
          holdsOptional boolean o && holdsOptional inner_boolean o

def rowsCross : List (Rsb Row Value) → Env Row → List (Env Row)
  | [], e => [e]
  | arg :: args, e => (arg.rows e).flatMap (rowsCross args)

def rowsUnion (s : Nat) : List (Rsb Row Value) → (Nat → Env Row → Row) → Nat → Env Row →
    List (Env Row)
  | [], _, _, _ => []
  | arg :: args, maps, k, e =>
    ((arg.rows e).map fun f => Function.update f s (some (maps k f))) ++
      rowsUnion s args maps (k + 1) e

end

theorem Nod.truth_not (arg0 : Nod Row Value) (e : Env Row) :
    (Nod.not arg0).truth e = (arg0.truth e).map Bool.not := by
  rw [Nod.truth]

end

end Firebird.Rse
