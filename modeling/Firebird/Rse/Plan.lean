import Firebird.Rse.Booleans
import Firebird.Rse.OuterJoin
import Firebird.Rse.Scopes
import Firebird.Rse.Streams

/-! # Plans

Every well-formed plan delivers the rows it stands for, and every boolean tells
its truth, subqueries among them: by induction over plans and booleans at once.
-/

namespace Firebird.Rse

variable {Row Value : Type} {scope : List Nat}

/-! ## Parts of a plan -/

section

variable {args : List (Rsb Row Value)} {arg : Rsb Row Value} {k : Nat}

theorem scopedCross_get (h : ScopedCross args scope) (harg : args[k]? = some arg) :
    arg.Scoped (scope ++ Rsb.streams.streamsAll (args.take k)) := by
  induction args generalizing scope k with
  | nil => cases harg
  | cons first args ih =>
    cases k with
    | zero =>
      cases harg
      rw [List.take_zero, Rsb.streams.streamsAll, List.append_nil]
      exact h.1
    | succ k =>
      have hlater := ih h.2 harg
      rw [List.append_assoc] at hlater
      exact hlater

theorem scopedUnion_get {maps : Nat → Env Row → Row} {first : Nat}
    (h : ScopedUnion args maps first scope) (harg : args[k]? = some arg) :
    arg.Scoped scope ∧ Reads (scope ++ arg.streams) (maps (first + k)) := by
  induction args generalizing first k with
  | nil => cases harg
  | cons arg' args ih =>
    cases k with
    | zero =>
      cases harg
      exact ⟨h.1, h.2.1⟩
    | succ k =>
      have hlater := ih h.2.2 harg
      rw [show first + 1 + k = first + (k + 1) by omega] at hlater
      exact hlater

theorem cells_nodup (h : (cellsAll args).Nodup) (harg : args[k]? = some arg) :
    arg.cells.Nodup := by
  rw [cellsAll_split harg] at h
  exact (List.nodup_append.mp (List.nodup_append.mp h).2.1).1

theorem sizeOf_get_lt (harg : args[k]? = some arg) : sizeOf arg < sizeOf args :=
  List.sizeOf_lt_of_mem (List.mem_of_getElem? harg)

end

theorem full_nodup {inner : Rsb Row Value} (h : inner.cells.Nodup) :
    (cellsOptional inner.condition?).Nodup ∧ inner.full.cells.Nodup := by
  cases inner with
  | boolean i condition next =>
    have hboth := List.nodup_append.mp (List.nodup_cons.mp h).2
    exact ⟨hboth.1, hboth.2.1⟩
  | _ => exact ⟨List.nodup_nil, h⟩

variable [MovCompare Value]

/-! ## Delivery -/

mutual

theorem Nod.tells : ∀ (nod : Nod Row Value) {scope : List Nat}, nod.Scoped scope →
    nod.cells.Nodup → Apart scope nod.cells → nod.Tells scope
  | .compare _ _ _, _, h, _, _ => compare_tells h.1 h.2
  | .between _ _ _, _, h, _, _ => between_tells h.1 h.2.1 h.2.2
  | .missing _, _, h, _, _ => missing_tells h
  | .and arg0 arg1, _, h, hnodup, hapart => by
    rw [Nod.cells] at hnodup hapart
    exact and_tells (Nod.tells arg0 h.1 (List.nodup_append.mp hnodup).1 hapart.left)
      (Nod.tells arg1 h.2 (List.nodup_append.mp hnodup).2.1 hapart.right) hapart.left
  | .or arg0 arg1, _, h, hnodup, hapart => by
    rw [Nod.cells] at hnodup hapart
    exact or_tells (Nod.tells arg0 h.1 (List.nodup_append.mp hnodup).1 hapart.left)
      (Nod.tells arg1 h.2 (List.nodup_append.mp hnodup).2.1 hapart.right) hapart.left
  | .not arg0, _, h, hnodup, hapart => not_tells (Nod.tells arg0 h hnodup hapart)
  | .any rsb, _, h, hnodup, hapart => any_tells (Rsb.delivers rsb h hnodup hapart)
termination_by nod => sizeOf nod

theorem tellsOptional : ∀ (nod : Option (Nod Row Value)) {scope : List Nat},
    ScopedOptional nod scope → (cellsOptional nod).Nodup → Apart scope (cellsOptional nod) →
    TellsOptional nod scope
  | none, _, _, _, _ => tellsOptional_none _
  | some nod, _, h, hnodup, hapart => (Nod.tells nod h hnodup hapart).optional
termination_by nod => sizeOf nod

theorem Rsb.delivers : ∀ (rsb : Rsb Row Value) {scope : List Nat}, rsb.Scoped scope →
    rsb.cells.Nodup → Apart scope rsb.cells → rsb.Delivers scope
  | .sequential _ s _, _, _, _, hapart =>
    sequential_delivers fun hs => hapart s hs (List.mem_cons_of_mem _ List.mem_cons_self)
  | .indexed _ s _ _, _, h, _, hapart =>
    indexed_delivers (fun hs => hapart s hs (List.mem_cons_of_mem _ List.mem_cons_self)) h
  | .boolean i condition next, scope, h, hnodup, hapart => by
    rw [Rsb.cells] at hnodup hapart
    rw [List.nodup_cons, List.nodup_append] at hnodup
    rcases hnodup with ⟨-, hcond, hnext, hdisj⟩
    have hboth : Apart (scope ++ next.streams) condition.cells :=
      Apart.append hapart.tail.left fun s hs hmem =>
        hdisj _ hmem _ (streams_cells next s hs) rfl
    exact boolean_delivers (Rsb.delivers next h.1 hnext hapart.tail.right)
      (Nod.tells condition h.2 hcond hboth) hboth fun c hc hc' => hdisj c hc c hc' rfl
  | .first i count next, _, h, hnodup, hapart => by
    rw [Rsb.cells] at hnodup hapart
    rw [List.nodup_cons] at hnodup
    exact first_delivers (Rsb.delivers next h.2.2 hnodup.2 hapart.tail) h.1 h.2.1 hnodup.1
  | .skip i count next, _, h, hnodup, hapart => by
    rw [Rsb.cells] at hnodup hapart
    rw [List.nodup_cons] at hnodup
    exact skip_delivers (Rsb.delivers next h.2.2 hnodup.2 hapart.tail) h.1 h.2.1 hnodup.1
  | .cross i args, scope, h, hnodup, hapart => by
    rw [Rsb.cells] at hnodup hapart
    rw [List.nodup_cons] at hnodup
    have hscope : Apart scope (cellsAll args) := hapart.tail
    have hparts : CrossParts args scope := by
      refine ⟨fun k arg harg => ?_, hnodup.2, hscope⟩
      have hsize := sizeOf_get_lt harg
      refine Rsb.delivers arg (scopedCross_get h.2 harg) (cells_nodup hnodup.2 harg) ?_
      refine Apart.append (hscope.sub (cells_subset_cellsAll harg)) fun s hs hmem => ?_
      exact disjoint_of_getElem? hnodup.2 harg hmem (streamsAll_cells _ s hs)
    exact cross_delivers hparts h.1 hnodup.1
  | .union i s args maps, scope, h, hnodup, hapart => by
    rw [Rsb.cells] at hnodup hapart
    rw [List.nodup_cons, List.nodup_cons] at hnodup
    rcases hnodup with ⟨hi, hs, hargs⟩
    have hscope : Apart scope (cellsAll args) := hapart.tail.tail
    refine union_delivers ⟨fun k arg harg => ?_, fun k arg harg => ?_, hscope, ?_, ?_, hs⟩ h.1
    · have hsize := sizeOf_get_lt harg
      exact Rsb.delivers arg (scopedUnion_get h.2 harg).1 (cells_nodup hargs harg)
        (hscope.sub (cells_subset_cellsAll harg))
    · have hreads := (scopedUnion_get h.2 harg).2
      rwa [Nat.zero_add] at hreads
    · exact fun hmem => hapart s hmem (List.mem_cons_of_mem _ List.mem_cons_self)
    · exact fun hmem => hi (List.mem_cons_of_mem _ hmem)
  | .left_cross i outer inner boolean inner_boolean streams inner_streams, scope, h, hnodup,
      hapart => by
    have hsize := sizeOf_full_le inner
    have hsize' := sizeOf_condition_le inner
    have hparts : (LeftCross.mk i outer inner boolean inner_boolean streams
        inner_streams).Distinct scope := ⟨hnodup, hapart⟩
    rw [scoped_left_cross] at h
    rcases h with ⟨houter, hinner, hboolean, hinner_boolean, hstreams, hjoin⟩
    have hcells := hparts.nodup
    simp only [LeftCross.cells, List.nodup_cons, List.nodup_append] at hcells
    rcases hcells with ⟨-, ⟨⟨houterNodup, hinnerNodup, -⟩, hbooleanNodup, -⟩, hinnerBoolean, -⟩
    have houterApart := hparts.apart_outer
    have hinnerApart := hparts.apart_inner
    refine left_delivers ⟨hparts, Rsb.delivers outer houter houterNodup houterApart,
      Rsb.delivers inner hinner hinnerNodup hinnerApart,
      tellsOptional boolean hboolean hbooleanNodup hparts.apart_booleans.scope_left.left,
      tellsOptional inner_boolean hinner_boolean hinnerBoolean hparts.apart_booleans.right,
      hstreams⟩ fun hne => ?_
    rcases hjoin hne with ⟨hnulls, hfull⟩
    have hfullApart : Apart scope inner.full.cells := hinnerApart.scope_left.sub (full_cells inner)
    have hwider : Apart (scope ++ inner.streams) outer.cells := by
      refine houterApart.append fun s hs hmem => ?_
      exact hparts.outer_cells (by simp [streams_cells inner s hs]) hmem
    have hcondApart : Apart (scope ++ outer.streams ++ inner.streams)
        (cellsOptional inner.condition?) := by
      refine hparts.conditions_apart.right.mono (fun s hs => ?_) fun c hc => hc
      simp only [List.mem_append] at hs ⊢
      tauto
    have hsplit := full_nodup hinnerNodup
    exact ⟨Rsb.delivers inner.full hfull hsplit.2 hfullApart,
      Rsb.delivers outer (Rsb.Scoped.mono outer houter fun s hs => List.mem_append_left _ hs)
        houterNodup hwider,
      tellsOptional inner.condition? (scoped_condition hinner) hsplit.1 hcondApart,
      hnulls, Rsb.Scoped.steady outer houter, ScopedOptional.steady boolean hboolean⟩
termination_by rsb => sizeOf rsb

end

/-! ## Whole runs -/

/-- Reading an open stream to its end gives the rows to come. -/
theorem readAll_settles {rsb : Rsb Row Value} (rows : List (Env Row)) :
    ∀ q : Req Row, rsb.ToCome scope rows q →
      ∃ given p, Settles (fun n => readAll n rsb q) (given, p) ∧ Untouched rsb.cells q p ∧
        List.Forall₂ (Matches (scope ++ rsb.streams)) given rows := by
  induction rows with
  | nil =>
    intro q hyields
    rcases hyields q (.refl q) with ⟨p, hget, htouch⟩
    refine ⟨[], rseClose rsb p, .of_succ ?_, htouch.trans (rseClose_untouched rsb p), .nil⟩
    simp only [readAll]
    exact hget.bind (.of_eq fun n => rfl)
  | cons e rows ih =>
    intro q hyields
    rcases hyields q (.refl q) with ⟨p, hget, htouch, hmatch, hlater⟩
    rcases ih p hlater with ⟨given, r, hread, htouchr, hgiven⟩
    refine ⟨p.env :: given, r, .of_succ ?_, htouch.trans htouchr, .cons hmatch hgiven⟩
    simp only [readAll]
    refine hget.bind ?_
    exact hread.bind (.of_eq fun n => rfl)

/-- Numbers in the order of `MOV_compare` -/
instance movCompareInt : MovCompare Int := ⟨fun a b => Int.sign (a - b)⟩

omit [MovCompare Value] in
theorem Reads.stream {α : Type} {s : Nat} (hs : s ∈ scope) (f : Option Row → α) :
    Reads scope fun e => f (e s) := fun _ _ h => congrArg f (h s hs)

/-- The records of two streams that are equal -/
def equalRecords (s t : Nat) : Nod Int Int := .compare .nod_eql (fun e => e s) fun e => e t

theorem equalRecords_scoped {s t : Nat} (hs : s ∈ scope) (ht : t ∈ scope) :
    (equalRecords s t).Scoped scope :=
  ⟨Reads.stream hs id, Reads.stream ht id⟩

/-- A full outer join of two relations on equal records -/
def fullJoin : Rsb Int Int :=
  .left_cross 2 (.sequential 0 0 [some 1, none, some 2])
    (.boolean 3 (equalRecords 0 1) (.sequential 1 1 [some 2, some 4, some 2])) none none [1] [0]

theorem fullJoin_wellFormed : fullJoin.WellFormed [] where
  inScope := by
    refine ⟨trivial, ⟨trivial, equalRecords_scoped (by decide) (by decide)⟩, trivial, trivial,
      fun s => .rfl, fun _ => ⟨fun s => .rfl, trivial⟩⟩
  nodup := by decide
  apart := by decide

/-- A request whose impure areas hold what an earlier one left there -/
def idleRequest : Req Int where
  rpbs := fun _ => ⟨7, some 77⟩
  impures := fun _ => ⟨false, false, true, true, false, false, 3, []⟩
  req_null := false
  bEvalCompleteExpression := false

/-- The truth of a subquery that reads a stream of its own, and of its negation -/
def unmatched : Nod Int Int :=
  .not (.any (.boolean 3 (equalRecords 0 1) (.sequential 1 1 [some 2, none, some 4])))

section

variable {ι : Type} [DecidableEq ι]

/-- Reading several open streams by turns, each until it has ended: the records
given, and by which stream -/
def fetchTurns (n : Nat) (rsbs : ι → Rsb Row Value) :
    List ι → (ι → Bool) → Req Row → Except Stop (List (ι × Env Row) × Req Row)
  | [], _, q => .ok ([], q)
  | turn :: turns, isOpen, q =>
    if isOpen turn then do
      let (found, q) ← getRecord n (rsbs turn) q
      if found then do
        let (given, last) ← fetchTurns n rsbs turns isOpen q
        .ok ((turn, q.env) :: given, last)
      else
        fetchTurns n rsbs turns (Function.update isOpen turn false) q
    else
      fetchTurns n rsbs turns isOpen q

def openAll (n : Nat) (rsbs : ι → Rsb Row Value) (order : List ι) (q : Req Row) :
    Except Stop (Req Row) := order.foldlM (fun q i => rseOpen n (rsbs i) q) q

/-- A request that opens several streams and then reads them by turns -/
def openAndFetch (n : Nat) (rsbs : ι → Rsb Row Value) (order turns : List ι) (q : Req Row) :
    Except Stop (List (ι × Env Row) × Req Row) := do
  let q ← openAll n rsbs order q
  fetchTurns n rsbs turns (fun i => decide (i ∈ order)) q

/-- The records that one of the streams has given -/
def givenBy (i : ι) (given : List (ι × Env Row)) : List (Env Row) :=
  (given.filter fun g => g.1 == i).map Prod.snd

/-- A stream that is open has its rows to come, one that has ended none. -/
def Coming (rsb : Rsb Row Value) (scope : List Nat) (isOpen : Bool) (rows : List (Env Row))
    (q : Req Row) : Prop :=
  if isOpen then rsb.ToCome scope rows q
  else rows = []

omit [DecidableEq ι] in
theorem Coming.near {rsb : Rsb Row Value} {isOpen : Bool} {rows : List (Env Row)} {q p : Req Row}
    (h : Coming rsb scope isOpen rows q) (hnear : Near scope rsb.cells q p) :
    Coming rsb scope isOpen rows p := by
  cases isOpen with
  | true => exact Yields.near h hnear
  | false => exact h

/-- The streams of a family share nothing. -/
structure Separate (rsbs : ι → Rsb Row Value) (scope : List Nat) : Prop where
  wellFormed : ∀ i, (rsbs i).WellFormed scope
  disjoint : ∀ i j, i ≠ j → List.Disjoint (rsbs i).cells (rsbs j).cells

omit [MovCompare Value] [DecidableEq ι] in
/-- What one stream does is near for the others. -/
theorem Separate.near {rsbs : ι → Rsb Row Value} (h : Separate rsbs scope) {i j : ι}
    (hij : i ≠ j) {q p : Req Row} (htouch : Untouched (rsbs i).cells q p) :
    Near scope (rsbs j).cells q p :=
  htouch.near (h.wellFormed i).apart (h.disjoint i j hij)

omit [DecidableEq ι] in
theorem openAll_settles {rsbs : ι → Rsb Row Value} (h : Separate rsbs scope) {e : Env Row}
    (order : List ι) (hnodup : order.Nodup) :
    ∀ q : Req Row, Matches scope q.env e →
      ∃ p, Settles (fun n => openAll n rsbs order q) p ∧ Matches scope p.env e ∧
        (∀ j, j ∉ order → Near scope (rsbs j).cells q p) ∧
        ∀ i ∈ order, Coming (rsbs i) scope true ((rsbs i).rows e) p := by
  induction order with
  | nil =>
    intro q he
    exact ⟨q, .of_eq fun n => rfl, he, fun j _ => .refl q, fun i hi => absurd hi List.not_mem_nil⟩
  | cons i order ih =>
    intro q he
    rcases List.nodup_cons.mp hnodup with ⟨hi, hlater⟩
    have hwell := h.wellFormed i
    rcases Rsb.delivers (rsbs i) hwell.inScope hwell.nodup hwell.apart q e he with
      ⟨p, hopen, htouch, hyields⟩
    rcases ih hlater p (htouch.keeps hwell.apart he) with ⟨r, hall, her, hnear, hcoming⟩
    refine ⟨r, ?_, her, fun j hj => ?_, fun j hj => ?_⟩
    · simp only [openAll, List.foldlM_cons]
      exact hopen.bind hall
    · have hne : i ≠ j := fun hij => hj (hij ▸ List.mem_cons_self)
      exact (h.near hne htouch).trans (hnear j fun hmem => hj (List.mem_cons_of_mem _ hmem))
    · rcases List.mem_cons.mp hj with rfl | hj
      · exact Yields.near hyields (hnear j hi)
      · exact hcoming j hj

/-- Each stream gives its own rows, by the turns still to be taken. -/
theorem fetchTurns_settles {rsbs : ι → Rsb Row Value} (h : Separate rsbs scope) (turns : List ι) :
    ∀ (isOpen : ι → Bool) (rows : ι → List (Env Row)) (q : Req Row),
      (∀ i, Coming (rsbs i) scope (isOpen i) (rows i) q) →
      ∃ given p, Settles (fun n => fetchTurns n rsbs turns isOpen q) (given, p) ∧
        ∀ i, List.Forall₂ (Matches (scope ++ (rsbs i).streams)) (givenBy i given)
          ((rows i).take (turns.count i)) := by
  induction turns with
  | nil =>
    intro isOpen rows q _
    refine ⟨[], q, .of_eq fun n => rfl, fun i => ?_⟩
    rw [List.count_nil, List.take_zero]
    exact .nil
  | cons turn turns ih =>
    intro isOpen rows q hcoming
    -- the stream whose turn it is moves on, the others stay where they are
    have hnext : ∀ {p : Req Row} {b : Bool} {later : List (Env Row)},
        Untouched (rsbs turn).cells q p → Coming (rsbs turn) scope b later p →
        ∀ i, Coming (rsbs i) scope (Function.update isOpen turn b i)
          (Function.update rows turn later i) p := by
      intro p b later htouch hturn i
      rcases eq_or_ne i turn with rfl | hi
      · rwa [Function.update_self, Function.update_self]
      · rw [Function.update_of_ne hi, Function.update_of_ne hi]
        exact (hcoming i).near (h.near (Ne.symm hi) htouch)
    have hended : ∀ {given : List (ι × Env Row)}, rows turn = [] →
        (∀ i, List.Forall₂ (Matches (scope ++ (rsbs i).streams)) (givenBy i given)
          ((rows i).take (turns.count i))) →
        ∀ i, List.Forall₂ (Matches (scope ++ (rsbs i).streams)) (givenBy i given)
          ((rows i).take ((turn :: turns).count i)) := by
      intro given hrows hgiven i
      have hi := hgiven i
      rcases eq_or_ne i turn with rfl | hne
      · rwa [hrows, List.take_nil] at hi ⊢
      · rwa [List.count_cons_of_ne (Ne.symm hne)]
    have hturn := hcoming turn
    cases hopen : isOpen turn with
    | false =>
      rw [hopen] at hturn
      rcases ih isOpen rows q hcoming with ⟨given, p, hrun, hgiven⟩
      refine ⟨given, p, ?_, hended hturn hgiven⟩
      simp only [fetchTurns, hopen, Bool.false_eq_true, if_false]
      exact hrun
    | true =>
      rw [hopen] at hturn
      cases hrows : rows turn with
      | nil =>
        rw [hrows] at hturn
        rcases hturn q (.refl q) with ⟨p, hget, htouch⟩
        rcases ih _ _ p (hnext htouch (b := false) rfl) with ⟨given, r, hrun, hgiven⟩
        rw [← hrows, Function.update_eq_self] at hgiven
        refine ⟨given, r, ?_, hended hrows hgiven⟩
        simp only [fetchTurns, hopen, if_true]
        exact hget.bind hrun
      | cons e later =>
        rw [hrows] at hturn
        rcases hturn q (.refl q) with ⟨p, hget, htouch, hmatch, hyields⟩
        rcases ih _ _ p (hnext htouch (b := true) hyields) with ⟨given, r, hrun, hgiven⟩
        rw [← hopen, Function.update_eq_self] at hrun
        refine ⟨(turn, p.env) :: given, r, ?_, fun i => ?_⟩
        · simp only [fetchTurns, hopen, if_true]
          refine hget.bind ?_
          exact hrun.bind (.of_eq fun n => rfl)
        · have hi := hgiven i
          rcases eq_or_ne i turn with rfl | hne
          · rw [Function.update_self] at hi
            have hhead : givenBy i ((i, p.env) :: given) = p.env :: givenBy i given := by
              simp [givenBy]
            rw [hhead, hrows, List.count_cons_self, List.take_succ_cons]
            exact .cons hmatch hi
          · rw [Function.update_of_ne hne] at hi
            have hskip : givenBy i ((turn, p.env) :: given) = givenBy i given := by
              simp [givenBy, Ne.symm hne]
            rwa [hskip, List.count_cons_of_ne (Ne.symm hne)]

/-- A full outer join and a cross over streams of their own -/
def twoPlans : Bool → Rsb Int Int
  | false => fullJoin
  | true => .cross 4 [.sequential 5 5 [some 1, some 2], .sequential 6 6 [some 3]]

theorem twoPlans_separate : Separate twoPlans [] where
  wellFormed := fun i => by
    cases i with
    | false => exact fullJoin_wellFormed
    | true => exact ⟨⟨List.cons_ne_nil _ _, trivial, trivial, trivial⟩, by decide, by decide⟩
  disjoint := by unfold List.Disjoint; decide

end

end Firebird.Rse
