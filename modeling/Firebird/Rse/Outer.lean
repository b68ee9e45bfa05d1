import Firebird.Rse.Cross

/-! # Outer joins

`fetch_left` goes through three phases: it reads the outer stream, it reads the
inner stream for the outer record at hand, and, in a full outer join, it reads
the inner stream once more for the records that nothing was joined to. Each
phase has an invariant; together they say which rows are still to come.
-/

namespace Firebird.Rse

variable {Row Value : Type}

/-! ## Nulls -/

theorem joinToNulls_env (q : Req Row) (streams : List Nat) :
    (joinToNulls q streams).env = nulls streams q.env := by
  induction streams generalizing q with
  | nil =>
    funext s
    simp [joinToNulls, nulls]
  | cons t streams ih =>
    have hstep : joinToNulls q (t :: streams) =
        joinToNulls (q.setRpb t { q.rpbs t with rpb_record := none }) streams := rfl
    rw [hstep, ih, setRpb_env]
    funext s
    rcases eq_or_ne s t with hst | hst
    · simp [nulls, hst]
    · simp [nulls, hst]

theorem joinToNulls_untouched {rsb : Rsb Row Value} {streams : List Nat} (q : Req Row)
    (h : ∀ s ∈ streams, s ∈ rsb.streams) : Untouched rsb.cells q (joinToNulls q streams) := by
  induction streams generalizing q with
  | nil => exact .refl q
  | cons t streams ih =>
    have hset := untouched_setRpb q t { q.rpbs t with rpb_record := none }
    rcases List.forall_mem_cons.mp h with ⟨ht, hlater⟩
    refine (hset.mono fun c hc => ?_).trans (ih _ hlater)
    rw [List.mem_singleton.mp hc]
    exact streams_cells rsb t ht

/-- Matching rows match after some of their streams have lost their records. -/
theorem Matches.nulls {scope scope' streams : List Nat} {e f : Env Row}
    (h : Matches scope e f) (hstreams : ∀ s ∈ scope', s ∈ streams) :
    Matches (scope ++ scope') (nulls streams e) (nulls streams f) := by
  intro s hs
  by_cases hmem : s ∈ streams
  · simp [Rse.nulls, hmem]
  · rcases List.mem_append.mp hs with hs | hs
    · simp only [Rse.nulls, hmem, if_false]
      exact h s hs
    · exact absurd (hstreams s hs) hmem

theorem leftJoin_cons (streams : List Nat) (o : Env Row) (outers : List (Env Row))
    (on : Env Row → Bool) (inners : Env Row → List (Env Row)) :
    leftJoin streams (o :: outers) on inners =
      (if on o = true ∧ inners o ≠ [] then inners o else [nulls streams o]) ++
        leftJoin streams outers on inners := List.flatMap_cons

theorem unjoined_cons (streams : List Nat) (f : Env Row) (inners : List (Env Row))
    (outers : Env Row → List (Env Row)) (joins : Env Row → Bool) :
    unjoined streams (f :: inners) outers joins =
      if (outers f).any joins then unjoined streams inners outers joins
      else nulls streams f :: unjoined streams inners outers joins := by
  cases hany : (outers f).any joins <;> simp [unjoined, hany]

/-- The rows of a plan and the truth of a boolean depend on the records in scope. -/
def Rsb.Steady [MovCompare Value] (rsb : Rsb Row Value) (scope : List Nat) : Prop :=
  ∀ e f : Env Row, Matches scope e f →
    List.Forall₂ (Matches (scope ++ rsb.streams)) (rsb.rows e) (rsb.rows f)

def SteadyOptional [MovCompare Value] (nod : Option (Nod Row Value)) (scope : List Nat) : Prop :=
  ∀ e f : Env Row, Matches scope e f → holdsOptional nod e = holdsOptional nod f

theorem TellsOptional.mono [MovCompare Value] {nod : Option (Nod Row Value)}
    {scope scope' : List Nat} (h : TellsOptional nod scope) (hscope : ∀ s ∈ scope, s ∈ scope') :
    TellsOptional nod scope' := fun q e he => h q e (he.mono hscope)

/-! ## The inner stream and its boolean -/

theorem full_streams (inner : Rsb Row Value) : inner.full.streams = inner.streams := by
  cases inner <;> rfl

theorem full_cells (inner : Rsb Row Value) : ∀ c ∈ inner.full.cells, c ∈ inner.cells := by
  intro c hc
  cases inner with
  | boolean _ condition next => exact List.mem_cons_of_mem _ (List.mem_append_right _ hc)
  | _ => exact hc

theorem condition_cells (inner : Rsb Row Value) :
    ∀ c ∈ cellsOptional inner.condition?, c ∈ inner.cells := by
  intro c hc
  cases inner with
  | boolean _ condition next => exact List.mem_cons_of_mem _ (List.mem_append_left _ hc)
  | _ => cases hc

theorem condition_disjoint {inner : Rsb Row Value} (h : inner.cells.Nodup) :
    List.Disjoint (cellsOptional inner.condition?) inner.full.cells := by
  intro c hc hc'
  cases inner with
  | boolean _ condition next =>
    exact (List.nodup_append.mp (List.nodup_cons.mp h).2).2.2 c hc c hc' rfl
  | _ => cases hc

/-! ## The parts of an outer join -/

/-- The parts of a block of type `rsb_left_cross` -/
structure LeftCross (Row Value : Type) where
  i : Nat
  outer : Rsb Row Value
  inner : Rsb Row Value
  boolean : Option (Nod Row Value)
  inner_boolean : Option (Nod Row Value)
  streams : List Nat
  inner_streams : List Nat

section

variable (j : LeftCross Row Value)

def LeftCross.rsb : Rsb Row Value :=
  .left_cross j.i j.outer j.inner j.boolean j.inner_boolean j.streams j.inner_streams

/-- What an outer join writes to -/
def LeftCross.cells : List Cell :=
  Cell.irsb j.i :: (j.outer.cells ++ j.inner.cells ++ cellsOptional j.boolean ++
    cellsOptional j.inner_boolean)

/-- The booleans of a full outer join, that of the inner stream among them -/
def LeftCross.conditions : List Cell :=
  cellsOptional j.boolean ++ cellsOptional j.inner_boolean ++ cellsOptional j.inner.condition?

theorem LeftCross.outer_sub : ∀ c ∈ j.outer.cells, c ∈ j.cells :=
  fun c hc => by simp [cells, hc]

theorem LeftCross.inner_sub : ∀ c ∈ j.inner.cells, c ∈ j.cells :=
  fun c hc => by simp [cells, hc]

theorem LeftCross.area_sub : ∀ c ∈ [Cell.irsb j.i], c ∈ j.cells :=
  fun c hc => by simp [cells, List.mem_singleton.mp hc]

theorem LeftCross.boolean_sub : ∀ c ∈ cellsOptional j.boolean, c ∈ j.cells :=
  fun c hc => by simp [cells, hc]

theorem LeftCross.inner_boolean_sub : ∀ c ∈ cellsOptional j.inner_boolean, c ∈ j.cells :=
  fun c hc => by simp [cells, hc]

theorem LeftCross.full_sub : ∀ c ∈ j.inner.full.cells, c ∈ j.cells :=
  fun c hc => j.inner_sub c (full_cells j.inner c hc)

theorem LeftCross.conditions_sub : ∀ c ∈ j.conditions, c ∈ j.cells := by
  intro c hc
  simp only [conditions, List.mem_append] at hc
  rcases hc with (hc | hc) | hc
  · exact j.boolean_sub c hc
  · exact j.inner_boolean_sub c hc
  · exact j.inner_sub c (condition_cells j.inner c hc)

/-- The parts of an outer join write to different places, and not to the streams
in scope. -/
structure LeftCross.Distinct (scope : List Nat) : Prop where
  nodup : j.cells.Nodup
  apart : Apart scope j.cells

end

section

variable {j : LeftCross Row Value} {scope : List Nat}

/-- What an outer join writes to besides its outer stream -/
theorem LeftCross.Distinct.outer_cells (h : j.Distinct scope) :
    List.Disjoint (Cell.irsb j.i :: (j.inner.cells ++ cellsOptional j.boolean ++
      cellsOptional j.inner_boolean)) j.outer.cells := by
  have hnodup := h.nodup
  simp only [cells, List.nodup_cons, List.nodup_append, List.mem_append] at hnodup
  intro c hc hc'
  simp only [List.mem_cons, List.mem_append] at hc
  grind

theorem LeftCross.Distinct.inner_cells (h : j.Distinct scope) :
    List.Disjoint (Cell.irsb j.i :: (j.outer.cells ++ cellsOptional j.boolean ++
      cellsOptional j.inner_boolean)) j.inner.cells := by
  have hnodup := h.nodup
  simp only [cells, List.nodup_cons, List.nodup_append, List.mem_append] at hnodup
  intro c hc hc'
  simp only [List.mem_cons, List.mem_append] at hc
  grind

theorem LeftCross.Distinct.area (h : j.Distinct scope) :
    Cell.irsb j.i ∉ j.outer.cells ∧ Cell.irsb j.i ∉ j.inner.cells ∧
      Cell.irsb j.i ∉ cellsOptional j.boolean ∧ Cell.irsb j.i ∉ cellsOptional j.inner_boolean := by
  have hnodup := (List.nodup_cons.mp h.nodup).1
  simp only [List.mem_append, not_or] at hnodup
  exact ⟨hnodup.1.1.1, hnodup.1.1.2, hnodup.1.2, hnodup.2⟩

theorem LeftCross.Distinct.apart_outer (h : j.Distinct scope) : Apart scope j.outer.cells :=
  h.apart.sub j.outer_sub

/-- The inner stream leaves the outer record alone. -/
theorem LeftCross.Distinct.apart_inner (h : j.Distinct scope) :
    Apart (scope ++ j.outer.streams) j.inner.cells := by
  refine Apart.append (h.apart.sub j.inner_sub) fun s hs hmem => ?_
  exact h.inner_cells (by simp [streams_cells j.outer s hs]) hmem

/-- A boolean leaves the records of both streams alone. -/
theorem LeftCross.Distinct.apart_booleans (h : j.Distinct scope) :
    Apart (scope ++ j.outer.streams ++ j.inner.streams)
      (cellsOptional j.boolean ++ cellsOptional j.inner_boolean) := by
  refine Apart.append (Apart.append ?_ ?_) ?_
  · exact h.apart.sub fun c hc =>
      (List.mem_append.mp hc).elim (j.boolean_sub c) (j.inner_boolean_sub c)
  · intro s hs hmem
    refine h.outer_cells ?_ (streams_cells j.outer s hs)
    simp only [List.mem_cons, List.mem_append] at hmem ⊢
    tauto
  · intro s hs hmem
    refine h.inner_cells ?_ (streams_cells j.inner s hs)
    simp only [List.mem_cons, List.mem_append] at hmem ⊢
    tauto

theorem LeftCross.Distinct.conditions_outer (h : j.Distinct scope) :
    List.Disjoint j.conditions j.outer.cells := by
  intro c hc hc'
  refine h.outer_cells ?_ hc'
  have hcond := condition_cells j.inner c
  simp only [conditions, List.mem_cons, List.mem_append] at hc ⊢
  tauto

theorem LeftCross.Distinct.conditions_full (h : j.Distinct scope) :
    List.Disjoint j.conditions j.inner.full.cells := by
  intro c hc hc'
  rcases List.mem_append.mp hc with hc | hc
  · refine h.inner_cells ?_ (full_cells j.inner c hc')
    simp only [List.mem_cons, List.mem_append] at hc ⊢
    tauto
  · have hnodup := h.nodup
    simp only [cells, List.nodup_cons, List.nodup_append] at hnodup
    exact condition_disjoint hnodup.2.1.1.2.1 hc hc'

theorem LeftCross.Distinct.conditions_apart (h : j.Distinct scope) :
    Apart (scope ++ j.inner.streams ++ j.outer.streams) j.conditions := by
  refine Apart.append (Apart.append (h.apart.sub j.conditions_sub) ?_) ?_
  · intro s hs hmem
    rw [← full_streams] at hs
    exact h.conditions_full hmem (streams_cells _ s hs)
  · exact fun s hs hmem => h.conditions_outer hmem (streams_cells _ s hs)

theorem LeftCross.Distinct.area_conditions (h : j.Distinct scope) :
    Cell.irsb j.i ∉ j.conditions := by
  intro hmem
  simp only [conditions, List.mem_append] at hmem
  rcases hmem with (hmem | hmem) | hmem
  · exact h.area.2.2.1 hmem
  · exact h.area.2.2.2 hmem
  · exact h.area.2.1 (condition_cells j.inner _ hmem)

end

/-! ## The phases -/

section

variable [MovCompare Value] (j : LeftCross Row Value) (scope : List Nat) (e : Env Row)

/-- What a left outer join rests on -/
structure LeftCross.Parts : Prop extends j.Distinct scope where
  outer_delivers : j.outer.Delivers scope
  inner_delivers : j.inner.Delivers (scope ++ j.outer.streams)
  boolean_tells : TellsOptional j.boolean (scope ++ j.outer.streams)
  inner_boolean_tells :
    TellsOptional j.inner_boolean (scope ++ j.outer.streams ++ j.inner.streams)
  streams_iff : ∀ s, s ∈ j.streams ↔ s ∈ j.inner.streams

/-- What a full outer join rests on besides: the inner stream can be read where
no outer record is at hand, and the outer stream where an inner one is. -/
structure LeftCross.FullParts : Prop where
  full_delivers : j.inner.full.Delivers scope
  outer_delivers : j.outer.Delivers (scope ++ j.inner.streams)
  condition_tells :
    TellsOptional j.inner.condition? (scope ++ j.outer.streams ++ j.inner.streams)
  streams_iff : ∀ s, s ∈ j.inner_streams ↔ s ∈ j.outer.streams
  steady : j.outer.Steady scope
  steady_boolean : SteadyOptional j.boolean (scope ++ j.outer.streams)

/-- What an inner record of a full outer join has to meet to have been joined -/
def LeftCross.joins (o : Env Row) : Bool :=
  holdsOptional j.boolean o && holdsOptional j.inner_boolean o &&
    holdsOptional j.inner.condition? o

/-- The inner rows that are joined to an outer row -/
def LeftCross.joined (inners : List (Env Row)) : List (Env Row) :=
  inners.filter (holdsOptional j.inner_boolean)

/-- The rows that a full outer join adds -/
def LeftCross.fullRows : List (Env Row) :=
  if j.inner_streams = [] then [] else
    unjoined j.inner_streams (j.inner.full.rows e) j.outer.rows j.joins

/-- The rows of an outer join for these outer records, and those added in the end -/
def LeftCross.leftRows (outers : List (Env Row)) : List (Env Row) :=
  leftJoin j.streams outers (holdsOptional j.boolean) (fun o => j.joined (j.inner.rows o)) ++
    j.fullRows e

/-- An outer record is to be read: `outers` are to come. `irsb_in_opened` tells
whether the inner stream was opened for any of those before them. -/
structure LeftCross.OuterAt (outers : List (Env Row)) (q : Req Row) : Prop where
  phase : (q.impures j.i).irsb_join_full = false ∧ (q.impures j.i).irsb_mustread = true
  records : Matches scope q.env e
  before : ∃ passed, j.outer.rows e = passed ++ outers ∧
    ((q.impures j.i).irsb_in_opened = false → ∀ o ∈ passed, holdsOptional j.boolean o = false)
  outers : j.outer.ToCome scope outers q

/-- The inner records of the outer record `o` are read: `inners` are to come. -/
structure LeftCross.InnerAt (o : Env Row) (inners outers : List (Env Row)) (q : Req Row) :
    Prop where
  phase : (q.impures j.i).irsb_join_full = false ∧ (q.impures j.i).irsb_mustread = false ∧
    (q.impures j.i).irsb_in_opened = true
  records : Matches scope q.env e
  record : Matches (scope ++ j.outer.streams) q.env o
  before : ∃ passed, j.outer.rows e = passed ++ outers
  inners : j.inner.ToCome (scope ++ j.outer.streams) inners q
  outers : j.outer.ToCome scope outers q

/-- The inner records are read on their own: `fulls` are to come. -/
structure LeftCross.FullAt (fulls : List (Env Row)) (q : Req Row) : Prop where
  phase : (q.impures j.i).irsb_join_full = true
  records : Matches scope q.env e
  before : (q.impures j.i).irsb_in_opened = false → ∀ f, Matches scope f e →
    ∀ o ∈ j.outer.rows f, holdsOptional j.boolean o = false
  fulls : j.inner.full.ToCome scope fulls q

/-- The rows of an outer join for an outer record with these inner records to come -/
def LeftCross.innerRows (o : Env Row) (inners : List (Env Row)) (q : Req Row) : List (Env Row) :=
  j.joined inners ++
    if (q.impures j.i).irsb_joined = true ∨ j.joined inners ≠ [] then [] else [nulls j.streams o]

/-- The rows that a full outer join adds and that are still to come -/
def LeftCross.FullRowsAt (rows : List (Env Row)) (q : Req Row) : Prop :=
  ∃ fulls, j.FullAt scope e fulls q ∧ rows = unjoined j.inner_streams fulls j.outer.rows j.joins

/-- The rows of an outer join that are still to come -/
def LeftCross.At (rows : List (Env Row)) (q : Req Row) : Prop :=
  (∃ outers, j.OuterAt scope e outers q ∧ rows = j.leftRows e outers) ∨
  (∃ o inners outers, j.InnerAt scope e o inners outers q ∧
    rows = j.innerRows o inners q ++ j.leftRows e outers) ∨
  (j.inner_streams ≠ [] ∧ j.FullRowsAt scope e rows q)

abbrev LeftCross.fetchLeft (n : Nat) (q : Req Row) : Except Stop (Bool × Req Row) :=
  Rse.fetchLeft n j.i j.outer j.inner j.boolean j.inner_boolean j.streams j.inner_streams q

abbrev LeftCross.fetchInner (n : Nat) (q : Req Row) : Except Stop (Bool × Req Row) :=
  Rse.fetchInner n j.i j.outer j.inner j.boolean j.inner_boolean j.streams j.inner_streams q

abbrev LeftCross.fetchFull (n : Nat) (q : Req Row) : Except Stop (Bool × Req Row) :=
  Rse.fetchFull n j.i j.outer j.inner j.boolean j.inner_boolean j.inner_streams q

/-- The rows of an outer join are those of the left join and, in a full outer
join, the inner rows that nothing was joined to. -/
theorem LeftCross.rows_rsb : j.rsb.rows e = j.leftRows e (j.outer.rows e) := by
  have hjoins : j.inner.condition? = none →
      j.joins = fun o => holdsOptional j.boolean o && holdsOptional j.inner_boolean o := by
    intro hcond
    funext o
    rw [joins, hcond, holdsOptional, Bool.and_true]
  rcases j with ⟨i, outer, inner, boolean, inner_boolean, streams, inner_streams⟩
  rw [leftRows, fullRows]
  cases inner with
  | boolean _ condition next => rfl
  | _ =>
    rw [hjoins rfl]
    rfl

end

/-! ## The inner records of a full outer join -/

section

variable [MovCompare Value] {j : LeftCross Row Value} {scope : List Nat} {e : Env Row}

/-- Whether an outer record was joined to the inner record at hand, by the outer
records to come -/
theorem findOuter_settles (h : j.Parts scope) (hfull : j.FullParts scope)
    (outers : List (Env Row)) :
    ∀ q : Req Row, j.outer.ToCome (scope ++ j.inner.streams) outers q →
      ∃ p, Settles (fun n => findOuter n j.outer j.boolean j.inner_boolean j.inner.condition? q)
          (outers.any j.joins, p) ∧
        Untouched (j.outer.cells ++ j.conditions) q p := by
  have hapart := h.conditions_apart
  have hsub : ∀ s ∈ scope ++ j.outer.streams ++ j.inner.streams,
      s ∈ scope ++ j.inner.streams ++ j.outer.streams := by
    intro s hs
    simp only [List.mem_append] at hs ⊢
    tauto
  have hout : ∀ c ∈ j.outer.cells, c ∈ j.outer.cells ++ j.conditions :=
    fun c hc => List.mem_append_left _ hc
  induction outers with
  | nil =>
    intro q hyields
    rcases hyields q (.refl q) with ⟨p, hget, htouch⟩
    refine ⟨p, .of_succ ?_, htouch.mono hout⟩
    simp only [findOuter]
    exact hget.bind (.of_eq fun n => rfl)
  | cons o outers ih =>
    intro q hyields
    rcases hyields q (.refl q) with ⟨p, hget, htouch, hmatch, hlater⟩
    -- each boolean tells its truth of the outer record, and keeps the records to come
    have htest : ∀ {nod : Option (Nod Row Value)} {scope' : List Nat} {r : Req Row},
        TellsOptional nod scope' →
        (∀ s ∈ scope', s ∈ scope ++ j.inner.streams ++ j.outer.streams) →
        (∀ c ∈ cellsOptional nod, c ∈ j.conditions) → Untouched j.conditions p r →
        ∃ r', Settles (fun n => evlOptional n nod r) (holdsOptional nod o, r') ∧
          Untouched j.conditions p r' := by
      intro nod scope' r htells hscope' hcells hr
      rcases htells.mono hscope' r o (hr.keeps hapart hmatch) with ⟨r', hevl, htouch'⟩
      exact ⟨r', hevl, hr.trans (htouch'.mono hcells)⟩
    rcases htest h.boolean_tells (fun s hs => hsub s (List.mem_append_left _ hs))
      (fun c hc => List.mem_append_left _ (List.mem_append_left _ hc)) (.refl p) with
      ⟨p1, hevl1, hp1⟩
    rcases htest h.inner_boolean_tells hsub
      (fun c hc => List.mem_append_left _ (List.mem_append_right _ hc)) hp1 with ⟨p2, hevl2, hp2⟩
    rcases htest hfull.condition_tells hsub (fun c hc => List.mem_append_right _ hc) hp2 with
      ⟨p3, hevl3, hp3⟩
    have hgo : ∀ r, Untouched j.conditions p r → j.joins o = false →
        ∃ t, Settles (fun n => findOuter n j.outer j.boolean j.inner_boolean
              j.inner.condition? r) ((o :: outers).any j.joins, t) ∧
          Untouched (j.outer.cells ++ j.conditions) q t := by
      intro r hr hno
      rcases ih r (hlater.near (hr.near hapart.scope_left h.conditions_outer)) with
        ⟨t, hloop, ht⟩
      refine ⟨t, ?_, ((htouch.mono hout).trans
        hr.right).trans ht⟩
      rw [List.any_cons, hno, Bool.false_or]
      exact hloop
    cases hb : holdsOptional j.boolean o with
    | false =>
      rcases hgo p1 hp1 (by rw [LeftCross.joins, hb]; rfl) with ⟨t, hloop, ht⟩
      refine ⟨t, .of_succ ?_, ht⟩
      simp only [findOuter]
      rw [hb] at hevl1
      exact hget.bind (hevl1.bind hloop)
    | true =>
      rw [hb] at hevl1
      cases hib : holdsOptional j.inner_boolean o with
      | false =>
        rcases hgo p2 hp2 (by rw [LeftCross.joins, hb, hib]; rfl) with ⟨t, hloop, ht⟩
        refine ⟨t, .of_succ ?_, ht⟩
        simp only [findOuter]
        rw [hib] at hevl2
        exact hget.bind (hevl1.bind (hevl2.bind hloop))
      | true =>
        rw [hib] at hevl2
        cases hc : holdsOptional j.inner.condition? o with
        | false =>
          rcases hgo p3 hp3 (by rw [LeftCross.joins, hb, hib, hc]; rfl) with ⟨t, hloop, ht⟩
          refine ⟨t, .of_succ ?_, ht⟩
          simp only [findOuter]
          rw [hc] at hevl3
          exact hget.bind (hevl1.bind (hevl2.bind (hevl3.bind hloop)))
        | true =>
          have hjoins : j.joins o = true := by rw [LeftCross.joins, hb, hib, hc]; rfl
          refine ⟨p3, .of_succ ?_, (htouch.mono hout).trans
            hp3.right⟩
          rw [List.any_cons, hjoins, Bool.true_or]
          simp only [findOuter]
          rw [hc] at hevl3
          exact hget.bind (hevl1.bind (hevl2.bind (hevl3.bind (.of_eq fun n => rfl))))

theorem LeftCross.FullAt.of_untouched {fulls : List (Env Row)} {q p : Req Row}
    {cells : List Cell} (hat : j.FullAt scope e fulls q) (htouch : Untouched cells q p)
    (hapart : Apart scope cells) (hdisj : List.Disjoint cells j.inner.full.cells)
    (hi : Cell.irsb j.i ∉ cells) : j.FullAt scope e fulls p := by
  have harea := htouch.area hi
  exact ⟨harea ▸ hat.phase, htouch.keeps hapart hat.records,
    fun hopened => hat.before (harea ▸ hopened), hat.fulls.near (htouch.near hapart hdisj)⟩

/-- The part of `fetch_left` for a full outer join, by the inner records to come -/
theorem fetchFull_gives (h : j.Parts scope) (hfull : j.FullParts scope)
    (fulls : List (Env Row)) : ∀ q : Req Row, j.FullAt scope e fulls q →
      Gives (fun n => j.fetchFull n q) (j.FullRowsAt scope e)
        (scope ++ (j.outer.streams ++ j.inner.streams)) j.cells
        (unjoined j.inner_streams fulls j.outer.rows j.joins) q := by
  have houterFull : List.Disjoint j.outer.cells j.inner.full.cells := fun c hc hc' =>
    h.inner_cells (by simp [hc]) (full_cells j.inner c hc')
  have hareaFull : Cell.irsb j.i ∉ j.inner.full.cells :=
    fun hmem => h.area.2.1 (full_cells j.inner _ hmem)
  -- the record at hand with nulls for the outer one
  have hemit : ∀ {f : Env Row} {later : List (Env Row)} {u : Req Row},
      Matches (scope ++ j.inner.streams) u.env f → j.FullAt scope e later u →
      Untouched j.outer.cells u (joinToNulls u j.inner_streams) ∧
        Matches (scope ++ (j.outer.streams ++ j.inner.streams))
          (joinToNulls u j.inner_streams).env (nulls j.inner_streams f) ∧
        j.FullAt scope e later (joinToNulls u j.inner_streams) := by
    intro f later u hmatch hat
    have htouch := joinToNulls_untouched u fun s => (hfull.streams_iff s).mp
    refine ⟨htouch, ?_,
      hat.of_untouched htouch (h.apart.sub j.outer_sub) houterFull h.area.1⟩
    rw [joinToNulls_env]
    refine Matches.mono (hmatch.nulls fun s hs => (hfull.streams_iff s).mpr hs) fun s hs => ?_
    simp only [List.mem_append] at hs ⊢
    tauto
  induction fulls with
  | nil =>
    intro q hat
    rcases hat.fulls q (.refl q) with ⟨p, hget, htouch⟩
    refine .of_end (.of_succ ?_) (htouch.mono j.full_sub)
    simp only [LeftCross.fetchFull, fetchFull]
    exact hget.bind (.of_eq fun n => rfl)
  | cons f fulls ih =>
    intro q hat
    rcases hat.fulls q (.refl q) with ⟨p, hget, htouch, hmatch, hlater⟩
    have harea := htouch.area hareaFull
    have hatp : j.FullAt scope e fulls p :=
      ⟨harea ▸ hat.phase, htouch.keeps (h.apart.sub j.full_sub) hat.records,
        fun hopened => hat.before (harea ▸ hopened), hlater⟩
    rw [full_streams] at hmatch
    rw [unjoined_cons]
    cases hopened : (p.impures j.i).irsb_in_opened with
    | false =>
      -- no outer record was ever joined to anything
      have hnone : (j.outer.rows f).any j.joins = false := by
        rw [List.any_eq_false]
        intro o ho hjoins
        have hb := hatp.before hopened f (hmatch.left.symm.trans hatp.records) o ho
        rw [LeftCross.joins, hb] at hjoins
        cases hjoins
      rw [hnone, if_neg Bool.false_ne_true]
      rcases hemit hmatch hatp with ⟨htouch', hmatch', hat'⟩
      refine .of_row (.of_succ ?_) ((htouch.mono j.full_sub).trans (htouch'.mono j.outer_sub))
        hmatch' ⟨fulls, hat', rfl⟩
      simp only [LeftCross.fetchFull, fetchFull]
      refine hget.bind ?_
      simp only [hopened, Bool.not_true, Bool.false_eq_true, if_false]
      exact .of_eq fun n => rfl
    | true =>
      rcases hfull.outer_delivers p f hmatch with ⟨r, hopen, htouchr, hyields⟩
      rcases findOuter_settles h hfull _ r hyields with ⟨t, hfind, htoucht⟩
      have hprobe : Untouched (j.outer.cells ++ j.conditions) p (rseClose j.outer t) :=
        (htouchr.left.trans htoucht).trans (rseClose_untouched j.outer t).left
      have hprobeCells : ∀ c ∈ j.outer.cells ++ j.conditions, c ∈ j.cells := fun c hc =>
        (List.mem_append.mp hc).elim (j.outer_sub c) (j.conditions_sub c)
      have hprobeFull : List.Disjoint (j.outer.cells ++ j.conditions) j.inner.full.cells :=
        List.disjoint_append_left.mpr ⟨houterFull, h.conditions_full⟩
      have hatu : j.FullAt scope e fulls (rseClose j.outer t) := by
        refine hatp.of_untouched hprobe (h.apart.sub hprobeCells) hprobeFull fun hmem => ?_
        exact (List.mem_append.mp hmem).elim h.area.1 h.area_conditions
      have hbefore := (htouch.mono j.full_sub).trans (hprobe.mono hprobeCells)
      cases hany : (j.outer.rows f).any j.joins with
      | true =>
        refine (ih _ hatu).of_step hbefore fun u hu => .of_succ ?_
        simp only [LeftCross.fetchFull, fetchFull]
        refine hget.bind ?_
        simp only [hopened, Bool.not_true, Bool.false_eq_true, if_false, if_true]
        refine hopen.bind ?_
        rw [hany] at hfind
        exact hfind.bind hu
      | false =>
        have hmatchu : Matches (scope ++ j.inner.streams) (rseClose j.outer t).env f := by
          refine hprobe.keeps (Apart.append (h.apart.sub hprobeCells) fun s hs hmem => ?_) hmatch
          rw [← full_streams] at hs
          exact hprobeFull hmem (streams_cells _ s hs)
        rcases hemit hmatchu hatu with ⟨htouch', hmatch', hat'⟩
        rw [if_neg Bool.false_ne_true]
        refine .of_row (.of_succ ?_) (hbefore.trans (htouch'.mono j.outer_sub)) hmatch'
          ⟨fulls, hat', rfl⟩
        simp only [LeftCross.fetchFull, fetchFull]
        refine hget.bind ?_
        simp only [hopened, Bool.not_true, Bool.false_eq_true, if_false, if_true]
        refine hopen.bind ?_
        rw [hany] at hfind
        exact hfind.bind (.of_eq fun n => rfl)

end

end Firebird.Rse
