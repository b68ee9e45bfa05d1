import Firebird.Rse.Outer

/-! # Scopes

A plan that is well scoped is so in a larger scope, and its rows depend on the
records in scope alone: where two states agree in them, the plan has the same
rows, one by one.
-/

namespace Firebird.Rse

variable {Row Value : Type} {scope scope' : List Nat}

/-! ## Larger scopes -/

theorem sizeOf_full_le (rsb : Rsb Row Value) : sizeOf rsb.full ≤ sizeOf rsb := by
  cases rsb <;> simp [Rsb.full]

theorem sizeOf_condition_le (rsb : Rsb Row Value) : sizeOf rsb.condition? ≤ sizeOf rsb := by
  cases rsb <;> simp [Rsb.condition?] <;> omega

theorem scoped_condition {inner : Rsb Row Value} (h : inner.Scoped scope) :
    ScopedOptional inner.condition? (scope ++ inner.streams) := by
  cases inner with
  | boolean i condition next => exact h.2
  | _ => trivial

/-- What a full outer join asks of its inner stream -/
theorem scoped_left_cross {i : Nat} {outer inner : Rsb Row Value}
    {boolean inner_boolean : Option (Nod Row Value)} {streams inner_streams : List Nat} :
    (Rsb.left_cross i outer inner boolean inner_boolean streams inner_streams).Scoped scope ↔
      outer.Scoped scope ∧ inner.Scoped (scope ++ outer.streams) ∧
      ScopedOptional boolean (scope ++ outer.streams) ∧
      ScopedOptional inner_boolean (scope ++ outer.streams ++ inner.streams) ∧
      (∀ s, s ∈ streams ↔ s ∈ inner.streams) ∧
      (inner_streams ≠ [] → (∀ s, s ∈ inner_streams ↔ s ∈ outer.streams) ∧
        inner.full.Scoped scope) := by
  cases inner <;> exact Iff.rfl

theorem Reads.mono {α : Type} {f : Env Row → α} (h : Reads scope f)
    (hsub : ∀ s ∈ scope, s ∈ scope') : Reads scope' f :=
  fun e e' he => h e e' fun s hs => he s (hsub s hs)

theorem append_subset {more : List Nat} (hsub : ∀ s ∈ scope, s ∈ scope') :
    ∀ s ∈ scope ++ more, s ∈ scope' ++ more := by
  intro s hs
  rcases List.mem_append.mp hs with hs | hs
  · exact List.mem_append_left _ (hsub s hs)
  · exact List.mem_append_right _ hs

mutual

theorem Nod.Scoped.mono : ∀ (nod : Nod Row Value) {scope scope' : List Nat},
    nod.Scoped scope → (∀ s ∈ scope, s ∈ scope') → nod.Scoped scope'
  | .compare _ _ _, _, _, h, hsub => ⟨h.1.mono hsub, h.2.mono hsub⟩
  | .between _ _ _, _, _, h, hsub => ⟨h.1.mono hsub, h.2.1.mono hsub, h.2.2.mono hsub⟩
  | .missing _, _, _, h, hsub => Reads.mono h hsub
  | .and arg0 arg1, _, _, h, hsub =>
    ⟨Nod.Scoped.mono arg0 h.1 hsub, Nod.Scoped.mono arg1 h.2 hsub⟩
  | .or arg0 arg1, _, _, h, hsub =>
    ⟨Nod.Scoped.mono arg0 h.1 hsub, Nod.Scoped.mono arg1 h.2 hsub⟩
  | .not arg0, _, _, h, hsub => Nod.Scoped.mono arg0 h hsub
  | .any rsb, _, _, h, hsub => Rsb.Scoped.mono rsb h hsub
termination_by nod => sizeOf nod

theorem ScopedOptional.mono : ∀ (nod : Option (Nod Row Value)) {scope scope' : List Nat},
    ScopedOptional nod scope → (∀ s ∈ scope, s ∈ scope') → ScopedOptional nod scope'
  | none, _, _, _, _ => trivial
  | some nod, _, _, h, hsub => Nod.Scoped.mono nod h hsub
termination_by nod => sizeOf nod

theorem Rsb.Scoped.mono : ∀ (rsb : Rsb Row Value) {scope scope' : List Nat},
    rsb.Scoped scope → (∀ s ∈ scope, s ∈ scope') → rsb.Scoped scope'
  | .sequential _ _ _, _, _, _, _ => trivial
  | .indexed _ _ _ _, _, _, h, hsub => Reads.mono h hsub
  | .boolean _ condition next, _, _, h, hsub =>
    ⟨Rsb.Scoped.mono next h.1 hsub, Nod.Scoped.mono condition h.2 (append_subset hsub)⟩
  | .first _ _ next, _, _, h, hsub => ⟨h.1.mono hsub, h.2.1, Rsb.Scoped.mono next h.2.2 hsub⟩
  | .skip _ _ next, _, _, h, hsub => ⟨h.1.mono hsub, h.2.1, Rsb.Scoped.mono next h.2.2 hsub⟩
  | .cross _ args, _, _, h, hsub => ⟨h.1, ScopedCross.mono args h.2 hsub⟩
  | .union _ _ args maps, _, _, h, hsub => ⟨h.1, ScopedUnion.mono args maps 0 h.2 hsub⟩
  | .left_cross _ outer inner boolean inner_boolean _ _, _, _, h, hsub => by
    have hfull := sizeOf_full_le inner
    rw [scoped_left_cross] at h ⊢
    rcases h with ⟨houter, hinner, hboolean, hinner_boolean, hstreams, hjoin⟩
    exact ⟨Rsb.Scoped.mono outer houter hsub, Rsb.Scoped.mono inner hinner (append_subset hsub),
      ScopedOptional.mono boolean hboolean (append_subset hsub),
      ScopedOptional.mono inner_boolean hinner_boolean (append_subset (append_subset hsub)),
      hstreams, fun hne => ⟨(hjoin hne).1, Rsb.Scoped.mono inner.full (hjoin hne).2 hsub⟩⟩
termination_by rsb => sizeOf rsb

theorem ScopedCross.mono : ∀ (args : List (Rsb Row Value)) {scope scope' : List Nat},
    ScopedCross args scope → (∀ s ∈ scope, s ∈ scope') → ScopedCross args scope'
  | [], _, _, _, _ => trivial
  | arg :: args, _, _, h, hsub =>
    ⟨Rsb.Scoped.mono arg h.1 hsub, ScopedCross.mono args h.2 (append_subset hsub)⟩
termination_by args => sizeOf args

theorem ScopedUnion.mono : ∀ (args : List (Rsb Row Value)) (maps : Nat → Env Row → Row) (k : Nat)
    {scope scope' : List Nat}, ScopedUnion args maps k scope → (∀ s ∈ scope, s ∈ scope') →
    ScopedUnion args maps k scope'
  | [], _, _, _, _, _, _ => trivial
  | arg :: args, maps, k, _, _, h, hsub =>
    ⟨Rsb.Scoped.mono arg h.1 hsub, h.2.1.mono (append_subset hsub),
      ScopedUnion.mono args maps (k + 1) h.2.2 hsub⟩
termination_by args => sizeOf args

end

/-! ## The records in scope decide -/

theorem Matches.update {e f : Env Row} (h : Matches scope e f) (s : Nat) (record : Option Row) :
    Matches (scope ++ [s]) (Function.update e s record) (Function.update f s record) := by
  intro t ht
  rcases eq_or_ne t s with hts | hts
  · rw [hts, Function.update_self, Function.update_self]
  · rw [Function.update_of_ne hts, Function.update_of_ne hts]
    rcases List.mem_append.mp ht with ht | ht
    · exact h t ht
    · exact absurd (List.mem_singleton.mp ht) hts

theorem forall₂_map_update {e f : Env Row} (h : Matches scope e f) (s : Nat) (rows : List Row) :
    List.Forall₂ (Matches (scope ++ [s])) (rows.map fun row => Function.update e s (some row))
      (rows.map fun row => Function.update f s (some row)) := by
  induction rows with
  | nil => exact .nil
  | cons row rows ih => exact .cons (h.update s _) ih

theorem any_congr {R : Env Row → Env Row → Prop} {p : Env Row → Bool} {es fs : List (Env Row)}
    (h : List.Forall₂ R es fs) (hp : ∀ e f, R e f → p e = p f) : es.any p = fs.any p := by
  induction h with
  | nil => rfl
  | cons hef _ ih => rw [List.any_cons, List.any_cons, hp _ _ hef, ih]

theorem forall₂_filter {R : Env Row → Env Row → Prop} {p p' : Env Row → Bool}
    {es fs : List (Env Row)} (h : List.Forall₂ R es fs) (hp : ∀ e f, R e f → p e = p' f) :
    List.Forall₂ R (es.filter p) (fs.filter p') :=
  List.rel_filter (fun e f hef => Bool.eq_iff_iff.mp (hp e f hef)) h

section

variable [MovCompare Value]

/-- The outer rows, joined or with nulls -/
theorem forall₂_leftJoin {streams more inner : List Nat} {on : Env Row → Bool}
    {inners : Env Row → List (Env Row)} {es fs : List (Env Row)}
    (h : List.Forall₂ (Matches (scope ++ more)) es fs)
    (hon : ∀ e f, Matches (scope ++ more) e f → on e = on f)
    (hinners : ∀ e f, Matches (scope ++ more) e f →
      List.Forall₂ (Matches (scope ++ more ++ inner)) (inners e) (inners f))
    (hstreams : ∀ s ∈ inner, s ∈ streams) :
    List.Forall₂ (Matches (scope ++ (more ++ inner))) (leftJoin streams es on inners)
      (leftJoin streams fs on inners) := by
  refine List.rel_flatMap h fun e f hef => ?_
  rw [← List.append_assoc]
  have hempty : inners e = [] ↔ inners f = [] := by
    have hrows := hinners e f hef
    constructor
    · intro hnil
      rw [hnil] at hrows
      exact List.forall₂_nil_left_iff.mp hrows
    · intro hnil
      rw [hnil] at hrows
      exact List.forall₂_nil_right_iff.mp hrows
  rw [hon e f hef]
  by_cases hjoined : on f = true ∧ inners f ≠ []
  · rw [if_pos ⟨hjoined.1, fun hnil => hjoined.2 (hempty.mp hnil)⟩, if_pos hjoined]
    exact hinners e f hef
  · rw [if_neg fun hc => hjoined ⟨hc.1, fun hnil => hc.2 (hempty.mpr hnil)⟩, if_neg hjoined]
    exact .cons (hef.nulls hstreams) .nil

/-- The rows of an outer join depend on the records in scope alone where those of
its streams and the truths of its booleans do. -/
theorem LeftCross.steady {j : LeftCross Row Value} (houter : j.outer.Steady scope)
    (hinner : j.inner.Steady (scope ++ j.outer.streams))
    (hboolean : SteadyOptional j.boolean (scope ++ j.outer.streams))
    (hinner_boolean :
      SteadyOptional j.inner_boolean (scope ++ j.outer.streams ++ j.inner.streams))
    (hstreams : ∀ s, s ∈ j.streams ↔ s ∈ j.inner.streams)
    (hjoin : j.inner_streams ≠ [] → (∀ s, s ∈ j.inner_streams ↔ s ∈ j.outer.streams) ∧
      j.inner.full.Steady scope ∧ j.outer.Steady (scope ++ j.inner.streams) ∧
      SteadyOptional j.inner.condition? (scope ++ j.outer.streams ++ j.inner.streams)) :
    j.rsb.Steady scope := by
  intro e f hef
  rw [j.rows_rsb, j.rows_rsb]
  refine List.rel_append ?_ ?_
  · refine forall₂_leftJoin (houter e f hef) hboolean (fun o o' ho => ?_)
      fun s hs => (hstreams s).mpr hs
    exact forall₂_filter (hinner o o' ho) hinner_boolean
  · rw [fullRows, fullRows]
    by_cases hnone : j.inner_streams = []
    · rw [if_pos hnone, if_pos hnone]
      exact .nil
    · rw [if_neg hnone, if_neg hnone]
      rcases hjoin hnone with ⟨hnulls, hfull, hwider, hcond⟩
      have hfulls := hfull e f hef
      rw [full_streams] at hfulls
      refine List.rel_map (fun f f' hf => ?_) (forall₂_filter hfulls fun f f' hf => ?_)
      · have hmatch : Matches (scope ++ j.inner.streams ++ j.outer.streams)
            (nulls j.inner_streams f) (nulls j.inner_streams f') :=
          hf.nulls fun s hs => (hnulls s).mpr hs
        refine hmatch.mono fun s hs => ?_
        rw [List.append_assoc, List.mem_append, List.mem_append]
        exact (List.mem_append.mp hs).imp_right fun hs => (List.mem_append.mp hs).symm
      · refine congrArg (fun b => !b) (any_congr (hwider f f' hf) fun o o' ho => ?_)
        have hwhole : Matches (scope ++ j.outer.streams ++ j.inner.streams) o o' := by
          refine ho.mono fun s hs => ?_
          simp only [List.mem_append] at hs ⊢
          tauto
        rw [joins, joins, hboolean o o' hwhole.left, hinner_boolean o o' hwhole,
          hcond o o' hwhole]

mutual

theorem Nod.Scoped.truth_congr : ∀ (nod : Nod Row Value) {scope : List Nat} {e f : Env Row},
    nod.Scoped scope → Matches scope e f → nod.truth e = nod.truth f
  | .compare _ _ _, _, e, f, h, hef => by rw [Nod.truth, Nod.truth, h.1 e f hef, h.2 e f hef]
  | .between _ _ _, _, e, f, h, hef => by
    rw [Nod.truth, Nod.truth, h.1 e f hef, h.2.1 e f hef, h.2.2 e f hef]
  | .missing arg0, _, e, f, h, hef => by
    have h0 : arg0 e = arg0 f := h e f hef
    rw [Nod.truth, Nod.truth, h0]
  | .and arg0 arg1, _, _, _, h, hef => by
    rw [Nod.truth, Nod.truth, Nod.Scoped.truth_congr arg0 h.1 hef,
      Nod.Scoped.truth_congr arg1 h.2 hef]
  | .or arg0 arg1, _, _, _, h, hef => by
    rw [Nod.truth, Nod.truth, Nod.Scoped.truth_congr arg0 h.1 hef,
      Nod.Scoped.truth_congr arg1 h.2 hef]
  | .not arg0, _, _, _, h, hef => by
    rw [Nod.truth_not, Nod.truth_not, Nod.Scoped.truth_congr arg0 h hef]
  | .any rsb, _, e, f, h, hef => by
    have hlength := (Rsb.Scoped.steady rsb h e f hef).length_eq
    rw [Nod.truth, Nod.truth]
    cases he : rsb.rows e <;> cases hf : rsb.rows f <;> simp_all
termination_by nod => sizeOf nod

theorem ScopedOptional.steady : ∀ (nod : Option (Nod Row Value)) {scope : List Nat},
    ScopedOptional nod scope → SteadyOptional nod scope
  | none, _, _ => fun _ _ _ => rfl
  | some nod, _, h => fun _ _ hef => by
    rw [holdsOptional, holdsOptional, Nod.Scoped.truth_congr nod h hef]
termination_by nod => sizeOf nod

theorem Rsb.Scoped.steady : ∀ (rsb : Rsb Row Value) {scope : List Nat},
    rsb.Scoped scope → rsb.Steady scope
  | .sequential _ s _, _, _ => fun _ _ hef => forall₂_map_update hef s _
  | .indexed _ s _ inversion, _, h => fun e f hef => by
    have hbitmap : inversion e = inversion f := h e f hef
    rw [Rsb.rows, Rsb.rows, hbitmap]
    exact forall₂_map_update hef s _
  | .boolean _ condition next, _, h => fun e f hef => by
    rw [Rsb.rows, Rsb.rows]
    refine forall₂_filter (Rsb.Scoped.steady next h.1 e f hef) fun e f hef => ?_
    rw [Nod.Scoped.truth_congr condition h.2 hef]
  | .first _ count next, _, h => fun e f hef => by
    rw [Rsb.rows, Rsb.rows, h.1 e f hef]
    exact List.forall₂_take _ (Rsb.Scoped.steady next h.2.2 e f hef)
  | .skip _ count next, _, h => fun e f hef => by
    rw [Rsb.rows, Rsb.rows, h.1 e f hef]
    exact List.forall₂_drop _ (Rsb.Scoped.steady next h.2.2 e f hef)
  | .cross _ args, _, h => fun e f hef => by
    rw [Rsb.rows, Rsb.rows]
    exact ScopedCross.steady args h.2 hef
  | .union _ s args maps, _, h => fun e f hef => by
    rw [Rsb.rows, Rsb.rows]
    exact ScopedUnion.steady s args maps 0 h.2 hef
  | .left_cross i outer inner boolean inner_boolean streams inner_streams, scope, h => by
    have hsize := sizeOf_full_le inner
    have hsize' := sizeOf_condition_le inner
    rw [scoped_left_cross] at h
    rcases h with ⟨houter, hinner, hboolean, hinner_boolean, hstreams, hjoin⟩
    have hwider := Rsb.Scoped.mono outer houter fun s hs => List.mem_append_left inner.streams hs
    exact LeftCross.steady (j := ⟨i, outer, inner, boolean, inner_boolean, streams, inner_streams⟩)
      (Rsb.Scoped.steady outer houter) (Rsb.Scoped.steady inner hinner)
      (ScopedOptional.steady boolean hboolean) (ScopedOptional.steady inner_boolean hinner_boolean)
      hstreams fun hne => ⟨(hjoin hne).1, Rsb.Scoped.steady inner.full (hjoin hne).2,
        Rsb.Scoped.steady outer hwider,
        ScopedOptional.steady inner.condition? (scoped_condition hinner)⟩
termination_by rsb => sizeOf rsb

theorem ScopedCross.steady : ∀ (args : List (Rsb Row Value)) {scope : List Nat} {e f : Env Row},
    ScopedCross args scope → Matches scope e f →
    List.Forall₂ (Matches (scope ++ Rsb.streams.streamsAll args)) (rowsCross args e)
      (rowsCross args f)
  | [], _, _, _, _, hef => by
    rw [rowsCross, rowsCross, Rsb.streams.streamsAll, List.append_nil]
    exact .cons hef .nil
  | arg :: args, _, e, f, h, hef => by
    rw [rowsCross, rowsCross, Rsb.streams.streamsAll, ← List.append_assoc]
    exact List.rel_flatMap (Rsb.Scoped.steady arg h.1 e f hef) fun _ _ hef =>
      ScopedCross.steady args h.2 hef
termination_by args => sizeOf args

theorem ScopedUnion.steady (s : Nat) : ∀ (args : List (Rsb Row Value))
    (maps : Nat → Env Row → Row) (k : Nat) {scope : List Nat} {e f : Env Row},
    ScopedUnion args maps k scope → Matches scope e f →
    List.Forall₂ (Matches (scope ++ [s])) (rowsUnion s args maps k e) (rowsUnion s args maps k f)
  | [], _, _, _, _, _, _, _ => .nil
  | arg :: args, maps, k, _, e, f, h, hef => by
    rw [rowsUnion, rowsUnion]
    refine List.rel_append ?_ (ScopedUnion.steady s args maps (k + 1) h.2.2 hef)
    refine List.rel_map (fun e f hef => ?_) (Rsb.Scoped.steady arg h.1 e f hef)
    rw [h.2.1 e f hef]
    exact hef.left.update s _
termination_by args => sizeOf args

end

end

end Firebird.Rse
