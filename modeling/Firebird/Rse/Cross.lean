import Firebird.Rse.Cursor

/-! # Unions and crosses

`get_union` goes through its sub-streams one after the other. `fetch_record`
gets the next record of the streams `0 .. k` of a cross: the next record of
stream `k`, or, when that has run dry, the next record of the streams to its
left and the first record of stream `k` opened again for it.
-/

namespace Firebird.Rse

variable {Row Value : Type}

/-! ## Lists of record sources -/

theorem cellsAll_append (args rest : List (Rsb Row Value)) :
    cellsAll (args ++ rest) = cellsAll args ++ cellsAll rest := by
  induction args with
  | nil => rfl
  | cons arg args ih => rw [List.cons_append, cellsAll, ih, cellsAll, List.append_assoc]

theorem streamsAll_append (args rest : List (Rsb Row Value)) :
    Rsb.streams.streamsAll (args ++ rest) =
      Rsb.streams.streamsAll args ++ Rsb.streams.streamsAll rest := by
  induction args with
  | nil => rfl
  | cons arg args ih =>
    rw [List.cons_append, Rsb.streams.streamsAll, ih, Rsb.streams.streamsAll, List.append_assoc]

theorem take_succ_of_getElem? {α : Type} {xs : List α} {k : Nat} {x : α} (h : xs[k]? = some x) :
    xs.take (k + 1) = xs.take k ++ [x] := by
  rw [List.take_add_one, h]
  rfl

theorem drop_of_getElem? {α : Type} {xs : List α} {k : Nat} {x : α} (h : xs[k]? = some x) :
    xs.drop k = x :: xs.drop (k + 1) := by
  rcases List.getElem?_eq_some_iff.mp h with ⟨hk, rfl⟩
  exact List.drop_eq_getElem_cons hk

section

variable {args : List (Rsb Row Value)} {arg : Rsb Row Value} {k : Nat}

theorem cellsAll_split (h : args[k]? = some arg) : cellsAll args =
    cellsAll (args.take k) ++ (arg.cells ++ cellsAll (args.drop (k + 1))) := by
  rw [← cellsAll, ← cellsAll_append, ← drop_of_getElem? h, List.take_append_drop]

theorem cells_subset_cellsAll (h : args[k]? = some arg) : ∀ c ∈ arg.cells, c ∈ cellsAll args := by
  intro c hc
  rw [cellsAll_split h]
  simp [hc]

theorem cellsAll_take_succ (h : args[k]? = some arg) :
    cellsAll (args.take (k + 1)) = cellsAll (args.take k) ++ arg.cells := by
  rw [take_succ_of_getElem? h, cellsAll_append, cellsAll, cellsAll, List.append_nil]

theorem cells_take_left (h : args[k]? = some arg) :
    ∀ c ∈ cellsAll (args.take k), c ∈ cellsAll (args.take (k + 1)) := fun c hc => by
  rw [cellsAll_take_succ h]
  exact List.mem_append_left _ hc

theorem cells_take_right (h : args[k]? = some arg) :
    ∀ c ∈ arg.cells, c ∈ cellsAll (args.take (k + 1)) := fun c hc => by
  rw [cellsAll_take_succ h]
  exact List.mem_append_right _ hc

theorem streamsAll_take_succ (h : args[k]? = some arg) :
    Rsb.streams.streamsAll (args.take (k + 1)) =
      Rsb.streams.streamsAll (args.take k) ++ arg.streams := by
  rw [take_succ_of_getElem? h, streamsAll_append, Rsb.streams.streamsAll,
    Rsb.streams.streamsAll, List.append_nil]

/-- Sub-stream `k` writes to nothing that the streams to its left write to. -/
theorem disjoint_of_getElem? (hnodup : (cellsAll args).Nodup) (h : args[k]? = some arg) :
    List.Disjoint arg.cells (cellsAll (args.take k)) := by
  rw [cellsAll_split h] at hnodup
  intro c hc hc'
  exact (List.nodup_append.mp hnodup).2.2 c hc' c (List.mem_append_left _ hc) rfl

theorem union_cells {i s : Nat} {maps : Nat → Env Row → Row} (h : args[k]? = some arg) :
    ∀ c ∈ arg.cells, c ∈ (Rsb.union i s args maps).cells := fun c hc =>
  List.mem_cons_of_mem _ (List.mem_cons_of_mem _ (cells_subset_cellsAll h c hc))

end

mutual

/-- A plan writes to the streams that its rows fill. -/
theorem streams_cells : ∀ (rsb : Rsb Row Value), ∀ s ∈ rsb.streams, Cell.rpb s ∈ rsb.cells
  | .sequential _ t _, s, hs => by
    rw [List.mem_singleton.mp hs]
    exact List.mem_cons_of_mem _ List.mem_cons_self
  | .indexed _ t _ _, s, hs => by
    rw [List.mem_singleton.mp hs]
    exact List.mem_cons_of_mem _ List.mem_cons_self
  | .boolean _ _ next, s, hs =>
    List.mem_cons_of_mem _ (List.mem_append_right _ (streams_cells next s hs))
  | .first _ _ next, s, hs => List.mem_cons_of_mem _ (streams_cells next s hs)
  | .skip _ _ next, s, hs => List.mem_cons_of_mem _ (streams_cells next s hs)
  | .cross _ args, s, hs => List.mem_cons_of_mem _ (streamsAll_cells args s hs)
  | .union _ t _ _, s, hs => by
    rw [List.mem_singleton.mp hs]
    exact List.mem_cons_of_mem _ List.mem_cons_self
  | .left_cross _ outer inner _ _ _ _, s, hs => by
    rcases List.mem_append.mp hs with hs | hs
    · have houter := streams_cells outer s hs
      simp [Rsb.cells, houter]
    · have hinner := streams_cells inner s hs
      simp [Rsb.cells, hinner]

theorem streamsAll_cells : ∀ (args : List (Rsb Row Value)),
    ∀ s ∈ Rsb.streams.streamsAll args, Cell.rpb s ∈ cellsAll args
  | [], _, hs => absurd hs List.not_mem_nil
  | arg :: args, s, hs => by
    rcases List.mem_append.mp hs with hs | hs
    · exact List.mem_append_left _ (streams_cells arg s hs)
    · exact List.mem_append_right _ (streamsAll_cells args s hs)

end

section

variable [MovCompare Value] {scope : List Nat} {args : List (Rsb Row Value)}

/-! ## Unions -/

theorem rowsUnion_drop {s k : Nat} {maps : Nat → Env Row → Row} {arg : Rsb Row Value}
    (h : args[k]? = some arg) (e : Env Row) :
    rowsUnion s (args.drop k) maps k e =
      ((arg.rows e).map fun f => Function.update f s (some (maps k f))) ++
        rowsUnion s (args.drop (k + 1)) maps (k + 1) e := by
  rw [drop_of_getElem? h, rowsUnion]

/-- What a union rests on: each sub-stream delivers, its map reads what it
delivered, and nothing is shared. -/
structure UnionParts (i s : Nat) (args : List (Rsb Row Value)) (maps : Nat → Env Row → Row)
    (scope : List Nat) : Prop where
  delivers : ∀ (k : Nat) (arg : Rsb Row Value), args[k]? = some arg → arg.Delivers scope
  reads : ∀ (k : Nat) (arg : Rsb Row Value), args[k]? = some arg →
    Reads (scope ++ arg.streams) (maps k)
  apart : Apart scope (cellsAll args)
  stream : s ∉ scope
  area : Cell.irsb i ∉ cellsAll args
  target : Cell.rpb s ∉ cellsAll args

/-- The union stands in its sub-stream `irsb_count`, and these are the rows to come. -/
def UnionAt (i s : Nat) (args : List (Rsb Row Value)) (maps : Nat → Env Row → Row)
    (scope : List Nat) (e : Env Row) (rows : List (Env Row)) (q : Req Row) : Prop :=
  ∃ (k : Nat) (arg : Rsb Row Value) (todo : List (Env Row)), args[k]? = some arg ∧
    (q.impures i).irsb_count = (k : Int) ∧ Matches scope q.env e ∧
    arg.ToCome scope todo q ∧
    rows = (todo.map fun f => Function.update f s (some (maps k f))) ++
      rowsUnion s (args.drop (k + 1)) maps (k + 1) e

section

variable {i s : Nat} {maps : Nat → Env Row → Row} {e : Env Row} {k : Nat} {arg : Rsb Row Value}

theorem UnionParts.apart_arg (h : UnionParts i s args maps scope) (harg : args[k]? = some arg) :
    Apart scope arg.cells := h.apart.sub (cells_subset_cellsAll harg)

theorem UnionParts.area_arg (h : UnionParts i s args maps scope) (harg : args[k]? = some arg) :
    Cell.irsb i ∉ arg.cells := fun hmem => h.area (cells_subset_cellsAll harg _ hmem)

theorem UnionAt.near {rows : List (Env Row)}
    {q p : Req Row} (h : UnionAt i s args maps scope e rows q)
    (hnear : Near scope (Rsb.union i s args maps).cells q p) :
    UnionAt i s args maps scope e rows p := by
  rcases h with ⟨k, arg, todo, harg, hcount, hmatch, htodo, hrows⟩
  have hsame : q.impures i = p.impures i := hnear.same (.irsb i) List.mem_cons_self
  exact ⟨k, arg, todo, harg, hsame ▸ hcount, hnear.records.symm.trans hmatch,
    htodo.near (hnear.sub (union_cells harg)), hrows⟩

/-- `get_union`, by the sub-streams still to be opened -/
theorem getUnion_gives (hparts : UnionParts i s args maps scope) (later : Nat) :
    ∀ (q : Req Row) (rows : List (Env Row)),
      args.length - (q.impures i).irsb_count.toNat ≤ later →
      UnionAt i s args maps scope e rows q →
      Gives (fun n => getUnion n i s args maps q) (UnionAt i s args maps scope e) (scope ++ [s])
        (Rsb.union i s args maps).cells rows q := by
  induction later with
  | zero =>
    rintro q rows hlater ⟨k, arg, todo, harg, hcount, -⟩
    rcases List.getElem?_eq_some_iff.mp harg with ⟨hk, -⟩
    omega
  | succ later ih =>
    rintro q rows hlater ⟨k, arg, todo, harg, hcount, hmatch, htodo, rfl⟩
    have hapart := hparts.apart_arg harg
    have htoNat : (q.impures i).irsb_count.toNat = k := by omega
    cases todo with
    | cons f todo =>
      rcases htodo q (.refl q) with ⟨p, hget, htouch, hmatch', hyields⟩
      have hset := untouched_setRpb p s { p.rpbs s with rpb_record := some (maps k p.env) }
      have hmap : maps k p.env = maps k f := hparts.reads k arg harg _ _ hmatch'
      have hsame := htouch.area (hparts.area_arg harg)
      have htarget : List.Disjoint [Cell.rpb s] arg.cells :=
        List.singleton_disjoint.mpr fun hmem =>
          hparts.target (cells_subset_cellsAll harg _ hmem)
      have happart : Apart scope [Cell.rpb s] := apart_rpb hparts.stream
      refine .of_row (.of_succ ?_) ((htouch.mono (union_cells harg)).trans
        (hset.mono fun c hc => ?_)) ?_ ⟨k, arg, todo, harg, hsame ▸ hcount, ?_,
          hyields.near (hset.near happart htarget), rfl⟩
      · simp only [getUnion, htoNat, harg]
        exact hget.bind (.of_eq fun n => rfl)
      · rw [List.mem_singleton.mp hc]
        exact List.mem_cons_of_mem _ List.mem_cons_self
      · refine matches_of_record hmatch'.left hset ?_
        rw [setRpb_env, Function.update_self, hmap]
      · exact hset.keeps happart (htouch.keeps hapart hmatch)
    | nil =>
      rcases htodo q (.refl q) with ⟨p, hget, htouch⟩
      have hclose := rseClose_untouched arg p
      have hcount' : ((rseClose arg p).impures i).irsb_count = (k : Int) := by
        rw [(htouch.trans hclose).area (hparts.area_arg harg), hcount]
      have hdry : Untouched (Rsb.union i s args maps).cells q
          ((rseClose arg p).setCount i (k + 1)) :=
        ((htouch.trans hclose).mono (union_cells harg)).trans
          (untouched_area _ i List.mem_cons_self _)
      have hmatch' := (htouch.trans hclose).keeps hapart hmatch
      rw [List.map_nil, List.nil_append]
      cases hnext : args[k + 1]? with
      | none =>
        have hover : args.drop (k + 1) = [] :=
          List.drop_eq_nil_of_le (List.getElem?_eq_none_iff.mp hnext)
        rw [hover, rowsUnion]
        refine .of_end (.of_succ ?_) hdry
        simp only [getUnion, htoNat, harg]
        refine hget.bind ?_
        simp only [hnext, hcount']
        exact .of_eq fun n => rfl
      | some arg' =>
        rw [rowsUnion_drop hnext]
        rcases hparts.delivers (k + 1) arg' hnext ((rseClose arg p).setCount i (k + 1)) e
          hmatch' with ⟨r, hopen, htouch', hyields⟩
        have hcountr : (r.impures i).irsb_count = ((k + 1 : Nat) : Int) := by
          rw [htouch'.area (hparts.area_arg hnext), setCount_count]
          rfl
        have hmatchr := htouch'.keeps (hparts.apart_arg hnext) hmatch'
        have hat := ih r _ (by omega) ⟨k + 1, arg', _, hnext, hcountr, hmatchr, hyields, rfl⟩
        refine hat.of_step (hdry.trans (htouch'.mono (union_cells hnext))) fun t ht => .of_succ ?_
        simp only [getUnion, htoNat, harg]
        refine hget.bind ?_
        simp only [hnext, hcount']
        exact hopen.bind ht

theorem union_delivers (hparts : UnionParts i s args maps scope) (hargs : args ≠ []) :
    (Rsb.union i s args maps).Delivers scope := by
  rcases List.exists_cons_of_ne_nil hargs with ⟨arg, rest, rfl⟩
  intro q e he
  have hfirst : (arg :: rest)[0]? = some arg := rfl
  rcases hparts.delivers 0 arg hfirst ((q.opening i).setCount i 0) e he with
    ⟨p, hopen, htouch, hyields⟩
  refine ⟨p, .of_succ hopen, ?_, ?_⟩
  · exact ((untouched_area q i List.mem_cons_self _).trans
      (untouched_area _ i List.mem_cons_self _)).trans
        (htouch.mono (cells_subset_cellsAll hfirst)).tail.tail
  · refine Yields.of_inv (I := UnionAt i s (arg :: rest) maps scope e) ?_ ?_ ?_
    · exact fun rows q p h hnear => h.near hnear
    · exact fun rows q h => (getUnion_gives hparts _ q rows (Nat.le_refl _) h).of_step (.refl q)
        fun r hr => .of_succ hr
    · refine ⟨0, arg, _, hfirst, ?_, htouch.keeps (hparts.apart_arg hfirst) he, hyields, ?_⟩
      · rw [htouch.area (hparts.area_arg hfirst), setCount_count]
        rfl
      · rw [Rsb.rows, ← rowsUnion_drop hfirst, List.drop_zero]

end

/-! ## Crosses -/

/-- What a cross rests on: a sub-stream delivers where the streams to its left
hold their records, and nothing is shared. -/
structure CrossParts (args : List (Rsb Row Value)) (scope : List Nat) : Prop where
  delivers : ∀ (k : Nat) (arg : Rsb Row Value), args[k]? = some arg →
    arg.Delivers (scope ++ Rsb.streams.streamsAll (args.take k))
  nodup : (cellsAll args).Nodup
  apart : Apart scope (cellsAll args)

/-- The streams `0 .. k - 1` are open, and these are their rows to come: for
`k = 0` none but the one at hand. -/
def CrossAt (args : List (Rsb Row Value)) (scope : List Nat) :
    Nat → List (Env Row) → Req Row → Prop
  | 0, rows, _ => rows = []
  | k + 1, rows, q =>
    Yields (fun n => fetchRecord n args k) scope (Rsb.streams.streamsAll (args.take (k + 1)))
      (cellsAll (args.take (k + 1))) rows q

theorem CrossAt.near {k : Nat} {rows : List (Env Row)} {q p : Req Row}
    (h : CrossAt args scope k rows q) (hnear : Near scope (cellsAll (args.take k)) q p) :
    CrossAt args scope k rows p := by
  cases k with
  | zero => exact h
  | succ k => exact Yields.near h hnear

/-- Stream `k` is open for a record of the streams to its left: its rows to come, and
then those for the records to come to its left. -/
def StreamAt (args : List (Rsb Row Value)) (scope : List Nat) (k : Nat) (arg : Rsb Row Value)
    (rows : List (Env Row)) (q : Req Row) : Prop :=
  ∃ todo outer, arg.ToCome (scope ++ Rsb.streams.streamsAll (args.take k)) todo q ∧
    CrossAt args scope k outer q ∧ rows = todo ++ outer.flatMap arg.rows

section

variable {k : Nat} {arg : Rsb Row Value}

/-- What the sub-stream does leaves the streams to its left where they are. -/
theorem CrossAt.keep (hparts : CrossParts args scope) (harg : args[k]? = some arg)
    {rows : List (Env Row)} {q p : Req Row} (h : CrossAt args scope k rows q)
    (htouch : Untouched arg.cells q p) : CrossAt args scope k rows p :=
  h.near (htouch.near (hparts.apart.sub (cells_subset_cellsAll harg))
    (disjoint_of_getElem? hparts.nodup harg))

/-- What the loop of `fetch_record` leaves once its sub-stream has run dry, by
the rows to come of the streams to the left -/
theorem fetchAgain_gives (hparts : CrossParts args scope) (harg : args[k]? = some arg)
    (outer : List (Env Row)) :
    ∀ q : Req Row, CrossAt args scope k outer q →
      Gives (fun n => fetchAgain n args k arg q) (StreamAt args scope k arg)
        (scope ++ Rsb.streams.streamsAll (args.take (k + 1))) (cellsAll (args.take (k + 1)))
        (outer.flatMap arg.rows) q := by
  have hleft := cells_take_left harg
  have hright := cells_take_right harg
  induction outer with
  | nil =>
    intro q houter
    have hclose := rseClose_untouched arg q
    cases k with
    | zero => exact .of_end (.of_succ (.of_eq fun n => rfl)) (hclose.mono hright)
    | succ k =>
      rcases houter.keep hparts harg hclose _ (.refl _) with ⟨p, hfetch, htouch⟩
      refine .of_end (.of_succ ?_) ((hclose.mono hright).trans (htouch.mono hleft))
      simp only [fetchAgain]
      exact hfetch.bind (.of_eq fun n => rfl)
  | cons f outer ih =>
    intro q houter
    have hclose := rseClose_untouched arg q
    cases k with
    | zero => cases houter
    | succ k =>
      rcases houter.keep hparts harg hclose _ (.refl _) with ⟨p, hfetch, htouch, hmatch, hlater⟩
      rcases hparts.delivers (k + 1) arg harg p f hmatch with ⟨r, hopen, htouch', hyields⟩
      have hlater' : CrossAt args scope (k + 1) outer r :=
        CrossAt.keep hparts harg (k := k + 1) hlater htouch'
      have hdone : Untouched (cellsAll (args.take (k + 1 + 1))) q r :=
        ((hclose.mono hright).trans (htouch.mono hleft)).trans (htouch'.mono hright)
      rw [List.flatMap_cons]
      cases hrows : arg.rows f with
      | nil =>
        rw [hrows] at hyields
        rcases hyields r (.refl r) with ⟨t, hget, htoucht⟩
        refine (ih t (hlater'.keep hparts harg htoucht)).of_step
          (hdone.trans (htoucht.mono hright)) fun u hu => .of_succ ?_
        simp only [fetchAgain]
        refine hfetch.bind ?_
        refine hopen.bind ?_
        exact hget.bind hu
      | cons g todo =>
        rw [hrows] at hyields
        rcases hyields r (.refl r) with ⟨t, hget, htoucht, hmatcht, htodo⟩
        refine .of_row (.of_succ ?_) (hdone.trans (htoucht.mono hright)) ?_
          ⟨todo, outer, htodo, hlater'.keep hparts harg htoucht, rfl⟩
        · simp only [fetchAgain]
          refine hfetch.bind ?_
          refine hopen.bind ?_
          exact hget.bind (.of_eq fun n => rfl)
        · rw [streamsAll_take_succ harg, ← List.append_assoc]
          exact hmatcht

/-- The streams `0 .. k` of a cross give the rows of stream `k` for the record at
hand and then those for the records to come to its left. -/
theorem crossAt_step (hparts : CrossParts args scope) (harg : args[k]? = some arg)
    {rows : List (Env Row)} {q : Req Row} (hat : StreamAt args scope k arg rows q) :
    CrossAt args scope (k + 1) rows q := by
  have hleft := cells_take_left harg
  have hright := cells_take_right harg
  refine Yields.of_inv (I := StreamAt args scope k arg) ?_ ?_ hat
  · rintro rows q p ⟨todo, outer, htodo, houter, rfl⟩ hnear
    refine ⟨todo, outer, htodo.near ?_, houter.near (hnear.sub hleft), rfl⟩
    exact hnear.streams (fun s hs => hleft _ (streamsAll_cells _ s hs)) hright
  · rintro rows q ⟨todo, outer, htodo, houter, rfl⟩
    cases todo with
    | cons g todo =>
      rcases htodo q (.refl q) with ⟨p, hget, htouch, hmatch, hyields⟩
      refine .of_row (.of_succ ?_) (htouch.mono hright) ?_
        ⟨todo, outer, hyields, houter.keep hparts harg htouch, rfl⟩
      · simp only [fetchRecord, harg]
        exact hget.bind (.of_eq fun n => rfl)
      · rw [streamsAll_take_succ harg, ← List.append_assoc]
        exact hmatch
    | nil =>
      rcases htodo q (.refl q) with ⟨p, hget, htouch⟩
      refine (fetchAgain_gives hparts harg outer p (houter.keep hparts harg htouch)).of_step
        (htouch.mono hright) fun r hr => .of_succ ?_
      simp only [fetchRecord, harg]
      exact hget.bind hr

end

/-- Opening stream `k` for the record at hand of the streams to its left -/
theorem crossAt_open (hparts : CrossParts args scope) {k : Nat} {arg : Rsb Row Value}
    (harg : args[k]? = some arg) {outer : List (Env Row)} {q : Req Row} {f : Env Row}
    (houter : CrossAt args scope k outer q)
    (hmatch : Matches (scope ++ Rsb.streams.streamsAll (args.take k)) q.env f) :
    ∃ p, Settles (fun n => rseOpen n arg q) p ∧ Untouched arg.cells q p ∧
      CrossAt args scope (k + 1) ((f :: outer).flatMap arg.rows) p := by
  rcases hparts.delivers k arg harg q f hmatch with ⟨p, hopen, htouch, hyields⟩
  exact ⟨p, hopen, htouch, crossAt_step hparts harg
    ⟨_, outer, hyields, houter.keep hparts harg htouch, rfl⟩⟩

/-- The loop that fetches the first record of a cross, by the streams still to be opened -/
theorem fetchFirst_gives (hparts : CrossParts args scope) (rest : List (Rsb Row Value)) :
    ∀ (k : Nat) (q : Req Row) (f : Env Row) (outer : List (Env Row)), args.drop k = rest →
      CrossAt args scope k outer q →
      Matches (scope ++ Rsb.streams.streamsAll (args.take k)) q.env f →
      Gives (fun n => fetchFirst n args k q) (CrossAt args scope (k + rest.length))
        (scope ++ Rsb.streams.streamsAll args) (cellsAll args)
        ((f :: outer).flatMap (rowsCross rest)) q := by
  induction rest with
  | nil =>
    intro k q f outer hrest houter hmatch
    have hover : args[k]? = none :=
      List.getElem?_eq_none (List.drop_eq_nil_iff.mp hrest)
    have hall : args.take k = args := List.take_of_length_le (List.drop_eq_nil_iff.mp hrest)
    have hself : (f :: outer).flatMap (rowsCross ([] : List (Rsb Row Value))) = f :: outer := by
      simp [rowsCross]
    rw [hself]
    rw [hall] at hmatch
    refine .of_row (.of_succ (.of_eq fun n => ?_)) (.refl q) hmatch houter
    simp only [fetchFirst, hover]
  | cons arg rest ih =>
    intro k q f outer hrest houter hmatch
    have harg : args[k]? = some arg := by
      rw [← List.head?_drop, hrest]
      rfl
    have hrest' : args.drop (k + 1) = rest := by
      have hsplit := drop_of_getElem? harg
      rw [hrest] at hsplit
      exact (List.cons.inj hsplit).2.symm
    have hcells : ∀ c ∈ cellsAll (args.take (k + 1)), c ∈ cellsAll args := fun c hc => by
      rw [← List.take_append_drop (k + 1) args, cellsAll_append]
      exact List.mem_append_left _ hc
    rcases crossAt_open hparts harg houter hmatch with ⟨p, hopen, htouch, hyields⟩
    have hrows : (f :: outer).flatMap (rowsCross (arg :: rest)) =
        ((f :: outer).flatMap arg.rows).flatMap (rowsCross rest) := by
      rw [List.flatMap_assoc]
      exact List.flatMap_congr fun g _ => by rw [rowsCross]
    rw [hrows]
    cases hleft : (f :: outer).flatMap arg.rows with
    | nil =>
      rw [hleft] at hyields
      rcases Yields.near hyields (.refl p) p (.refl p) with ⟨r, hfetch, htouch'⟩
      refine .of_end (.of_succ ?_)
        ((htouch.mono (cells_subset_cellsAll harg)).trans (htouch'.mono hcells))
      simp only [fetchFirst, harg]
      refine hopen.bind ?_
      exact hfetch.bind (.of_eq fun n => rfl)
    | cons g later =>
      rw [hleft] at hyields
      rcases Yields.near hyields (.refl p) p (.refl p) with
        ⟨r, hfetch, htouch', hmatch', hlater⟩
      have hgives := ih (k + 1) r g later hrest' hlater hmatch'
      rw [show k + 1 + rest.length = k + (arg :: rest).length by
        rw [List.length_cons]; omega] at hgives
      refine hgives.of_step
        ((htouch.mono (cells_subset_cellsAll harg)).trans (htouch'.mono hcells))
        fun t ht => .of_succ ?_
      simp only [fetchFirst, harg]
      refine hopen.bind ?_
      exact hfetch.bind ht

theorem cross_delivers {i : Nat} (hparts : CrossParts args scope) (hargs : args ≠ [])
    (hi : Cell.irsb i ∉ cellsAll args) : (Rsb.cross i args).Delivers scope := by
  intro q e he
  have harea : ∀ (q : Req Row) (irsb : Irsb),
      Untouched (Rsb.cross i args).cells q (q.setImpure i irsb) :=
    fun q irsb => untouched_area q i List.mem_cons_self irsb
  have hlength : args.length = args.length - 1 + 1 := by
    have hpos := List.length_pos_iff.mpr hargs
    omega
  have hall : args.take (args.length - 1 + 1) = args := by
    rw [← hlength, List.take_length]
  refine ⟨q.opening i, .of_succ (.of_eq fun n => rfl), harea q _, ?_⟩
  refine Yields.of_inv (I := fun rows q =>
    (q.impures i).irsb_first = true ∧ Matches scope q.env e ∧ rows = rowsCross args e ∨
    (q.impures i).irsb_first = false ∧ CrossAt args scope (args.length - 1 + 1) rows q)
    ?_ ?_ (.inl ⟨?_, he, by rw [Rsb.rows]⟩)
  · intro rows q p hinv hnear
    have hsame : q.impures i = p.impures i := hnear.same (.irsb i) List.mem_cons_self
    rcases hinv with ⟨hfirst, hmatch, hrows⟩ | ⟨hfirst, hat⟩
    · exact .inl ⟨hsame ▸ hfirst, hnear.records.symm.trans hmatch, hrows⟩
    · refine .inr ⟨hsame ▸ hfirst, hat.near ?_⟩
      rw [hall]
      exact hnear.tail
  · rintro rows q (⟨hfirst, hmatch, rfl⟩ | ⟨hfirst, hat⟩)
    · -- the streams are opened
      have hgives := fetchFirst_gives hparts args 0 q e [] rfl rfl
        (by simpa [Rsb.streams.streamsAll] using hmatch)
      rw [List.flatMap_cons, List.flatMap_nil, List.append_nil, Nat.zero_add, hlength] at hgives
      rcases hgives with ⟨found, p, hloop, htouch, hrows⟩
      cases hcross : rowsCross args e with
      | nil =>
        rw [hcross] at hrows
        subst hrows
        refine .of_end (.of_succ ?_) htouch.tail
        simp only [getRecord, hfirst, if_true]
        exact hloop.bind (.of_eq fun n => rfl)
      | cons f rows =>
        rw [hcross] at hrows
        rcases hrows with ⟨rfl, hmatch', hlater⟩
        have hset := untouched_setImpure p i { p.impures i with irsb_first := false }
        refine .of_row (.of_succ ?_) (htouch.tail.trans (harea p
          { p.impures i with irsb_first := false })) hmatch' (.inr ⟨?_, ?_⟩)
        · simp only [getRecord, hfirst, if_true]
          exact hloop.bind (.of_eq fun n => rfl)
        · rw [setImpure_impures]
        · refine hlater.near (hset.near (fun s _ hmem => ?_) (List.singleton_disjoint.mpr ?_))
          · cases List.mem_singleton.mp hmem
          · rw [hall]
            exact hi
    · rcases Yields.gives hat with ⟨found, p, hfetch, htouch, hrows⟩
      rw [hall] at htouch
      refine ⟨found, p, .of_succ ?_, htouch.tail, ?_⟩
      · simp only [getRecord, hfirst, Bool.false_eq_true, if_false]
        exact hfetch
      · cases rows with
        | nil => exact hrows
        | cons f rows =>
          rcases hrows with ⟨hyes, hmatch, hlater⟩
          rw [hall] at hmatch
          rw [← htouch.area hi] at hfirst
          exact ⟨hyes, hmatch, .inr ⟨hfirst, hlater⟩⟩
  · rw [Req.opening, setImpure_impures]

end

end Firebird.Rse
