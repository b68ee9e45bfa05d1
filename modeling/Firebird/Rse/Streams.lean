import Firebird.Rse.Cursor

/-! # Relations, filters and limits

What one call of `get_record` does on a record source that reads a relation,
and on one that filters or limits the records of another.
-/

namespace Firebird.Rse

variable {Row Value : Type}

/-! ## Records of a relation -/

theorem recordFrom_none {relation : List (Option Row)} {k : Nat}
    (h : recordFrom relation k = none) : relation.filterMap id = [] := by
  induction relation generalizing k with
  | nil => rfl
  | cons record relation ih =>
    cases record with
    | none => exact ih h
    | some row => cases h

theorem recordFrom_some {relation : List (Option Row)} {k j : Nat} {row : Row}
    (h : recordFrom relation k = some (j, row)) :
    k ≤ j ∧ relation.filterMap id = row :: (relation.drop (j + 1 - k)).filterMap id := by
  induction relation generalizing k with
  | nil => cases h
  | cons record relation ih =>
    cases record with
    | some first =>
      cases h
      refine ⟨Nat.le_refl _, ?_⟩
      rw [Nat.add_sub_cancel_left]
      rfl
    | none =>
      rcases ih h with ⟨hle, hrows⟩
      refine ⟨by omega, ?_⟩
      have hdrop : j + 1 - k = (j + 1 - (k + 1)) + 1 := by omega
      rw [hdrop, List.drop_succ_cons]
      exact hrows

/-- The records of a relation behind a number -/
def recordsAfter (relation : List (Option Row)) (number : Int) : List Row :=
  (relation.drop (number + 1).toNat).filterMap id

theorem recordsAfter_none {relation : List (Option Row)} {number : Int}
    (h : vioNextRecord relation number = none) : recordsAfter relation number = [] :=
  recordFrom_none h

theorem recordsAfter_some {relation : List (Option Row)} {number : Int} {k : Nat} {row : Row}
    (h : vioNextRecord relation number = some (k, row)) :
    recordsAfter relation number = row :: recordsAfter relation k := by
  rcases recordFrom_some h with ⟨hle, hrows⟩
  have hdrop : (number + 1).toNat + (k + 1 - (number + 1).toNat) = ((k : Int) + 1).toNat := by
    omega
  rw [recordsAfter, hrows, List.drop_drop, hdrop]
  rfl

/-! ## Records of an index retrieval -/

/-- The record of number `k`, if the bitmap names it and it comes after `number` -/
def indexedRecord (relation : List (Option Row)) (bitmap : List Nat) (number : Int) (k : Nat) :
    Option Row :=
  if number < k ∧ k ∈ bitmap then vioGet relation k else none

/-- The records behind a number that the bitmap names -/
def indexedAfter (relation : List (Option Row)) (bitmap : List Nat) (number : Int) : List Row :=
  (List.range relation.length).filterMap (indexedRecord relation bitmap number)

theorem indexedAfter_start (relation : List (Option Row)) (bitmap : List Nat) :
    indexedAfter relation bitmap (-1) = indexedRows relation bitmap := by
  refine List.filterMap_congr fun k _ => ?_
  have hk : (-1 : Int) < k := by omega
  simp only [indexedRecord, hk, true_and]

theorem sbmNext_none {bitmap : List Nat} {number : Int} (h : sbmNext bitmap number = none) :
    ∀ k ∈ bitmap, ¬number < (k : Int) := by
  intro k hk hlt
  have hmem : k ∈ bitmap.filter fun n : Nat => decide (number < (n : Int)) :=
    List.mem_filter.mpr ⟨hk, decide_eq_true hlt⟩
  rw [List.min?_eq_none_iff.mp h] at hmem
  cases hmem

theorem sbmNext_some {bitmap : List Nat} {number : Int} {k : Nat}
    (h : sbmNext bitmap number = some k) :
    k ∈ bitmap ∧ number < (k : Int) ∧ ∀ j ∈ bitmap, number < (j : Int) → k ≤ j := by
  rcases List.min?_eq_some_iff.mp h with ⟨hmem, hmin⟩
  rcases List.mem_filter.mp hmem with ⟨hk, hlt⟩
  refine ⟨hk, of_decide_eq_true hlt, fun j hj hjlt => ?_⟩
  exact hmin j (List.mem_filter.mpr ⟨hj, decide_eq_true hjlt⟩)

theorem indexedAfter_none {relation : List (Option Row)} {bitmap : List Nat} {number : Int}
    (h : sbmNext bitmap number = none) : indexedAfter relation bitmap number = [] := by
  refine List.filterMap_eq_nil_iff.mpr fun k _ => ?_
  refine if_neg fun hk => sbmNext_none h k hk.2 hk.1

/-- Between a number and the next number of the bitmap there are no records. -/
theorem indexedAfter_some {relation : List (Option Row)} {bitmap : List Nat} {number : Int}
    {k : Nat} (h : sbmNext bitmap number = some k) :
    indexedAfter relation bitmap number =
      (vioGet relation k).toList ++ indexedAfter relation bitmap k := by
  rcases sbmNext_some h with ⟨hk, hlt, hmin⟩
  have hsteps : ∀ n, (List.range n).filterMap (indexedRecord relation bitmap number) =
      (if k < n then (vioGet relation k).toList else []) ++
        (List.range n).filterMap (indexedRecord relation bitmap k) := by
    intro n
    induction n with
    | zero => rfl
    | succ n ih =>
      rw [List.range_succ, List.filterMap_append, List.filterMap_append, ih]
      rcases Nat.lt_trichotomy n k with hn | hn | hn
      · -- neither retrieval is as far as `k`
        have hnot : ¬(number < (n : Int) ∧ n ∈ bitmap) := fun hc => by
          have hle := hmin n hc.2 hc.1
          omega
        have hfirst : indexedRecord relation bitmap number n = none := if_neg hnot
        have hlater : indexedRecord relation bitmap k n = none := if_neg fun hc => by omega
        have hno : ¬k < n + 1 := by omega
        have hno' : ¬k < n := by omega
        simp [hfirst, hlater, hno, hno']
      · subst hn
        have hfirst : indexedRecord relation bitmap number n = vioGet relation n :=
          if_pos ⟨hlt, hk⟩
        have hlater : indexedRecord relation bitmap n n = none := if_neg fun hc => by omega
        have hbefore : (List.range n).filterMap (indexedRecord relation bitmap n) = [] := by
          refine List.filterMap_eq_nil_iff.mpr fun j hj => if_neg fun hc => ?_
          have hjn := List.mem_range.mp hj
          omega
        cases hget : vioGet relation n <;> simp [hfirst, hlater, hbefore, hget]
      · have hsame : indexedRecord relation bitmap number n = indexedRecord relation bitmap k n := by
          have hn' : (k : Int) < n := by omega
          have hnumber : number < (n : Int) := by omega
          simp only [indexedRecord, hn', hnumber, true_and]
        have hyes : k < n + 1 := by omega
        rw [if_pos hn, if_pos hyes, List.append_assoc, List.filterMap_cons, List.filterMap_cons,
          hsame, List.filterMap_nil, List.filterMap_nil]
  rw [indexedAfter, hsteps]
  by_cases hlen : k < relation.length
  · rw [if_pos hlen]
    rfl
  · have hget : vioGet relation k = none := by
      rw [vioGet, List.getElem?_eq_none (Nat.le_of_not_lt hlen)]
      rfl
    rw [if_neg hlen, hget]
    rfl

section

variable [MovCompare Value] {scope : List Nat}

/-! ## Relations -/

theorem sequential_delivers {i s : Nat} {relation : List (Option Row)} (hs : s ∉ scope) :
    (Rsb.sequential i s relation : Rsb Row Value).Delivers scope := by
  intro q e he
  refine ⟨(q.opening i).rewind s, .of_succ (.of_eq fun _ => rfl), ?_, ?_⟩
  · exact (untouched_area q i List.mem_cons_self _).trans (untouched_setRpb _ s _).tail
  · -- the records behind the number of the stream are to come
    refine Yields.of_inv (I := fun rows q => Matches scope q.env e ∧
      rows = (recordsAfter relation (q.rpbs s).rpb_number).map
        fun row => Function.update e s (some row)) ?_ ?_ ?_
    · rintro rows q p ⟨hmatch, hrows⟩ hnear
      refine ⟨hnear.records.symm.trans hmatch, ?_⟩
      have hsame : q.rpbs s = p.rpbs s := hnear.tail.same (.rpb s) List.mem_cons_self
      rwa [hsame] at hrows
    · rintro rows q ⟨hmatch, rfl⟩
      cases hnext : vioNextRecord relation (q.rpbs s).rpb_number with
      | none =>
        rw [recordsAfter_none hnext]
        refine .of_end (.of_succ (.of_eq fun n => ?_)) (.refl q)
        rw [getRecord, hnext]
      | some next =>
        rcases next with ⟨k, row⟩
        rw [recordsAfter_some hnext]
        have htouch := untouched_setRpb q s ⟨k, some row⟩
        refine .of_row (.of_succ (.of_eq fun n => ?_)) htouch.tail
          (matches_of_record hmatch htouch ?_)
          ⟨htouch.keeps (apart_rpb hs) hmatch, ?_⟩
        · rw [getRecord, hnext]
        · simp [Req.env]
        · rw [setRpb_rpbs]
    · refine ⟨?_, ?_⟩
      · rw [rewind_env]
        exact he
      · rw [Req.rewind, setRpb_rpbs]
        rfl

/-- The numbers of the bitmap still to come get fewer. -/
theorem sbmNext_fewer {bitmap : List Nat} {number : Int} {k : Nat}
    (h : sbmNext bitmap number = some k) :
    (bitmap.filter fun n : Nat => decide ((k : Int) < n)).length <
      (bitmap.filter fun n : Nat => decide (number < (n : Int))).length := by
  rcases sbmNext_some h with ⟨hk, hlt, -⟩
  have hsub : bitmap.filter (fun n : Nat => decide ((k : Int) < n)) =
      (bitmap.filter fun n : Nat => decide (number < (n : Int))).filter
        fun n : Nat => decide ((k : Int) < n) := by
    rw [List.filter_filter]
    refine List.filter_congr fun n _ => ?_
    by_cases hn : (k : Int) < n
    · have hnumber : number < (n : Int) := by omega
      simp [hn, hnumber]
    · simp [hn]
  rw [hsub]
  refine List.length_filter_lt_length_iff_exists.mpr ⟨k, ?_, by simp⟩
  exact List.mem_filter.mpr ⟨hk, decide_eq_true hlt⟩

/-- An index retrieval: the records of the bitmap behind the number of the stream
are to come. -/
def IndexedAt (i s : Nat) (relation : List (Option Row)) (bitmap : List Nat) (scope : List Nat)
    (e : Env Row) (rows : List (Env Row)) (q : Req Row) : Prop :=
  Matches scope q.env e ∧ (q.impures i).irsb_bitmap = bitmap ∧
    rows = (indexedAfter relation bitmap (q.rpbs s).rpb_number).map
      fun row => Function.update e s (some row)

/-- The loop through the bitmap of an index retrieval, by the numbers of the
bitmap still to come -/
theorem getIndexed_gives {i s : Nat} {relation : List (Option Row)} {bitmap : List Nat}
    {e : Env Row} (hs : s ∉ scope) (todo : Nat) :
    ∀ (rows : List (Env Row)) (q : Req Row), (bitmap.filter
        fun n : Nat => decide ((q.rpbs s).rpb_number < (n : Int))).length ≤ todo →
      IndexedAt i s relation bitmap scope e rows q →
      Gives (fun n => @getIndexed Row Value _ n i s relation q)
        (IndexedAt i s relation bitmap scope e) (scope ++ [s]) [.rpb s] rows q := by
  induction todo with
  | zero =>
    rintro rows q hq ⟨-, hbitmap, rfl⟩
    have hnext : sbmNext bitmap (q.rpbs s).rpb_number = none := by
      rw [sbmNext, List.eq_nil_of_length_eq_zero (Nat.le_zero.mp hq)]
      rfl
    rw [indexedAfter_none hnext]
    refine .of_end (.of_succ (.of_eq fun n => ?_)) (.refl q)
    rw [getIndexed, hbitmap, hnext]
  | succ todo ih =>
    rintro rows q hq ⟨hmatch, hbitmap, rfl⟩
    cases hnext : sbmNext bitmap (q.rpbs s).rpb_number with
    | none =>
      rw [indexedAfter_none hnext]
      refine .of_end (.of_succ (.of_eq fun n => ?_)) (.refl q)
      rw [getIndexed, hbitmap, hnext]
    | some k =>
      rw [indexedAfter_some hnext]
      have hkeep : ∀ rpb : Rpb Row, Matches scope (q.setRpb s rpb).env e := fun rpb =>
        (untouched_setRpb q s rpb).keeps (apart_rpb hs) hmatch
      cases hget : vioGet relation k with
      | some row =>
        have htouch := untouched_setRpb q s ⟨k, some row⟩
        refine .of_row (.of_succ (.of_eq fun n => ?_)) htouch
          (matches_of_record hmatch htouch ?_) ⟨hkeep _, hbitmap, ?_⟩
        · simp only [getIndexed, hbitmap, hnext, hget]
        · simp [Req.env]
        · rw [setRpb_rpbs]
          rfl
      | none =>
        -- the bitmap names a record that is not there
        have hless := sbmNext_fewer hnext
        have hat : IndexedAt i s relation bitmap scope e
            ((indexedAfter relation bitmap k).map fun row => Function.update e s (some row))
            (q.setRpb s { q.rpbs s with rpb_number := k }) := by
          refine ⟨hkeep _, hbitmap, ?_⟩
          rw [setRpb_rpbs]
        refine (ih _ _ ?_ hat).of_step (untouched_setRpb q s _) fun r hr =>
          .of_succ (hr.congr fun n => ?_)
        · rw [setRpb_rpbs]
          exact Nat.le_of_lt_succ (Nat.lt_of_lt_of_le hless hq)
        · simp only [getIndexed, hbitmap, hnext, hget]

theorem indexed_delivers {i s : Nat} {relation : List (Option Row)} {inversion : Env Row → List Nat}
    (hs : s ∉ scope) (hreads : Reads scope inversion) :
    (Rsb.indexed i s relation inversion : Rsb Row Value).Delivers scope := by
  intro q e he
  refine ⟨_, .of_succ (.of_eq fun _ => rfl), ?_, ?_⟩
  · exact ((untouched_area q i List.mem_cons_self _).trans
      (untouched_area _ i List.mem_cons_self _)).trans (untouched_setRpb _ s _).tail
  · refine Yields.of_inv (I := IndexedAt i s relation (inversion e) scope e) ?_ ?_ ?_
    · rintro rows q p ⟨hmatch, hbitmap, hrows⟩ hnear
      have hsame : q.rpbs s = p.rpbs s := hnear.tail.same (.rpb s) List.mem_cons_self
      have harea : q.impures i = p.impures i := hnear.same (.irsb i) List.mem_cons_self
      refine ⟨hnear.records.symm.trans hmatch, ?_, ?_⟩
      · rwa [harea] at hbitmap
      · rwa [hsame] at hrows
    · exact fun rows q hat => ((getIndexed_gives hs _ rows q (Nat.le_refl _) hat).of_step (.refl q)
        fun r hr => .of_succ hr).imp (fun c hc => List.mem_cons_of_mem _ hc) fun rows p hI => hI
    · refine ⟨?_, ?_, ?_⟩
      · rw [rewind_env]
        exact he
      · rw [Req.rewind, setRpb_impures, setImpure_impures]
        exact hreads _ _ he
      · rw [Req.rewind, setRpb_rpbs, indexedAfter_start]
        rfl

/-! ## Filters -/

section

variable {condition : Nod Row Value} {next : Rsb Row Value}

theorem untouched_note (q : Req Row) (flag : Bool) {cells : List Cell} :
    Untouched cells q (if flag then q.setNull true else q) := by
  cases flag with
  | true => exact untouched_setNull q true
  | false => exact .refl q

/-- The rows to come are those of the stream below that the boolean holds of. -/
def BooleanAt (condition : Nod Row Value) (next : Rsb Row Value) (scope : List Nat)
    (rows : List (Env Row)) (q : Req Row) : Prop :=
  ∃ todo, next.ToCome scope todo q ∧
    rows = todo.filter fun f => condition.truth f == some true

/-- The loop that looks for a record the boolean holds of, by the rows to come -/
theorem getBoolean_gives (hcond : condition.Tells (scope ++ next.streams))
    (hapart : Apart (scope ++ next.streams) condition.cells)
    (hdisj : List.Disjoint condition.cells next.cells) (todo : List (Env Row)) :
    ∀ (q : Req Row) (flag : Bool),
      next.ToCome scope todo q →
      Gives (fun n => getBoolean n condition next flag q) (BooleanAt condition next scope)
        (scope ++ next.streams) (condition.cells ++ next.cells)
        (todo.filter fun f => condition.truth f == some true) q := by
  induction todo with
  | nil =>
    intro q flag hyields
    rcases hyields q (.refl q) with ⟨p, hget, htouch⟩
    refine .of_end (.of_succ ?_) (htouch.right.trans (untouched_note p flag))
    simp only [getBoolean]
    refine hget.bind ?_
    exact .of_eq fun _ => rfl
  | cons e todo ih =>
    intro q flag hyields
    rcases hyields q (.refl q) with ⟨p, hget, htouch, hmatch, hlater⟩
    rcases hcond p e hmatch with ⟨p', hevl, htouch', -⟩
    have hboth := htouch.right.trans htouch'.left
    have hlater' := hlater.near (htouch'.near hapart.scope_left hdisj)
    cases htruth : condition.truth e == some true with
    | true =>
      have hnote : Untouched [] p' (if flag then p'.setNull true else p') :=
        untouched_note p' flag
      rw [List.filter_cons, if_pos htruth]
      refine .of_row (.of_succ ?_) (hboth.trans (untouched_note p' flag)) ?_ ⟨todo, ?_, rfl⟩
      · simp only [getBoolean]
        refine hget.bind ?_
        refine hevl.bind ?_
        rw [htruth]
        exact .of_eq fun _ => rfl
      · exact hnote.keeps (fun s _ => List.not_mem_nil) (htouch'.keeps hapart hmatch)
      · exact hlater'.near (hnote.near (fun s _ => List.not_mem_nil) (List.disjoint_nil_left _))
    | false =>
      have hno : ¬(condition.truth e == some true) = true := by
        rw [htruth]
        exact Bool.false_ne_true
      rw [List.filter_cons, if_neg hno]
      refine (ih p' (flag || p'.req_null) hlater').of_step hboth fun r hr => .of_succ ?_
      simp only [getBoolean]
      refine hget.bind ?_
      refine hevl.bind ?_
      rw [htruth]
      exact hr

theorem boolean_delivers {i : Nat} (hnext : next.Delivers scope)
    (hcond : condition.Tells (scope ++ next.streams))
    (hapart : Apart (scope ++ next.streams) condition.cells)
    (hdisj : List.Disjoint condition.cells next.cells) :
    (Rsb.boolean i condition next).Delivers scope := by
  intro q e he
  have hnextCells : ∀ c ∈ next.cells, c ∈ (Rsb.boolean i condition next).cells :=
    fun c hc => List.mem_cons_of_mem _ (List.mem_append_right _ hc)
  rcases hnext (q.opening i) e he with ⟨p, hopen, htouch, hyields⟩
  refine ⟨p, .of_succ hopen, ?_, ?_⟩
  · exact (untouched_area q i List.mem_cons_self _).trans (htouch.mono hnextCells)
  · refine Yields.of_inv (I := BooleanAt condition next scope) ?_ ?_ ⟨_, hyields, rfl⟩
    · rintro rows q p ⟨todo, htodo, rfl⟩ hnear
      exact ⟨todo, htodo.near (hnear.sub hnextCells), rfl⟩
    · rintro rows q ⟨todo, htodo, rfl⟩
      have hgives := getBoolean_gives hcond hapart hdisj todo q false htodo
      exact (hgives.of_step (.refl q) fun r hr => .of_succ hr).imp
        (fun c hc => List.mem_cons_of_mem _ hc) fun rows p hI => hI

end

/-! ## Limits -/

section

variable {next : Rsb Row Value} {i : Nat} {count : Env Row → Int}

omit [MovCompare Value] in
/-- Counting in the area of a block is no concern of the records below it. -/
theorem near_setCount (hi : Cell.irsb i ∉ next.cells) (q : Req Row) (count : Int) :
    Near scope next.cells q (q.setCount i count) :=
  (untouched_setCount q i count).near
    (fun _ _ hmem => by cases List.mem_singleton.mp hmem) (List.singleton_disjoint.mpr hi)

theorem first_delivers (hnext : next.Delivers scope) (hreads : Reads scope count)
    (hcount : ∀ e, 0 ≤ count e) (hi : Cell.irsb i ∉ next.cells) :
    (Rsb.first i count next).Delivers scope := by
  intro q e he
  have harea : ∀ (q : Req Row) (irsb : Irsb),
      Untouched (Rsb.first i count next).cells q (q.setImpure i irsb) :=
    fun q irsb => untouched_area q i List.mem_cons_self irsb
  rcases hnext ((q.opening i).setCount i (count q.env)) e he with ⟨p, hopen, htouch, hyields⟩
  refine ⟨p, .of_succ ?_, ((harea q _).trans (harea _ _)).trans htouch.tail, ?_⟩
  · have hno : ¬count (q.opening i).env < 0 := Int.not_lt.mpr (hcount _)
    simp only [rseOpen, setCount_count, if_neg hno]
    exact hopen
  · refine Yields.of_inv (I := fun rows q => ∃ todo,
      next.ToCome scope todo q ∧
      rows = todo.take (q.impures i).irsb_count.toNat) ?_ ?_ ⟨_, hyields, ?_⟩
    · rintro rows q p ⟨todo, htodo, rfl⟩ hnear
      have hsame : q.impures i = p.impures i := hnear.same (.irsb i) List.mem_cons_self
      rw [hsame]
      exact ⟨todo, htodo.near hnear.tail, rfl⟩
    · rintro rows q ⟨todo, htodo, rfl⟩
      by_cases hzero : (q.impures i).irsb_count ≤ 0
      · rw [Int.toNat_of_nonpos hzero, List.take_zero]
        refine .of_end (.of_succ (.of_eq fun n => ?_)) (.refl q)
        simp only [getRecord, if_pos hzero]
      · have hsucc : (q.impures i).irsb_count.toNat =
            ((q.impures i).irsb_count - 1).toNat + 1 := by omega
        have hnear := @near_setCount _ _ scope _ _ hi q ((q.impures i).irsb_count - 1)
        have hcall : ∀ r, Settles (fun n => getRecord n next
              (q.setCount i ((q.impures i).irsb_count - 1))) r →
            Settles (fun n => getRecord n (.first i count next) q) r := fun r hr => by
          refine .of_succ ?_
          simp only [getRecord, if_neg hzero]
          exact hr
        cases todo with
        | nil =>
          rcases htodo _ hnear with ⟨p, hget, htouch⟩
          rw [List.take_nil]
          exact .of_end (hcall _ hget) ((harea q _).trans htouch.tail)
        | cons f todo =>
          rcases htodo _ hnear with ⟨p, hget, htouch, hmatch, hyields⟩
          rw [hsucc, List.take_succ_cons]
          refine .of_row (hcall _ hget) ((harea q _).trans htouch.tail) hmatch
            ⟨todo, hyields, ?_⟩
          rw [htouch.area hi, setCount_count]
    · rw [htouch.area hi, setCount_count, hreads q.env e he]
      rfl

/-- The rows to come are those of the stream below behind the ones to skip. -/
def SkipAt (i : Nat) (next : Rsb Row Value) (scope : List Nat) (rows : List (Env Row))
    (q : Req Row) : Prop :=
  ∃ todo, next.ToCome scope todo q ∧
    rows = todo.drop ((q.impures i).irsb_count - 1).toNat

/-- The loop that passes over the records to skip, by how many there are -/
theorem getSkip_gives (hi : Cell.irsb i ∉ next.cells) (passes : Nat) :
    ∀ (q : Req Row) (todo : List (Env Row)), ((q.impures i).irsb_count - 1).toNat = passes →
      next.ToCome scope todo q →
      Gives (fun n => getSkip n i next q) (SkipAt i next scope) (scope ++ next.streams)
        (.irsb i :: next.cells) (todo.drop passes) q := by
  have harea : ∀ (q : Req Row) (irsb : Irsb),
      Untouched (.irsb i :: next.cells) q (q.setImpure i irsb) :=
    fun q irsb => untouched_area q i List.mem_cons_self irsb
  induction passes with
  | zero =>
    intro q todo hpasses htodo
    have hle : ¬(q.impures i).irsb_count > 1 := by omega
    have hgives := (htodo.near (near_setCount hi q ((q.impures i).irsb_count - 1))).gives
    rw [List.drop_zero]
    rcases hgives with ⟨found, p, hget, htouch, hrows⟩
    refine ⟨found, p, .of_succ ?_, (harea q _).trans htouch.tail, ?_⟩
    · simp only [getSkip, if_neg hle]
      exact hget
    · cases todo with
      | nil => exact hrows
      | cons e todo =>
        refine ⟨hrows.1, hrows.2.1, todo, hrows.2.2, ?_⟩
        have hzero : ((p.impures i).irsb_count - 1).toNat = 0 := by
          rw [htouch.area hi, setCount_count]
          omega
        rw [hzero, List.drop_zero]
  | succ passes ih =>
    intro q todo hpasses htodo
    have hgt : (q.impures i).irsb_count > 1 := by omega
    have hnear := @near_setCount _ _ scope _ _ hi q ((q.impures i).irsb_count - 1)
    cases todo with
    | nil =>
      rcases htodo _ hnear with ⟨p, hget, htouch⟩
      refine .of_end (.of_succ ?_) ((harea q _).trans htouch.tail)
      simp only [getSkip, if_pos hgt]
      refine hget.bind ?_
      exact .of_eq fun _ => rfl
    | cons e rows =>
      rcases htodo _ hnear with ⟨p, hget, htouch, -, hyields⟩
      have hcount : ((p.impures i).irsb_count - 1).toNat = passes := by
        rw [htouch.area hi, setCount_count]
        omega
      refine (ih p rows hcount hyields).of_step ((harea q _).trans htouch.tail)
        fun r hr => .of_succ ?_
      simp only [getSkip, if_pos hgt]
      refine hget.bind ?_
      exact hr

theorem skip_delivers (hnext : next.Delivers scope) (hreads : Reads scope count)
    (hcount : ∀ e, 0 ≤ count e) (hi : Cell.irsb i ∉ next.cells) :
    (Rsb.skip i count next).Delivers scope := by
  intro q e he
  have harea : ∀ (q : Req Row) (irsb : Irsb),
      Untouched (Rsb.skip i count next).cells q (q.setImpure i irsb) :=
    fun q irsb => untouched_area q i List.mem_cons_self irsb
  rcases hnext (((q.opening i).setCount i (count q.env)).setCount i (count q.env + 1)) e he with
    ⟨p, hopen, htouch, hyields⟩
  have hcounted : (p.impures i).irsb_count = count q.env + 1 := by
    rw [htouch.area hi, setCount_count]
  refine ⟨p, .of_succ ?_, (((harea q _).trans (harea _ _)).trans (harea _ _)).trans
    htouch.tail, ?_⟩
  · have hno : ¬count (q.opening i).env < 0 := Int.not_lt.mpr (hcount _)
    simp only [rseOpen, setCount_count, if_neg hno]
    exact hopen
  · refine Yields.of_inv (I := SkipAt i next scope) ?_ ?_ ⟨_, hyields, ?_⟩
    · rintro rows q p ⟨todo, htodo, rfl⟩ hnear
      have hsame : q.impures i = p.impures i := hnear.same (.irsb i) List.mem_cons_self
      rw [hsame]
      exact ⟨todo, htodo.near hnear.tail, rfl⟩
    · rintro rows q ⟨todo, htodo, rfl⟩
      exact (getSkip_gives hi _ q todo rfl htodo).of_step (.refl q) fun r hr => .of_succ hr
    · rw [hcounted, Int.add_sub_cancel, hreads q.env e he]
      rfl

end

end

end Firebird.Rse
