import Firebird.Rse.Outer

/-! # Left outer joins

The phases of `fetch_left` together: after each call the rows that are still to
come are those after the row it gave.
-/

namespace Firebird.Rse

variable {Row Value : Type} [MovCompare Value] {j : LeftCross Row Value} {scope : List Nat}
  {e : Env Row}

/-- A call of `fetch_left`, or of a part of it, gives the next of these rows and
leaves the others to come. -/
abbrev LeftGives (j : LeftCross Row Value) (scope : List Nat) (e : Env Row)
    (call : Nat → Except Stop (Bool × Req Row)) (rows : List (Env Row)) (q : Req Row) : Prop :=
  Gives call (j.At scope e) (scope ++ (j.outer.streams ++ j.inner.streams)) j.cells rows q

/-- The outer stream stays where it is as long as it is not read. -/
theorem outer_near (h : j.Parts scope) {outers : List (Env Row)} {q p : Req Row}
    {cells : List Cell} (houter : j.outer.ToCome scope outers q)
    (htouch : Untouched cells q p) (hcells : ∀ c ∈ cells, c ∈ Cell.irsb j.i ::
      (j.inner.cells ++ cellsOptional j.boolean ++ cellsOptional j.inner_boolean)) :
    j.outer.ToCome scope outers p := by
  refine houter.near (htouch.near (h.apart.sub fun c hc => ?_) ?_)
  · have hmem := hcells c hc
    simp only [LeftCross.cells, List.mem_cons, List.mem_append] at hmem ⊢
    tauto
  · exact fun c hc hc' => h.outer_cells (hcells c hc) hc'

/-- The inner stream stays where it is as long as it is not read. -/
theorem inner_near (h : j.Parts scope) {inners : List (Env Row)} {q p : Req Row}
    {cells : List Cell} (hinner : j.inner.ToCome (scope ++ j.outer.streams) inners q)
    (htouch : Untouched cells q p) (hcells : ∀ c ∈ cells,
      c ∈ Cell.irsb j.i :: (cellsOptional j.boolean ++ cellsOptional j.inner_boolean)) :
    j.inner.ToCome (scope ++ j.outer.streams) inners p := by
  refine hinner.near (htouch.near ?_ fun c hc hc' => ?_)
  · intro s hs hmem
    rcases List.mem_cons.mp (hcells _ hmem) with hc | hc
    · cases hc
    · exact h.apart_booleans s (List.mem_append_left _ hs) hc
  · refine h.inner_cells ?_ hc'
    have hmem := hcells c hc
    simp only [List.mem_cons, List.mem_append] at hmem ⊢
    tauto

/-- Writing to the area of the join moves no record. -/
theorem apart_area (i : Nat) (scope : List Nat) : Apart scope [Cell.irsb i] := by
  intro s _ hmem
  cases List.mem_singleton.mp hmem

theorem LeftCross.OuterAt.of_untouched (h : j.Parts scope) {outers : List (Env Row)}
    {q p : Req Row} (hat : j.OuterAt scope e outers q) (htouch : Untouched j.inner.cells q p) :
    j.OuterAt scope e outers p := by
  have harea := htouch.area h.area.2.1
  rcases hat.before with ⟨passed, hrows, hbefore⟩
  exact ⟨harea ▸ hat.phase, htouch.keeps (h.apart.sub j.inner_sub) hat.records,
    ⟨passed, hrows, fun hopened => hbefore (harea ▸ hopened)⟩,
    outer_near h hat.outers htouch fun c hc => by simp [hc]⟩

/-- The outer record at hand with nulls for the inner one -/
theorem outer_emit (h : j.Parts scope) {o : Env Row} {outers : List (Env Row)} {q : Req Row}
    (hat : j.OuterAt scope e outers q) (hmatch : Matches (scope ++ j.outer.streams) q.env o) :
    Untouched j.cells q (joinToNulls q j.streams) ∧
      Matches (scope ++ (j.outer.streams ++ j.inner.streams)) (joinToNulls q j.streams).env
        (nulls j.streams o) ∧
      j.OuterAt scope e outers (joinToNulls q j.streams) := by
  have htouch := joinToNulls_untouched q fun s => (h.streams_iff s).mp
  refine ⟨htouch.mono j.inner_sub, ?_, hat.of_untouched h htouch⟩
  rw [joinToNulls_env, ← List.append_assoc]
  exact hmatch.nulls fun s hs => (h.streams_iff s).mpr hs

/-- The loop over the inner records of an outer record, by the inner records to
come. Where it ends without a record, the outer stream is read again. -/
theorem fetchInner_gives (h : j.Parts scope) {o : Env Row} {outers : List (Env Row)}
    (hleft : ∀ q : Req Row, j.OuterAt scope e outers q →
      LeftGives j scope e (fun n => j.fetchLeft n q) (j.leftRows e outers) q)
    (inners : List (Env Row)) : ∀ q : Req Row, j.InnerAt scope e o inners outers q →
      LeftGives j scope e (fun n => j.fetchInner n q)
        (j.innerRows o inners q ++ j.leftRows e outers) q := by
  have hscope := h.apart_inner
  induction inners with
  | nil =>
    intro q hat
    rcases hat.inners q (.refl q) with ⟨p, hget, htouch⟩
    have hdry := htouch.trans (rseClose_untouched j.inner p)
    have harea := hdry.area h.area.2.1
    have hmark := untouched_setImpure (rseClose j.inner p) j.i
      { (rseClose j.inner p).impures j.i with irsb_mustread := true }
    have hboth := (hdry.mono j.inner_sub).trans (hmark.mono j.area_sub)
    -- the outer stream is to be read next
    have hat' : j.OuterAt scope e outers ((rseClose j.inner p).setImpure j.i
        { (rseClose j.inner p).impures j.i with irsb_mustread := true }) := by
      rcases hat.before with ⟨passed, hrows⟩
      refine ⟨?_, hdry.keeps hscope.scope_left hat.records,
        ⟨passed, hrows, fun hopened => ?_⟩, ?_⟩
      · rw [setImpure_impures, harea]
        exact ⟨hat.phase.1, rfl⟩
      · rw [setImpure_impures, harea, hat.phase.2.2] at hopened
        cases hopened
      · refine outer_near h (outer_near h hat.outers hdry fun c hc => by simp [hc]) hmark ?_
        exact fun c hc => by simp [List.mem_singleton.mp hc]
    rw [LeftCross.innerRows, LeftCross.joined, List.filter_nil, List.nil_append]
    cases hjoined : (q.impures j.i).irsb_joined with
    | true =>
      rw [if_pos (.inl rfl), List.nil_append]
      refine (hleft _ hat').of_step hboth fun r hr => .of_succ ?_
      simp only [fetchInner]
      refine hget.bind ?_
      simp only [Bool.false_eq_true, if_false, setImpure_impures, harea, hjoined, if_true]
      simpa only [harea, hjoined] using hr
    | false =>
      have hnone : ¬(false = true ∨ ([] : List (Env Row)) ≠ []) := by simp
      rw [if_neg hnone]
      rcases outer_emit h hat' (hdry.keeps hscope hat.record) with ⟨htouch', hmatch', hat''⟩
      refine .of_row (.of_succ ?_) (hboth.trans htouch') hmatch' (.inl ⟨outers, hat'', rfl⟩)
      simp only [fetchInner]
      refine hget.bind ?_
      simp only [Bool.false_eq_true, if_false, setImpure_impures, harea, hjoined]
      exact .of_eq fun n => rfl
  | cons g inners ih =>
    intro q hat
    rcases hat.inners q (.refl q) with ⟨p, hget, htouch, hmatch, hlater⟩
    rcases h.inner_boolean_tells p g hmatch with ⟨r, hevl, htouch'⟩
    have harea : r.impures j.i = q.impures j.i := by
      rw [htouch'.area h.area.2.2.2, htouch.area h.area.2.1]
    have hboth := (htouch.mono j.inner_sub).trans (htouch'.mono j.inner_boolean_sub)
    have hbooleans := h.apart_booleans.right
    have hmatchr := htouch'.keeps hbooleans hmatch
    have hrecord := htouch'.keeps hbooleans.scope_left (htouch.keeps hscope hat.record)
    have hatr : j.InnerAt scope e o inners outers r := by
      refine ⟨harea ▸ hat.phase, ?_, hrecord, hat.before, ?_, ?_⟩
      · exact htouch'.keeps hbooleans.scope_left.scope_left
          (htouch.keeps hscope.scope_left hat.records)
      · exact inner_near h hlater htouch' fun c hc => by simp [hc]
      · refine outer_near h (outer_near h hat.outers htouch fun c hc => by simp [hc]) htouch' ?_
        exact fun c hc => by simp [hc]
    rw [LeftCross.innerRows, LeftCross.joined, List.filter_cons]
    cases hib : holdsOptional j.inner_boolean g with
    | false =>
      rw [if_neg Bool.false_ne_true, ← harea]
      refine (ih r hatr).of_step hboth fun t ht => .of_succ ?_
      simp only [fetchInner]
      refine hget.bind ?_
      rw [hib] at hevl
      exact hevl.bind ht
    | true =>
      have hmark := untouched_setImpure r j.i { r.impures j.i with irsb_joined := true }
      rw [if_pos rfl, if_pos (.inr (List.cons_ne_nil _ _)), List.append_nil]
      refine .of_row (.of_succ ?_) (hboth.trans (hmark.mono j.area_sub)) ?_
        (.inr (.inl ⟨o, inners, outers, ?_, ?_⟩))
      · simp only [fetchInner]
        refine hget.bind ?_
        rw [hib] at hevl
        exact hevl.bind (.of_eq fun n => rfl)
      · rw [← List.append_assoc]
        exact hmatchr
      · refine ⟨?_, hatr.records, hatr.record, hatr.before, ?_, ?_⟩
        · rw [setImpure_impures]
          exact hatr.phase
        · exact inner_near h hatr.inners hmark fun c hc => by simp [List.mem_singleton.mp hc]
        · exact outer_near h hatr.outers hmark fun c hc => by simp [List.mem_singleton.mp hc]
      · rw [LeftCross.innerRows, setImpure_impures, if_pos (.inl rfl), List.append_nil]
        rfl

/-- Opening the inner stream of a full outer join leaves its records, without
its boolean, to come. -/
theorem full_opens (hfull : j.FullParts scope) {q : Req Row} (he : Matches scope q.env e) :
    ∃ p, Settles (fun n => rseOpen n j.inner q) p ∧ Untouched j.inner.cells q p ∧
      j.inner.full.ToCome scope (j.inner.full.rows e) p := by
  have hdelivers := hfull.full_delivers
  cases hinner : j.inner with
  | boolean k condition next =>
    rw [hinner] at hdelivers
    rcases hdelivers (q.opening k) e he with ⟨p, hopen, htouch, hyields⟩
    exact ⟨p, .of_succ hopen, (untouched_area q k List.mem_cons_self _).trans htouch.right.tail,
      hyields⟩
  | _ =>
    rw [hinner] at hdelivers
    exact hdelivers q e he

/-- No outer record passes its boolean for any record at hand if none does for one. -/
theorem none_passes (hfull : j.FullParts scope)
    (hnone : ∀ o ∈ j.outer.rows e, holdsOptional j.boolean o = false) {f : Env Row}
    (hf : Matches scope f e) : ∀ o ∈ j.outer.rows f, holdsOptional j.boolean o = false := by
  intro o ho
  rcases List.forall₂_iff_get.mp (hfull.steady f e hf) with ⟨hlength, hmatch⟩
  rcases List.mem_iff_getElem.mp ho with ⟨k, hk, rfl⟩
  have hk' : k < (j.outer.rows e).length := hlength ▸ hk
  have hsame := hfull.steady_boolean _ _ (hmatch k hk hk')
  simp only [List.get_eq_getElem] at hsame
  rw [hsame]
  exact hnone _ (List.getElem_mem hk')

/-- `fetch_left` where an outer record is to be read, by the outer records to come -/
theorem fetchLeft_gives (h : j.Parts scope) (hfull : j.inner_streams ≠ [] → j.FullParts scope)
    (outers : List (Env Row)) : ∀ q : Req Row, j.OuterAt scope e outers q →
      LeftGives j scope e (fun n => j.fetchLeft n q) (j.leftRows e outers) q := by
  have hscope := h.apart_outer
  have hinner := h.apart_inner
  induction outers with
  | nil =>
    intro q hat
    rcases hat.outers q (.refl q) with ⟨p, hget, htouch⟩
    have hnil : j.leftRows e [] = j.fullRows e := rfl
    rw [hnil, LeftCross.fullRows]
    by_cases hnone : j.inner_streams = []
    · rw [if_pos hnone]
      refine .of_end (.of_succ ?_) (htouch.mono j.outer_sub)
      simp only [fetchLeft, hat.phase.1, hat.phase.2, Bool.false_eq_true, if_false, if_true]
      refine hget.bind ?_
      simp only [Bool.not_false, if_true, if_pos hnone]
      exact .of_eq fun n => rfl
    · -- the inner stream is opened once more
      rw [if_neg hnone]
      have hdry := htouch.trans (rseClose_untouched j.outer p)
      have hmark := untouched_setImpure (rseClose j.outer p) j.i
        { (rseClose j.outer p).impures j.i with irsb_join_full := true }
      have hrecords := hmark.keeps (apart_area j.i scope) (hdry.keeps hscope hat.records)
      rcases full_opens (hfull hnone) hrecords with ⟨r, hopen, htouchr, hyields⟩
      have harear := htouchr.area h.area.2.1
      rw [setImpure_impures, hdry.area h.area.1] at harear
      have hatr : j.FullAt scope e (j.inner.full.rows e) r := by
        refine ⟨?_, htouchr.keeps hinner.scope_left hrecords, ?_, hyields⟩
        · rw [harear]
        · rw [harear]
          intro hopened f hf
          rcases hat.before with ⟨passed, hrows, hbefore⟩
          refine none_passes (hfull hnone) ?_ hf
          rw [hrows, List.append_nil]
          exact hbefore hopened
      have hgives := (fetchFull_gives h (hfull hnone) _ r hatr).imp (fun c hc => hc)
        fun rows p hI => (.inr (.inr ⟨hnone, hI⟩) : j.At scope e rows p)
      refine hgives.of_step (((hdry.mono j.outer_sub).trans (hmark.mono j.area_sub)).trans
        (htouchr.mono j.inner_sub)) fun t ht => .of_succ ?_
      simp only [fetchLeft, hat.phase.1, hat.phase.2, Bool.false_eq_true, if_false, if_true]
      refine hget.bind ?_
      simp only [Bool.not_false, if_true, if_neg hnone]
      exact hopen.bind ht
  | cons o outers ih =>
    intro q hat
    rcases hat.outers q (.refl q) with ⟨p, hget, htouch, hmatch, hlater⟩
    rcases h.boolean_tells p o hmatch with ⟨r, hevl, htouch'⟩
    have harea := (htouch'.area h.area.2.2.1).trans (htouch.area h.area.1)
    have hbooleans := h.apart_booleans.scope_left.left
    have hmatchr := htouch'.keeps hbooleans hmatch
    have hboth := (htouch.mono j.outer_sub).trans (htouch'.mono j.boolean_sub)
    have hrecords := htouch'.keeps hbooleans.scope_left (htouch.keeps hscope hat.records)
    have houters := outer_near h hlater htouch' fun c hc => by simp [hc]
    rcases hat.before with ⟨passed, hrows, hbefore⟩
    have hsplit : j.outer.rows e = (passed ++ [o]) ++ outers := by
      rw [hrows, List.append_assoc]
      rfl
    rw [LeftCross.leftRows, leftJoin_cons, List.append_assoc]
    cases hb : holdsOptional j.boolean o with
    | false =>
      have hno : ¬(false = true ∧ j.joined (j.inner.rows o) ≠ []) := fun hc => by cases hc.1
      rw [if_neg hno]
      have hatr : j.OuterAt scope e outers r := by
        refine ⟨harea ▸ hat.phase, hrecords, ⟨passed ++ [o], hsplit, fun hopened => ?_⟩, houters⟩
        intro o' ho'
        rcases List.mem_append.mp ho' with ho' | ho'
        · exact hbefore (harea ▸ hopened) o' ho'
        · rw [List.mem_singleton.mp ho']
          exact hb
      rcases outer_emit h hatr hmatchr with ⟨htouchn, hmatchn, hatn⟩
      refine .of_row (.of_succ ?_) (hboth.trans htouchn) hmatchn (.inl ⟨outers, hatn, rfl⟩)
      simp only [fetchLeft, hat.phase.1, hat.phase.2, Bool.false_eq_true, if_false, if_true]
      refine hget.bind ?_
      simp only [Bool.not_true, Bool.false_eq_true, if_false]
      rw [hb] at hevl
      exact hevl.bind (.of_eq fun n => rfl)
    | true =>
      have hmark := untouched_setImpure r j.i { r.impures j.i with
        irsb_mustread := false, irsb_joined := false, irsb_in_opened := true }
      have hrecord := hmark.keeps (apart_area j.i _) hmatchr
      rcases h.inner_delivers _ o hrecord with ⟨t, hopen, htoucht, hyields⟩
      have hareat := htoucht.area h.area.2.1
      rw [setImpure_impures, harea] at hareat
      have hatt : j.InnerAt scope e o (j.inner.rows o) outers t := by
        refine ⟨?_, htoucht.keeps hinner.scope_left hrecords, htoucht.keeps hinner hrecord,
          ⟨_, hsplit⟩, hyields, ?_⟩
        · rw [hareat]
          exact ⟨hat.phase.1, rfl, rfl⟩
        · exact outer_near h (outer_near h houters hmark fun c hc => by
            simp [List.mem_singleton.mp hc]) htoucht fun c hc => by simp [hc]
      have hrowsEq : j.innerRows o (j.inner.rows o) t =
          if true = true ∧ j.joined (j.inner.rows o) ≠ [] then j.joined (j.inner.rows o)
          else [nulls j.streams o] := by
        rw [LeftCross.innerRows, hareat]
        by_cases hsome : j.joined (j.inner.rows o) = []
        · rw [hsome]
          simp
        · rw [if_pos (.inr hsome), if_pos ⟨rfl, hsome⟩, List.append_nil]
      have hgives := fetchInner_gives h ih (j.inner.rows o) t hatt
      rw [hrowsEq] at hgives
      refine hgives.of_step ((hboth.trans (hmark.mono j.area_sub)).trans
        (htoucht.mono j.inner_sub)) fun u hu => .of_succ ?_
      simp only [fetchLeft, hat.phase.1, hat.phase.2, Bool.false_eq_true, if_false, if_true]
      refine hget.bind ?_
      simp only [Bool.not_true, Bool.false_eq_true, if_false]
      rw [hb] at hevl
      refine hevl.bind ?_
      simp only [Bool.not_true, Bool.false_eq_true, if_false]
      exact hopen.bind hu

theorem LeftCross.At.near {rows : List (Env Row)} {q p : Req Row} (hat : j.At scope e rows q)
    (hnear : Near scope j.cells q p) : j.At scope e rows p := by
  have harea : q.impures j.i = p.impures j.i := hnear.same (.irsb j.i) List.mem_cons_self
  have hrecords := fun hat : Matches scope q.env e => hnear.records.symm.trans hat
  have houter := hnear.sub j.outer_sub
  have hinner : Near (scope ++ j.outer.streams) j.inner.cells q p :=
    hnear.streams (fun s hs => j.outer_sub _ (streams_cells j.outer s hs)) j.inner_sub
  rcases hat with ⟨outers, hat, hrows⟩ | ⟨o, inners, outers, hat, hrows⟩ |
    ⟨hne, fulls, hat, hrows⟩
  · refine .inl ⟨outers, ⟨harea ▸ hat.phase, hrecords hat.records, ?_,
      hat.outers.near houter⟩, hrows⟩
    exact harea ▸ hat.before
  · refine .inr (.inl ⟨o, inners, outers, ⟨harea ▸ hat.phase, hrecords hat.records,
      hinner.records.symm.trans hat.record, hat.before, hat.inners.near hinner,
      hat.outers.near houter⟩, ?_⟩)
    rw [hrows, LeftCross.innerRows, LeftCross.innerRows, harea]
  · refine .inr (.inr ⟨hne, fulls, ⟨harea ▸ hat.phase, hrecords hat.records, ?_,
      hat.fulls.near (hnear.sub j.full_sub)⟩, hrows⟩)
    exact harea ▸ hat.before

/-- `fetch_left` gives the next row, whatever phase it is in. -/
theorem left_gives (h : j.Parts scope) (hfull : j.inner_streams ≠ [] → j.FullParts scope)
    {rows : List (Env Row)} {q : Req Row} (hat : j.At scope e rows q) :
    LeftGives j scope e (fun n => j.fetchLeft n q) rows q := by
  rcases hat with ⟨outers, hat, rfl⟩ | ⟨o, inners, outers, hat, rfl⟩ | ⟨hne, fulls, hat, rfl⟩
  · exact fetchLeft_gives h hfull outers q hat
  · refine (fetchInner_gives h (fetchLeft_gives h hfull outers) inners q hat).of_step
      (.refl q) fun r hr => .of_succ ?_
    simp only [fetchLeft, hat.phase.1, hat.phase.2.1, Bool.false_eq_true, if_false]
    exact hr
  · have hgives := (fetchFull_gives h (hfull hne) fulls q hat).imp (fun c hc => hc)
      fun rows p hI => (.inr (.inr ⟨hne, hI⟩) : j.At scope e rows p)
    refine hgives.of_step (.refl q) fun r hr => .of_succ ?_
    simp only [fetchLeft, hat.phase, if_true]
    exact hr

theorem left_delivers (h : j.Parts scope) (hfull : j.inner_streams ≠ [] → j.FullParts scope) :
    j.rsb.Delivers scope := by
  intro q e he
  have hscope := h.apart_outer
  rcases h.outer_delivers (q.opening j.i) e he with ⟨p, hopen, htouch, hyields⟩
  have hmark := untouched_setImpure p j.i { p.impures j.i with
    irsb_first := false, irsb_in_opened := false, irsb_join_full := false
    irsb_mustread := true }
  refine ⟨p.setImpure j.i { p.impures j.i with
    irsb_first := false, irsb_in_opened := false, irsb_join_full := false
    irsb_mustread := true }, .of_succ ?_, ?_, ?_⟩
  · exact hopen.bind (.of_eq fun n => rfl)
  · exact (((untouched_setImpure q j.i _).mono j.area_sub).trans
      (htouch.mono j.outer_sub)).trans (hmark.mono j.area_sub)
  · refine Yields.of_inv (I := j.At scope e) (fun rows q p hat hnear => hat.near hnear) ?_ ?_
    · exact fun rows q hat =>
        (left_gives h hfull hat).of_step (.refl q) fun r hr => .of_succ hr
    · refine .inl ⟨j.outer.rows e, ⟨?_, htouch.keeps hscope he, ⟨[], rfl, fun _ o ho => ?_⟩, ?_⟩,
        j.rows_rsb e⟩
      · rw [setImpure_impures]
        exact ⟨rfl, rfl⟩
      · cases ho
      · exact outer_near h hyields hmark fun c hc => by simp [List.mem_singleton.mp hc]

end Firebird.Rse
