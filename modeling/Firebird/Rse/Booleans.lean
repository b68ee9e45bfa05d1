import Firebird.Rse.Cursor

/-! # Booleans

`EVL_boolean` and Kleene's logic: the value it returns and the flag it leaves
in the request are the truth of the boolean, whether or not it stops at the
first operand that decides.
-/

namespace Firebird.Rse

variable {Row Value : Type} [MovCompare Value] {scope : List Nat}

open MovCompare

/-- A boolean that only compares values -/
theorem tells_of_values {nod : Nod Row Value} (h : ∀ (n : Nat) (q : Req Row) (e : Env Row),
    Matches scope q.env e → evlBoolean (n + 1) nod q =
      .ok (nod.truth e == some true, q.setNull (nod.truth e).isNone)) : nod.Tells scope :=
  fun q e he => ⟨_, .of_succ (.of_eq fun n => h n q e he), untouched_setNull q _, rfl⟩

theorem compare_tells {nod_type : Comparison} {arg0 arg1 : Env Row → Option Value}
    (h0 : Reads scope arg0) (h1 : Reads scope arg1) :
    (Nod.compare nod_type arg0 arg1 : Nod Row Value).Tells scope := by
  refine tells_of_values fun n q e he => ?_
  rw [evlBoolean, Nod.truth, ← h0 q.env e he, ← h1 q.env e he]
  cases arg0 q.env with
  | none => rfl
  | some x => cases arg1 q.env <;> simp

theorem missing_tells {arg0 : Env Row → Option Value} (h0 : Reads scope arg0) :
    (Nod.missing arg0 : Nod Row Value).Tells scope := by
  refine tells_of_values fun n q e he => ?_
  rw [evlBoolean_missing, Nod.truth, h0 q.env e he]
  simp

/-- `BETWEEN` is unknown as soon as one of its three operands is, also where the
first comparison already fails. -/
theorem between_tells {arg0 arg1 arg2 : Env Row → Option Value} (h0 : Reads scope arg0)
    (h1 : Reads scope arg1) (h2 : Reads scope arg2) :
    (Nod.between arg0 arg1 arg2 : Nod Row Value).Tells scope := by
  refine tells_of_values fun n q e he => ?_
  rw [evlBoolean, Nod.truth, ← h0 q.env e he, ← h1 q.env e he, ← h2 q.env e he]
  cases arg0 q.env with
  | none => rfl
  | some x =>
    cases arg1 q.env with
    | none => rfl
    | some y => cases arg2 q.env <;> simp

theorem not_tells {arg0 : Nod Row Value} (h0 : arg0.Tells scope) : (Nod.not arg0).Tells scope := by
  intro q e he
  rcases h0 q e he with ⟨p, hevl, htouch, hnull⟩
  refine ⟨p, .of_succ ?_, htouch, ?_⟩
  · simp only [evlBoolean]
    refine hevl.bind (.of_eq fun n => ?_)
    rw [hnull, Nod.truth_not]
    rcases arg0.truth e with - | (- | -) <;> rfl
  · rw [hnull, Nod.truth_not]
    rcases arg0.truth e with - | - <;> rfl

/-- The second operand is evaluated unless the first one is false and decides. -/
theorem and_tells {arg0 arg1 : Nod Row Value} (h0 : arg0.Tells scope) (h1 : arg1.Tells scope)
    (hapart : Apart scope arg0.cells) : (Nod.and arg0 arg1).Tells scope := by
  intro q e he
  rcases h0 q e he with ⟨p, hevl, htouch, hnull⟩
  have hmatch : Matches scope (p.setNull false).env e := htouch.keeps hapart he
  rcases h1 (p.setNull false) e hmatch with ⟨r, hevl', htouch', hnull'⟩
  have hfirst : Untouched (Nod.and arg0 arg1).cells q p := htouch.left
  have hboth := (hfirst.trans (untouched_setNull p false)).trans htouch'.right
  rw [Nod.truth]
  cases hshort : !p.bEvalCompleteExpression && !(arg0.truth e == some true) && !p.req_null with
  | true =>
    have htruth : arg0.truth e = some false := by
      rw [hnull] at hshort
      rcases htruth : arg0.truth e with - | (- | -)
      · simp [htruth] at hshort
      · rfl
      · simp [htruth] at hshort
    rw [htruth]
    refine ⟨p.setNull false, .of_succ ?_, hfirst.trans (untouched_setNull p false), rfl⟩
    simp only [evlBoolean]
    refine hevl.bind (.of_eq fun n => ?_)
    simp only [hshort, if_true]
    rfl
  | false =>
    refine ⟨r.setNull (kleeneAnd (arg0.truth e) (arg1.truth e)).isNone, .of_succ ?_,
      hboth.trans (untouched_setNull r _), rfl⟩
    simp only [evlBoolean]
    refine hevl.bind ?_
    simp only [hshort, Bool.false_eq_true, if_false]
    refine hevl'.bind (.of_eq fun n => ?_)
    rw [hnull, hnull']
    rcases arg0.truth e with - | (- | -) <;> rcases arg1.truth e with - | (- | -) <;> rfl

/-- The second operand is evaluated unless the first one is true and decides. -/
theorem or_tells {arg0 arg1 : Nod Row Value} (h0 : arg0.Tells scope) (h1 : arg1.Tells scope)
    (hapart : Apart scope arg0.cells) : (Nod.or arg0 arg1).Tells scope := by
  intro q e he
  rcases h0 q e he with ⟨p, hevl, htouch, hnull⟩
  have hmatch : Matches scope (p.setNull false).env e := htouch.keeps hapart he
  rcases h1 (p.setNull false) e hmatch with ⟨r, hevl', htouch', hnull'⟩
  have hfirst : Untouched (Nod.or arg0 arg1).cells q p := htouch.left
  have hboth := (hfirst.trans (untouched_setNull p false)).trans htouch'.right
  rw [Nod.truth]
  cases hshort : !p.bEvalCompleteExpression && (arg0.truth e == some true) with
  | true =>
    have htruth : arg0.truth e = some true := by
      rcases htruth : arg0.truth e with - | (- | -)
      · simp [htruth] at hshort
      · simp [htruth] at hshort
      · rfl
    rw [htruth]
    refine ⟨p.setNull false, .of_succ ?_, hfirst.trans (untouched_setNull p false), rfl⟩
    simp only [evlBoolean]
    refine hevl.bind (.of_eq fun n => ?_)
    simp only [hshort, if_true]
    rfl
  | false =>
    refine ⟨r.setNull (kleeneOr (arg0.truth e) (arg1.truth e)).isNone, .of_succ ?_,
      hboth.trans (untouched_setNull r _), rfl⟩
    simp only [evlBoolean]
    refine hevl.bind ?_
    simp only [hshort, Bool.false_eq_true, if_false]
    refine hevl'.bind (.of_eq fun n => ?_)
    -- where neither operand decides, the second one has left the flag
    have hflag : r.setNull (arg1.truth e).isNone = r := hnull' ▸ rfl
    rw [hnull]
    rcases arg0.truth e with - | (- | -) <;> rcases h1 : arg1.truth e with - | (- | -) <;>
      rw [h1] at hflag
    all_goals first | rfl | exact congrArg (fun p => Except.ok (false, p)) hflag.symm

/-- A subquery is read as far as its first record. -/
theorem any_tells {rsb : Rsb Row Value} (hrsb : rsb.Delivers scope) :
    (Nod.any rsb).Tells scope := by
  intro q e he
  rcases hrsb q e he with ⟨p, hopen, htouch, hyields⟩
  rcases hyields.gives with ⟨found, r, hget, htouch', hrows⟩
  refine ⟨(rseClose rsb r).setNull false, .of_succ ?_,
    ((htouch.trans htouch').trans (rseClose_untouched rsb r)).trans (untouched_setNull _ _), rfl⟩
  have hfound : found = ((Nod.any rsb).truth e == some true) := by
    rw [Nod.truth]
    cases hlist : rsb.rows e with
    | nil =>
      rw [hlist] at hrows
      exact hrows
    | cons f rows =>
      rw [hlist] at hrows
      exact hrows.1
  simp only [evlBoolean]
  refine hopen.bind ?_
  refine hget.bind (.of_eq fun n => ?_)
  rw [hfound]

end Firebird.Rse
