import Firebird.Vio.Savepoint

/-! # Rolling back a savepoint

One bit and one item of undo data for each record are enough: a savepoint can have a record
in six ways, and each of them tells what its undo has to take off the chain. Two versions of
the transaction's own that have been put on the chain under one savepoint break this, and so
does a record buffer longer than the record.
-/

namespace Firebird.Vio

open Transition (Reachable System)

variable {Key : Type} {T : JrdTra} {R : Relation Key}

/-! ## What a savepoint knows -/

/-- The data has the length of its format. -/
def Relation.Fits (R : Relation Key) (d : Data) : Prop := d.bytes.length = R.fmtLength d.format

theorem Relation.Fits.ne_nil {d : Data} (h : R.Fits d) : d.bytes ≠ [] := by
  intro hnil
  have hpos := R.fmtLength_pos d.format
  rw [← h, hnil] at hpos
  exact Nat.lt_irrefl 0 hpos

/-- All versions have the lengths of their formats. -/
def ChainFits (R : Relation Key) (chain : List Version) : Prop :=
  ∀ v ∈ chain, ∀ d, v.data = some d → R.Fits d

/-- What the mark of a savepoint says of the chain `b` at its start and the chain `c` now. -/
inductive Since (T : JrdTra) (R : Relation Key) :
    Mark → List Version → List Version → Prop where
  | unseen {b c : List Version} : c = b ∨ c = T.clean b → Since T R .unseen b c
  | pushed {b : List Version} {w : Version} : T.Owns w →
      Since T R (.seen none) b (w :: T.clean b)
  | changed {b rest : List Version} {v w : Version} {u : Undo} : T.clean b = v :: rest →
      T.Owns v → T.Owns w → w.format = v.format → v.data = some u.data → w.data.isSome →
      R.Fits u.data → u.sameTx = false → Since T R (.seen (some u)) b (w :: rest)
  | changedErased {b rest : List Version} {v w d : Version} {u : Undo} : T.clean b = v :: rest →
      T.Owns v → T.Owns w → T.Owns d → w.format = v.format → v.data = some u.data →
      w.data.isSome → d.data = none → R.Fits u.data → u.sameTx = true →
      Since T R (.seen (some u)) b (d :: w :: rest)
  | erased {b rest : List Version} {v d : Version} {u : Undo} : T.clean b = v :: rest →
      T.Owns v → v.data.isSome → T.Owns d → d.data = none → u.data.bytes = [] → u.sameTx = true →
      u.newVersion = false → Since T R (.seen (some u)) b (d :: v :: rest)
  | pushedErased {b : List Version} {w d : Version} {u : Undo} : T.Owns w → T.Owns d →
      w.data.isSome → d.data = none → u.data.bytes = [] → u.sameTx = true →
      u.newVersion = true → Since T R (.seen (some u)) b (d :: w :: T.clean b)

/-- The marks of all savepoints, from the innermost one out, with the chains at their starts -/
inductive Stack (T : JrdTra) (R : Relation Key) :
    List Mark → List (List Version) → List Version → Prop where
  | nil {c : List Version} : Stack T R [] [] c
  | cons {m : Mark} {ms : List Mark} {b c : List Version} {bs : List (List Version)} :
      Since T R m b c → Stack T R ms bs b → Stack T R (m :: ms) (b :: bs) c

theorem Stack.length_eq {ms : List Mark} {bs : List (List Version)} {c : List Version}
    (h : Stack T R ms bs c) : ms.length = bs.length := by
  induction h with
  | nil => rfl
  | cons _ _ ih => rw [List.length_cons, List.length_cons, ih]

theorem clean_of_owns {w : Version} {rest : List Version} (h : T.Owns w) :
    T.clean (w :: rest) = w :: rest := JrdTra.clean_of_not_dead h.not_dead

theorem Since.clean {m : Mark} {b c : List Version} (h : Since T R m b c) :
    Since T R m b (T.clean c) := by
  cases h with
  | unseen h =>
      rcases h with rfl | rfl
      · exact .unseen (.inr rfl)
      · exact .unseen (.inr (JrdTra.clean_clean _))
  | pushed hw =>
      rw [clean_of_owns hw]
      exact .pushed hw
  | changed hb hv hw hformat hdata hsome hfits hsame =>
      rw [clean_of_owns hw]
      exact .changed hb hv hw hformat hdata hsome hfits hsame
  | changedErased hb hv hw hd hformat hdata hsome hnone hfits hsame =>
      rw [clean_of_owns hd]
      exact .changedErased hb hv hw hd hformat hdata hsome hnone hfits hsame
  | erased hb hv hsome hd hnone hempty hsame hnew =>
      rw [clean_of_owns hd]
      exact .erased hb hv hsome hd hnone hempty hsame hnew
  | pushedErased hw hd hsome hnone hempty hsame hnew =>
      rw [clean_of_owns hd]
      exact .pushedErased hw hd hsome hnone hempty hsame hnew

theorem Stack.clean {ms : List Mark} {bs : List (List Version)} {c : List Version}
    (h : Stack T R ms bs c) : Stack T R ms bs (T.clean c) := by
  cases h with
  | nil => exact .nil
  | cons hsince hrest => exact .cons hsince.clean hrest

/-- A record that the savepoint has, has a version of the transaction on top. -/
theorem Since.owns {u : Option Undo} {b c : List Version} (h : Since T R (.seen u) b c) :
    ∃ w rest, c = w :: rest ∧ T.Owns w := by
  cases h with
  | pushed hw => exact ⟨_, _, rfl, hw⟩
  | changed hb hv hw => exact ⟨_, _, rfl, hw⟩
  | changedErased hb hv hw hd => exact ⟨_, _, rfl, hd⟩
  | erased hb hv hsome hd => exact ⟨_, _, rfl, hd⟩
  | pushedErased hw hd => exact ⟨_, _, rfl, hd⟩

theorem ChainFits.tail {v : Version} {rest : List Version} (h : ChainFits R (v :: rest)) :
    ChainFits R rest := fun w hw => h w (List.mem_cons_of_mem v hw)

theorem ChainFits.cons {v : Version} {rest : List Version} (h : ChainFits R rest)
    (hv : ∀ d, v.data = some d → R.Fits d) : ChainFits R (v :: rest) := by
  intro w hw
  rcases List.mem_cons.mp hw with rfl | hw
  · exact hv
  · exact h w hw

theorem ChainFits.clean {chain : List Version} (h : ChainFits R chain) :
    ChainFits R (T.clean chain) := fun v hv => h v ((List.dropWhile_suffix _).subset hv)

theorem Version.eq_of_data {v : Version} {d : Data} (h : v.data = some d) :
    v = ⟨v.transaction, v.format, some d.bytes⟩ ∧ v.format = d.format := by
  obtain ⟨transaction, format, image⟩ := v
  cases image with
  | none => cases h
  | some bytes =>
      cases h
      exact ⟨rfl, rfl⟩

variable [DecidableEq Key]

/-! ## `VIO_backout` and `verb_post` on the chain -/

namespace Record

variable {s : Record Key} {v : Version} {rest : List Version}

theorem backout_marks (s : Record Key) : (s.backout R).marks = s.marks := by
  rw [backout]
  split <;> rfl

theorem backoutDead_chain (chain : List Version) (nodes : ℕ → Key → ℕ) :
    (backoutDead T R chain nodes).1 = T.clean chain := by
  induction chain generalizing nodes with
  | nil => rfl
  | cons v rest ih =>
      rw [backoutDead]
      by_cases hdead : T.Dead v
      · rw [if_pos hdead, ih, JrdTra.clean_of_dead hdead]
      · rw [if_neg hdead, JrdTra.clean_of_not_dead hdead]

theorem backoutDead_eq {chain chain' : List Version} {nodes nodes' : ℕ → Key → ℕ}
    (h : backoutDead T R chain nodes = (chain', nodes')) : T.clean chain = chain' := by
  rw [← backoutDead_chain (T := T) (R := R) chain nodes, h]

end Record

/-- The mark after `verb_post` -/
def Mark.post (m : Mark) (oldData : Option Data) (sameTx newVer : Bool) : Mark :=
  match m with
  | .unseen =>
      match oldData with
      | some data => .seen (some ⟨data, sameTx, false⟩)
      | none => if sameTx then .seen (some ⟨⟨0, []⟩, true, newVer⟩) else .seen none
  | .seen undo =>
      if sameTx then
        match undo with
        | some u => .seen (some { u with sameTx := true })
        | none => .seen (some ⟨⟨0, []⟩, true, true⟩)
      else .seen undo

theorem verbPost_chain (s : Record Key) (oldData : Option Data) (sameTx newVer : Bool) :
    (s.verbPost R oldData sameTx newVer).chain = s.chain := by
  rw [Record.verbPost]
  split
  · rfl
  · cases oldData with
    | some data => rfl
    | none => cases sameTx <;> rfl
  · cases sameTx <;> cases oldData <;> rfl

theorem verbPost_marks (s : Record Key) (oldData : Option Data) (sameTx newVer : Bool) :
    (s.verbPost R oldData sameTx newVer).marks =
      match s.marks with
      | [] => []
      | m :: ms => m.post oldData sameTx newVer :: ms := by
  cases hms : s.marks with
  | nil => simp only [Record.verbPost, hms]
  | cons m ms =>
      cases m with
      | unseen => cases oldData <;> cases sameTx <;> simp only [Record.verbPost, hms] <;> rfl
      | seen undo =>
          cases sameTx with
          | true =>
              cases undo <;> cases oldData <;> simp only [Record.verbPost, hms] <;> rfl
          | false => cases oldData <;> simp only [Record.verbPost, hms] <;> exact hms

theorem verbPost_marks_nil {s : Record Key} (h : s.marks = []) (oldData : Option Data)
    (sameTx newVer : Bool) : (s.verbPost R oldData sameTx newVer).marks = [] := by
  rw [verbPost_marks, h]

theorem verbPost_marks_cons {s : Record Key} {m : Mark} {ms : List Mark} (h : s.marks = m :: ms)
    (oldData : Option Data) (sameTx newVer : Bool) :
    (s.verbPost R oldData sameTx newVer).marks = m.post oldData sameTx newVer :: ms := by
  rw [verbPost_marks, h]

/-! ## Undoing one savepoint -/

/-- The chain after a savepoint has been undone -/
def Mark.undone (m : Mark) (c : List Version) : List Version :=
  match m with
  | .unseen => c
  | .seen none => c.tail
  | .seen (some u) =>
      let c := if u.sameTx then c.tail else c
      if u.data.bytes = [] then
        if u.sameTx ∧ u.newVersion then c.tail else c
      else
        match c with
        | [] => []
        | v :: rest => ⟨v.transaction, v.format, some u.data.bytes⟩ :: rest

/-- The data that goes when a savepoint is undone -/
def Mark.gone (m : Mark) (c : List Version) : Option Data :=
  match m with
  | .unseen => none
  | .seen none => c.head?.bind Version.data
  | .seen (some u) =>
      if u.data.bytes = [] ∧ u.newVersion = false then none
      else (if u.sameTx then c.tail else c).head?.bind Version.data

omit [DecidableEq Key] in
/-- The chain that is left is that at the start of the savepoint, less dead versions that were
on top of it. -/
theorem Since.undone_eq {m : Mark} {b c : List Version} (h : Since T R m b c) :
    m.undone c = b ∨ m.undone c = T.clean b := by
  have hback : ∀ {v w : Version} {d : Data}, T.Owns v → T.Owns w → w.format = v.format →
      v.data = some d → (⟨w.transaction, w.format, some d.bytes⟩ : Version) = v := by
    intro v w d hv hw hformat hdata
    rw [hformat, hw, ← hv]
    exact (Version.eq_of_data hdata).1.symm
  cases h with
  | unseen hc => exact hc
  | pushed => exact .inr rfl
  | changed hb hv hw hformat hdata hsome hfits hsame =>
      right
      simp [Mark.undone, hsame, hfits.ne_nil, hb, hback hv hw hformat hdata]
  | changedErased hb hv hw hd hformat hdata hsome hnone hfits hsame =>
      right
      simp [Mark.undone, hsame, hfits.ne_nil, hb, hback hv hw hformat hdata]
  | erased hb hv hsome hd hnone hempty hsame hnew =>
      right
      simp [Mark.undone, hsame, hnew, hempty, hb]
  | pushedErased hw hd hsome hnone hempty hsame hnew =>
      right
      simp [Mark.undone, hsame, hnew, hempty]

/-- `VIO_verb_cleanup` succeeds. Entries go for the data that goes. -/
theorem Since.undo_eq {m : Mark} {ms : List Mark} {b : List Version} {s : Record Key}
    (h : Since T R m b s.chain) (hmarks : s.marks = m :: ms) :
    s.undo T R = some ⟨m.undone s.chain,
      (m.gone s.chain).elim s.nodes fun d =>
        idxGarbageCollect R s.nodes [d] (listStaying (m.undone s.chain)), ms⟩ := by
  obtain ⟨chain, nodes, marks⟩ := s
  cases hmarks
  cases h with
  | unseen hc => rfl
  | @pushed _ w hw =>
      simp only [Record.undo, if_pos hw, Record.backout, Mark.undone, Mark.gone, List.tail_cons,
        List.head?_cons, Option.bind_some]
      cases w.data <;> rfl
  | @changed _ rest v w u hb hv hw hformat hdata hsome hfits hsame =>
      obtain ⟨org, horg⟩ := Option.isSome_iff_exists.mp hsome
      simp [Record.undo, hw, Record.restore, Record.garbageCollectIdx, Mark.undone, Mark.gone,
        hsame, hfits.ne_nil, horg]
  | @changedErased _ rest v w d u hb hv hw hd hformat hdata hsome hnone hfits hsame =>
      obtain ⟨org, horg⟩ := Option.isSome_iff_exists.mp hsome
      simp [Record.undo, hd, Record.restore, Record.garbageCollectIdx, Record.backout, hnone,
        Mark.undone, Mark.gone, hsame, hfits.ne_nil, horg]
  | @erased _ rest v d u hb hv hsome hd hnone hempty hsame hnew =>
      simp [Record.undo, hd, Record.backout, hnone, Mark.undone, Mark.gone, hsame, hempty, hnew]
  | @pushedErased _ w d u hw hd hsome hnone hempty hsame hnew =>
      obtain ⟨org, horg⟩ := Option.isSome_iff_exists.mp hsome
      simp [Record.undo, hd, Record.backout, hnone, Mark.undone, Mark.gone, hsame, hempty, hnew,
        horg]

omit [DecidableEq Key] in
theorem Stack.undone {m : Mark} {ms : List Mark} {b c : List Version} {bs : List (List Version)}
    (h : Stack T R (m :: ms) (b :: bs) c) : Stack T R ms bs (m.undone c) := by
  cases h with
  | cons hsince hrest =>
      rcases hsince.undone_eq with heq | heq
      · exact heq ▸ hrest
      · exact heq ▸ hrest.clean

/-! ## Posting a savepoint to the one before -/

/-- The mark `x` of the savepoint before, after the mark `y` has been posted to it -/
def Mark.merge (x y : Mark) : Mark :=
  match y with
  | .unseen => x
  | .seen none => x.post none false false
  | .seen (some u) =>
      if u.data.bytes = [] then if u.sameTx then x.post none true u.newVersion else x
      else x.post (some u.data) u.sameTx u.newVersion

/-- The savepoint has put a version on the chain. -/
def Mark.Pushes : Mark → Prop
  | .unseen => False
  | .seen none => True
  | .seen (some u) => u.data.bytes = [] ∧ u.newVersion = true

theorem post_chain (s : Record Key) : (s.post R).chain = s.chain := by
  obtain ⟨chain, nodes, marks⟩ := s
  cases marks with
  | nil => rfl
  | cons m ms =>
      rw [Record.post]
      dsimp only
      split
      · rfl
      · exact verbPost_chain ..
      · split
        · split
          · exact verbPost_chain ..
          · rfl
        · exact verbPost_chain ..

/-- The marks of the savepoints before, after the mark `y` has been posted to them -/
def Mark.mergeAll (y : Mark) : List Mark → List Mark
  | [] => []
  | x :: ms => x.merge y :: ms

theorem post_marks {s : Record Key} {y : Mark} {ms : List Mark} (h : s.marks = y :: ms) :
    (s.post R).marks = y.mergeAll ms := by
  obtain ⟨chain, nodes, marks⟩ := s
  cases h
  rw [Record.post]
  dsimp only
  cases y with
  | unseen => cases ms <;> rfl
  | seen item =>
      cases item with
      | none =>
          rw [verbPost_marks]
          cases ms <;> rfl
      | some u =>
          cases ms with
          | nil =>
              dsimp only [Mark.mergeAll]
              split
              · split
                · rw [verbPost_marks]
                · rfl
              · rw [verbPost_marks]
          | cons x ms =>
              dsimp only [Mark.mergeAll, Mark.merge]
              split
              · split
                · rw [verbPost_marks]
                · rfl
              · rw [verbPost_marks]

omit [DecidableEq Key] in
/-- Nothing happens to a record that the transaction has erased. -/
theorem Since.of_deleted {x y : Mark} {rest c : List Version} {d : Version}
    (h : Since T R y (d :: rest) c) (hd : T.Owns d) (hnone : d.data = none)
    (hsafe : y.Pushes → x = .unseen) (hx : x ≠ .unseen) : y = .unseen ∧ c = d :: rest := by
  cases h with
  | unseen hc => exact ⟨rfl, hc.elim id fun h => h.trans (clean_of_owns hd)⟩
  | pushed => exact absurd (hsafe trivial) hx
  | changed hb hv hw hformat hdata =>
      rw [clean_of_owns hd] at hb
      cases hb
      rw [hnone] at hdata
      cases hdata
  | changedErased hb hv hw hd' hformat hdata =>
      rw [clean_of_owns hd] at hb
      cases hb
      rw [hnone] at hdata
      cases hdata
  | erased hb hv hsome =>
      rw [clean_of_owns hd] at hb
      cases hb
      rw [hnone] at hsome
      cases hsome
  | pushedErased hw hd' hsome' hnone' hempty hsame hnew =>
      exact absurd (hsafe ⟨hempty, hnew⟩) hx

omit [DecidableEq Key] in
/-- What two savepoints know of a record is known when the inner one is posted to the outer
one, unless both have put a version on the chain. -/
theorem Since.merge {x y : Mark} {b m c : List Version} (hx : Since T R x b m)
    (hy : Since T R y m c) (hsafe : y.Pushes → x = .unseen) : Since T R (x.merge y) b c := by
  cases hx with
  | unseen hm =>
      -- the outer savepoint takes over what the inner one has
      have hclean : T.clean m = T.clean b := by
        rcases hm with rfl | rfl
        · rfl
        · exact JrdTra.clean_clean _
      cases hy with
      | unseen hc =>
          refine .unseen ?_
          rcases hc with rfl | rfl
          · exact hm
          · exact .inr hclean
      | pushed hw =>
          rw [hclean]
          exact .pushed hw
      | changed hb hv hw hformat hdata hsome hfits hsame =>
          rw [Mark.merge, if_neg hfits.ne_nil, hsame]
          exact .changed (hclean ▸ hb) hv hw hformat hdata hsome hfits rfl
      | changedErased hb hv hw hd hformat hdata hsome hnone hfits hsame =>
          rw [Mark.merge, if_neg hfits.ne_nil, hsame]
          exact .changedErased (hclean ▸ hb) hv hw hd hformat hdata hsome hnone hfits rfl
      | erased hb hv hsome hd hnone hempty hsame hnew =>
          rw [Mark.merge, if_pos hempty, if_pos hsame, hnew]
          exact .erased (hclean ▸ hb) hv hsome hd hnone rfl rfl rfl
      | pushedErased hw hd hsome hnone hempty hsame hnew =>
          rw [Mark.merge, if_pos hempty, if_pos hsame, hnew, hclean]
          exact .pushedErased hw hd hsome hnone rfl rfl rfl
  | @pushed _ w hw =>
      cases hy with
      | unseen hc =>
          have hcw : c = w :: T.clean b := hc.elim id fun h => h.trans (clean_of_owns hw)
          exact hcw ▸ .pushed hw
      | pushed => exact absurd (hsafe trivial) nofun
      | changed hb hv hw' hformat hdata hsome hfits hsame =>
          rw [clean_of_owns hw] at hb
          cases hb
          rw [Mark.merge, if_neg hfits.ne_nil, hsame]
          exact .pushed hw'
      | changedErased hb hv hw' hd hformat hdata hsome hnone hfits hsame =>
          rw [clean_of_owns hw] at hb
          cases hb
          rw [Mark.merge, if_neg hfits.ne_nil, hsame]
          exact .pushedErased hw' hd hsome hnone rfl rfl rfl
      | erased hb hv hsome hd hnone hempty hsame hnew =>
          rw [clean_of_owns hw] at hb
          cases hb
          rw [Mark.merge, if_pos hempty, if_pos hsame]
          exact .pushedErased hw hd hsome hnone rfl rfl rfl
      | pushedErased hw' hd hsome hnone hempty hsame hnew =>
          exact absurd (hsafe ⟨hempty, hnew⟩) nofun
  | @changed _ rest v w u hb hv hw hformat hdata hsome hfits hsame =>
      cases hy with
      | unseen hc =>
          have hcw : c = w :: rest := hc.elim id fun h => h.trans (clean_of_owns hw)
          exact hcw ▸ .changed hb hv hw hformat hdata hsome hfits hsame
      | pushed => exact absurd (hsafe trivial) nofun
      | changed hb' hv' hw' hformat' hdata' hsome' hfits' hsame' =>
          rw [clean_of_owns hw] at hb'
          cases hb'
          rw [Mark.merge, if_neg hfits'.ne_nil, hsame']
          exact .changed hb hv hw' (hformat'.trans hformat) hdata hsome' hfits hsame
      | changedErased hb' hv' hw' hd' hformat' hdata' hsome' hnone' hfits' hsame' =>
          rw [clean_of_owns hw] at hb'
          cases hb'
          rw [Mark.merge, if_neg hfits'.ne_nil, hsame']
          exact .changedErased hb hv hw' hd' (hformat'.trans hformat) hdata hsome' hnone' hfits rfl
      | erased hb' hv' hsome' hd' hnone' hempty' hsame' hnew' =>
          rw [clean_of_owns hw] at hb'
          cases hb'
          rw [Mark.merge, if_pos hempty', if_pos hsame']
          exact .changedErased hb hv hw hd' hformat hdata hsome hnone' hfits rfl
      | pushedErased hw' hd' hsome' hnone' hempty' hsame' hnew' =>
          exact absurd (hsafe ⟨hempty', hnew'⟩) nofun
  | @changedErased _ rest v w d u hb hv hw hd hformat hdata hsome hnone hfits hsame =>
      obtain ⟨rfl, hcd⟩ := hy.of_deleted hd hnone hsafe nofun
      exact hcd ▸ .changedErased hb hv hw hd hformat hdata hsome hnone hfits hsame
  | @erased _ rest v d u hb hv hsome hd hnone hempty hsame hnew =>
      obtain ⟨rfl, hcd⟩ := hy.of_deleted hd hnone hsafe nofun
      exact hcd ▸ .erased hb hv hsome hd hnone hempty hsame hnew
  | @pushedErased _ w d u hw hd hsome hnone hempty hsame hnew =>
      obtain ⟨rfl, hcd⟩ := hy.of_deleted hd hnone hsafe nofun
      exact hcd ▸ .pushedErased hw hd hsome hnone hempty hsame hnew

/-! ## Statements -/

namespace Record

variable {s s' : Record Key} {new : Data} {errs : ℕ → IdxE} {ok : Bool}

theorem store_cases (h : s.store T R new errs = some (s', ok)) :
    s.chain = [] ∧ R.Fits new ∧ ∃ s₁,
      s₁ = verbPost R ⟨[⟨T.number, new.format, some new.bytes⟩], s.nodes, s.marks⟩ none false false ∧
        s' = { s₁ with nodes := (idxStore R new errs s₁.nodes).1 } ∧
          ok = (idxStore R new errs s₁.nodes).2 := by
  rw [store] at h
  split at h
  · rename_i hfree
    cases h
    exact ⟨hfree.1, hfree.2, _, rfl, rfl, rfl⟩
  · cases h

/-- A version is modified in place or gets another one before it, and then the indexes. -/
theorem modify_cases {tail : List SCHAR} (h : s.modify T R new tail errs = some (s', ok)) :
    ∃ v rest nodes org, backoutDead T R s.chain s.nodes = (v :: rest, nodes) ∧
      v.data = some org ∧ R.Fits new ∧ ∃ s₁,
        (T.Owns v ∧ v.format = new.format ∧
            s₁ = verbPost R ⟨⟨v.transaction, new.format, some new.bytes⟩ :: rest, nodes, s.marks⟩
              (some ⟨org.format, org.bytes ++ tail⟩) false false ∨
          ¬(T.Owns v ∧ v.format = new.format) ∧
            s₁ = verbPost R
              ⟨⟨T.number, new.format, some new.bytes⟩ :: v :: rest, nodes, s.marks⟩
              none false false) ∧
          s' = { s₁ with nodes := (idxModify R org new errs s₁.nodes).1 } ∧
            ok = (idxModify R org new errs s₁.nodes).2 := by
  rw [modify] at h
  split at h
  · cases h
  · rename_i v rest nodes hdead
    split at h
    · cases h
    · rename_i org horg
      split at h
      · rename_i hcan
        split at h
        · rename_i hown
          cases h
          exact ⟨v, rest, nodes, org, hdead, horg, hcan.2, _, .inl ⟨hown.1, hown.2, rfl⟩, rfl, rfl⟩
        · rename_i hother
          cases h
          exact ⟨v, rest, nodes, org, hdead, horg, hcan.2, _, .inr ⟨hother, rfl⟩, rfl, rfl⟩
      · cases h

theorem erase_cases (h : s.erase T R = some s') :
    ∃ v rest nodes, backoutDead T R s.chain s.nodes = (v :: rest, nodes) ∧ v.data.isSome ∧
      s' = verbPost R ⟨⟨T.number, v.format, none⟩ :: v :: rest, nodes, s.marks⟩ none (T.Owns v)
        false := by
  rw [erase] at h
  split at h
  · cases h
  · rename_i v rest nodes hdead
    split at h
    · rename_i hcan
      cases h
      exact ⟨v, rest, nodes, hdead, hcan.2, rfl⟩
    · cases h

theorem writelock_cases (h : s.writelock T R = some s') :
    ∃ v rest nodes, backoutDead T R s.chain s.nodes = (v :: rest, nodes) ∧ v.data.isSome ∧
      (T.Owns v ∧ s' = ⟨v :: rest, nodes, s.marks⟩ ∨
        ¬T.Owns v ∧ s' = verbPost R
          ⟨⟨T.number, v.format, v.image⟩ :: v :: rest, nodes, s.marks⟩ none false false) := by
  rw [writelock] at h
  split at h
  · cases h
  · rename_i v rest nodes hdead
    split at h
    · rename_i hcan
      split at h
      · rename_i hv
        cases h
        exact ⟨v, rest, nodes, hdead, hcan.2, .inl ⟨hv, rfl⟩⟩
      · rename_i hv
        cases h
        exact ⟨v, rest, nodes, hdead, hcan.2, .inr ⟨hv, rfl⟩⟩
    · cases h

end Record

omit [DecidableEq Key] in
/-- A statement that changes the chain and the innermost mark. -/
theorem Stack.head {s s' : Record Key} {bs : List (List Version)}
    (h : Stack T R s.marks bs s.chain) (hnil : s.marks = [] → s'.marks = [])
    (hcons : ∀ m ms, s.marks = m :: ms →
      ∃ m', s'.marks = m' :: ms ∧ ∀ b, Since T R m b s.chain → Since T R m' b s'.chain) :
    Stack T R s'.marks bs s'.chain := by
  cases hms : s.marks with
  | nil =>
      rw [hms] at h
      cases h
      rw [hnil hms]
      exact .nil
  | cons m ms =>
      rw [hms] at h
      cases h with
      | cons hsince hrest =>
          obtain ⟨m', hm', hnew⟩ := hcons m ms hms
          rw [hm']
          exact .cons (hnew _ hsince) hrest

omit [DecidableEq Key] in
theorem Since.push {b c : List Version} {w : Version} (h : Since T R .unseen b c) (hw : T.Owns w) :
    Since T R (.seen none) b (w :: T.clean c) := by
  cases h with
  | unseen hc =>
      have hclean : T.clean c = T.clean b := by
        rcases hc with rfl | rfl
        · rfl
        · exact JrdTra.clean_clean _
      rw [hclean]
      exact .pushed hw

omit [DecidableEq Key] in
/-- `update_in_place` and `verb_post`, with a record buffer no longer than the record when the
savepoint keeps it -/
theorem Since.replace {m : Mark} {b rest : List Version} {v w : Version} {d : Data}
    {tail : List SCHAR} (h : Since T R m b (v :: rest)) (hv : T.Owns v) (hw : T.Owns w)
    (hformat : w.format = v.format) (hdata : v.data = some d) (hsome : w.data.isSome)
    (hfits : R.Fits d) (htail : m = .unseen → tail = []) :
    Since T R (m.post (some ⟨d.format, d.bytes ++ tail⟩) false false) b (w :: rest) := by
  cases h with
  | unseen hc =>
      have hb : T.clean b = v :: rest := by
        rcases hc with rfl | hc
        · exact clean_of_owns hv
        · exact hc.symm
      rw [htail rfl, List.append_nil]
      exact .changed hb hv hw hformat hdata hsome hfits rfl
  | pushed => exact .pushed hw
  | changed hb hv' hw' hformat' hdata' hsome' hfits' hsame' =>
      exact .changed hb hv' hw (hformat.trans hformat') hdata' hsome hfits' hsame'
  | changedErased hb hv' hw' hd' hformat' hdata' hsome' hnone' =>
      rw [hnone'] at hdata
      cases hdata
  | erased hb hv' hsome' hd' hnone' =>
      rw [hnone'] at hdata
      cases hdata
  | pushedErased hw' hd' hsome' hnone' =>
      rw [hnone'] at hdata
      cases hdata

omit [DecidableEq Key] in
/-- `verb_post` after a version of the transaction's own has been erased -/
theorem Since.erase {m : Mark} {b rest : List Version} {v d : Version}
    (h : Since T R m b (v :: rest)) (hv : T.Owns v) (hd : T.Owns d) (hsome : v.data.isSome)
    (hnone : d.data = none) : Since T R (m.post none true false) b (d :: v :: rest) := by
  cases h with
  | unseen hc =>
      have hb : T.clean b = v :: rest := by
        rcases hc with rfl | hc
        · exact clean_of_owns hv
        · exact hc.symm
      exact .erased hb hv hsome hd hnone rfl rfl rfl
  | pushed => exact .pushedErased hv hd hsome hnone rfl rfl rfl
  | changed hb hv' hw' hformat' hdata' hsome' hfits' hsame' =>
      exact .changedErased hb hv' hv hd hformat' hdata' hsome' hnone hfits' rfl
  | changedErased hb hv' hw' hd' hformat' hdata' hsome' hnone' =>
      rw [hnone'] at hsome
      cases hsome
  | erased hb hv' hsome' hd' hnone' =>
      rw [hnone'] at hsome
      cases hsome
  | pushedErased hw' hd' hsome' hnone' =>
      rw [hnone'] at hsome
      cases hsome

/-- The savepoints know the chain of the record, and its versions fit their formats. -/
structure Tracked (T : JrdTra) (R : Relation Key) (s : Record Key) (bs : List (List Version)) :
    Prop where
  stack : Stack T R s.marks bs s.chain
  fits : ChainFits R s.chain

/-- An update of a version of the transaction's own that rolling back copes with: in the same
format, from a buffer no longer than the record if the savepoint will keep it; and in another
format only when the savepoint does not have the record yet. -/
def Record.SafeModify (T : JrdTra) (s : Record Key) (new : Data) (tail : List SCHAR) : Prop :=
  ∀ v rest, T.clean s.chain = v :: rest → T.Owns v →
    ∀ m ms, s.marks = m :: ms →
      (v.format = new.format → m = .unseen → tail = []) ∧ (v.format ≠ new.format → m = .unseen)

namespace Tracked

variable {s s' : Record Key} {bs : List (List Version)} {new : Data} {errs : ℕ → IdxE} {ok : Bool}

omit [DecidableEq Key] in
/-- A savepoint has a record only if a version of the transaction is on top. -/
theorem unseen_of_not_owns (h : Tracked T R s bs)
    (htop : ∀ w rest, s.chain = w :: rest → ¬T.Owns w) :
    ∀ m ms, s.marks = m :: ms → m = .unseen := by
  intro m ms hms
  have hstack := h.stack
  rw [hms] at hstack
  cases hstack with
  | cons hsince =>
      cases m with
      | unseen => rfl
      | seen u =>
          obtain ⟨w, rest, heq, hw⟩ := hsince.owns
          exact absurd hw (htop w rest heq)

/-- A version goes on the chain. -/
theorem push {w : Version} (h : Tracked T R s bs) (hw : T.Owns w)
    (hfits : ∀ d, w.data = some d → R.Fits d) (nodes : ℕ → Key → ℕ)
    (hunseen : ∀ m ms, s.marks = m :: ms → m = .unseen) :
    Tracked T R ((⟨w :: T.clean s.chain, nodes, s.marks⟩ : Record Key).verbPost R none false false)
      bs where
  stack := by
    refine h.stack.head (fun hnil => ?_) fun m ms hms => ⟨.seen none, ?_, fun b hsince => ?_⟩
    · exact verbPost_marks_nil (s := ⟨w :: T.clean s.chain, nodes, s.marks⟩) hnil ..
    · rw [verbPost_marks_cons (s := ⟨w :: T.clean s.chain, nodes, s.marks⟩) hms, hunseen m ms hms]
      rfl
    · rw [verbPost_chain]
      exact (hunseen m ms hms ▸ hsince).push hw
  fits := by
    rw [verbPost_chain]
    exact h.fits.clean.cons hfits

/-- The current version is written over. -/
theorem replace {v w : Version} {rest : List Version} {org : Data}
    (h : Tracked T R s bs) (tail : List SCHAR) (hclean : T.clean s.chain = v :: rest)
    (hv : T.Owns v) (hw : T.Owns w) (hformat : w.format = v.format) (horg : v.data = some org)
    (hsome : w.data.isSome)
    (hfits : ∀ d, w.data = some d → R.Fits d) (nodes : ℕ → Key → ℕ)
    (htail : ∀ ms, s.marks = .unseen :: ms → tail = []) :
    Tracked T R ((⟨w :: rest, nodes, s.marks⟩ : Record Key).verbPost R
      (some ⟨org.format, org.bytes ++ tail⟩) false false) bs where
  stack := by
    have hstack := h.stack.clean
    rw [hclean] at hstack
    refine Stack.head (s := ⟨v :: rest, nodes, s.marks⟩) hstack
      (fun hnil => verbPost_marks_nil (s := ⟨w :: rest, nodes, s.marks⟩) hnil ..) fun m ms hms =>
        ⟨_, verbPost_marks_cons (s := ⟨w :: rest, nodes, s.marks⟩) hms .., fun b hsince => ?_⟩
    rw [verbPost_chain]
    have hrest : ChainFits R (v :: rest) := hclean ▸ h.fits.clean
    exact hsince.replace hv hw hformat horg hsome (hrest v List.mem_cons_self org horg)
      fun hm => htail ms (hm ▸ hms)
  fits := by
    rw [verbPost_chain]
    have hrest : ChainFits R (v :: rest) := hclean ▸ h.fits.clean
    exact hrest.tail.cons hfits

/-- A version of the transaction's own is erased. -/
theorem eraseOwn {v d : Version} {rest : List Version} (h : Tracked T R s bs)
    (hclean : T.clean s.chain = v :: rest) (hv : T.Owns v) (hd : T.Owns d) (hsome : v.data.isSome)
    (hnone : d.data = none) (nodes : ℕ → Key → ℕ) :
    Tracked T R ((⟨d :: v :: rest, nodes, s.marks⟩ : Record Key).verbPost R none true false)
      bs where
  stack := by
    have hstack := h.stack.clean
    rw [hclean] at hstack
    refine Stack.head (s := ⟨v :: rest, nodes, s.marks⟩) hstack
      (fun hnil => verbPost_marks_nil (s := ⟨d :: v :: rest, nodes, s.marks⟩) hnil ..)
      fun m ms hms =>
        ⟨_, verbPost_marks_cons (s := ⟨d :: v :: rest, nodes, s.marks⟩) hms .., fun b hsince => ?_⟩
    rw [verbPost_chain]
    exact hsince.erase hv hd hsome hnone
  fits := by
    rw [verbPost_chain]
    have hrest : ChainFits R (v :: rest) := hclean ▸ h.fits.clean
    refine hrest.cons fun data hdata => ?_
    rw [hnone] at hdata
    cases hdata

omit [DecidableEq Key] in
/-- A version of another transaction is on top, so no savepoint has the record. -/
theorem unseen_of_clean {v : Version} {rest : List Version} (h : Tracked T R s bs)
    (hclean : T.clean s.chain = v :: rest) (hv : ¬T.Owns v) :
    ∀ m ms, s.marks = m :: ms → m = .unseen := by
  refine h.unseen_of_not_owns fun w rest' heq hw => ?_
  rw [heq, clean_of_owns hw] at hclean
  cases hclean
  exact hv hw

theorem store (h : Tracked T R s bs) (hrun : s.store T R new errs = some (s', ok)) :
    Tracked T R s' bs := by
  obtain ⟨hfree, hfits, s₁, rfl, rfl, -⟩ := Record.store_cases hrun
  have hunseen := h.unseen_of_not_owns fun w rest heq => by
    rw [hfree] at heq
    cases heq
  have hpush := h.push (w := ⟨T.number, new.format, some new.bytes⟩) rfl
    (fun d hd => by cases hd; exact hfits) s.nodes hunseen
  rw [hfree] at hpush
  exact ⟨hpush.stack, hpush.fits⟩

theorem modify {tail : List SCHAR} (h : Tracked T R s bs) (hsafe : s.SafeModify T new tail)
    (hrun : s.modify T R new tail errs = some (s', ok)) : Tracked T R s' bs := by
  obtain ⟨v, rest, nodes, org, hdead, horg, hfits, s₁, hs₁, rfl, -⟩ := Record.modify_cases hrun
  have hclean := Record.backoutDead_eq hdead
  rcases hs₁ with ⟨hv, hformat, rfl⟩ | ⟨hother, rfl⟩
  · have hrep := h.replace tail (w := ⟨v.transaction, new.format, some new.bytes⟩) hclean hv
      hv hformat.symm horg rfl (fun d hd => by cases hd; exact hfits) nodes
      fun ms hms => (hsafe v rest hclean hv _ ms hms).1 hformat rfl
    exact ⟨hrep.stack, hrep.fits⟩
  · have hunseen : ∀ m ms, s.marks = m :: ms → m = .unseen := by
      intro m ms hms
      by_cases hv : T.Owns v
      · exact (hsafe v rest hclean hv m ms hms).2 fun hformat => hother ⟨hv, hformat⟩
      · exact h.unseen_of_clean hclean hv m ms hms
    have hpush := h.push (w := ⟨T.number, new.format, some new.bytes⟩) rfl
      (fun d hd => by cases hd; exact hfits) nodes hunseen
    rw [hclean] at hpush
    exact ⟨hpush.stack, hpush.fits⟩

theorem erase (h : Tracked T R s bs) (hrun : s.erase T R = some s') : Tracked T R s' bs := by
  obtain ⟨v, rest, nodes, hdead, hsome, rfl⟩ := Record.erase_cases hrun
  have hclean := Record.backoutDead_eq hdead
  by_cases hv : T.Owns v
  · rw [decide_eq_true hv]
    exact h.eraseOwn (d := ⟨T.number, v.format, none⟩) hclean hv rfl hsome rfl nodes
  · rw [decide_eq_false hv]
    have hpush := h.push (w := ⟨T.number, v.format, none⟩) rfl nofun nodes
      (h.unseen_of_clean hclean hv)
    rw [hclean] at hpush
    exact hpush

theorem writelock (h : Tracked T R s bs) (hrun : s.writelock T R = some s') :
    Tracked T R s' bs := by
  obtain ⟨v, rest, nodes, hdead, -, hs'⟩ := Record.writelock_cases hrun
  have hclean := Record.backoutDead_eq hdead
  rcases hs' with ⟨-, rfl⟩ | ⟨hv, rfl⟩
  · exact ⟨hclean ▸ h.stack.clean, hclean ▸ h.fits.clean⟩
  · have hfits : ChainFits R (v :: rest) := hclean ▸ h.fits.clean
    have hpush := h.push (w := ⟨T.number, v.format, v.image⟩) rfl
      (fun d hd => hfits v List.mem_cons_self d hd) nodes (h.unseen_of_clean hclean hv)
    rw [hclean] at hpush
    exact hpush

end Tracked

end Firebird.Vio
