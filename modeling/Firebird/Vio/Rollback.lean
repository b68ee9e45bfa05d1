import Firebird.Vio.Undo

/-! # Runs under savepoints

In every run whose steps are safe, the savepoints know the chains of all records, so that
rolling back the innermost one brings back the records as they were when it was started. Two
updates show what is not safe.
-/

namespace Firebird.Vio

open Transition (Reachable System)

variable {Key : Type} [DecidableEq Key] {T : JrdTra} {R : Relation Key}

omit [DecidableEq Key] in
theorem Stack.take {ms : List Mark} {bs : List (List Version)} {c : List Version}
    (h : Stack T R ms bs c) (n : ℕ) : Stack T R (ms.take n) (bs.take n) c := by
  induction h generalizing n with
  | nil =>
      rw [List.take_nil, List.take_nil]
      exact .nil
  | cons hsince _ ih =>
      cases n with
      | zero => exact .nil
      | succ n => exact .cons hsince (ih n)

/-- Posting a savepoint that has put a version on the chain is safe only when the one before
does not have the record. -/
def Record.SafePost (s : Record Key) : Prop :=
  ∀ y x ms, s.marks = y :: x :: ms → y.Pushes → x = .unseen

namespace Tracked

variable {s s' : Record Key} {b : List Version} {bs : List (List Version)}

omit [DecidableEq Key] in
theorem take (h : Tracked T R s bs) (n : ℕ) :
    Tracked T R { s with marks := s.marks.take n } (bs.take n) where
  stack := h.stack.take n
  fits := h.fits

omit [DecidableEq Key] in
/-- A new savepoint -/
theorem start (h : Tracked T R s bs) :
    Tracked T R { s with marks := .unseen :: s.marks } (s.chain :: bs) where
  stack := .cons (.unseen (.inl rfl)) h.stack
  fits := h.fits

/-- Undoing the innermost savepoint brings back the chain at its start. -/
theorem undo (h : Tracked T R s (b :: bs)) :
    ∃ s', s.undo T R = some s' ∧ (s'.chain = b ∨ s'.chain = T.clean b) ∧
      (ChainFits R b → Tracked T R s' bs) := by
  have hstack := h.stack
  cases hms : s.marks with
  | nil =>
      rw [hms] at hstack
      cases hstack
  | cons m ms =>
      rw [hms] at hstack
      have hrest := hstack.undone
      cases hstack with
      | cons hsince _ =>
          refine ⟨_, hsince.undo_eq hms, hsince.undone_eq, fun hfits => ⟨hrest, ?_⟩⟩
          rcases hsince.undone_eq with hchain | hchain
          · exact hchain ▸ hfits
          · exact hchain ▸ hfits.clean

/-- Posting the innermost savepoint leaves what the others know. -/
theorem post (h : Tracked T R s (b :: bs)) (hsafe : s.SafePost) :
    Tracked T R (s.post R) bs where
  stack := by
    have hstack := h.stack
    cases hms : s.marks with
    | nil =>
        rw [hms] at hstack
        cases hstack
    | cons y ms =>
        rw [hms] at hstack
        rw [post_marks hms, post_chain]
        cases hstack with
        | cons hy hrest =>
            cases hrest with
            | nil => exact .nil
            | cons hx hrest => exact .cons (hx.merge hy (hsafe _ _ _ hms)) hrest
  fits := by
    rw [post_chain]
    exact h.fits

end Tracked

/-! ## All records -/

namespace Db

variable {s s' : Db Key}

omit [DecidableEq Key] in
@[simp] theorem set_records_self (s : Db Key) (r : ℕ) (rec : Record Key) :
    (s.set r rec).records r = rec := Function.update_self ..

omit [DecidableEq Key] in
theorem set_records_of_ne (s : Db Key) {r r' : ℕ} (rec : Record Key) (hr : r' ≠ r) :
    (s.set r rec).records r' = s.records r' := Function.update_of_ne hr ..

/-- The chains of a record when the savepoints were started -/
def starts (s : Db Key) (r : ℕ) : List (List Version) := s.levels.map fun l => l.start r

/-- The savepoints know the chains of all records. -/
structure Tracks (T : JrdTra) (R : Relation Key) (s : Db Key) : Prop where
  tracked : ∀ r, Tracked T R (s.records r) (s.starts r)
  fits : ∀ r, ∀ b ∈ s.starts r, ChainFits R b

omit [DecidableEq Key] in
theorem dropTransLevel_eq (s : Db Key) (large : Bool) (above : ℕ) :
    s.dropTransLevel large above = s ∨ s.dropTransLevel large above =
      ⟨fun r => { s.records r with marks := (s.records r).marks.take above },
        s.levels.take above⟩ := by
  rw [dropTransLevel]
  split
  · split
    · exact .inr rfl
    · exact .inl rfl
  · exact .inl rfl

omit [DecidableEq Key] in
theorem dropTransLevel_levels {l : Level} {ls : List Level} (h : s.levels = l :: ls)
    (large : Bool) : ∃ ls', (s.dropTransLevel large 1).levels = l :: ls' := by
  rcases s.dropTransLevel_eq large 1 with heq | heq
  · exact ⟨ls, by rw [heq, h]⟩
  · exact ⟨[], by rw [heq, h]; rfl⟩

omit [DecidableEq Key] in
theorem dropTransLevel_chain (s : Db Key) (large : Bool) (above r : ℕ) :
    ((s.dropTransLevel large above).records r).chain = (s.records r).chain := by
  rcases s.dropTransLevel_eq large above with heq | heq <;> rw [heq]

namespace Tracks

omit [DecidableEq Key] in
theorem dropTransLevel (h : s.Tracks T R) (large : Bool) (above : ℕ) :
    (s.dropTransLevel large above).Tracks T R := by
  rcases s.dropTransLevel_eq large above with heq | heq
  · rw [heq]
    exact h
  · rw [heq]
    constructor
    · intro r
      rw [starts, List.map_take]
      exact (h.tracked r).take above
    · intro r b hb
      rw [starts, List.map_take] at hb
      exact h.fits r b (List.mem_of_mem_take hb)

omit [DecidableEq Key] in
theorem set {r : ℕ} {rec : Record Key} (h : s.Tracks T R)
    (hrec : Tracked T R rec (s.starts r)) : (s.set r rec).Tracks T R where
  tracked r' := by
    by_cases hr : r' = r
    · subst hr
      rw [set_records_self]
      exact hrec
    · rw [set_records_of_ne s rec hr]
      exact h.tracked r'
  fits := h.fits

omit [DecidableEq Key] in
theorem start (h : s.Tracks T R) (transLevel : Bool) : (s.start transLevel).Tracks T R where
  tracked r := (h.tracked r).start
  fits r b hb := by
    rcases List.mem_cons.mp hb with rfl | hb
    · exact (h.tracked r).fits
    · exact h.fits r b hb

omit [DecidableEq Key] in
/-- The innermost savepoint is gone. -/
theorem tail {l : Level} {ls : List Level} {records : ℕ → Record Key} (h : s.Tracks T R)
    (hl : s.levels = l :: ls) (hrecords : ∀ r, Tracked T R (records r) (ls.map fun l => l.start r)) :
    Tracks T R ⟨records, s.levels.tail⟩ where
  tracked r := by
    rw [starts, hl]
    exact hrecords r
  fits r b hb := by
    refine h.fits r b ?_
    rw [starts, hl] at hb ⊢
    exact List.mem_cons_of_mem _ hb

omit [DecidableEq Key] in
theorem tracked_cons {l : Level} {ls : List Level} (h : s.Tracks T R) (hl : s.levels = l :: ls)
    (r : ℕ) : Tracked T R (s.records r) (l.start r :: ls.map fun l => l.start r) := by
  have htracked := h.tracked r
  rw [starts, hl] at htracked
  exact htracked

omit [DecidableEq Key] in
theorem fits_head {l : Level} {ls : List Level} (h : s.Tracks T R) (hl : s.levels = l :: ls)
    (r : ℕ) : ChainFits R (l.start r) := by
  refine h.fits r _ ?_
  rw [starts, hl]
  exact List.mem_cons_self

/-- Rolling back -/
theorem rollback {large large' : Bool} (h : s.Tracks T R)
    (hstep : s.Cleanup T R large large' true s') : s'.Tracks T R := by
  cases hstep with
  | none => exact h
  | undo hlevels hundo =>
      obtain ⟨l, ls, hl⟩ := List.exists_cons_of_ne_nil hlevels
      obtain ⟨ls', hl'⟩ := dropTransLevel_levels hl large
      have hdrop := h.dropTransLevel large 1
      refine (hdrop.tail hl' fun r => ?_).dropTransLevel large' 0
      obtain ⟨s₁, hs₁, -, hkept⟩ := (hdrop.tracked_cons hl' r).undo
      rw [hundo r] at hs₁
      cases hs₁
      exact hkept (hdrop.fits_head hl' r)

/-- Releasing -/
theorem release {large large' : Bool} (h : s.Tracks T R)
    (hsafe : ∀ r, ((s.dropTransLevel large 1).records r).SafePost)
    (hstep : s.Cleanup T R large large' false s') : s'.Tracks T R := by
  cases hstep with
  | none => exact h
  | post hlevels =>
      obtain ⟨l, ls, hl⟩ := List.exists_cons_of_ne_nil hlevels
      obtain ⟨ls', hl'⟩ := dropTransLevel_levels hl large
      have hdrop := h.dropTransLevel large 1
      exact (hdrop.tail hl' fun r => (hdrop.tracked_cons hl' r).post (hsafe r)).dropTransLevel
        large' 0

end Tracks

end Db

/-- A statement or the release of a savepoint that rolling back copes with. Nothing else
works on the records. -/
def Safe (T : JrdTra) (s : Db Key) : Event → Prop
  | .modify r new tail _ _ _ => (s.records r).SafeModify T new tail
  | .release large _ => ∀ r, ((s.dropTransLevel large 1).records r).SafePost
  | .backout _ | .purge _ | .expunge _ => False
  | .start _ | .store .. | .erase _ | .writelock _ | .rollback .. => True

theorem Db.Tracks.step {s s' : Db Key} {e : Event} (h : s.Tracks T R) (hsafe : Safe T s e)
    (hstep : Step T R s e s') : s'.Tracks T R := by
  cases hstep with
  | start => exact h.start _
  | store _ hrun => exact h.set ((h.tracked _).store hrun)
  | storeFails _ hrun hundo => exact (h.set ((h.tracked _).store hrun)).rollback hundo
  | modify _ hrun => exact h.set ((h.tracked _).modify hsafe hrun)
  | modifyFails _ hrun hundo => exact (h.set ((h.tracked _).modify hsafe hrun)).rollback hundo
  | erase _ hrun => exact h.set ((h.tracked _).erase hrun)
  | writelock hrun => exact h.set ((h.tracked _).writelock hrun)
  | release hcleanup => exact h.release hsafe hcleanup
  | rollback hcleanup => exact h.rollback hcleanup
  | backout => exact hsafe.elim
  | purge => exact hsafe.elim
  | expunge => exact hsafe.elim

theorem tracks_reachable {s : Db Key} (h : Reachable ((system T R).restrict (Safe T)) s) :
    s.Tracks T R := by
  refine h.invariant ?_ fun s e s' hs hstep => hs.step hstep.2 hstep.1
  rintro s ⟨hlevels, hrecords⟩
  constructor
  · intro r
    rw [Db.starts, hlevels]
    constructor
    · rw [(hrecords r).1]
      exact .nil
    · exact fun v hv d hd => (((hrecords r).2 v hv).2 d hd).1
  · intro r b hb
    rw [Db.starts, hlevels] at hb
    cases hb

/-- In all safe runs, the innermost savepoint can be rolled back, and every record is then as
it was when the savepoint was started, less dead versions that were on top of it. -/
theorem rollback_restores {s : Db Key} (h : Reachable ((system T R).restrict (Safe T)) s)
    {l : Level} {ls : List Level} (hl : s.levels = l :: ls) (large large' : Bool) :
    (∃ s', s.Cleanup T R large large' true s') ∧
      ∀ s', s.Cleanup T R large large' true s' → ∀ r,
        ((s'.records r).chain = l.start r ∨ (s'.records r).chain = T.clean (l.start r)) ∧
          T.read (s'.records r).chain = T.read (l.start r) := by
  have hne : s.levels ≠ [] := by
    rw [hl]
    exact List.cons_ne_nil _ _
  obtain ⟨ls', hl'⟩ := Db.dropTransLevel_levels hl large
  have hdrop := (tracks_reachable h).dropTransLevel large 1
  choose records hundo hchain _ using fun r => (hdrop.tracked_cons hl' r).undo
  refine ⟨⟨_, .undo hne hundo⟩, fun s' hs' r => ?_⟩
  cases hs' with
  | none hnil => exact absurd hnil hne
  | @undo records' _ hundo' =>
      have heq : records' r = records r := Option.some.inj ((hundo' r).symm.trans (hundo r))
      rw [Db.dropTransLevel_chain]
      dsimp only
      rw [heq]
      refine ⟨hchain r, ?_⟩
      rcases hchain r with hc | hc
      · rw [hc]
      · rw [hc, JrdTra.read_clean]

/-! ## Two versions under one savepoint -/

/-- All transactions but number 9 have committed. -/
def lastTra : JrdTra where
  number := 9
  oldestActive := 9
  state n := if n = 9 then .us else .committed
  state_eq_us n := by split <;> simp_all

/-- A relation without an index; format `f` has `f` bytes. -/
def twoFormats : Relation Unit where
  fmtLength f := max f 1
  fmtLength_pos f := by omega
  indexes := []
  nodup := List.nodup_nil
  key _ _ := ()
  key_append _ _ _ _ _ := rfl

/-- Every record was stored by transaction 5, in format 1. -/
def oldRecords : Db Unit where
  records _ := ⟨[⟨5, 1, some [10]⟩], fun _ _ => 0, []⟩
  levels := []

theorem oldRecords_init : (system lastTra twoFormats).init oldRecords := by
  refine ⟨rfl, fun r => ⟨rfl, fun v hv => ?_⟩⟩
  obtain rfl := List.mem_singleton.mp hv
  refine ⟨by decide, fun d hd => ?_⟩
  cases hd
  exact ⟨rfl, nofun⟩

/-- `oldRecords` with a savepoint, and record 0 modified -/
def modifiedRecord : Db Unit :=
  (oldRecords.start false).set 0
    ⟨[⟨9, 2, some [20, 20]⟩, ⟨5, 1, some [10]⟩], fun _ _ => 0, [.seen none]⟩

/-- `modifiedRecord` after another update of record 0, in format 1 -/
def modifiedTwice : Db Unit :=
  modifiedRecord.set 0
    ⟨[⟨9, 1, some [30]⟩, ⟨9, 2, some [20, 20]⟩, ⟨5, 1, some [10]⟩], fun _ _ => 0, [.seen none]⟩

theorem modify_oldRecords : Step lastTra twoFormats (oldRecords.start false)
    (.modify 0 ⟨2, [20, 20]⟩ [] (fun _ => .ok) false false) modifiedRecord :=
  .modify (List.cons_ne_nil _ _) rfl

theorem rollback_restores_modified :
    (∃ s', modifiedRecord.Cleanup lastTra twoFormats false false true s') ∧
      ∀ s', modifiedRecord.Cleanup lastTra twoFormats false false true s' → ∀ r,
        (s'.records r).chain = [⟨5, 1, some [10]⟩] := by
  have hstart : Reachable ((system lastTra twoFormats).restrict (Safe lastTra))
      (oldRecords.start false) :=
    (Reachable.init (S := (system lastTra twoFormats).restrict (Safe lastTra))
      oldRecords_init).step (i := .start false) ⟨.start fun h => absurd h Bool.false_ne_true, trivial⟩
  have hmodify : Reachable ((system lastTra twoFormats).restrict (Safe lastTra)) modifiedRecord :=
    hstart.step ⟨modify_oldRecords, by
      rintro v rest hclean hv
      cases hclean
      exact absurd hv (by decide)⟩
  obtain ⟨hexists, hall⟩ := rollback_restores hmodify rfl false false
  exact ⟨hexists, fun s' hs' r => (hall s' hs' r).1.elim id id⟩

/-- A version in format 2 and then one in format 1 are put on the chain under one savepoint,
which knows that it has to take off a version, not two. -/
theorem rollback_leaves_version : ∃ s s' l ls,
    Reachable (system lastTra twoFormats) s ∧ s.levels = l :: ls ∧
      s.Cleanup lastTra twoFormats false false true s' ∧
        lastTra.read (l.start 0) = some ⟨1, [10]⟩ ∧
          lastTra.read (s'.records 0).chain = some ⟨2, [20, 20]⟩ := by
  have hstart : Reachable (system lastTra twoFormats) (oldRecords.start false) :=
    (Reachable.init oldRecords_init).step (.start fun h => absurd h Bool.false_ne_true)
  have hagain : Step lastTra twoFormats modifiedRecord
      (.modify 0 ⟨1, [30]⟩ [] (fun _ => .ok) false false) modifiedTwice :=
    .modify (List.cons_ne_nil _ _) rfl
  have hundo : ∀ r : ℕ, (modifiedTwice.records r).undo lastTra twoFormats =
      some (Function.update (fun _ => (⟨[⟨5, 1, some [10]⟩], fun _ _ => 0, []⟩ : Record Unit)) 0
        ⟨[⟨9, 2, some [20, 20]⟩, ⟨5, 1, some [10]⟩], fun _ _ => 0, []⟩ r) := by
    intro r
    by_cases hr : r = 0
    · subst hr
      rfl
    · have hrec : modifiedTwice.records r = ⟨[⟨5, 1, some [10]⟩], fun _ _ => 0, [.unseen]⟩ := by
        simp only [modifiedTwice, modifiedRecord, Db.set, Function.update_of_ne hr]
        rfl
      rw [hrec, Function.update_of_ne hr]
      rfl
  exact ⟨modifiedTwice, _, _, _, (hstart.step modify_oldRecords).step hagain, rfl,
    .undo (List.cons_ne_nil _ _) hundo, rfl, rfl⟩

end Firebird.Vio
