import Firebird.Vio.Indexed

/-! # No index entry is lost

A statement writes a version, makes entries for it, and when it fails is undone. Undoing takes
the entries of the version from all indexes, also from those that the statement did not get
to: there the entry may belong to the undo data of an outer savepoint.
-/

namespace Firebird.Vio

open Runs (Covers)
open Transition (Reachable System)

variable {Key : Type} [DecidableEq Key] {T : JrdTra} {R : Relation Key}

/-! ## Between a version and its entries -/

/-- A version has been written; the indexes that have its key already cover the history with it,
the others without it. -/
structure Written (T : JrdTra) (R : Relation Key) (s : Record Key) (same : ℕ → Bool) (new : Data)
    (l : List Data) : Prop where
  tracked : ∃ bs, Tracked T R s bs ∧ ∀ b ∈ bs, ChainFits R b
  others : ∀ v ∈ T.others s.chain, ¬T.Owns v
  history_eq : history s.marks s.chain = new :: l
  again : ∀ i ∈ R.indexes, same i = true →
    Covers (s.nodes i) (Fixed T R s.chain i) ((new :: l).map (R.key i))
  before : ∀ i ∈ R.indexes, same i = false →
    Covers (s.nodes i) (Fixed T R s.chain i) (l.map (R.key i))

namespace Written

variable {s : Record Key} {same : ℕ → Bool} {errs : ℕ → IdxE} {new : Data} {l : List Data}

/-- An index that the statement gets to, or has nothing to do in, covers the new history. -/
theorem covers (h : Written T R s same new l) {i : ℕ} (hi : i ∈ R.indexes)
    (hreached : i ∉ missed same errs R.indexes ∨ same i = true) :
    Covers ((insertLoop R new same errs R.indexes s.nodes).1 i) (Fixed T R s.chain i)
      ((new :: l).map (R.key i)) := by
  rw [insertLoop_nodes R.nodup]
  cases hsame : same i with
  | true =>
      rw [if_neg (by simp)]
      exact h.again i hi hsame
  | false =>
      rw [hsame] at hreached
      rw [if_pos ⟨hi, hreached.resolve_right Bool.false_ne_true, rfl⟩]
      exact (h.before i hi hsame).insert _

/-- An index that it does not get to covers the old one. -/
theorem covers_missed (h : Written T R s same new l) {i : ℕ} (hi : i ∈ R.indexes)
    (hmissed : i ∈ missed same errs R.indexes) (hsame : same i = false) :
    Covers ((insertLoop R new same errs R.indexes s.nodes).1 i) (Fixed T R s.chain i)
      (l.map (R.key i)) := by
  rw [insertLoop_nodes R.nodup, if_neg fun h => h.2.1 hmissed]
  exact h.before i hi hsame

/-- The statement succeeds. -/
theorem sound (h : Written T R s same new l)
    (hok : (insertLoop R new same errs R.indexes s.nodes).2 = true) :
    Sound T R { s with nodes := (insertLoop R new same errs R.indexes s.nodes).1 } where
  tracked := by
    obtain ⟨bs, htracked, hfits⟩ := h.tracked
    exact ⟨bs, ⟨htracked.stack, htracked.fits⟩, hfits⟩
  others := h.others
  covers i hi := by
    rw [h.history_eq]
    refine h.covers hi (.inl ?_)
    rw [missed_of_ok hok]
    exact List.not_mem_nil

/-- The statement fails, and is undone. Of the savepoints before this one some may have been
given up. -/
theorem undo {m : Mark} {ms : List Mark} (h : Written T R s same new l) (hms : s.marks = m :: ms)
    (hgone : m.gone s.chain = some new) (n : ℕ)
    (hsafe : ∀ i ∈ missed same errs R.indexes, same i = false →
      (∃ d ∈ listStaying (m.undone s.chain), R.key i d = R.key i new) ∨
        ∀ m' ∈ ms.take n, ∀ u, m'.image = some u → R.key i u ≠ R.key i new) :
    ∃ s', Record.undo T R ⟨s.chain, (insertLoop R new same errs R.indexes s.nodes).1,
      m :: ms.take n⟩ = some s' ∧ Sound T R s' ∧ s'.marks = ms.take n := by
  obtain ⟨bs, htracked, hfits⟩ := h.tracked
  have htake := Stack.known_take htracked hfits (n + 1)
  rw [hms, List.take_succ_cons] at htake
  obtain ⟨bs', htracked', hfits'⟩ := htake
  have hstack := htracked.stack
  have hl : l = history ms (m.undone s.chain) := by
    have heq := h.history_eq
    rw [hms, history, hgone] at heq
    exact (List.cons.inj heq).2.symm
  rw [hms] at hstack
  obtain _ | @⟨_, _, b, _, bs, hsince, hrest⟩ := hstack
  have hundone : Stack T R ms bs (m.undone s.chain) := (Stack.cons hsince hrest).undone
  refine undo_sound (s := ⟨s.chain, _, m :: ms.take n⟩)
    ⟨bs', ⟨htracked'.stack, htracked'.fits⟩, hfits'⟩ h.others rfl fun hfixed i hi => ?_
  dsimp only
  have hstay : ∀ K, Fixed T R s.chain i K → ∃ d ∈ listStaying (m.undone s.chain), R.key i d = K := by
    intro K hK
    rw [← hfixed] at hK
    exact hK.mem
  have hsub : (history (ms.take n) (m.undone s.chain)).Sublist l := hl ▸ hundone.history_take n
  rw [hgone, hfixed]
  by_cases hreached : i ∉ missed same errs R.indexes ∨ same i = true
  · have hnew := (h.covers hi hreached).sublist ((hsub.cons_cons new).map _)
    exact covers_collect_head hi hnew hstay fun x hx => (hundone.take n).head_mem hx
  · rw [not_or, not_not, Bool.not_eq_true] at hreached
    have hold := (h.covers_missed hi hreached.1 hreached.2).sublist (hsub.map _)
    refine covers_collect_absent hi hold hstay ?_
    by_cases hin : ∃ d ∈ listStaying (m.undone s.chain), R.key i d = R.key i new
    · exact .inl hin
    · right
      intro hmem
      obtain ⟨x, hx, hkey⟩ := List.mem_map.mp hmem
      rcases (hundone.take n).mem_history hx with hx | ⟨m', hm', himage⟩
      · exact hin ⟨x, hx, hkey⟩
      · exact (hsafe i hreached.1 hreached.2).resolve_left hin m' hm' x himage hkey

end Written

/-! ## Statements -/

theorem verbPost_nodes (s : Record Key) (sameTx newVer : Bool) :
    (s.verbPost R none sameTx newVer).nodes = s.nodes := by
  rw [Record.verbPost]
  split
  · rfl
  · cases sameTx <;> rfl
  · cases sameTx <;> rfl

/-- A version is put on the chain. -/
theorem history_push {s : Record Key} (w : Version) (c : List Version)
    (hunseen : ∀ m ms, s.marks = m :: ms → m = .unseen) :
    history (s.verbPost R none false false).marks (w :: c) =
      w.data.toList ++ history s.marks c := by
  cases hms : s.marks with
  | nil =>
      rw [verbPost_marks_nil hms]
      exact listStaying_cons w c
  | cons m ms =>
      rw [verbPost_marks_cons hms, hunseen m ms hms]
      rfl

omit [DecidableEq Key] in
/-- A version of the transaction's own is erased. -/
theorem Since.erase_gone {m : Mark} {b rest : List Version} {v d : Version}
    (h : Since T R m b (v :: rest)) (hsome : v.data.isSome) :
    (m.post none true false).gone (d :: v :: rest) = m.gone (v :: rest) ∧
      (m.post none true false).undone (d :: v :: rest) = m.undone (v :: rest) := by
  cases h with
  | unseen => simp [Mark.post, Mark.gone, Mark.undone]
  | pushed => simp [Mark.post, Mark.gone, Mark.undone]
  | changed hb hv hw hformat hdata hsome hfits hsame =>
      simp [Mark.post, Mark.gone, Mark.undone, hfits.ne_nil, hsame]
  | changedErased hb hv hw hd hformat hdata hsome' hnone =>
      rw [hnone] at hsome
      cases hsome
  | erased hb hv hsome' hd hnone =>
      rw [hnone] at hsome
      cases hsome
  | pushedErased hw hd hsome' hnone =>
      rw [hnone] at hsome
      cases hsome

omit [DecidableEq Key] in
/-- A version is written over: under a savepoint that has the record, what undoing it takes
away is the new version, and the chain left is the same. -/
theorem Since.replace_gone {u : Option Undo} {b rest : List Version} {v w : Version}
    (h : Since T R (.seen u) b (v :: rest)) (hsome : v.data.isSome)
    (htransaction : w.transaction = v.transaction) (hformat : w.format = v.format) :
    (Mark.seen u).gone (v :: rest) = v.data ∧ (Mark.seen u).gone (w :: rest) = w.data ∧
      (Mark.seen u).undone (w :: rest) = (Mark.seen u).undone (v :: rest) ∧
        (u.map fun u => u.data) = (Mark.seen u).image ∧
          ∀ d ∈ listStaying ((Mark.seen u).undone (v :: rest)),
            d ∈ (u.map fun u => u.data).toList ++ listStaying rest := by
  cases h with
  | pushed => simp [Mark.gone, Mark.undone, Mark.image]
  | changed hb hv hw hformat' hdata hsome' hfits hsame =>
      simp [Mark.gone, Mark.undone, Mark.image, hfits.ne_nil, hsame, htransaction, hformat,
        listStaying_cons, Version.data_written (hformat'.trans (Version.eq_of_data hdata).2)]
  | changedErased hb hv hw hd hformat hdata hsome' hnone =>
      rw [hnone] at hsome
      cases hsome
  | erased hb hv hsome' hd hnone =>
      rw [hnone] at hsome
      cases hsome
  | pushedErased hw hd hsome' hnone =>
      rw [hnone] at hsome
      cases hsome

omit [DecidableEq Key] in
/-- The data of the current version is the newest of the history. -/
theorem Stack.history_head {ms : List Mark} {bs : List (List Version)} {v : Version}
    {rest : List Version} {org : Data} (h : Stack T R ms bs (v :: rest)) (horg : v.data = some org) :
    (history ms (v :: rest)).head? = some org := by
  induction ms generalizing bs with
  | nil =>
      rw [history, listStaying_cons, horg]
      rfl
  | cons m ms ih =>
      obtain _ | @⟨_, _, b, _, bs, hsince, hrest⟩ := h
      cases m with
      | unseen => exact ih (Stack.cons hsince hrest).undone
      | seen u =>
          have hsome : v.data.isSome := by
            rw [horg]
            rfl
          rw [history, (hsince.replace_gone (w := v) hsome rfl rfl).1, horg]
          rfl

theorem backoutDead_nodes {chain c' : List Version} {nodes n' : ℕ → Key → ℕ}
    (h : Record.backoutDead T R chain nodes = (c', n')) {d : Data} (hd : d ∈ listStaying c') (i : ℕ) :
    n' i (R.key i d) = nodes i (R.key i d) := by
  induction chain generalizing nodes with
  | nil =>
      cases h
      rfl
  | cons v rest ih =>
      rw [Record.backoutDead] at h
      split at h
      · have hsub : c' ⊆ rest := by
          rw [← Record.backoutDead_eq h]
          exact (List.dropWhile_suffix _).subset
        have hrest : d ∈ listStaying rest := by
          obtain ⟨w, hw, hdata⟩ := mem_listStaying.mp hd
          exact mem_listStaying.mpr ⟨w, hsub hw, hdata⟩
        rw [ih h]
        cases v.data with
        | none => rfl
        | some g => exact idxGarbageCollect_of_staying hrest
      · cases h
        rfl

namespace Sound

variable {s s' : Record Key} {new : Data} {errs : ℕ → IdxE} {ok : Bool}

/-- Dead versions are backed out first. -/
theorem backoutDead {c' : List Version} {n' : ℕ → Key → ℕ} (h : Sound T R s)
    (hdead : Record.backoutDead T R s.chain s.nodes = (c', n')) : Sound T R ⟨c', n', s.marks⟩ := by
  by_cases htop : ∀ v rest, s.chain = v :: rest → ¬T.Owns v
  · refine h.collected htop ?_ fun i d hd => backoutDead_nodes hdead hd i
    rw [← Record.backoutDead_eq hdead]
    exact (List.dropWhile_suffix _).subset
  · have hsame : (c', n') = (s.chain, s.nodes) := by
      rw [← hdead]
      cases hc : s.chain with
      | nil => exact absurd (fun v rest heq => nomatch hc.symm.trans heq) htop
      | cons v rest =>
          have hv : T.Owns v := by
            by_contra hv
            refine htop fun w rest' heq => ?_
            rw [hc] at heq
            cases heq
            exact hv
          rw [Record.backoutDead, if_neg hv.not_dead]
    cases hsame
    exact h

/-- The store before `IDX_store` -/
theorem store_written (h : Sound T R s) (hrun : s.store T R new errs = some (s', ok)) :
    ∃ s₁, Written T R s₁ (fun _ => false) new [] ∧
      s' = { s₁ with nodes := (idxStore R new errs s₁.nodes).1 } ∧
        ok = (idxStore R new errs s₁.nodes).2 ∧
          ∀ m ms, s.marks = m :: ms → ∃ m', s₁.marks = m' :: ms ∧ m'.gone s₁.chain = some new ∧
            ∀ m'' ∈ ms, m''.image = none := by
  obtain ⟨bs, htracked, hfits⟩ := h.tracked
  have hnew := htracked.store hrun
  obtain ⟨hfree, -, s₁, hs₁, rfl, rfl⟩ := Record.store_cases hrun
  have hunseen : ∀ m ∈ s.marks, m = .unseen := htracked.stack.unseen fun v rest heq => by
    rw [hfree] at heq
    cases heq
  have hchain : s₁.chain = [⟨T.number, new.format, some new.bytes⟩] := by
    rw [hs₁, verbPost_chain]
  have hhistory : history s₁.marks s₁.chain = [new] := by
    have hpush := history_push (R := R)
      (s := ⟨[⟨T.number, new.format, some new.bytes⟩], s.nodes, s.marks⟩)
      ⟨T.number, new.format, some new.bytes⟩ [] fun m ms hms =>
        hunseen m (hms ▸ List.mem_cons_self)
    rw [hchain, hs₁, hpush, history_of_unseen hunseen]
    rfl
  refine ⟨s₁, ⟨⟨bs, ⟨hnew.stack, hnew.fits⟩, hfits⟩, ?_, hhistory, nofun, fun i hi _ => ?_⟩, rfl, rfl,
    fun m ms hms => ⟨.seen none, ?_, ?_, fun m' hm' => ?_⟩⟩
  · rw [hchain, others_cons (T.owns_number _ _)]
    exact nofun
  · refine ⟨fun K hK => ?_, fun K _ => Nat.zero_le _⟩
    rw [hchain, fixed_cons (T.owns_number _ _)] at hK
    obtain ⟨d, hd, -⟩ := hK.mem
    cases hd
  · have hpost := verbPost_marks_cons (R := R)
      (s := ⟨[⟨T.number, new.format, some new.bytes⟩], s.nodes, s.marks⟩) hms none false false
    rw [hs₁, hpost, hunseen m (hms ▸ List.mem_cons_self)]
    rfl
  · rw [hchain]
    rfl
  · rw [hunseen m' (hms ▸ List.mem_cons_of_mem m hm')]
    rfl

/-- `update_in_place` and `verb_post` -/
theorem replace_written (tail : List SCHAR) {v w : Version} {rest : List Version} {org : Data}
    {nodes : ℕ → Key → ℕ} {marks : List Mark} (h : Sound T R ⟨v :: rest, nodes, marks⟩)
    (hv : T.Owns v) (htransaction : w.transaction = v.transaction) (hformat : w.format = v.format)
    (horg : v.data = some org) (hnew : w.data = some new)
    (htail : ∀ ms, marks = .unseen :: ms → tail = []) :
    let s₁ := Record.verbPost R ⟨w :: rest, nodes, marks⟩ (some ⟨org.format, org.bytes ++ tail⟩)
      false false
    ∃ l, history s₁.marks (w :: rest) = new :: l ∧
      (∀ i ∈ R.indexes, R.key i new = R.key i org →
        Covers (s₁.nodes i) (Fixed T R (w :: rest) i) ((new :: l).map (R.key i))) ∧
      (∀ i ∈ R.indexes, R.key i new ≠ R.key i org →
        Covers (s₁.nodes i) (Fixed T R (w :: rest) i) (l.map (R.key i))) ∧
      ∀ m ms, marks = m :: ms → ∃ m', s₁.marks = m' :: ms ∧ m'.gone (w :: rest) = some new ∧
        m'.undone (w :: rest) = m.undone (v :: rest) := by
  intro s₁
  have hw : T.Owns w := htransaction.trans hv
  have hfixed : Fixed T R (w :: rest) = Fixed T R (v :: rest) := by
    rw [fixed_cons hw, fixed_cons hv]
  obtain ⟨bs, htracked, -⟩ := h.tracked
  have hsome : v.data.isSome := by
    rw [horg]
    rfl
  rw [hfixed]
  cases marks with
  | nil =>
      refine ⟨listStaying rest, ?_, fun i hi hsame => ?_, fun i hi _ => ?_, nofun⟩
      · change listStaying (w :: rest) = _
        rw [listStaying_cons, hnew]
        rfl
      · have hold := h.covers i hi
        rw [history, listStaying_cons, horg] at hold
        rw [List.map_cons, hsame]
        exact hold
      · refine (h.covers i hi).sublist (List.Sublist.map _ ?_)
        rw [history, listStaying_cons]
        exact List.sublist_append_right _ _
  | cons m ms =>
      cases m with
      | unseen =>
          obtain rfl := htail ms rfl
          have hfits : R.Fits org := htracked.fits v List.mem_cons_self org horg
          have hback : (⟨w.transaction, w.format, some org.bytes⟩ : Version) = v := by
            rw [htransaction, hformat]
            exact (Version.eq_of_data horg).1.symm
          have hgone : (Mark.seen (some ⟨org, false, false⟩)).gone (w :: rest) = some new := by
            rw [Mark.gone, if_neg fun h => hfits.ne_nil h.1]
            exact hnew
          have hundone : (Mark.seen (some ⟨org, false, false⟩)).undone (w :: rest) = v :: rest := by
            simp [Mark.undone, hfits.ne_nil, hback]
          have hs₁ : s₁ = ⟨w :: rest, nodes, .seen (some ⟨org, false, false⟩) :: ms⟩ := by
            change Record.verbPost R _ (some ⟨org.format, org.bytes ++ []⟩) false false = _
            rw [List.append_nil]
            rfl
          have hold : ∀ i ∈ R.indexes, Covers (nodes i) (Fixed T R (v :: rest) i)
              ((history ms (v :: rest)).map (R.key i)) := h.covers
          rw [hs₁]
          refine ⟨history ms (v :: rest), ?_, fun i hi hsame => ?_, fun i hi _ => hold i hi,
            fun m ms' hms => ?_⟩
          · rw [history, hgone, hundone]
            rfl
          · have hhead : (history ms (v :: rest)).head? = some org :=
              htracked.stack.history_head horg
            rw [List.map_cons]
            refine (hold i hi).again ?_
            rw [List.head?_map, hhead, hsame]
            rfl
          · cases hms
            exact ⟨_, rfl, hgone, hundone⟩
      | seen u =>
          let g : Data := ⟨org.format, org.bytes ++ tail⟩
          let staying := (u.map fun u => u.data).toList ++ listStaying (w :: rest)
          have hs₁ : s₁ = ⟨w :: rest, idxGarbageCollect R nodes [g] staying, .seen u :: ms⟩ := rfl
          have hkey : ∀ i, R.key i g = R.key i org := fun i =>
            R.key_append i _ _ _ (htracked.fits v List.mem_cons_self org horg)
          have hstack := htracked.stack
          cases bs with
          | nil => cases hstack
          | cons b bs =>
          have hundone := hstack.undone
          obtain _ | @⟨_, _, _, _, _, hsince, hrest⟩ := hstack
          obtain ⟨hgone, hgone', hsame, -, hleft⟩ :=
            hsince.replace_gone (w := w) hsome htransaction hformat
          have hstay : ∀ d ∈ listStaying ((Mark.seen u).undone (v :: rest)), d ∈ staying := by
            intro d hd
            rcases List.mem_append.mp (hleft d hd) with hd | hd
            · exact List.mem_append_left _ hd
            · refine List.mem_append_right _ ?_
              rw [listStaying_cons]
              exact List.mem_append_right _ hd
          have hnewStays : new ∈ staying := by
            refine List.mem_append_right _ ?_
            rw [listStaying_cons, hnew]
            exact List.mem_cons_self
          have hold : ∀ i ∈ R.indexes, Covers (nodes i) (Fixed T R (v :: rest) i)
              ((g :: history ms ((Mark.seen u).undone (v :: rest))).map (R.key i)) := by
            intro i hi
            have hcovers := h.covers i hi
            rw [history, hgone, horg] at hcovers
            rw [List.map_cons, hkey]
            exact hcovers
          rw [hs₁]
          refine ⟨history ms ((Mark.seen u).undone (v :: rest)), ?_, fun i hi heq => ?_,
            fun i hi _ => ?_, fun m ms' hms => ?_⟩
          · rw [history, hgone', hsame, hnew]
            rfl
          · have hkeep : idxGarbageCollect R nodes [g] staying i = nodes i := by
              rw [idxGarbageCollect_one hi, if_pos ⟨new, hnewStays, heq.trans (hkey i).symm⟩]
            have hcovers := hold i hi
            rw [List.map_cons, hkey, ← heq] at hcovers
            change Covers (idxGarbageCollect R nodes [g] staying i) _ _
            rw [hkeep]
            exact hcovers
          · refine covers_collect_head hi (hold i hi) (fun K hK => ?_) fun x hx =>
              hstay x (hundone.head_mem hx)
            rw [← hfixed] at hK
            obtain ⟨d, hd, hdkey⟩ := hK.mem
            exact ⟨d, List.mem_append_right _ hd, hdkey⟩
          · cases hms
            exact ⟨_, rfl, hgone'.trans hnew, hsame⟩

/-- The update before `IDX_modify` -/
theorem modify_written {tail : List SCHAR} (h : Sound T R s) (hsafe : s.SafeModify T new tail)
    (hrun : s.modify T R new tail errs = some (s', ok)) :
    ∃ v rest org s₁ l, T.clean s.chain = v :: rest ∧ v.data = some org ∧
      Written T R s₁ (fun i => R.key i new = R.key i org) new l ∧
        s' = { s₁ with nodes := (idxModify R org new errs s₁.nodes).1 } ∧
          ok = (idxModify R org new errs s₁.nodes).2 ∧
            ∀ m ms, s.marks = m :: ms → ∃ m', s₁.marks = m' :: ms ∧
              m'.gone s₁.chain = some new ∧ m'.undone s₁.chain = m.undone (v :: rest) := by
  obtain ⟨bs, htracked, hfits⟩ := h.tracked
  have hnew := htracked.modify hsafe hrun
  obtain ⟨v, rest, nodes, org, hdead, horg, -, s₁, hs₁, rfl, rfl⟩ := Record.modify_cases hrun
  have hclean := Record.backoutDead_eq hdead
  have hsound := h.backoutDead hdead
  have hstack : Stack T R s.marks bs (v :: rest) := hclean ▸ htracked.stack.clean
  refine ⟨v, rest, org, s₁, ?_⟩
  rcases hs₁ with ⟨hv, hformat, rfl⟩ | ⟨hother, rfl⟩
  · obtain ⟨l, hhistory, hagain, hbefore, hmarks⟩ :=
      hsound.replace_written tail (w := ⟨v.transaction, new.format, some new.bytes⟩) hv rfl
        hformat.symm horg rfl fun ms hms => (hsafe v rest hclean hv _ ms hms).1 hformat rfl
    refine ⟨l, hclean, horg, ⟨⟨bs, ⟨hnew.stack, hnew.fits⟩, hfits⟩, ?_, ?_, fun i hi hsame => ?_,
      fun i hi hother => ?_⟩, rfl, rfl, fun m ms hms => ?_⟩
    · have hothers := hsound.others
      rw [others_cons hv] at hothers
      rw [verbPost_chain, others_cons (v := ⟨v.transaction, new.format, some new.bytes⟩) hv]
      exact hothers
    · rw [verbPost_chain]
      exact hhistory
    · rw [verbPost_chain]
      exact hagain i hi (of_decide_eq_true hsame)
    · rw [verbPost_chain]
      exact hbefore i hi (of_decide_eq_false hother)
    · rw [verbPost_chain]
      exact hmarks m ms hms
  · have hunseen : ∀ m ms, s.marks = m :: ms → m = .unseen := by
      intro m ms hms
      by_cases hv : T.Owns v
      · exact (hsafe v rest hclean hv m ms hms).2 fun hformat => hother ⟨hv, hformat⟩
      · exact htracked.unseen_of_clean hclean hv m ms hms
    have hw := T.owns_number new.format (some new.bytes)
    have hpush := history_push (R := R)
      (s := ⟨⟨T.number, new.format, some new.bytes⟩ :: v :: rest, nodes, s.marks⟩)
      ⟨T.number, new.format, some new.bytes⟩ (v :: rest) hunseen
    refine ⟨history s.marks (v :: rest), hclean, horg,
      ⟨⟨bs, ⟨hnew.stack, hnew.fits⟩, hfits⟩, ?_, ?_, fun i hi hsame => ?_, fun i hi _ => ?_⟩, rfl, rfl,
      fun m ms hms => ⟨.seen none, ?_, ?_, ?_⟩⟩
    · rw [verbPost_chain, others_cons hw]
      exact hsound.others
    · rw [verbPost_chain, hpush]
      rfl
    · rw [verbPost_chain, verbPost_nodes, fixed_cons hw, List.map_cons]
      refine (hsound.covers i hi).again ?_
      rw [List.head?_map, hstack.history_head horg, of_decide_eq_true hsame]
      rfl
    · rw [verbPost_chain, verbPost_nodes, fixed_cons hw]
      exact hsound.covers i hi
    · have hpost := verbPost_marks_cons (R := R)
        (s := ⟨⟨T.number, new.format, some new.bytes⟩ :: v :: rest, nodes, s.marks⟩) hms none
        false false
      rw [hpost, hunseen m ms hms]
      rfl
    · rw [verbPost_chain]
      rfl
    · rw [verbPost_chain, hunseen m ms hms]
      rfl

theorem erase (h : Sound T R s) (hrun : s.erase T R = some s') :
    Sound T R s' ∧ s'.marks.length = s.marks.length := by
  obtain ⟨bs, htracked, hfits⟩ := h.tracked
  have hnew := htracked.erase hrun
  obtain ⟨v, rest, nodes, hdead, hsome, hs'⟩ := Record.erase_cases hrun
  have hsound := h.backoutDead hdead
  have hstack : Stack T R s.marks bs (v :: rest) :=
    Record.backoutDead_eq hdead ▸ htracked.stack.clean
  have hd := T.owns_number v.format none
  have hchain : s'.chain = ⟨T.number, v.format, none⟩ :: v :: rest := by
    rw [hs', verbPost_chain]
  have hnodes : s'.nodes = nodes := by
    rw [hs', verbPost_nodes]
  have hhistory : history s'.marks s'.chain = history s.marks (v :: rest) := by
    rw [hchain, hs']
    by_cases hv : T.Owns v
    · rw [decide_eq_true hv]
      cases hms : s.marks with
      | nil => rfl
      | cons m ms =>
          rw [hms] at hstack
          obtain _ | @⟨_, _, _, _, _, hsince, -⟩ := hstack
          obtain ⟨hgone, hundone⟩ := hsince.erase_gone (d := ⟨T.number, v.format, none⟩) hsome
          have hpost := verbPost_marks_cons (R := R)
            (s := ⟨⟨T.number, v.format, none⟩ :: v :: rest, nodes, m :: ms⟩) rfl none true false
          rw [hpost, history, history, hgone, hundone]
    · rw [decide_eq_false hv]
      exact history_push (s := ⟨⟨T.number, v.format, none⟩ :: v :: rest, nodes, s.marks⟩)
        ⟨T.number, v.format, none⟩ (v :: rest)
        (htracked.unseen_of_clean (Record.backoutDead_eq hdead) hv)
  refine ⟨⟨⟨bs, hnew, hfits⟩, ?_, fun i hi => ?_⟩, ?_⟩
  · rw [hchain, others_cons hd]
    exact hsound.others
  · rw [hhistory, hnodes, hchain, fixed_cons hd]
    exact hsound.covers i hi
  · rw [hnew.stack.length_eq, htracked.stack.length_eq]

theorem writelock (h : Sound T R s) (hrun : s.writelock T R = some s') :
    Sound T R s' ∧ s'.marks.length = s.marks.length := by
  obtain ⟨bs, htracked, hfits⟩ := h.tracked
  have hnew := htracked.writelock hrun
  refine ⟨?_, by rw [hnew.stack.length_eq, htracked.stack.length_eq]⟩
  obtain ⟨v, rest, nodes, hdead, hsome, hs'⟩ := Record.writelock_cases hrun
  have hsound := h.backoutDead hdead
  rcases hs' with ⟨-, rfl⟩ | ⟨hv, hs'⟩
  · exact hsound
  · obtain ⟨org, horg⟩ := Option.isSome_iff_exists.mp hsome
    have hstack : Stack T R s.marks bs (v :: rest) :=
      Record.backoutDead_eq hdead ▸ htracked.stack.clean
    have hw := T.owns_number v.format v.image
    have hchain : s'.chain = ⟨T.number, v.format, v.image⟩ :: v :: rest := by
      rw [hs', verbPost_chain]
    have hnodes : s'.nodes = nodes := by
      rw [hs', verbPost_nodes]
    -- the copy has the data of the version below it
    have hhistory : history s'.marks s'.chain = org :: history s.marks (v :: rest) := by
      have hpush := history_push (R := R)
        (s := ⟨⟨T.number, v.format, v.image⟩ :: v :: rest, nodes, s.marks⟩)
        ⟨T.number, v.format, v.image⟩ (v :: rest)
        (htracked.unseen_of_clean (Record.backoutDead_eq hdead) hv)
      have hcopy : (⟨T.number, v.format, v.image⟩ : Version).data = some org := horg
      rw [hchain, hs', hpush, hcopy]
      rfl
    refine ⟨⟨bs, hnew, hfits⟩, ?_, fun i hi => ?_⟩
    · rw [hchain, others_cons hw]
      exact hsound.others
    · rw [hhistory, hnodes, hchain, fixed_cons hw, List.map_cons]
      refine (hsound.covers i hi).again ?_
      rw [List.head?_map, hstack.history_head horg]
      rfl

/-! ## Garbage collection -/

theorem backout {v : Version} {rest : List Version} (h : Sound T R s) (hchain : s.chain = v :: rest)
    (hv : ¬T.Owns v) : Sound T R (s.backout R) := by
  have heq : s.backout R = ⟨rest, (s.backout R).nodes, s.marks⟩ := by
    rw [Record.backout, hchain]
  rw [heq]
  refine h.collected (fun w rest' hw => ?_) (fun w hw => ?_) fun i d hd => ?_
  · rw [hchain] at hw
    cases hw
    exact hv
  · rw [hchain]
    exact List.mem_cons_of_mem v hw
  · rw [Record.backout, hchain]
    dsimp only
    cases v.data with
    | none => rfl
    | some g => exact idxGarbageCollect_of_staying hd

theorem purge {v : Version} {rest : List Version} (h : Sound T R s) (hchain : s.chain = v :: rest)
    (hv : ¬T.Owns v) : Sound T R (s.purge R) := by
  have heq : s.purge R = ⟨[v], (s.purge R).nodes, s.marks⟩ := by
    rw [Record.purge, hchain]
  rw [heq]
  refine h.collected (fun w rest' hw => ?_) (fun w hw => ?_) fun i d hd => ?_
  · rw [hchain] at hw
    cases hw
    exact hv
  · rw [hchain, List.mem_singleton.mp hw]
    exact List.mem_cons_self
  · rw [Record.purge, hchain]
    rw [listStaying_cons, listStaying, List.filterMap_nil, List.append_nil] at hd
    exact idxGarbageCollect_of_staying hd

theorem expunge {v : Version} {rest : List Version} (h : Sound T R s) (hchain : s.chain = v :: rest)
    (hv : ¬T.Owns v) : Sound T R (s.expunge R) := by
  refine h.collected (fun w rest' hw => ?_) (List.nil_subset _) fun i d hd => nomatch hd
  rw [hchain] at hw
  cases hw
  exact hv

end Sound

/-! ## Runs -/

/-- A statement that modifies a record may fail before it gets to an index only if no outer
savepoint has undo data there with the key of the new version, unless a version that stays has
it as well. -/
def Record.SafeFail (T : JrdTra) (R : Relation Key) (s : Record Key) (new : Data)
    (errs : ℕ → IdxE) : Prop :=
  ∀ v rest org, T.clean s.chain = v :: rest → v.data = some org →
    ∀ m ms, s.marks = m :: ms →
      ∀ i ∈ missed (fun i => R.key i new = R.key i org) errs R.indexes,
        R.key i new ≠ R.key i org →
          (∃ d ∈ listStaying (m.undone (v :: rest)), R.key i d = R.key i new) ∨
            ∀ m' ∈ ms, ∀ u, m'.image = some u → R.key i u ≠ R.key i new

theorem Record.SafeFail.of_ok (s : Record Key) (new : Data) :
    s.SafeFail T R new fun _ => .ok := by
  have hmissed : ∀ (same : ℕ → Bool) is, missed same (fun _ => .ok) is = [] := by
    intro same is
    induction is with
    | nil => rfl
    | cons i rest ih => simp [missed, ih]
  intro v rest org _ _ m ms _ i hi
  rw [hmissed] at hi
  cases hi

/-- What no entry is lost by -/
def Keeps (T : JrdTra) (R : Relation Key) (s : Db Key) : Event → Prop
  | .modify r new tail errs large _ =>
      (s.records r).SafeModify T new tail ∧
        ((s.dropTransLevel large 1).records r).SafeFail T R new errs
  | .release large _ => ∀ r, ((s.dropTransLevel large 1).records r).SafePost
  | .start _ | .store .. | .erase _ | .writelock _ | .rollback .. | .backout _ | .purge _
  | .expunge _ => True

namespace Db

variable {s s' : Db Key}

omit [DecidableEq Key] in
/-- Whether the transaction-level savepoint is given up does not depend on the records. -/
theorem dropTransLevel_set (s : Db Key) (r : ℕ) (rec : Record Key) (large : Bool) (above : ℕ) :
    s.dropTransLevel large above = s ∧ (s.set r rec).dropTransLevel large above = s.set r rec ∨
      s.dropTransLevel large above =
          ⟨fun r => { s.records r with marks := (s.records r).marks.take above },
            s.levels.take above⟩ ∧
        (s.set r rec).dropTransLevel large above =
          ⟨fun r' => { (s.set r rec).records r' with
              marks := ((s.set r rec).records r').marks.take above }, s.levels.take above⟩ := by
  rw [dropTransLevel, dropTransLevel]
  have hlevels : (s.set r rec).levels = s.levels := rfl
  rw [hlevels]
  split
  · split
    · exact .inr ⟨rfl, rfl⟩
    · exact .inl ⟨rfl, rfl⟩
  · exact .inl ⟨rfl, rfl⟩

/-- The indexes cover the histories of all records. -/
structure Indexed (T : JrdTra) (R : Relation Key) (s : Db Key) : Prop where
  sound : ∀ r, Sound T R (s.records r)
  length : ∀ r, (s.records r).marks.length = s.levels.length

namespace Indexed

theorem dropTransLevel (h : s.Indexed T R) (large : Bool) (above : ℕ) :
    (s.dropTransLevel large above).Indexed T R := by
  rcases s.dropTransLevel_eq large above with heq | heq
  · rw [heq]
    exact h
  · rw [heq]
    refine ⟨fun r => (h.sound r).take above, fun r => ?_⟩
    rw [List.length_take, List.length_take, h.length]

theorem set {r : ℕ} {rec : Record Key} (h : s.Indexed T R) (hrec : Sound T R rec)
    (hlen : rec.marks.length = (s.records r).marks.length) : (s.set r rec).Indexed T R where
  sound r' := by
    by_cases hr : r' = r
    · subst hr
      rw [set_records_self]
      exact hrec
    · rw [set_records_of_ne s rec hr]
      exact h.sound r'
  length r' := by
    by_cases hr : r' = r
    · subst hr
      rw [set_records_self, hlen, h.length]
      rfl
    · rw [set_records_of_ne s rec hr]
      exact h.length r'

theorem start (h : s.Indexed T R) (transLevel : Bool) : (s.start transLevel).Indexed T R where
  sound r := (h.sound r).start
  length r := congrArg Nat.succ (h.length r)

/-- There is a mark if there is a savepoint. -/
theorem marks_cons (h : s.Indexed T R) (hne : s.levels ≠ []) (r : ℕ) :
    ∃ m ms, (s.records r).marks = m :: ms := by
  refine List.exists_cons_of_ne_nil fun hnil => hne ?_
  have hlen := h.length r
  rw [hnil] at hlen
  exact List.length_eq_zero_iff.mp hlen.symm

omit [DecidableEq Key] in
theorem dropTransLevel_ne (hne : s.levels ≠ []) (large : Bool) :
    (s.dropTransLevel large 1).levels ≠ [] := by
  obtain ⟨l, ls, hl⟩ := List.exists_cons_of_ne_nil hne
  obtain ⟨ls', hl'⟩ := dropTransLevel_levels hl large
  rw [hl']
  exact List.cons_ne_nil _ _

/-- The innermost savepoint is undone, and every record is sound then. -/
theorem of_undo {large large' : Bool} {lengths : ℕ}
    (hlen : (s.dropTransLevel large 1).levels.length = lengths + 1)
    (hundo : ∀ r, ∃ rec, ((s.dropTransLevel large 1).records r).undo T R = some rec ∧
      Sound T R rec ∧ rec.marks.length = lengths)
    (hstep : s.Cleanup T R large large' true s') (hne : s.levels ≠ []) : s'.Indexed T R := by
  cases hstep with
  | none hnil => exact absurd hnil hne
  | @undo records _ hrecords =>
      have hall : Indexed T R ⟨records, (s.dropTransLevel large 1).levels.tail⟩ := by
        constructor
        · intro r
          obtain ⟨rec, hrec, hsound, -⟩ := hundo r
          rw [hrecords r] at hrec
          cases hrec
          exact hsound
        · intro r
          obtain ⟨rec, hrec, -, hmarks⟩ := hundo r
          rw [hrecords r] at hrec
          cases hrec
          rw [hmarks, List.length_tail, hlen, Nat.add_sub_cancel]
      exact hall.dropTransLevel large' 0

theorem rollback {large large' : Bool} (h : s.Indexed T R)
    (hstep : s.Cleanup T R large large' true s') : s'.Indexed T R := by
  by_cases hne : s.levels = []
  · cases hstep with
    | none => exact h
    | undo hlevels => exact absurd hne hlevels
  · have hdrop := h.dropTransLevel large 1
    obtain ⟨n, hn⟩ := Nat.exists_eq_succ_of_ne_zero
      (mt List.length_eq_zero_iff.mp (dropTransLevel_ne hne large))
    refine of_undo hn (fun r => ?_) hstep hne
    obtain ⟨m, ms, hms⟩ := hdrop.marks_cons (dropTransLevel_ne hne large) r
    obtain ⟨rec, hundo, hsound, hmarks⟩ := (hdrop.sound r).undo hms
    refine ⟨rec, hundo, hsound, ?_⟩
    have hlen := hdrop.length r
    rw [hms, hn, List.length_cons] at hlen
    rw [hmarks]
    exact Nat.succ.inj hlen

theorem release {large large' : Bool} (h : s.Indexed T R)
    (hsafe : ∀ r, ((s.dropTransLevel large 1).records r).SafePost)
    (hstep : s.Cleanup T R large large' false s') : s'.Indexed T R := by
  cases hstep with
  | none => exact h
  | post hlevels =>
      have hdrop := h.dropTransLevel large 1
      refine Indexed.dropTransLevel ⟨fun r => (hdrop.sound r).post (hsafe r), fun r => ?_⟩ large' 0
      obtain ⟨y, ms, hms⟩ := hdrop.marks_cons (dropTransLevel_ne hlevels large) r
      have hlen := hdrop.length r
      rw [hms, List.length_cons] at hlen
      dsimp only
      rw [post_marks hms, List.length_tail, ← hlen, Nat.add_sub_cancel]
      cases ms <;> rfl

/-- A statement on one record fails: undone, the record is sound, whether or not the
transaction-level savepoint is given up. -/
theorem fails {r : ℕ} {rec : Record Key} {large large' : Bool} (h : s.Indexed T R)
    (hne : s.levels ≠ [])
    (hrec : ∀ m ms, (s.records r).marks = m :: ms → ∃ m', rec.marks = m' :: ms ∧
      ∀ n, ((s.dropTransLevel large 1).records r).marks = m :: ms.take n →
        ∃ rec', Record.undo T R { rec with marks := m' :: ms.take n } = some rec' ∧
          Sound T R rec' ∧ rec'.marks = ms.take n)
    (hstep : (s.set r rec).Cleanup T R large large' true s') : s'.Indexed T R := by
  have hdrop := h.dropTransLevel large 1
  obtain ⟨n, hn⟩ := Nat.exists_eq_succ_of_ne_zero
    (mt List.length_eq_zero_iff.mp (dropTransLevel_ne hne large))
  obtain ⟨m, ms, hms⟩ := h.marks_cons hne r
  obtain ⟨m', hm', hundo⟩ := hrec m ms hms
  have hother : ∀ r', r' ≠ r →
      ((s.set r rec).dropTransLevel large 1).records r' = (s.dropTransLevel large 1).records r' := by
    intro r' hr
    rcases s.dropTransLevel_set r rec large 1 with ⟨hs, hset⟩ | ⟨hs, hset⟩
    · rw [hs, hset, set_records_of_ne s rec hr]
    · rw [hs, hset]
      dsimp only
      rw [set_records_of_ne s rec hr]
  have hlevels : ((s.set r rec).dropTransLevel large 1).levels =
      (s.dropTransLevel large 1).levels := by
    rcases s.dropTransLevel_set r rec large 1 with ⟨hs, hset⟩ | ⟨hs, hset⟩
    · rw [hs, hset]
      rfl
    · rw [hs, hset]
  -- the marks of the record are cut as those of the others are
  have hcut : ∃ k, ((s.dropTransLevel large 1).records r).marks = m :: ms.take k ∧
      ((s.set r rec).dropTransLevel large 1).records r = { rec with marks := m' :: ms.take k } := by
    rcases s.dropTransLevel_set r rec large 1 with ⟨hs, hset⟩ | ⟨hs, hset⟩
    · refine ⟨ms.length, ?_, ?_⟩
      · rw [hs, hms, List.take_length]
      · rw [hset, set_records_self, List.take_length, ← hm']
    · refine ⟨0, ?_, ?_⟩
      · rw [hs]
        dsimp only
        rw [hms]
        rfl
      · rw [hset]
        dsimp only
        rw [set_records_self, hm']
        rfl
  refine of_undo (hlevels.symm ▸ hn) (fun r' => ?_) hstep hne
  have hlen := hdrop.length r'
  by_cases hr : r' = r
  · subst hr
    obtain ⟨k, hmarks, heq⟩ := hcut
    obtain ⟨rec', hrec', hsound, hmarks'⟩ := hundo k hmarks
    rw [heq]
    refine ⟨rec', hrec', hsound, ?_⟩
    rw [hmarks, hn, List.length_cons] at hlen
    rw [hmarks']
    exact Nat.succ.inj hlen
  · rw [hother r' hr]
    obtain ⟨m₁, ms₁, hms₁⟩ := hdrop.marks_cons (dropTransLevel_ne hne large) r'
    obtain ⟨rec', hundo', hsound, hmarks'⟩ := (hdrop.sound r').undo hms₁
    refine ⟨rec', hundo', hsound, ?_⟩
    rw [hms₁, hn, List.length_cons] at hlen
    rw [hmarks']
    exact Nat.succ.inj hlen

end Indexed

end Db

namespace Sound

variable {s s' : Record Key} {new : Data} {errs : ℕ → IdxE} {ok : Bool}

/-- A store that succeeds -/
theorem store (h : Sound T R s) (hrun : s.store T R new errs = some (s', true)) :
    Sound T R s' := by
  obtain ⟨s₁, hwritten, rfl, hok, -⟩ := h.store_written hrun
  exact hwritten.sound hok.symm

/-- A store that fails, and is undone -/
theorem store_fails (h : Sound T R s) (hrun : s.store T R new errs = some (s', ok)) {m : Mark}
    {ms : List Mark} (hms : s.marks = m :: ms) :
    ∃ m', s'.marks = m' :: ms ∧ ∀ n,
      ∃ s'', Record.undo T R { s' with marks := m' :: ms.take n } = some s'' ∧ Sound T R s'' ∧
        s''.marks = ms.take n := by
  obtain ⟨s₁, hwritten, rfl, -, hmarks⟩ := h.store_written hrun
  obtain ⟨m', hm', hgone, himages⟩ := hmarks m ms hms
  refine ⟨m', hm', fun n => hwritten.undo hm' hgone n fun i _ _ => .inr fun m'' hm'' u hu => ?_⟩
  rw [himages m'' (List.mem_of_mem_take hm'')] at hu
  cases hu

/-- An update that succeeds -/
theorem modify {tail : List SCHAR} (h : Sound T R s) (hsafe : s.SafeModify T new tail)
    (hrun : s.modify T R new tail errs = some (s', true)) : Sound T R s' := by
  obtain ⟨v, rest, org, s₁, l, -, -, hwritten, rfl, hok, -⟩ := h.modify_written hsafe hrun
  exact hwritten.sound hok.symm

/-- An update that fails, and is undone -/
theorem modify_fails {tail : List SCHAR} (h : Sound T R s) (hsafe : s.SafeModify T new tail)
    (hrun : s.modify T R new tail errs = some (s', ok)) {m : Mark} {ms : List Mark}
    (hms : s.marks = m :: ms) :
    ∃ m', s'.marks = m' :: ms ∧ ∀ n,
      Record.SafeFail T R { s with marks := m :: ms.take n } new errs →
        ∃ s'', Record.undo T R { s' with marks := m' :: ms.take n } = some s'' ∧ Sound T R s'' ∧
          s''.marks = ms.take n := by
  obtain ⟨v, rest, org, s₁, l, hclean, horg, hwritten, rfl, -, hmarks⟩ :=
    h.modify_written hsafe hrun
  obtain ⟨m', hm', hgone, hundone⟩ := hmarks m ms hms
  refine ⟨m', hm', fun n hfail => hwritten.undo hm' hgone n fun i hi hsame => ?_⟩
  rw [hundone]
  exact hfail v rest org hclean horg m _ rfl i hi (of_decide_eq_false hsame)

end Sound

theorem Db.Indexed.step {s s' : Db Key} {e : Event} (h : s.Indexed T R) (hsafe : Keeps T R s e)
    (hstep : Step T R s e s') : s'.Indexed T R := by
  have hforeign : ∀ v : Version, T.state v.transaction = .committed → ¬T.Owns v := by
    intro v hcommitted hv
    rw [(T.state_eq_us _).mpr hv] at hcommitted
    cases hcommitted
  cases hstep with
  | start => exact h.start _
  | @store r new errs large large' rec hne hrun =>
      have hsound := (h.sound r).store hrun
      obtain ⟨m, ms, hms⟩ := h.marks_cons hne r
      obtain ⟨m', hm', -⟩ := (h.sound r).store_fails hrun hms
      refine h.set hsound ?_
      rw [hm', hms, List.length_cons, List.length_cons]
  | @storeFails r new errs large large' rec s' hne hrun hundo =>
      refine h.fails hne (fun m ms hms => ?_) hundo
      obtain ⟨m', hm', hfails⟩ := (h.sound r).store_fails hrun hms
      exact ⟨m', hm', fun n _ => hfails n⟩
  | @modify r new tail errs large large' rec hne hrun =>
      have hsound := (h.sound r).modify hsafe.1 hrun
      obtain ⟨m, ms, hms⟩ := h.marks_cons hne r
      obtain ⟨m', hm', -⟩ := (h.sound r).modify_fails hsafe.1 hrun hms
      refine h.set hsound ?_
      rw [hm', hms, List.length_cons, List.length_cons]
  | @modifyFails r new tail errs large large' rec s' hne hrun hundo =>
      refine h.fails hne (fun m ms hms => ?_) hundo
      obtain ⟨m', hm', hfails⟩ := (h.sound r).modify_fails hsafe.1 hrun hms
      refine ⟨m', hm', fun n hmarks => hfails n ?_⟩
      intro v rest org hclean horg m₁ ms₁ hms₁
      refine hsafe.2 v rest org ?_ horg m₁ ms₁ ?_
      · rw [Db.dropTransLevel_chain]
        exact hclean
      · rw [hmarks]
        exact hms₁
  | @erase r rec _ hrun =>
      obtain ⟨hsound, hlen⟩ := (h.sound r).erase hrun
      exact h.set hsound hlen
  | @writelock r rec hrun =>
      obtain ⟨hsound, hlen⟩ := (h.sound r).writelock hrun
      exact h.set hsound hlen
  | release hcleanup => exact h.release hsafe hcleanup
  | rollback hcleanup => exact h.rollback hcleanup
  | @backout r v rest hchain hdead =>
      refine h.set ((h.sound r).backout hchain fun hv => hv.not_dead hdead) ?_
      rw [Record.backout_marks]
  | @purge r v rest hchain _ _ hcommitted =>
      refine h.set ((h.sound r).purge hchain (hforeign v hcommitted)) ?_
      rw [Record.purge, hchain]
  | @expunge r v rest hchain _ _ hcommitted =>
      exact h.set ((h.sound r).expunge hchain (hforeign v hcommitted)) rfl

theorem indexed_reachable {s : Db Key} (h : Reachable ((system T R).restrict (Keeps T R)) s) :
    s.Indexed T R := by
  refine h.invariant ?_ fun s e s' hs hstep => hs.step hstep.2 hstep.1
  rintro s ⟨hlevels, hrecords⟩
  refine ⟨fun r => ?_, fun r => by rw [(hrecords r).1, hlevels]; rfl⟩
  obtain ⟨hmarks, hchain⟩ := hrecords r
  have hothers : T.others (s.records r).chain = (s.records r).chain := by
    cases hc : (s.records r).chain with
    | nil => rfl
    | cons v rest => exact others_of_not_owns (hchain v (hc ▸ List.mem_cons_self)).1
  refine ⟨⟨[], ⟨hmarks ▸ .nil, fun v hv d hd => ((hchain v hv).2 d hd).1⟩, nofun⟩, fun v hv => ?_,
    fun i hi => ⟨fun K hK => ?_, fun K hK => ?_⟩⟩
  · rw [hothers] at hv
    exact (hchain v hv).1
  · obtain ⟨d, hd, rfl⟩ := hK.mem
    obtain ⟨v, hv, hdata⟩ := mem_listStaying.mp hd
    exact ((hchain v hv).2 d hdata).2 i hi
  · rw [hmarks, history, Runs.runs_eq_zero]
    · exact Nat.zero_le _
    · intro hmem
      obtain ⟨d, hd, hkey⟩ := List.mem_map.mp hmem
      refine hK ⟨d, ?_, hkey⟩
      rw [hothers]
      exact hd

/-- In all runs that keep to this, every index has an entry for every version in a chain and for
the undo data of every savepoint. -/
theorem entries_kept {s : Db Key} (h : Reachable ((system T R).restrict (Keeps T R)) s) (r : ℕ)
    {i : ℕ} (hi : i ∈ R.indexes) :
    (∀ v ∈ (s.records r).chain, ∀ d, v.data = some d → 0 < (s.records r).nodes i (R.key i d)) ∧
      ∀ m ∈ (s.records r).marks, ∀ u, m.image = some u →
        0 < (s.records r).nodes i (R.key i u) := by
  have hsound := (indexed_reachable h).sound r
  obtain ⟨bs, htracked, -⟩ := hsound.tracked
  have hcovers := hsound.covers i hi
  refine ⟨fun v hv d hd => hcovers.pos (List.mem_map_of_mem ?_), fun m hm u hu =>
    hcovers.pos (List.mem_map_of_mem (htracked.stack.image_mem_history hm hu))⟩
  exact htracked.stack.sublist_history.subset (mem_listStaying.mpr ⟨v, hv, hd⟩)

/-! ## A statement that fails too early -/

/-- A relation with two columns of a byte each, both with an index -/
def twoIndexes : Relation (Option SCHAR) where
  fmtLength _ := 2
  fmtLength_pos _ := by decide
  indexes := [0, 1]
  nodup := by decide
  key i d := (d.bytes.take 2)[i]?
  key_append i f bytes tail h := by
    dsimp only
    rw [← h, List.take_left, List.take_length]

/-- The entries of a row `(1, 1)` -/
def oldNodes : ℕ → Option SCHAR → ℕ := fun _ K => if K = some 1 then 1 else 0

/-- `oldNodes` and the entries of `(2, 2)` -/
def newNodes : ℕ → Option SCHAR → ℕ := btrInsert (btrInsert oldNodes 0 (some 2)) 1 (some 2)

/-- `newNodes` and the entries of `(3, 3)` -/
def newestNodes : ℕ → Option SCHAR → ℕ := btrInsert (btrInsert newNodes 0 (some 3)) 1 (some 3)

/-- Every row is `(1, 1)` and was stored by transaction 5. -/
def oldRows : Db (Option SCHAR) where
  records _ := ⟨[⟨5, 1, some [1, 1]⟩], oldNodes, []⟩
  levels := []

theorem oldRows_init : (system lastTra twoIndexes).init oldRows := by
  refine ⟨rfl, fun r => ⟨rfl, fun v hv => ?_⟩⟩
  obtain rfl := List.mem_singleton.mp hv
  refine ⟨by decide, fun d hd => ?_⟩
  cases hd
  refine ⟨rfl, ?_⟩
  change ∀ i ∈ twoIndexes.indexes, 0 < oldNodes i (twoIndexes.key i ⟨1, [1, 1]⟩)
  decide

/-- Row 0 has been changed to `(2, 2)` under a savepoint. -/
def changedRow : Db (Option SCHAR) :=
  (oldRows.start false).set 0
    ⟨[⟨9, 1, some [2, 2]⟩, ⟨5, 1, some [1, 1]⟩], newNodes, [.seen none]⟩

/-- Row 0 has been changed to `(3, 3)` under a second savepoint. -/
def changedTwice : Db (Option SCHAR) :=
  (changedRow.start false).set 0
    ⟨[⟨9, 1, some [3, 3]⟩, ⟨5, 1, some [1, 1]⟩], newestNodes,
      [.seen (some ⟨⟨1, [2, 2]⟩, false, false⟩), .seen none]⟩

theorem change_oldRows : Step lastTra twoIndexes (oldRows.start false)
    (.modify 0 ⟨1, [2, 2]⟩ [] (fun _ => .ok) false false) changedRow :=
  .modify (List.cons_ne_nil _ _) rfl

theorem change_again : Step lastTra twoIndexes (changedRow.start false)
    (.modify 0 ⟨1, [3, 3]⟩ [] (fun _ => .ok) false false) changedTwice :=
  .modify (List.cons_ne_nil _ _) rfl

theorem entries_kept_changed :
    (∀ v ∈ (changedTwice.records 0).chain, ∀ d, v.data = some d →
        0 < (changedTwice.records 0).nodes 1 (twoIndexes.key 1 d)) ∧
      ∀ m ∈ (changedTwice.records 0).marks, ∀ u, m.image = some u →
        0 < (changedTwice.records 0).nodes 1 (twoIndexes.key 1 u) := by
  let S := (system lastTra twoIndexes).restrict (Keeps lastTra twoIndexes)
  have hstart : Reachable S (oldRows.start false) :=
    (Reachable.init (S := S) oldRows_init).step (i := .start false) ⟨.start fun h => absurd h Bool.false_ne_true, trivial⟩
  have hchanged : Reachable S changedRow :=
    hstart.step ⟨change_oldRows, by
      rintro v rest hclean hv
      cases hclean
      exact absurd hv (by decide), .of_ok _ _⟩
  have hstart' : Reachable S (changedRow.start false) :=
    hchanged.step (i := .start false) ⟨.start fun h => absurd h Bool.false_ne_true, trivial⟩
  have hagain : Reachable S changedTwice :=
    hstart'.step ⟨change_again, by
      rintro v rest hclean - m ms hms
      cases hclean
      cases hms
      exact ⟨fun _ _ => rfl, fun _ => rfl⟩, .of_ok _ _⟩
  exact entries_kept hagain 0 (by decide)

/-- A third statement changes the row to `(4, 2)` and fails in the first index. Undone, it takes
the entry of `(2, 2)` from the second one, which the first savepoint goes back to. -/
theorem entry_lost : ∃ s : Db (Option SCHAR), Reachable (system lastTra twoIndexes) s ∧
    ∃ m ∈ (s.records 0).marks, ∃ u, m.image = some u ∧
      (s.records 0).nodes 1 (twoIndexes.key 1 u) = 0 := by
  let S := system lastTra twoIndexes
  have hstart : Reachable S (oldRows.start false) :=
    (Reachable.init (S := S) oldRows_init).step (i := .start false) (.start fun h => absurd h Bool.false_ne_true)
  have hchanged : Reachable S changedRow := hstart.step change_oldRows
  have hstart' : Reachable S (changedRow.start false) :=
    hchanged.step (i := .start false) (.start fun h => absurd h Bool.false_ne_true)
  have hagain : Reachable S changedTwice := hstart'.step change_again
  have hstatement : Reachable S (changedTwice.start false) :=
    hagain.step (i := .start false) (.start fun h => absurd h Bool.false_ne_true)
  let undo : Undo := ⟨⟨1, [2, 2]⟩, false, false⟩
  let failed : Record (Option SCHAR) :=
    ⟨[⟨9, 1, some [4, 2]⟩, ⟨5, 1, some [1, 1]⟩], btrInsert newestNodes 0 (some 4),
      [.seen (some ⟨⟨1, [3, 3]⟩, false, false⟩), .seen (some undo), .seen none]⟩
  let restored : Record (Option SCHAR) :=
    ⟨[⟨9, 1, some [3, 3]⟩, ⟨5, 1, some [1, 1]⟩],
      idxGarbageCollect twoIndexes (btrInsert newestNodes 0 (some 4)) [⟨1, [4, 2]⟩]
        [⟨1, [3, 3]⟩, ⟨1, [1, 1]⟩],
      [.seen (some undo), .seen none]⟩
  have hundo : ((changedTwice.start false).set 0 failed).Cleanup lastTra twoIndexes false false true
      (Db.dropTransLevel ⟨Function.update (fun r => changedTwice.records r) 0 restored,
        changedTwice.levels⟩ false 0) := by
    refine .undo (List.cons_ne_nil _ _) fun r => ?_
    by_cases hr : r = 0
    · subst hr
      rfl
    · change (((changedTwice.start false).set 0 failed).records r).undo lastTra twoIndexes = _
      rw [Db.set_records_of_ne _ failed hr, Function.update_of_ne hr]
      rfl
  have hfails : Step lastTra twoIndexes (changedTwice.start false)
      (.modify 0 ⟨1, [4, 2]⟩ [] (fun i => if i = 0 then .duplicate else .ok) false false) _ :=
    .modifyFails (List.cons_ne_nil _ _) rfl hundo
  exact ⟨_, hstatement.step hfails, .seen (some undo), List.mem_cons_self, ⟨1, [2, 2]⟩, rfl, rfl⟩

end Firebird.Vio
