import Firebird.Vio.Entries

/-! # Indexes under savepoints

The indexes of a record cover its history, in every run in which rolling back is safe and no
statement that fails takes with it an entry that it has not made itself.
-/

namespace Firebird.Vio

open Runs (Covers)
open Transition (Reachable System)

variable {Key : Type} [DecidableEq Key] {T : JrdTra} {R : Relation Key}

/-! ## Entries that go -/

/-- An entry is kept that a staying record needs. -/
theorem collect_of_staying {key : Data → Key} {staying going : List Data} {nodes : Key → ℕ}
    {d : Data} (hd : d ∈ staying) : collect key staying going nodes (key d) = nodes (key d) := by
  induction going generalizing nodes with
  | nil => rfl
  | cons g going ih =>
      rw [collect]
      split
      · exact ih
      · rename_i hnone
        have hne : key d ≠ key g := fun heq => hnone (.inr ⟨d, hd, heq⟩)
        rw [ih, btrRemove, Function.update_of_ne hne]

theorem idxGarbageCollect_of_staying {nodes : ℕ → Key → ℕ} {going staying : List Data} {i : ℕ}
    {d : Data} (hd : d ∈ staying) :
    idxGarbageCollect R nodes going staying i (R.key i d) = nodes i (R.key i d) := by
  rw [idxGarbageCollect]
  split
  · exact collect_of_staying hd
  · rfl

theorem idxGarbageCollect_one {i : ℕ} (hi : i ∈ R.indexes) (nodes : ℕ → Key → ℕ) (g : Data)
    (staying : List Data) :
    idxGarbageCollect R nodes [g] staying i =
      if ∃ d ∈ staying, R.key i d = R.key i g then nodes i
      else Function.update (nodes i) (R.key i g) (nodes i (R.key i g) - 1) := by
  rw [idxGarbageCollect, if_pos hi, collect]
  simp only [List.not_mem_nil, false_and, exists_false, false_or]
  rfl

section Collect

variable {i : ℕ} {nodes : ℕ → Key → ℕ} {fixed : Key → Prop} {g : Data} {staying l : List Data}

/-- The newest data goes. -/
theorem covers_collect_head (hi : i ∈ R.indexes)
    (h : Covers (nodes i) fixed ((g :: l).map (R.key i)))
    (hfixed : ∀ K, fixed K → ∃ d ∈ staying, R.key i d = K)
    (hhead : ∀ x, l.head? = some x → x ∈ staying) :
    Covers (idxGarbageCollect R nodes [g] staying i) fixed (l.map (R.key i)) := by
  rw [idxGarbageCollect_one hi]
  split
  · exact h.sublist (List.sublist_cons_self _ _)
  · rename_i hstay
    refine h.remove_head (fun hg => hstay (hfixed _ hg)) fun heq => hstay ?_
    rw [List.head?_map, Option.map_eq_some_iff] at heq
    obtain ⟨x, hx, hkey⟩ := heq
    exact ⟨x, hhead x hx, hkey⟩

/-- The data before the newest one goes. -/
theorem covers_collect_second {w : Data} (hi : i ∈ R.indexes)
    (h : Covers (nodes i) fixed ((w :: g :: l).map (R.key i)))
    (hfixed : ∀ K, fixed K → ∃ d ∈ staying, R.key i d = K) (hw : w ∈ staying)
    (hhead : ∀ x, l.head? = some x → x ∈ staying) :
    Covers (idxGarbageCollect R nodes [g] staying i) fixed ((w :: l).map (R.key i)) := by
  rw [idxGarbageCollect_one hi]
  split
  · exact h.sublist (((List.sublist_cons_self g l).cons_cons w).map _)
  · rename_i hstay
    refine h.remove_second (fun hg => hstay (hfixed _ hg)) (fun heq => hstay ⟨w, hw, heq⟩)
      fun heq => hstay ?_
    rw [List.head?_map, Option.map_eq_some_iff] at heq
    obtain ⟨x, hx, hkey⟩ := heq
    exact ⟨x, hhead x hx, hkey⟩

/-- Data goes for which there may be no entry. -/
theorem covers_collect_absent (hi : i ∈ R.indexes)
    (h : Covers (nodes i) fixed (l.map (R.key i)))
    (hfixed : ∀ K, fixed K → ∃ d ∈ staying, R.key i d = K)
    (habsent : (∃ d ∈ staying, R.key i d = R.key i g) ∨ R.key i g ∉ l.map (R.key i)) :
    Covers (idxGarbageCollect R nodes [g] staying i) fixed (l.map (R.key i)) := by
  rw [idxGarbageCollect_one hi]
  split
  · exact h
  · rename_i hstay
    exact h.remove_absent (fun hg => hstay (hfixed _ hg)) (habsent.resolve_left hstay)

end Collect

/-! ## Entries that are made -/

/-- The indexes that `IDX_store` and `IDX_modify` do not get to -/
def missed (same : ℕ → Bool) (errs : ℕ → IdxE) : List ℕ → List ℕ
  | [] => []
  | i :: rest =>
      if errs i = .keyTooBig then i :: rest
      else if same i then missed same errs rest
      else if errs i = .duplicate then rest
      else missed same errs rest

theorem missed_subset {same : ℕ → Bool} {errs : ℕ → IdxE} {is : List ℕ} :
    missed same errs is ⊆ is := by
  induction is with
  | nil => exact List.Subset.refl _
  | cons i rest ih =>
      rw [missed]
      split
      · exact List.Subset.refl _
      · split
        · exact List.subset_cons_of_subset i ih
        · split
          · exact List.subset_cons_self i rest
          · exact List.subset_cons_of_subset i ih

/-- An index is left as it is, or gets the key. -/
theorem insertLoop_nodes {new : Data} {same : ℕ → Bool} {errs : ℕ → IdxE} {is : List ℕ}
    (hnodup : is.Nodup) (nodes : ℕ → Key → ℕ) (i : ℕ) :
    (insertLoop R new same errs is nodes).1 i =
      if i ∈ is ∧ i ∉ missed same errs is ∧ same i = false then
        Function.update (nodes i) (R.key i new) (nodes i (R.key i new) + 1)
      else nodes i := by
  induction is generalizing nodes with
  | nil => simp [insertLoop]
  | cons j rest ih =>
      rw [List.nodup_cons] at hnodup
      have hrest := ih hnodup.2
      rw [insertLoop, missed]
      by_cases hbig : errs j = .keyTooBig
      · rw [if_pos hbig, if_pos hbig, if_neg]
        exact fun h => h.2.1 h.1
      · rw [if_neg hbig, if_neg hbig]
        by_cases hsame : same j = true
        · rw [if_pos hsame, if_pos hsame, hrest]
          refine if_congr ?_ rfl rfl
          refine ⟨fun h => ⟨List.mem_cons_of_mem j h.1, h.2⟩, fun h => ⟨?_, h.2⟩⟩
          refine (List.mem_cons.mp h.1).resolve_left fun hij => ?_
          rw [hij, hsame] at h
          exact Bool.noConfusion h.2.2
        · rw [if_neg hsame, if_neg hsame]
          by_cases hij : i = j
          · subst hij
            have hmissed : i ∉ missed same errs rest := fun h => hnodup.1 (missed_subset h)
            split
            · simp [btrInsert, hnodup.1, hsame]
            · rw [hrest, if_neg fun h => hnodup.1 h.1]
              simp [btrInsert, hmissed, hsame]
          · have hinsert : btrInsert nodes j (R.key j new) i = nodes i := by
              rw [btrInsert, Function.update_of_ne hij]
            have hmem : i ∈ j :: rest ↔ i ∈ rest := by
              rw [List.mem_cons, or_iff_right hij]
            split
            · rw [if_neg fun h => h.2.1 (hmem.mp h.1)]
              exact hinsert
            · rw [hrest, hinsert]
              exact if_congr (and_congr_left' hmem.symm) rfl rfl

/-- A statement that succeeds gets to all indexes. -/
theorem missed_of_ok {new : Data} {same : ℕ → Bool} {errs : ℕ → IdxE} {is : List ℕ}
    {nodes : ℕ → Key → ℕ} (h : (insertLoop R new same errs is nodes).2 = true) :
    missed same errs is = [] := by
  induction is generalizing nodes with
  | nil => rfl
  | cons i rest ih =>
      rw [insertLoop] at h
      rw [missed]
      split at h
      · cases h
      · rename_i hbig
        rw [if_neg hbig]
        split at h
        · rename_i hsame
          rw [if_pos hsame]
          exact ih h
        · rename_i hsame
          rw [if_neg hsame]
          split at h
          · cases h
          · rename_i hdup
            rw [if_neg hdup]
            exact ih h

/-! ## One record -/

/-- The keys of the versions of other transactions -/
def Fixed (T : JrdTra) (R : Relation Key) (c : List Version) (i : ℕ) (K : Key) : Prop :=
  ∃ d ∈ listStaying (T.others c), R.key i d = K

omit [DecidableEq Key] in
theorem listStaying_sublist {c c' : List Version} (h : c.Sublist c') :
    (listStaying c).Sublist (listStaying c') := h.filterMap _

omit [DecidableEq Key] in
theorem Fixed.mem {c : List Version} {i : ℕ} {K : Key} (h : Fixed T R c i K) :
    ∃ d ∈ listStaying c, R.key i d = K := by
  obtain ⟨d, hd, hkey⟩ := h
  exact ⟨d, (listStaying_sublist (others_suffix c).sublist).subset hd, hkey⟩

omit [DecidableEq Key] in
theorem fixed_cons {v : Version} {c : List Version} (h : T.Owns v) :
    Fixed T R (v :: c) = Fixed T R c := by
  funext i K
  rw [Fixed, others_cons h, Fixed]

/-- The savepoints know the record, its own versions are on top, and its indexes cover its
history. -/
structure Sound (T : JrdTra) (R : Relation Key) (s : Record Key) : Prop where
  tracked : ∃ bs, Tracked T R s bs ∧ ∀ b ∈ bs, ChainFits R b
  others : ∀ v ∈ T.others s.chain, ¬T.Owns v
  covers : ∀ i ∈ R.indexes,
    Covers (s.nodes i) (Fixed T R s.chain i) ((history s.marks s.chain).map (R.key i))

omit [DecidableEq Key] in
theorem Stack.unseen {ms : List Mark} {bs : List (List Version)} {c : List Version}
    (h : Stack T R ms bs c) (htop : ∀ v rest, c = v :: rest → ¬T.Owns v) :
    ∀ m ∈ ms, m = .unseen := by
  induction h with
  | nil => exact nofun
  | @cons m ms b c bs hsince hrest ih =>
      have hm : m = .unseen := by
        cases m with
        | unseen => rfl
        | seen u =>
            obtain ⟨w, rest, heq, hw⟩ := hsince.owns
            exact absurd hw (htop w rest heq)
      subst hm
      intro m' hm'
      rcases List.mem_cons.mp hm' with rfl | hm'
      · rfl
      · refine ih (fun v rest heq => ?_) m' hm'
        obtain hc | hc := hsince.undone_eq
        · exact htop v rest (hc.trans heq)
        · intro hv
          refine htop v rest ?_ hv
          rw [← clean_of_owns hv, ← heq]
          exact hc

omit [DecidableEq Key] in
theorem Stack.of_unseen {ms : List Mark} (h : ∀ m ∈ ms, m = .unseen) (c : List Version) :
    Stack T R ms (List.replicate ms.length c) c := by
  induction ms with
  | nil => exact .nil
  | cons m ms ih =>
      rw [h m List.mem_cons_self]
      exact .cons (.unseen (.inl rfl)) (ih fun m' hm' => h m' (List.mem_cons_of_mem m hm'))

namespace Sound

variable {s : Record Key}

/-- Versions of a record that is not the transaction's have been garbage collected, and the
entries of those that are left are there. -/
theorem collected {c' : List Version} {nodes' : ℕ → Key → ℕ} (h : Sound T R s)
    (htop : ∀ v rest, s.chain = v :: rest → ¬T.Owns v) (hsub : c' ⊆ s.chain)
    (hnodes : ∀ i, ∀ d ∈ listStaying c', nodes' i (R.key i d) = s.nodes i (R.key i d)) :
    Sound T R ⟨c', nodes', s.marks⟩ := by
  obtain ⟨bs, htracked, -⟩ := h.tracked
  have hunseen := htracked.stack.unseen htop
  have hothers : ∀ v ∈ s.chain, ¬T.Owns v := by
    have hall := h.others
    cases hc : s.chain with
    | nil => exact nofun
    | cons v rest =>
        rw [hc, others_of_not_owns (htop v rest hc)] at hall
        exact hall
  have hfits : ChainFits R c' := fun v hv => htracked.fits v (hsub hv)
  have hfixed : T.others c' = c' := by
    cases c' with
    | nil => rfl
    | cons v rest => exact others_of_not_owns (hothers v (hsub List.mem_cons_self))
  refine ⟨⟨_, ⟨Stack.of_unseen hunseen c', hfits⟩, fun b hb => ?_⟩, fun v hv => ?_, fun i hi => ?_⟩
  · rw [List.eq_of_mem_replicate hb]
    exact hfits
  · rw [hfixed] at hv
    exact hothers v (hsub hv)
  · have hold := h.covers i hi
    rw [history_of_unseen hunseen] at hold ⊢
    refine ⟨fun K hK => ?_, fun K hK => ?_⟩
    · obtain ⟨d, hd, rfl⟩ := hK.mem
      obtain ⟨v, hv, hdata⟩ := mem_listStaying.mp hd
      refine Nat.lt_of_lt_of_eq ?_ (hnodes i d hd).symm
      exact hold.pos (List.mem_map_of_mem (mem_listStaying.mpr ⟨v, hsub hv, hdata⟩))
    · rw [Runs.runs_eq_zero]
      · exact Nat.zero_le _
      · intro hmem
        obtain ⟨d, hd, hkey⟩ := List.mem_map.mp hmem
        refine hK ⟨d, ?_, hkey⟩
        rw [hfixed]
        exact hd

end Sound

/-- Posting a savepoint: the marks `y` and `x` become one. If both had data to take away, that
of `x` is given up. -/
theorem Since.merge_history {x y : Mark} {ms : List Mark} {b b' : List Version} {s : Record Key}
    (hy : Since T R y b s.chain) (hx : Since T R x b' (y.undone s.chain))
    (hsafe : y.Pushes → x = .unseen) (hms : s.marks = y :: x :: ms) :
    (x.merge y).undone s.chain = x.undone (y.undone s.chain) ∧
      (((x.merge y).gone s.chain).toList =
            (y.gone s.chain).toList ++ (x.gone (y.undone s.chain)).toList ∧
          (s.post R).nodes = s.nodes ∨
        ∃ w g, y.gone s.chain = some w ∧ x.gone (y.undone s.chain) = some g ∧
          (x.merge y).gone s.chain = some w ∧
            (∀ d ∈ listStaying (x.undone (y.undone s.chain)),
                d ∈ x.image.toList ++ listStaying s.chain) ∧
              (s.post R).nodes =
                idxGarbageCollect R s.nodes [g] (x.image.toList ++ listStaying s.chain)) := by
  obtain ⟨chain, nodes, marks⟩ := s
  cases hms
  dsimp only at hy hx ⊢
  cases hy with
  | unseen hc => exact ⟨rfl, .inl ⟨rfl, rfl⟩⟩
  | pushed hw =>
      obtain rfl := hsafe trivial
      refine ⟨rfl, .inl ⟨?_, rfl⟩⟩
      simp [Mark.merge, Mark.post, Mark.gone]
  | pushedErased hw hd hsome hnone hempty hsame hnew =>
      obtain rfl := hsafe ⟨hempty, hnew⟩
      simp [Mark.merge, Mark.post, Mark.gone, Mark.undone, hempty, hsame, hnew, Record.post,
        Record.verbPost]
  | @changed _ rest v w u hb hv hw hformat hdata hsome hfits hsame =>
      have hundone : (Mark.seen (some u)).undone (w :: rest) =
          ⟨w.transaction, w.format, some u.data.bytes⟩ :: rest := by
        simp [Mark.undone, hsame, hfits.ne_nil]
      have hold := Version.data_written (hformat.trans (Version.eq_of_data hdata).2)
      obtain ⟨new, hnew⟩ := Option.isSome_iff_exists.mp hsome
      rw [hundone] at hx ⊢
      cases hx with
      | unseen =>
          simp [Mark.merge, Mark.post, Mark.gone, Mark.undone, hfits.ne_nil, hsame, Record.post,
            Record.verbPost]
      | pushed =>
          simp +contextual [Mark.merge, Mark.post, Mark.gone, Mark.undone, Mark.image, hfits.ne_nil,
            hsame, hnew, hold, Record.post, Record.verbPost, Record.garbageCollectIdx,
            listStaying_cons]
      | @changed _ _ v' _ u' hb' hv' hw' hformat' hdata' hsome' hfits' hsame' =>
          have hold' := Version.data_written (hformat'.trans (Version.eq_of_data hdata').2)
          simp +contextual [Mark.merge, Mark.post, Mark.gone, Mark.undone, Mark.image, hfits.ne_nil,
            hfits'.ne_nil, hsame, hsame', hnew, hold, hold', Record.post, Record.verbPost,
            Record.garbageCollectIdx, listStaying_cons]
      | changedErased _ _ _ _ _ _ _ hnone' =>
          rw [hold] at hnone'
          cases hnone'
      | erased _ _ _ _ hnone' =>
          rw [hold] at hnone'
          cases hnone'
      | pushedErased _ _ _ hnone' =>
          rw [hold] at hnone'
          cases hnone'
  | @changedErased _ rest v w d u hb hv hw hd hformat hdata hsome hnone hfits hsame =>
      have hundone : (Mark.seen (some u)).undone (d :: w :: rest) =
          ⟨w.transaction, w.format, some u.data.bytes⟩ :: rest := by
        simp [Mark.undone, hsame, hfits.ne_nil]
      have hold := Version.data_written (hformat.trans (Version.eq_of_data hdata).2)
      obtain ⟨new, hnew⟩ := Option.isSome_iff_exists.mp hsome
      rw [hundone] at hx ⊢
      cases hx with
      | unseen =>
          simp [Mark.merge, Mark.post, Mark.gone, Mark.undone, hfits.ne_nil, hsame, Record.post,
            Record.verbPost]
      | pushed =>
          simp +contextual [Mark.merge, Mark.post, Mark.gone, Mark.undone, Mark.image, hfits.ne_nil,
            hsame, hnew, hold, Record.post, Record.verbPost, Record.garbageCollectIdx,
            listStaying_cons]
      | @changed _ _ v' _ u' hb' hv' hw' hformat' hdata' hsome' hfits' hsame' =>
          have hold' := Version.data_written (hformat'.trans (Version.eq_of_data hdata').2)
          simp +contextual [Mark.merge, Mark.post, Mark.gone, Mark.undone, Mark.image, hfits.ne_nil,
            hfits'.ne_nil, hsame, hsame', hnew, hold, hold', Record.post, Record.verbPost,
            Record.garbageCollectIdx, listStaying_cons]
      | changedErased _ _ _ _ _ _ _ hnone' =>
          rw [hold] at hnone'
          cases hnone'
      | erased _ _ _ _ hnone' =>
          rw [hold] at hnone'
          cases hnone'
      | pushedErased _ _ _ hnone' =>
          rw [hold] at hnone'
          cases hnone'
  | @erased _ rest v d u hb hv hsome hd hnone hempty hsame hnew =>
      have hundone : (Mark.seen (some u)).undone (d :: v :: rest) = v :: rest := by
        simp [Mark.undone, hsame, hempty, hnew]
      rw [hundone] at hx ⊢
      cases hx with
      | unseen =>
          simp [Mark.merge, Mark.post, Mark.gone, Mark.undone, hempty, hsame, hnew, Record.post,
            Record.verbPost]
      | pushed =>
          simp [Mark.merge, Mark.post, Mark.gone, Mark.undone, hempty, hsame, hnew, Record.post,
            Record.verbPost]
      | changed hb' hv' hw' hformat' hdata' hsome' hfits' hsame' =>
          simp [Mark.merge, Mark.post, Mark.gone, Mark.undone, hempty, hsame, hnew, hfits'.ne_nil,
            hsame', Record.post, Record.verbPost]
      | changedErased _ _ _ _ _ _ _ hnone' =>
          rw [hnone'] at hsome
          cases hsome
      | erased _ _ _ _ hnone' =>
          rw [hnone'] at hsome
          cases hsome
      | pushedErased _ _ _ hnone' =>
          rw [hnone'] at hsome
          cases hsome

omit [DecidableEq Key] in
/-- The savepoints know the record, and the chains at their starts fit. -/
theorem Stack.known_take {s : Record Key} {bs : List (List Version)} (h : Tracked T R s bs)
    (hfits : ∀ b ∈ bs, ChainFits R b) (n : ℕ) :
    ∃ bs, Tracked T R { s with marks := s.marks.take n } bs ∧ ∀ b ∈ bs, ChainFits R b :=
  ⟨bs.take n, h.take n, fun b hb => hfits b (List.mem_of_mem_take hb)⟩

/-- What is left when the innermost savepoint is undone, if its indexes cover its history -/
theorem undo_sound {s : Record Key} {m : Mark} {ms : List Mark}
    (htracked : ∃ bs, Tracked T R s bs ∧ ∀ b ∈ bs, ChainFits R b)
    (hothers : ∀ v ∈ T.others s.chain, ¬T.Owns v) (hms : s.marks = m :: ms)
    (hcovers : Fixed T R (m.undone s.chain) = Fixed T R s.chain → ∀ i ∈ R.indexes,
      Covers ((m.gone s.chain).elim s.nodes (fun d =>
          idxGarbageCollect R s.nodes [d] (listStaying (m.undone s.chain))) i)
        (Fixed T R (m.undone s.chain) i) ((history ms (m.undone s.chain)).map (R.key i))) :
    ∃ s', s.undo T R = some s' ∧ Sound T R s' ∧ s'.marks = ms := by
  obtain ⟨bs, htracked, hfits⟩ := htracked
  have hstack := htracked.stack
  rw [hms] at hstack
  cases bs with
  | nil => cases hstack
  | cons b bs =>
      obtain ⟨s', hundo, -, hkept⟩ := htracked.undo
      cases hstack with
      | cons hsince _ =>
          have hothers' := hsince.undoing.others_eq
          rw [hsince.undo_eq hms] at hundo
          cases hundo
          refine ⟨_, hsince.undo_eq hms, ⟨⟨bs, hkept (hfits b List.mem_cons_self),
            fun b' hb' => hfits b' (List.mem_cons_of_mem b hb')⟩, ?_, hcovers ?_⟩, rfl⟩
          · rw [hothers']
            exact hothers
          · funext i K
            rw [Fixed, Fixed, hothers']

namespace Sound

variable {s : Record Key}

theorem start (h : Sound T R s) : Sound T R { s with marks := .unseen :: s.marks } where
  tracked := by
    obtain ⟨bs, htracked, hfits⟩ := h.tracked
    refine ⟨s.chain :: bs, htracked.start, fun b hb => ?_⟩
    rcases List.mem_cons.mp hb with rfl | hb
    · exact htracked.fits
    · exact hfits b hb
  others := h.others
  covers := h.covers

theorem take (h : Sound T R s) (n : ℕ) : Sound T R { s with marks := s.marks.take n } where
  tracked := by
    obtain ⟨bs, htracked, hfits⟩ := h.tracked
    exact Stack.known_take htracked hfits n
  others := h.others
  covers i hi := by
    obtain ⟨bs, htracked, -⟩ := h.tracked
    exact (h.covers i hi).sublist ((htracked.stack.history_take n).map _)

/-- Undoing a savepoint -/
theorem undo {m : Mark} {ms : List Mark} (h : Sound T R s) (hms : s.marks = m :: ms) :
    ∃ s', s.undo T R = some s' ∧ Sound T R s' ∧ s'.marks = ms := by
  refine undo_sound h.tracked h.others hms fun hfixed i hi => ?_
  obtain ⟨bs, htracked, -⟩ := h.tracked
  have hold := h.covers i hi
  have hstack := htracked.stack
  rw [hms, history] at hold
  rw [hms] at hstack
  rw [hfixed]
  cases hgone : m.gone s.chain with
  | none =>
      rw [hgone] at hold
      exact hold
  | some g =>
      rw [hgone] at hold
      cases bs with
      | nil => cases hstack
      | cons b bs =>
          refine covers_collect_head hi hold (fun K hK => ?_) fun x hx => hstack.undone.head_mem hx
          rw [← hfixed] at hK
          exact hK.mem

/-- Posting a savepoint -/
theorem post (h : Sound T R s) (hsafe : s.SafePost) : Sound T R (s.post R) := by
  obtain ⟨bs, htracked, hfits⟩ := h.tracked
  have hstack := htracked.stack
  cases hms : s.marks with
  | nil =>
      have heq : s.post R = s := by rw [Record.post, hms]
      rw [heq]
      exact h
  | cons y ms =>
      rw [hms] at hstack
      obtain _ | @⟨_, _, b, _, bs, hy, hrest⟩ := hstack
      refine ⟨⟨bs, htracked.post hsafe, fun b' hb' => hfits b' (List.mem_cons_of_mem b hb')⟩, ?_,
        fun i hi => ?_⟩
      · rw [post_chain]
        exact h.others
      · have hold := h.covers i hi
        rw [post_marks hms, post_chain]
        rw [hms] at hold
        have hundone : Stack T R ms bs (y.undone s.chain) := (Stack.cons hy hrest).undone
        cases ms with
        | nil =>
            have hnodes : (s.post R).nodes = s.nodes := by
              obtain ⟨chain, nodes, marks⟩ := s
              cases hms
              rw [Record.post]
              dsimp only
              split
              · rfl
              · rfl
              · split
                · split <;> rfl
                · rfl
            rw [hnodes]
            exact hold.sublist ((Stack.sublist_history (.cons hy hrest)).map _)
        | cons x ms =>
            obtain _ | @⟨_, _, b', _, bs, hx, hrest'⟩ := hundone
            have hlast : Stack T R ms bs (x.undone (y.undone s.chain)) :=
              (Stack.cons hx hrest').undone
            obtain ⟨hchain, hcases⟩ := hy.merge_history hx (hsafe y x ms hms) hms
            rw [Mark.mergeAll, history, hchain]
            rw [history, history] at hold
            rcases hcases with ⟨hgone, hnodes⟩ | ⟨w, g, hw, hg, hboth, hleft, hnodes⟩
            · rw [hgone, hnodes, List.append_assoc]
              exact hold
            · rw [hw, hg] at hold
              rw [hboth, hnodes]
              have hsub : ∀ d ∈ listStaying s.chain, d ∈ x.image.toList ++ listStaying s.chain :=
                fun d hd => List.mem_append_right _ hd
              refine covers_collect_second hi hold (fun K hK => ?_) (hsub w (hy.undoing.gone_mem hw))
                fun d hd => ?_
              · obtain ⟨d, hd, hkey⟩ := hK.mem
                exact ⟨d, hsub d hd, hkey⟩
              · exact hleft d (hlast.head_mem hd)

end Sound

end Firebird.Vio
