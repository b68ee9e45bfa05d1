import Firebird.Jrd.ReserveSlot

/-! # Compression of the index root page

Which calls of `BTR_reserve_slot` keep the descriptors of the indexes that there are. Compression
gives them new offsets and leaves the bytes where they are.
-/

namespace Firebird.IndexRoot

open Extent (Apart Within)

variable {d : Dbb} {idx : Idx} {page : Irt} {created : ℕ → List Irtd}

/-! ## Compression -/

/-- The slot is of an index that is there. -/
def live (s : IrtRepeat) : Bool := s.root ≠ 0

/-- The slots with the offsets that `compress_root` gives them from `p` down -/
def packFrom : ℤ → List IrtRepeat → List IrtRepeat
  | _, [] => []
  | p, s :: ss =>
      if live s then
        { s with desc := ((p - 4 * s.keys) % 65536).toNat } :: packFrom (p - 4 * s.keys) ss
      else s :: packFrom p ss

theorem compressRoot_rpt (d : Dbb) (page : Irt) :
    (page.compressRoot d).2.rpt = packFrom d.pageSize page.rpt := by
  have hloop (ss : List IrtRepeat) (p : ℤ) (temp : Memory UCHAR) :
      (Irt.compressFrom page.bytes p temp ss).2.2 = packFrom p ss := by
    induction ss generalizing p temp with
    | nil => rfl
    | cons s ss ih =>
        rw [Irt.compressFrom, packFrom]
        by_cases hroot : s.root ≠ 0
        · rw [if_pos hroot, live, if_pos (decide_eq_true hroot)]
          dsimp only
          rw [ih]
          push_cast
          rfl
        · rw [if_neg hroot, live, if_neg (by simpa using hroot)]
          dsimp only
          rw [ih]
  exact hloop page.rpt d.pageSize page.bytes

/-- The slots are moved one by one. -/
theorem packFrom_forall₂ (p : ℤ) (ss : List IrtRepeat) :
    List.Forall₂ (fun s t => (live s = false → t = s) ∧ t.root = s.root ∧ t.flags = s.flags ∧
      t.keys = s.keys) ss (packFrom p ss) := by
  induction ss generalizing p with
  | nil => exact .nil
  | cons s ss ih =>
      rw [packFrom]
      split
      · rename_i hlive
        refine .cons ⟨fun h => ?_, rfl, rfl, rfl⟩ (ih _)
        rw [h] at hlive
        cases hlive
      · exact .cons ⟨fun _ => rfl, rfl, rfl, rfl⟩ (ih _)

/-- The room that the descriptors of the indexes take -/
def liveLength (ss : List IrtRepeat) : ℕ :=
  (((ss.filter live).map IrtRepeat.area).map Extent.length).sum

/-- The descriptors lie one below the other. -/
theorem pack_within (ss : List IrtRepeat) {p : ℕ} (hp : p < 65536) (h : liveLength ss ≤ p) :
    Within (p - liveLength ss) p (((packFrom p ss).filter live).map IrtRepeat.area) := by
  induction ss generalizing p with
  | nil => exact Extent.within_nil
  | cons s ss ih =>
      rw [packFrom]
      cases hlive : live s with
      | false =>
          have hlen : liveLength (s :: ss) = liveLength ss := by
            rw [liveLength, List.filter_cons, hlive]
            rfl
          rw [hlen] at h ⊢
          rw [if_neg Bool.false_ne_true, List.filter_cons, hlive, if_neg Bool.false_ne_true]
          exact ih hp h
      | true =>
          have hlen : liveLength (s :: ss) = 4 * s.keys + liveLength ss := by
            rw [liveLength, List.filter_cons, hlive]
            rfl
          rw [hlen] at h ⊢
          have hdesc : (((p : ℤ) - 4 * s.keys) % 65536).toNat = p - 4 * s.keys := by omega
          have hnext : (p : ℤ) - 4 * s.keys = (p - 4 * s.keys : ℕ) := by omega
          have hrest := ih (p := p - 4 * s.keys) (by omega) (by omega)
          have hmoved : live { s with desc := (((p : ℤ) - 4 * s.keys) % 65536).toNat } = true :=
            hlive
          rw [if_pos rfl, List.filter_cons, hmoved, if_pos rfl, List.map_cons, Extent.within_cons,
            hnext]
          refine ⟨⟨⟨?_, ?_⟩, ?_⟩, ?_⟩
          · show _ ≤ ((p - 4 * s.keys : ℕ) % 65536 : ℤ).toNat
            omega
          · show ((p - 4 * s.keys : ℕ) % 65536 : ℤ).toNat + 4 * s.keys ≤ p
            omega
          · intro b hb
            refine .inr (.inr (.inr ?_))
            refine (hrest.2 b hb).2.trans ?_
            show _ ≤ ((p - 4 * s.keys : ℕ) % 65536 : ℤ).toNat
            omega
          · refine hrest.mono ?_ ?_ <;> omega

/-- The slot is of an index that is being created. -/
def pending (s : IrtRepeat) : Bool := s.inProgress && !live s

theorem filter_pending_packFrom (p : ℤ) (ss : List IrtRepeat) :
    (packFrom p ss).filter pending = ss.filter pending := by
  induction ss generalizing p with
  | nil => rfl
  | cons s ss ih =>
      rw [packFrom]
      split
      · rename_i hlive
        have hs : pending s = false := by rw [pending, hlive, Bool.not_true, Bool.and_false]
        have ht (n : ℕ) : pending { s with desc := n } = false := hs
        rw [List.filter_cons, List.filter_cons, hs, ht, ih]
        rfl
      · rw [List.filter_cons, List.filter_cons, ih]

/-- The descriptors in use are those of the indexes, and of those that are being created. -/
theorem areas_perm (ss : List IrtRepeat) :
    (areas ss).Perm ((ss.filter live).map IrtRepeat.area ++
      (ss.filter pending).map IrtRepeat.area) := by
  have hlive : (ss.filter IrtRepeat.used).filter live = ss.filter live := by
    rw [List.filter_filter]
    refine List.filter_congr fun s _ => ?_
    rw [IrtRepeat.used, live]
    cases decide (s.root ≠ 0) <;> rfl
  have hpending : (ss.filter IrtRepeat.used).filter (fun s => !live s) = ss.filter pending := by
    rw [List.filter_filter]
    refine List.filter_congr fun s _ => ?_
    rw [pending, IrtRepeat.used, live]
    cases decide (s.root ≠ 0) <;> simp
  have hperm := List.filter_append_perm live (ss.filter IrtRepeat.used)
  rw [hlive, hpending] at hperm
  rw [areas, ← List.map_append]
  exact (hperm.map _).symm

/-- Where `compress_root` puts the descriptors of an index there are the same ones already, and none
of an index that is being created. -/
def Settled (d : Dbb) (page : Irt) : Prop :=
  ∀ (i : ℕ) (s t : IrtRepeat), page.rpt[i]? = some s →
    (packFrom d.pageSize page.rpt)[i]? = some t → live s = true →
    description page.bytes t = description page.bytes s ∧
      ∀ u ∈ page.rpt, pending u = true → Apart t.area u.area

/-- The slot that a moved one has been -/
theorem exists_packed {i : ℕ} {t : IrtRepeat} {p : ℤ} {ss : List IrtRepeat}
    (ht : (packFrom p ss)[i]? = some t) :
    ∃ s, ss[i]? = some s ∧ (live s = false → t = s) ∧ live t = live s ∧ t.used = s.used := by
  obtain ⟨hlt, rfl⟩ := List.getElem?_eq_some_iff.mp ht
  obtain ⟨hlen, hrel⟩ := List.forall₂_iff_get.mp (packFrom_forall₂ p ss)
  obtain ⟨heq, hroot, hflags, -⟩ := hrel i (by omega) hlt
  refine ⟨ss[i], List.getElem?_eq_getElem (by omega), heq, ?_, ?_⟩
  · exact congrArg (fun r : ℤ => decide (r ≠ 0)) hroot
  · simp only [IrtRepeat.used, IrtRepeat.inProgress]
    rw [List.get_eq_getElem, List.get_eq_getElem] at hroot hflags
    rw [hroot, hflags]

/-- The descriptors of the indexes take no more room than there is behind the lowest ones. -/
theorem liveLength_le {lo : ℕ} (h : Within lo d.pageSize (areas page.rpt)) :
    liveLength page.rpt ≤ d.pageSize - lo := by
  have hlive := (Extent.within_perm (areas_perm page.rpt)).mp h
  have hsub := hlive.sublist (List.sublist_append_left _ _)
  exact Extent.sum_length_le lo d.pageSize hsub.1 hsub.2

/-- The compressed page is intact just when the descriptors have been where they are to be. -/
theorem compress_intact_iff (h : Intact d page created) :
    Intact d (page.compressRoot d).2 created ↔ Settled d page := by
  have hrpt := compressRoot_rpt d page
  have hbytes : (page.compressRoot d).2.bytes = page.bytes := rfl
  have hlen : (packFrom d.pageSize page.rpt).length = page.rpt.length :=
    (packFrom_forall₂ d.pageSize page.rpt).length_eq.symm
  have hperm := areas_perm (packFrom d.pageSize page.rpt)
  rw [filter_pending_packFrom] at hperm
  constructor
  · intro hc i s t hs ht hlive
    obtain ⟨s', hs', -, hlive', hused'⟩ := exists_packed ht
    obtain rfl := Option.some.inj (hs.symm.trans hs')
    have hused : s.used = true := by
      rw [IrtRepeat.used, ← live, hlive, Bool.true_or]
    have htfields := hc.fields i t (by rw [hrpt]; exact ht) (hused'.trans hused)
    refine ⟨htfields.trans (h.fields i s hs hused).symm, fun u hu hpending => ?_⟩
    have hwithin := hc.within
    rw [hrpt, Extent.within_perm hperm] at hwithin
    refine (List.pairwise_append.mp hwithin.1).2.2 _ ?_ _ ?_
    · refine List.mem_map_of_mem (List.mem_filter.mpr ⟨List.mem_of_getElem? ht, ?_⟩)
      rw [hlive', hlive]
    · exact List.mem_map_of_mem (List.mem_filter.mpr ⟨hu, hpending⟩)
  · intro hsettled
    have hwithin := (Extent.within_perm (areas_perm page.rpt)).mp h.within
    have hle := liveLength_le h.within
    constructor
    · rw [hrpt, hlen, Extent.within_perm hperm]
      have hpack := pack_within page.rpt d.lt (by omega)
      have hpending := hwithin.sublist (List.sublist_append_right _ _)
      constructor
      · refine List.pairwise_append.mpr ⟨hpack.1, hpending.1, ?_⟩
        intro a ha b hb
        obtain ⟨t, ht, rfl⟩ := List.mem_map.mp ha
        obtain ⟨u, hu, rfl⟩ := List.mem_map.mp hb
        obtain ⟨ht, htlive⟩ := List.mem_filter.mp ht
        obtain ⟨hu, hupending⟩ := List.mem_filter.mp hu
        obtain ⟨i, hi⟩ := List.mem_iff_getElem?.mp ht
        obtain ⟨s, hs, -, hlive, -⟩ := exists_packed hi
        exact (hsettled i s t hs hi (hlive.symm.trans htlive)).2 u hu hupending
      · intro a ha
        rcases List.mem_append.mp ha with ha | ha
        · obtain ⟨hlow, hhigh⟩ := hpack.2 a ha
          refine ⟨?_, hhigh⟩
          -- there is an index, so that the slots end in the page
          obtain ⟨t, ht, -⟩ := List.mem_map.mp ha
          obtain ⟨ht, htlive⟩ := List.mem_filter.mp ht
          obtain ⟨i, hi⟩ := List.mem_iff_getElem?.mp ht
          obtain ⟨s, hs, -, hlive, -⟩ := exists_packed hi
          have hused : s.used = true := by
            rw [IrtRepeat.used, ← live, ← hlive, htlive, Bool.true_or]
          have hs' := h.within.2 _ (mem_areas (List.mem_of_getElem? hs) hused)
          unfold Extent.stop at hs'
          omega
        · exact hpending.2 a ha
    · intro i t ht hused
      rw [hrpt] at ht
      obtain ⟨s, hs, heq, -, hused'⟩ := exists_packed ht
      rw [hbytes, ← h.fields i s hs (hused'.symm.trans hused)]
      cases hlive : live s with
      | true => exact (hsettled i s t hs ht hlive).1
      | false => rw [heq hlive]

/-- Compression does not lower the high water mark. -/
theorem space_le_compress (h : Intact d page created) :
    page.space d ≤ (page.compressRoot d).2.space d := by
  have hlow : Within (page.space d) d.pageSize (areas page.rpt) := by
    refine ⟨h.within.1, fun a ha => ⟨?_, (h.within.2 a ha).2⟩⟩
    obtain ⟨s, hs, rfl⟩ := List.mem_map.mp ha
    obtain ⟨hs, hused⟩ := List.mem_filter.mp hs
    exact space_le_desc hs hused
  have hle := liveLength_le hlow
  have hspace := space_le d page
  have hpack := pack_within page.rpt d.lt (by omega)
  rw [le_space_iff, compressRoot_rpt]
  refine ⟨hspace, fun t ht hused => ?_⟩
  obtain ⟨i, hi⟩ := List.mem_iff_getElem?.mp ht
  obtain ⟨s, hs, heq, hlive, hused'⟩ := exists_packed hi
  cases hcase : live s with
  | true =>
      have hlow' := (hpack.2 t.area (List.mem_map_of_mem (List.mem_filter.mpr
        ⟨ht, hlive.trans hcase⟩))).1
      change _ ≤ t.desc at hlow'
      omega
  | false =>
      rw [heq hcase]
      exact space_le_desc (List.mem_of_getElem? hs) (hused'.symm.trans hused)

/-! ## Runs -/

/-- What the descriptors of the indexes are to be, after a slot has been reserved -/
def createdAfter (created : ℕ → List Irtd) (idx : Idx) : Option ℕ → ℕ → List Irtd
  | none => created
  | some slot => Function.update created slot idx.rpt

/-- The condition of `BTR_reserve_slot`: the offset below the others is not negative, and a page
that has no room is settled. -/
def Meets (d : Dbb) (page : Irt) (idx : Idx) : Prop :=
  page.rpt.length ≤ d.maxIdx →
    4 * idx.rpt.length ≤ page.space d ∧ (page.hasRoom d idx = true ∨ Settled d page)

/-- The second try, on a compressed page -/
theorem retry_intact_iff (h : Intact d page created)
    (hspace : 4 * idx.rpt.length ≤ page.space d) (hmax : ¬d.maxIdx < page.rpt.length)
    (hroom : ¬page.hasRoom d idx = true) :
    Intact d (page.reserveSlot d idx).2 (createdAfter created idx (page.reserveSlot d idx).1) ↔
      Settled d page := by
  have hspace' := hspace.trans (space_le_compress h)
  have hretry := compress_intact_iff h
  by_cases hroom' : (page.compressRoot d).2.hasRoom d idx = true
  · have hsecond : page.reserveSlot d idx =
        (some (page.compressRoot d).2.freeSlot, (page.compressRoot d).2.place d idx) := by
      unfold Irt.reserveSlot
      rw [if_neg hmax, if_neg hroom]
      exact if_pos hroom'
    rw [hsecond, ← hretry]
    exact ⟨intact_of_place, fun hc => place_intact hc hspace' hroom'⟩
  · have hsecond : page.reserveSlot d idx = (none, (page.compressRoot d).2) := by
      unfold Irt.reserveSlot
      rw [if_neg hmax, if_neg hroom]
      exact if_neg hroom'
    rw [hsecond]
    exact hretry

/-- One call keeps all descriptors just when it meets the condition. -/
theorem reserveSlot_intact_iff (h : Intact d page created) :
    Intact d (page.reserveSlot d idx).2 (createdAfter created idx (page.reserveSlot d idx).1) ↔
      Meets d page idx := by
  unfold Meets
  by_cases hmax : d.maxIdx < page.rpt.length
  · have hnone : page.reserveSlot d idx = (none, page) := if_pos hmax
    rw [hnone]
    exact iff_of_true h fun hle => absurd hmax (Nat.not_lt.mpr hle)
  · rw [imp_iff_right (Nat.le_of_not_lt hmax)]
    have hlen := idx.length_le
    have hcount : page.rpt.length ≤ 256 := (Nat.le_of_not_lt hmax).trans (Nat.min_le_right _ _)
    have hplace (hroom : page.hasRoom d idx = true) :
        page.reserveSlot d idx = (some page.freeSlot, page.place d idx) := by
      rw [Irt.reserveSlot, if_neg hmax, if_pos hroom]
    by_cases hspace : 4 * idx.rpt.length ≤ page.space d
    · by_cases hroom : page.hasRoom d idx = true
      · rw [hplace hroom]
        exact iff_of_true (place_intact h hspace hroom) ⟨hspace, .inl hroom⟩
      · rw [retry_intact_iff h hspace hmax hroom, and_iff_right hspace, or_iff_right hroom]
    · -- the offset is one behind the page, where there is room
      have hroom : page.hasRoom d idx = true := by
        have hdesc := newDesc_of_lt (Nat.lt_of_not_le hspace)
        have hend : slotsEnd (page.rpt.length + 1) ≤ 3104 := by
          unfold slotsEnd
          omega
        refine hasRoom_iff.mpr (hend.trans ?_)
        rw [hdesc]
        omega
      rw [hplace hroom]
      exact iff_of_false (not_intact_place (Nat.lt_of_not_le hspace)) fun hc => hspace hc.1

/-- The page, and what the indexes were created with -/
structure State where
  page : Irt
  created : ℕ → List Irtd

inductive Op where
  | reserve (idx : Idx)
  | setRoot (i : ℕ) (root : ℤ)
  | delete (i : ℕ)

/-- One operation: a root is set for an index that is there or is being created. -/
def Op.run (d : Dbb) (st : State) : Op → Option State
  | reserve idx =>
      let r := st.page.reserveSlot d idx
      some ⟨r.2, createdAfter st.created idx r.1⟩
  | setRoot i root =>
      if ((st.page.rpt[i]?.map IrtRepeat.used).getD false && root ≠ 0) = true then
        some { st with page := st.page.setRoot i root }
      else none
  | delete i => some { st with page := st.page.deleteIndex i }

/-- The index root page of a relation, which has no indexes at first -/
def indexRoot (d : Dbb) : Transition.System State Op where
  init st := st.page.rpt = []
  step st op st' := op.run d st = some st'

/-- The condition of an operation -/
def Op.Meets (d : Dbb) (st : State) : Op → Prop
  | reserve idx => IndexRoot.Meets d st.page idx
  | setRoot _ _ | delete _ => True

variable {st st' : State} {op : Op}

theorem run_intact_iff (h : Intact d st.page st.created) (hrun : op.run d st = some st') :
    Intact d st'.page st'.created ↔ op.Meets d st := by
  cases op with
  | reserve idx =>
      obtain rfl := Option.some.inj hrun
      exact reserveSlot_intact_iff h
  | setRoot i root =>
      rw [Op.run] at hrun
      split at hrun
      · rename_i hused
        obtain rfl := Option.some.inj hrun
        refine iff_of_true (setRoot_intact h fun s hs => ?_) trivial
        rw [hs] at hused
        exact (Bool.and_eq_true_iff.mp hused).1
      · cases hrun
  | delete i =>
      obtain rfl := Option.some.inj hrun
      exact iff_of_true (deleteIndex_intact h i) trivial

/-- In every run whose calls of `BTR_reserve_slot` meet the condition the descriptors survive, and a
call that does not meet it spoils them. -/
theorem descriptors_survive
    (h : Transition.Reachable ((indexRoot d).restrict fun st op => op.Meets d st) st) :
    Intact d st.page st.created ∧
      ∀ (op : Op) (st' : State), op.run d st = some st' →
        (Intact d st'.page st'.created ↔ op.Meets d st) := by
  have hintact : Intact d st.page st.created := by
    refine h.invariant (I := fun st => Intact d st.page st.created) (fun st hst => ?_)
      fun st op st' hst hstep => ?_
    · have hnil : areas st.page.rpt = [] := by
        rw [hst]
        rfl
      refine ⟨hnil ▸ Extent.within_nil, fun i s hs => ?_⟩
      rw [hst] at hs
      cases hs
    · exact (run_intact_iff hst hstep.1).mpr hstep.2
  exact ⟨hintact, fun op st' hrun => run_intact_iff hintact hrun⟩

theorem smallest_lt : 1024 < 65536 := by decide

theorem smallest_le : 1024 ≤ 1024 := Nat.le_refl 1024

theorem ushort_pos : 0 < 65536 := by decide

/-- Pages of 1024 bytes -/
def smallPages : Dbb := ⟨1024, smallest_lt, smallest_le⟩

/-- An index of one key -/
def oneKey : Idx := ⟨0, [⟨⟨0, ushort_pos⟩, ⟨0, ushort_pos⟩⟩], by decide⟩

/-- The page without indexes -/
def noIndexes : State := ⟨⟨[], fun _ => 0⟩, fun _ => []⟩

theorem descriptors_survive_one :
    ∃ st, (Op.reserve oneKey).run smallPages noIndexes = some st ∧
      Intact smallPages st.page st.created := by
  have h := descriptors_survive (d := smallPages) (.init (s := noIndexes) rfl)
  refine ⟨_, rfl, (h.2 (.reserve oneKey) _ rfl).mpr fun _ => ?_⟩
  exact ⟨by decide, .inl (by decide)⟩

/-- An index of sixteen keys of the field -/
def sixteenKeys (field : Fin 65536) : Idx :=
  ⟨0, List.replicate 16 ⟨field, ⟨0, ushort_pos⟩⟩, Nat.le_of_eq List.length_replicate⟩

/-- Thirteen indexes of sixteen keys fill a page of 1024 bytes. The second one is there, and the
first one has been deleted when one more is reserved. -/
theorem descriptors_survive_compressed :
    ∃ st, Transition.Reachable (indexRoot smallPages) st ∧
      ¬Intact smallPages st.page st.created := by
  let ops : List Op := (List.range 13).map (fun i => Op.reserve (sixteenKeys (Fin.ofNat 65536 i))) ++
    [.setRoot 1 7, .delete 0, .reserve (sixteenKeys 13)]
  have hrun : ((ops.foldlM (fun st (op : Op) => op.run smallPages st) noIndexes).bind fun st =>
      st.page.rpt[1]?.map fun s =>
        s.used && decide (description st.page.bytes s ≠ st.created 1)) = some true := by
    decide
  obtain ⟨st, hst, hslot⟩ := Option.bind_eq_some_iff.mp hrun
  obtain ⟨s, hs, hwrong⟩ := Option.map_eq_some_iff.mp hslot
  refine ⟨st, .of_foldlM (fun _ _ _ _ h => h) (.init (s := noIndexes) rfl) hst, fun h => ?_⟩
  rw [Bool.and_eq_true, decide_eq_true_iff] at hwrong
  exact hwrong.2 (h.fields 1 s hs hwrong.1)

end Firebird.IndexRoot
