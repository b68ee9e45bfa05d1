import Firebird.Jrd.IndexRoot

/-! # Indexes on the index root page

The descriptors of the indexes that there are, when an index is put on a page that has room for it
and when a slot is changed.
-/

namespace Firebird.IndexRoot

open Extent (Apart Within)

/-! ## Descriptors -/

@[simp]
theorem length_image (ds : List Irtd) : (image ds).length = 4 * ds.length := by
  induction ds with
  | nil => rfl
  | cons x ds ih =>
      rw [image, List.flatMap_cons, List.length_append, ← image, ih, List.length_cons]
      show 4 + _ = _
      omega

theorem readIrtd_of_holds {m : Memory UCHAR} {a : ℕ} {x : Irtd} (h : m.Holds a x.image) :
    readIrtd m a = x := by
  obtain ⟨field, itype⟩ := x
  simp only [Irtd.image, ushort, List.cons_append, List.nil_append, Memory.holds_cons] at h
  obtain ⟨h0, h1, h2, h3, -⟩ := h
  have hfield := field.isLt
  have hitype := itype.isLt
  refine (Irtd.mk.injEq _ _ _ _).mpr ⟨Fin.ext ?_, Fin.ext ?_⟩
  · show (m a).val + 256 * (m (a + 1)).val = field.val
    rw [h0, h1]
    dsimp only
    omega
  · show (m (a + 1 + 1)).val + 256 * (m (a + 1 + 1 + 1)).val = itype.val
    rw [h2, h3]
    dsimp only
    omega

/-- Descriptors that stand in the page are picked up. -/
theorem read_image {m : Memory UCHAR} {a : ℕ} {ds : List Irtd} (h : m.Holds a (image ds)) :
    (List.range ds.length).map (fun i => readIrtd m (a + 4 * i)) = ds := by
  induction ds generalizing a with
  | nil => rfl
  | cons x ds ih =>
      rw [image, List.flatMap_cons, Memory.holds_append] at h
      have hrest := ih h.2
      rw [List.length_cons, List.range_succ_eq_map, List.map_cons, List.map_map]
      congr 1
      · exact readIrtd_of_holds h.1
      · refine (List.map_congr_left fun i _ => ?_).trans hrest
        show readIrtd m (a + 4 * (i + 1)) = readIrtd m (a + 4 + 4 * i)
        congr 1
        omega

/-- What is stored apart from the descriptors does not change them. -/
theorem description_store {m : Memory UCHAR} {s : IrtRepeat} {q : ℕ} {ws : List UCHAR}
    (h : Apart s.area ⟨q, ws.length⟩) : description (m.store q ws) s = description m s := by
  have hword : ∀ p, s.desc ≤ p → p < s.desc + 4 * s.keys → m.store q ws p = m p := by
    intro p hp hp'
    refine Memory.store_of_outside ?_
    have := Extent.apart_iff.mp h p
    simp only [Extent.stop, IrtRepeat.area] at this
    omega
  refine List.map_congr_left fun i hi => ?_
  have hlt := List.mem_range.mp hi
  rw [readIrtd, readIrtd, readUshort, readUshort]
  simp only [hword _ (Nat.le_add_right _ _) (show s.desc + 4 * i < _ by omega),
    hword (s.desc + 4 * i + 1) (by omega) (by omega),
    hword (s.desc + 4 * i + 2) (by omega) (by omega),
    hword (s.desc + 4 * i + 2 + 1) (by omega) (by omega), readUshort]

/-! ## Pages -/

variable {d : Dbb} {idx : Idx} {page : Irt} {created : ℕ → List Irtd}

/-- The areas of the descriptors that are in use -/
def areas (ss : List IrtRepeat) : List Extent := (ss.filter IrtRepeat.used).map IrtRepeat.area

/-- The descriptors of each index are what it was created with, apart from the others, in the page
and behind the slots. -/
structure Intact (d : Dbb) (page : Irt) (created : ℕ → List Irtd) : Prop where
  within : Within (slotsEnd page.rpt.length) d.pageSize (areas page.rpt)
  fields : ∀ i s, page.rpt[i]? = some s → s.used = true → description page.bytes s = created i

theorem mem_areas {ss : List IrtRepeat} {s : IrtRepeat} (hs : s ∈ ss) (hused : s.used = true) :
    s.area ∈ areas ss :=
  List.mem_map_of_mem (List.mem_filter.mpr ⟨hs, hused⟩)

/-- The high water mark is the lowest offset of descriptors in use. -/
theorem le_space_iff {lo : ℕ} :
    lo ≤ page.space d ↔ lo ≤ d.pageSize ∧ ∀ s ∈ page.rpt, s.used = true → lo ≤ s.desc := by
  have hfold (ss : List IrtRepeat) (sp : ℕ) :
      lo ≤ ss.foldl (fun sp s => if s.used then min sp s.desc else sp) sp ↔
        lo ≤ sp ∧ ∀ s ∈ ss, s.used = true → lo ≤ s.desc := by
    induction ss generalizing sp with
    | nil => simp
    | cons s ss ih =>
        rw [List.foldl_cons, ih]
        cases hs : s.used <;> simp [hs, and_assoc]
  exact hfold page.rpt d.pageSize

theorem space_le (d : Dbb) (page : Irt) : page.space d ≤ d.pageSize :=
  (Iff.mp le_space_iff le_rfl).1

theorem space_le_desc {s : IrtRepeat} (hs : s ∈ page.rpt) (hused : s.used = true) :
    page.space d ≤ s.desc :=
  (Iff.mp le_space_iff le_rfl).2 s hs hused

theorem newDesc_of_le (h : 4 * idx.rpt.length ≤ page.space d) :
    page.newDesc d idx = page.space d - 4 * idx.rpt.length := by
  have hspace := space_le d page
  have hlt := d.lt
  rw [Irt.newDesc, show page.space d + 65536 - 4 * idx.rpt.length =
    page.space d - 4 * idx.rpt.length + 65536 by omega, Nat.add_mod_right,
    Nat.mod_eq_of_lt (by omega)]

theorem newDesc_of_lt (h : page.space d < 4 * idx.rpt.length) :
    page.newDesc d idx = page.space d + 65536 - 4 * idx.rpt.length :=
  Nat.mod_eq_of_lt (by omega)

theorem hasRoom_iff : page.hasRoom d idx = true ↔
    slotsEnd (page.rpt.length + 1) ≤ page.newDesc d idx := decide_eq_true_iff

theorem used_newSlot (d : Dbb) (idx : Idx) (page : Irt) : (page.newSlot d idx).used = true := by
  rw [IrtRepeat.used, IrtRepeat.inProgress, Irt.newSlot]
  simp

/-! ## A new index -/

theorem not_used_freeSlot {s : IrtRepeat} (h : page.rpt[page.freeSlot]? = some s) :
    s.used = false := by
  obtain ⟨hlt, rfl⟩ := List.getElem?_eq_some_iff.mp h
  have hfree : (!page.rpt[page.freeSlot].used) = true := List.findIdx_getElem (w := hlt)
  simpa using hfree

theorem freeSlot_le (page : Irt) : page.freeSlot ≤ page.rpt.length := List.findIdx_le_length

/-- The slots after the new index has been put in its slot -/
theorem getElem?_place (i : ℕ) : (page.place d idx).rpt[i]? =
    if i = page.freeSlot then some (page.newSlot d idx) else page.rpt[i]? := by
  have hle := freeSlot_le page
  simp only [Irt.place]
  split
  · rename_i hlt
    rw [List.getElem?_set]
    by_cases hi : page.freeSlot = i
    · subst hi
      rw [if_pos rfl, if_pos rfl, if_pos hlt]
    · rw [if_neg hi, if_neg (Ne.symm hi)]
  · have heq : page.freeSlot = page.rpt.length := by omega
    rw [heq, List.getElem?_append]
    split
    · rw [if_neg (by omega)]
    · by_cases hi : i = page.rpt.length
      · rw [hi, Nat.sub_self, if_pos rfl]
        rfl
      · rw [if_neg hi, List.getElem?_eq_none (by rw [List.length_singleton]; omega),
          List.getElem?_eq_none (by omega)]

/-- The areas after it: one more -/
theorem areas_place :
    (areas (page.place d idx).rpt).Perm ((page.newSlot d idx).area :: areas page.rpt) := by
  have hused := used_newSlot d idx page
  simp only [Irt.place]
  split
  · rename_i hlt
    have hold := not_used_freeSlot (List.getElem?_eq_getElem hlt)
    -- the slot is taken out of the list, and the new one is put in its place
    have hsplit : page.rpt = page.rpt.take page.freeSlot ++
        page.rpt[page.freeSlot] :: page.rpt.drop (page.freeSlot + 1) := by
      rw [List.getElem_cons_drop, List.take_append_drop]
    have hareas : areas page.rpt = areas (page.rpt.take page.freeSlot) ++
        areas (page.rpt.drop (page.freeSlot + 1)) := by
      conv_lhs => rw [hsplit]
      simp only [areas, List.filter_append, List.filter_cons, hold, Bool.false_eq_true, if_false,
        List.map_append]
    rw [List.set_eq_take_append_cons_drop, if_pos hlt, hareas]
    simp only [areas, List.filter_append, List.filter_cons, hused, if_true, List.map_append,
      List.map_cons]
    exact List.perm_middle
  · simp only [areas, List.filter_append, List.filter_cons, List.filter_nil, hused, if_true,
      List.map_append, List.map_cons, List.map_nil]
    exact List.perm_append_singleton _ _

theorem length_place (d : Dbb) (idx : Idx) (page : Irt) : page.rpt.length ≤ (page.place d idx).rpt.length ∧
    (page.place d idx).rpt.length ≤ page.rpt.length + 1 := by
  simp only [Irt.place]
  split
  · rw [List.length_set]
    omega
  · rw [List.length_append, List.length_singleton]
    omega

theorem slotsEnd_mono {m n : ℕ} (h : m ≤ n) : slotsEnd m ≤ slotsEnd n := by
  unfold slotsEnd
  omega

/-- A new index that there is room for leaves the others as they are. -/
theorem place_intact (h : Intact d page created) (hspace : 4 * idx.rpt.length ≤ page.space d)
    (hroom : page.hasRoom d idx = true) :
    Intact d (page.place d idx) (Function.update created page.freeSlot idx.rpt) := by
  have hdesc := newDesc_of_le hspace
  have hroom' := hasRoom_iff.mp hroom
  have hpage := space_le d page
  have hend := slotsEnd_mono (length_place d idx page).2
  -- the new descriptors end where the lowest ones begin
  have hstop : (page.newSlot d idx).area.stop = page.space d := by
    show page.newDesc d idx + 4 * idx.rpt.length = _
    omega
  constructor
  · rw [Extent.within_perm areas_place, Extent.within_cons]
    refine ⟨⟨⟨hend.trans hroom', hstop.le.trans hpage⟩, ?_⟩, h.within.1, ?_⟩
    · intro b hb
      obtain ⟨s, hs, rfl⟩ := List.mem_map.mp hb
      obtain ⟨hs, hused⟩ := List.mem_filter.mp hs
      exact .inr (.inr (.inl (hstop.le.trans (space_le_desc hs hused))))
    · intro b hb
      refine ⟨?_, (h.within.2 b hb).2⟩
      obtain ⟨s, hs, rfl⟩ := List.mem_map.mp hb
      obtain ⟨hs, hused⟩ := List.mem_filter.mp hs
      have hle := space_le_desc (d := d) hs hused
      show _ ≤ s.desc
      omega
  · intro i s hs hused
    rw [getElem?_place] at hs
    split at hs
    · rename_i hi
      cases hs
      rw [hi, Function.update_self]
      exact read_image (Memory.holds_store _ _ _)
    · rename_i hi
      rw [Function.update_of_ne hi, ← h.fields i s hs hused]
      refine description_store (.inr (.inr (.inr ?_)))
      have hle := space_le_desc (d := d) (List.mem_of_getElem? hs) hused
      rw [length_image]
      show page.newDesc d idx + 4 * idx.rpt.length ≤ s.desc
      omega

/-- What is intact with the new index has been intact before it. -/
theorem intact_of_place
    (h : Intact d (page.place d idx) (Function.update created page.freeSlot idx.rpt)) :
    Intact d page created := by
  have hend := slotsEnd_mono (length_place d idx page).1
  have hwithin := h.within
  rw [Extent.within_perm areas_place, Extent.within_cons] at hwithin
  refine ⟨hwithin.2.mono hend le_rfl, ?_⟩
  intro i s hs hused
  have hi : i ≠ page.freeSlot := by
    rintro rfl
    rw [not_used_freeSlot hs] at hused
    cases hused
  have hfields := h.fields i s (by rw [getElem?_place, if_neg hi]; exact hs) hused
  rw [Function.update_of_ne hi] at hfields
  refine (description_store ?_).symm.trans hfields
  rw [length_image]
  exact (hwithin.1.2 _ (mem_areas (List.mem_of_getElem? hs) hused)).symm

/-- An offset below zero is one behind the page. -/
theorem not_intact_place (hspace : page.space d < 4 * idx.rpt.length) :
    ¬Intact d (page.place d idx) created := by
  intro h
  have hwithin := h.within
  rw [Extent.within_perm areas_place, Extent.within_cons] at hwithin
  have hstop := hwithin.1.1.2
  have hlt := d.lt
  have hdesc := newDesc_of_lt hspace
  have hlen := idx.length_le
  change page.newDesc d idx + 4 * idx.rpt.length ≤ d.pageSize at hstop
  omega

/-! ## Slots that are changed -/

theorem description_of_area {m : Memory UCHAR} {s t : IrtRepeat} (h : s.area = t.area) :
    description m s = description m t := by
  obtain ⟨hdesc, hkeys⟩ := (Extent.mk.injEq _ _ _ _).mp h
  have hlen : s.keys = t.keys := by omega
  rw [description, description, hdesc, hlen]

theorem areas_modify {ss : List IrtRepeat} {i : ℕ} {f : IrtRepeat → IrtRepeat}
    (hf : ∀ s, ss[i]? = some s → (f s).used = true → s.used = true ∧ (f s).area = s.area) :
    (areas (ss.modify i f)).Sublist (areas ss) := by
  induction ss generalizing i with
  | nil => rw [List.modify_nil]
  | cons s ss ih =>
      cases i with
      | zero =>
          have hs := hf s rfl
          rw [List.modify_zero_cons, areas, areas, List.filter_cons, List.filter_cons]
          cases hused : (f s).used with
          | false =>
              rw [if_neg Bool.false_ne_true]
              split
              · exact List.sublist_cons_self _ _
              · exact List.Sublist.refl _
          | true =>
              obtain ⟨hsused, harea⟩ := hs hused
              rw [if_pos rfl, hsused, if_pos rfl, List.map_cons, List.map_cons, harea]
      | succ i =>
          have hrest := ih fun t ht => hf t ht
          rw [List.modify_succ_cons, areas, areas, List.filter_cons, List.filter_cons]
          split
          · exact hrest.cons_cons _
          · exact hrest

/-- A slot that is not used any more, or keeps its descriptors -/
theorem modify_intact (h : Intact d page created) {i : ℕ} {f : IrtRepeat → IrtRepeat}
    (hf : ∀ s, page.rpt[i]? = some s → (f s).used = true →
      s.used = true ∧ (f s).area = s.area) :
    Intact d { page with rpt := page.rpt.modify i f } created := by
  constructor
  · rw [List.length_modify]
    exact h.within.sublist (areas_modify hf)
  · intro j s hs hused
    dsimp only at hs
    rw [List.getElem?_modify] at hs
    split at hs
    · rename_i hij
      subst hij
      obtain ⟨t, ht, rfl⟩ := Option.map_eq_some_iff.mp hs
      obtain ⟨htused, harea⟩ := hf t ht hused
      rw [← h.fields i t ht htused]
      exact description_of_area harea
    · exact h.fields j s (by simpa using hs) hused

theorem deleteIndex_intact (h : Intact d page created) (i : ℕ) :
    Intact d (page.deleteIndex i) created := by
  refine modify_intact h fun s _ hused => ?_
  simp [IrtRepeat.used, IrtRepeat.inProgress] at hused

theorem setRoot_intact (h : Intact d page created) {i : ℕ} {root : ℤ}
    (hused : ∀ s, page.rpt[i]? = some s → s.used = true) :
    Intact d (page.setRoot i root) created :=
  modify_intact h fun s hs _ => ⟨hused s hs, rfl⟩

end Firebird.IndexRoot
