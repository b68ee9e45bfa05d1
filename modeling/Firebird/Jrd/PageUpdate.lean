import Firebird.Jrd.PageLayout

/-! # Records replaced, chained and deleted on a data page (`jrd/dpm.epp`)

`DPM_update` frees the line first and looks for space then, `DPM_chain` puts the new version
beside the old one, which goes to a line of its own. `DPM_delete` drops the lines at the end of the
line index that are not in use.
-/

namespace Firebird.Dpm

variable {dbb : Dbb} {page page' : DataPage} {i slot line : ℕ} {a b index : Extent}
  {rpt : List Extent} {space : ℤ} {counts : Extent → Option ℤ}

/-! ## Lines cleared -/

theorem Layout.clear (h : Layout dbb page) (h0 : index.offset = 0) :
    Layout dbb (page.setLine slot index) := by
  have hlive : ∀ i a, (page.setLine slot index).Live i a → page.Live i a := by
    intro i a ha
    apply (live_setLine_of_ne _).mp ha
    rintro rfl
    exact ha.2 (live_setLine_self ha ▸ h0)
  constructor
  · rw [count_setLine]
    exact h.index
  · intro i a ha
    rw [count_setLine]
    exact h.above i a (hlive i a ha)
  · exact fun i a ha => h.inside i a (hlive i a ha)
  · exact fun i j a b ha hb => h.apart i j a b (hlive i a ha) (hlive j b hb)

/-- A line without bytes where it was -/
theorem Layout.empty (h : Layout dbb page) (hline : page.rpt[slot]? = some index) :
    Layout dbb (page.setLine slot ⟨index.offset, 0⟩) := by
  by_cases h0 : index.offset = 0
  · exact h.clear h0
  · apply h.setLine
    · exact h.above slot index ⟨hline, h0⟩
    · have hstop := h.inside slot index ⟨hline, h0⟩
      unfold Extent.stop at hstop
      change index.offset + 0 ≤ dbb.pageSize
      omega
    · exact fun _ _ _ _ => .inl rfl

/-! ## The room that is left -/

theorem total_neg (h : ∀ a, (counts a).getD 0 = -(if a.offset = 0 then 0 else roundup a.length))
    (rpt : List Extent) : total counts rpt = -taken rpt := by
  induction rpt with
  | nil => rfl
  | cons index rpt ih =>
      rw [total_cons, ih, h]
      by_cases h0 : index.offset = 0
      · rw [if_pos h0, taken_cons_of_eq h0, neg_zero, zero_add]
      · rw [if_neg h0, taken_cons_of_ne h0, neg_add]

/-- `available` -/
theorem Layout.scan_available (h : Layout dbb page)
    (hcounts : ∀ a, (counts a).getD 0 = -(if a.offset = 0 then 0 else roundup a.length)) :
    (scan counts page.rpt dbb.pageSize (sshort (dbb.pageSize - sshort (highWater page.count)))).2 =
      dbb.pageSize - highWater page.count - taken page.rpt := by
  obtain ⟨hmax, hlengths, htaken, htaken'⟩ := h.bounds
  have hwater := highWater_eq page.count
  have hshort : sshort (highWater page.count) = highWater page.count :=
    sshort_eq (by omega) (by omega)
  rw [scan_sum _ _ _ (sshort_sshort _), total_neg hcounts, hshort, sshort_sshort_add,
    sshort_eq (by omega) (by omega)]
  omega

/-- If there is room by the rounded lengths, it is below the lines, or below them when the page is
compressed. -/
theorem exists_roomy_below (h : Layout dbb page) (temp : Memory UCHAR) (need water : ℤ)
    (hneed : 0 ≤ need) (hspace : highWater page.count ≤ space) (hspace' : space ≤ dbb.pageSize)
    (hwater : highWater page.count ≤ water)
    (hroom : water + need + taken page.rpt ≤ dbb.pageSize)
    (hbelow : ∀ i a, page.Live i a → 0 < a.length → space ≤ a.offset)
    (habove : water ≤ space → ∀ i a, page.Live i a → water ≤ a.offset) :
    ∃ page' space', (if sshort (space - need) < water then
          (dpmCompress dbb temp page).map fun r => (r.1, sshort (r.2 - need))
        else some (page, sshort (space - need))) = some (page', space' - need) ∧
      Roomy dbb page page' space' ∧ water + need ≤ space' ∧
      ∀ i b, page'.Live i b → water ≤ b.offset := by
  obtain ⟨hmax, -, htaken, -⟩ := h.bounds
  have hcount := highWater_eq page.count
  rw [sshort_eq (x := space - need) (by omega) (by omega)]
  split
  · obtain ⟨page', space', heq, hcompressed⟩ := dpmCompress_spec temp h.inside (by omega)
    have hsize := hcompressed.space_eq
    refine ⟨page', space', ?_, hcompressed.roomy h.index, by omega, fun i b hb => ?_⟩
    · rw [heq, Option.map_some]
      change some (page', sshort (space' - need)) = _
      rw [sshort_eq (by omega) (by omega)]
    · have := (hcompressed.le_offset hb).1
      omega
  · exact ⟨page, space, rfl, h.roomy hspace' hbelow, by omega, habove (by omega)⟩

/-! ## `DPM_update` -/

theorem length_fieldBytes (n u : ℕ) : (fieldBytes n u).length = n := by
  rw [fieldBytes, List.length_map, List.length_range]

theorem length_recordImage (header : Rhd) (body : List UCHAR) (fill : ℕ) :
    (recordImage header body fill).length = rhdSize + body.length + fill := by
  rw [recordImage, Rhd.image]
  simp only [List.length_append, length_fieldBytes, List.length_replicate]
  rfl

theorem updateCounts_getD (a : Extent) :
    (updateCounts a).getD 0 = -(if a.offset = 0 then 0 else roundup a.length) := by
  unfold updateCounts
  split <;> rfl

/-- How low the lines reach -/
theorem Layout.scan_space (h : Layout dbb page) (hlive : ∀ a, counts a ≠ none → a.offset ≠ 0)
    (sum : ℤ) :
    highWater page.count ≤ (scan counts page.rpt dbb.pageSize sum).1 ∧
      (scan counts page.rpt dbb.pageSize sum).1 ≤ dbb.pageSize := by
  refine ⟨le_scan h.index fun a ha hcount => ?_, scan_le_space⟩
  obtain ⟨i, hi⟩ := List.mem_iff_getElem?.mp ha
  exact h.above i a ⟨hi, hlive a hcount⟩

/-- A record is put below the others and written there. -/
theorem Roomy.putRecord (h : Roomy dbb page page' space) {page'' : DataPage}
    (hlayout : Layout dbb page'') (hlive : ∀ i a, page''.Live i a → page'.Live i a) {need : ℤ} {n : ℕ}
    (hn : n ≤ need) (hwater : highWater page''.count + need ≤ space) (slot : ℕ) {ws : List UCHAR}
    (hws : ws.length = n) :
    Preserves dbb page''
      ((page''.setLine slot ⟨(space - need).toNat, n⟩).write (space - need).toNat ws) [slot] := by
  refine ⟨(h.setLine hlayout hlive hn hwater).write _ _, fun i hi => ?_⟩
  have hne : i ≠ slot := fun heq => hi (List.mem_singleton.mpr heq)
  have hinside := h.inside
  have hcount := highWater_eq page''.count
  have hstop : ((⟨(space - need).toNat, n⟩ : Extent).stop : ℤ) ≤ space := by
    change (((space - need).toNat + n : ℕ) : ℤ) ≤ space
    omega
  refine (keeps_setLine hne).trans (keeps_write ⟨(space - need).toNat, n⟩ ?_ le_rfl ?_)
  · intro a ha
    exact (h.apart hstop (hlive i a ((live_setLine_of_ne hne).mp ha))).symm
  · rw [hws]
    exact le_rfl

/-- **`DPM_update`** without fragmentation -/
theorem dpmUpdate_preserves (h : Layout dbb page) (temp : Memory UCHAR) (hslot : slot < page.count)
    (header : Rhd) (body : List UCHAR) :
    dpmUpdate dbb temp page slot header body = some none ∨
      ∃ page', dpmUpdate dbb temp page slot header body = some (some page') ∧
        Preserves dbb page page' [slot] := by
  have hline : page.rpt[slot]? = some page.rpt[slot] := List.getElem?_eq_getElem hslot
  have hold : page.rpt.getD slot ⟨0, 0⟩ = page.rpt[slot] := by
    rw [List.getD_eq_getElem?_getD, hline, Option.getD_some]
  have hempty := h.empty hline
  have havailable := hempty.scan_available updateCounts_getD
  have hlive : ∀ a, updateCounts a ≠ none → a.offset ≠ 0 := fun a ha h0 => ha (if_pos h0)
  have hspace := hempty.scan_space hlive
    (sshort (dbb.pageSize - sshort (highWater page.count)))
  have hbelow : ∀ i a, (page.setLine slot ⟨page.rpt[slot].offset, 0⟩).Live i a →
      (scan updateCounts (page.setLine slot ⟨page.rpt[slot].offset, 0⟩).rpt dbb.pageSize
        (sshort (dbb.pageSize - sshort (highWater page.count)))).1 ≤ a.offset := by
    intro i a ha
    apply scan_le (List.mem_of_getElem? ha.1)
    rw [updateCounts, if_neg ha.2]
    exact Option.some_ne_none _
  have himage := length_recordImage header body ((rhdfSize - rhdSize) - body.length)
  rw [count_setLine] at havailable hspace
  unfold dpmUpdate
  rw [hold]
  simp only
  -- from here on only the page without the old record matters
  generalize hpage : page.setLine slot ⟨page.rpt[slot].offset, 0⟩ = page0 at *
  generalize scan updateCounts page0.rpt dbb.pageSize
    (sshort (dbb.pageSize - sshort (highWater page.count))) = r at *
  generalize hn : rhdSize + body.length + ((rhdfSize - rhdSize) - body.length) = n at *
  obtain ⟨space, available⟩ := r
  have hround := le_roundup n
  simp only at havailable hspace hbelow ⊢
  have hcount : page0.count = page.count := hpage ▸ count_setLine page slot _
  rw [← hcount] at havailable hspace ⊢
  split
  · exact .inl rfl
  right
  obtain ⟨hmax, -, -, -⟩ := hempty.bounds
  have hwater := highWater_eq page0.count
  have hshort : sshort (highWater page0.count) = highWater page0.count :=
    sshort_eq (by omega) (by omega)
  obtain ⟨page1, space1, heq, hroomy, hneed, -⟩ :=
    exists_roomy_below hempty temp (roundup n) _ (by omega) hspace.1 hspace.2 le_rfl (by omega)
      (fun i a ha _ => hbelow i a ha) (fun _ => hempty.above)
  rw [hshort, heq]
  refine ⟨(page1.setLine slot ⟨(space1 - roundup n).toNat, n⟩).write (space1 - roundup n).toNat
    (recordImage header body ((rhdfSize - rhdSize) - body.length)), rfl, ?_⟩
  rw [← hroomy.count] at hneed
  have hput := hroomy.putRecord hroomy.layout (fun i a ha => ha) hround.1 hneed slot himage
  refine ⟨hput.1, fun i hi => ?_⟩
  have hne : i ≠ slot := fun heq => hi (List.mem_singleton.mpr heq)
  have hkeeps : Keeps page page0 i := hpage ▸ keeps_setLine hne
  exact (hkeeps.trans (hroomy.keeps i)).trans (hput.2 i hi)

/-! ## `DPM_chain` -/

theorem chainCounts_getD (a : Extent) :
    (chainCounts a).getD 0 = -(if a.offset = 0 then 0 else roundup a.length) := by
  unfold chainCounts
  by_cases hlen : a.length = 0
  · rw [if_neg (fun h => h.1 hlen), hlen, Nat.cast_zero, roundup_zero]
    split <;> rfl
  · by_cases hoff : a.offset = 0
    · rw [if_neg (fun h => h.2 hoff), if_pos hoff]
      rfl
    · rw [if_pos ⟨hlen, hoff⟩, if_neg hoff]
      rfl

/-- The slot that `DPM_chain` takes: a line without bytes, or a new one if all lines have some -/
theorem chainSlot_spec (page : DataPage) :
    (page.rpt.findIdx (·.length = 0) = page.count ∧ ∀ i a, page.Live i a → 0 < a.length) ∨
      page.rpt.findIdx (·.length = 0) < page.count ∧
        ∀ a, page.rpt[page.rpt.findIdx (·.length = 0)]? = some a → a.length = 0 := by
  rcases Nat.lt_or_ge (page.rpt.findIdx (·.length = 0)) page.rpt.length with hlt | hge
  · refine .inr ⟨hlt, fun a ha => ?_⟩
    obtain ⟨-, rfl⟩ := List.getElem?_eq_some_iff.mp ha
    simpa using List.findIdx_getElem (w := hlt)
  · have heq := Nat.le_antisymm List.findIdx_le_length hge
    refine .inl ⟨heq, fun i a ha => ?_⟩
    have hall := List.findIdx_eq_length.mp heq a (List.mem_of_getElem? ha.1)
    exact Nat.pos_of_ne_zero (by simpa using hall)

theorem live_of_chainable {seen : Rhd} {prior : Bool} (h : chainable page line seen prior = true) :
    ∃ a, page.Live line a := by
  unfold chainable DataPage.getHeader at h
  cases hline : page.rpt[line]? with
  | none =>
      rw [hline] at h
      cases h
  | some a =>
      refine ⟨a, hline, fun h0 => ?_⟩
      rw [hline] at h
      simp only [Option.bind_eq_bind, Option.bind_some, if_pos h0] at h
      cases h

theorem setLine_comm {org new : Extent} (h : slot ≠ line) :
    (page.setLine slot org).setLine line new = (page.setLine line new).setLine slot org := by
  unfold DataPage.setLine
  rw [List.set_comm _ _ h]

/-- The old record goes to its own line, the new one is put below the others. -/
theorem Roomy.chain (h : Roomy dbb page page' space) {page'' : DataPage} {org : Extent}
    (hlayout : Layout dbb page'') (hlive : ∀ i a, page''.Live i a → page'.Live i a)
    (horg : page''.Live line org) (hlen : rhdSize ≤ org.length) (hne : slot ≠ line) {need : ℤ} {n : ℕ}
    (hn : n ≤ need) (hwater : highWater page''.count + need ≤ space) {ws flags : List UCHAR}
    (hflags : flags.length = 2) (hws : ws.length = n) :
    Preserves dbb page''
      ((((page''.write (org.offset + 10) flags).setLine slot org).setLine line
        ⟨(space - need).toNat, n⟩).write (space - need).toNat ws) [line, slot] := by
  have hinside := h.inside
  have hcount := highWater_eq page''.count
  have hsize : rhdSize = 13 := rfl
  have hstop : ((⟨(space - need).toNat, n⟩ : Extent).stop : ℤ) ≤ space := by
    change (((space - need).toNat + n : ℕ) : ℤ) ≤ space
    omega
  have hwrite := hlayout.write (org.offset + 10) flags
  rw [setLine_comm hne]
  constructor
  · apply Layout.write
    apply (h.setLine hwrite hlive hn hwater).setLine
    · rw [count_setLine]
      exact hlayout.above line org horg
    · exact hlayout.inside line org horg
    · intro i a hi ha
      by_cases hline : i = line
      · subst hline
        rw [live_setLine_self ha]
        exact (h.apart hstop (hlive i org horg)).symm
      · exact hlayout.apart line i org a horg ((live_setLine_of_ne hline).mp ha) (Ne.symm hline)
  · intro i hi
    rw [List.mem_cons, List.mem_singleton, not_or] at hi
    have hflag : Keeps page'' (page''.write (org.offset + 10) flags) i := by
      apply keeps_write org
      · exact fun a ha => hlayout.apart i line a org ha horg hi.1
      · exact Nat.le_add_right _ _
      · unfold Extent.stop
        omega
    refine ((hflag.trans (keeps_setLine hi.1)).trans (keeps_setLine hi.2)).trans
      (keeps_write ⟨(space - need).toNat, n⟩ ?_ le_rfl ?_)
    · intro a ha
      have ha' := (live_setLine_of_ne hi.1).mp ((live_setLine_of_ne hi.2).mp ha)
      exact (h.apart hstop (hlive i a ha')).symm
    · rw [hws]
      exact le_rfl

theorem Preserves.of_keeps {page'' : DataPage} {named : List ℕ} (h : Preserves dbb page' page'' named)
    (hkeeps : ∀ i, Keeps page page' i) : Preserves dbb page page'' named :=
  ⟨h.1, fun i hi => (hkeeps i).trans (h.2 i hi)⟩

theorem getD_of_live (h : page.Live line index) : page.rpt.getD line ⟨0, 0⟩ = index := by
  rw [List.getD_eq_getElem?_getD, h.1, Option.getD_some]

/-- **`DPM_chain`** on a line that holds a record header -/
theorem dpmChain_preserves (h : Layout dbb page) (temp : Memory UCHAR) (line : ℕ)
    (hheader : ∀ a, page.Live line a → rhdSize ≤ a.length) (seen : Rhd) (prior : Bool)
    (pageNumber : ℕ) (new : Rhd) (body : List UCHAR) :
    dpmChain dbb temp page line seen prior pageNumber new body = some none ∨
      ∃ page' slot, dpmChain dbb temp page line seen prior pageNumber new body =
          some (some (page', slot)) ∧
        slot ≠ line ∧ (∀ a, page.Live slot a → a.length = 0) ∧
        Preserves dbb page page' [line, slot] := by
  obtain ⟨hmax, hlengths, htaken, htaken'⟩ := h.bounds
  have hcount := highWater_eq page.count
  have hcount' := highWater_eq (page.count + 1)
  have hshort : sshort (highWater page.count) = highWater page.count :=
    sshort_eq (by omega) (by omega)
  have havailable := h.scan_available chainCounts_getD
  have hlive : ∀ a, chainCounts a ≠ none → a.offset ≠ 0 :=
    fun a ha h0 => ha (if_neg fun hand => hand.2 h0)
  have hspace := h.scan_space hlive (sshort (dbb.pageSize - sshort (highWater page.count)))
  have hbelow : ∀ i a, page.Live i a → 0 < a.length →
      (scan chainCounts page.rpt dbb.pageSize
        (sshort (dbb.pageSize - sshort (highWater page.count)))).1 ≤ a.offset := by
    intro i a ha hpos
    apply scan_le (List.mem_of_getElem? ha.1)
    rw [chainCounts, if_pos ⟨hpos.ne', ha.2⟩]
    exact Option.some_ne_none _
  unfold dpmChain
  simp only
  split
  · exact .inl rfl
  rename_i hchain
  obtain ⟨org, horg⟩ := live_of_chainable (by simpa using hchain)
  split
  · exact .inl rfl
  rename_i hfits
  generalize scan chainCounts page.rpt dbb.pageSize
    (sshort (dbb.pageSize - sshort (highWater page.count))) = r at *
  obtain ⟨space, available⟩ := r
  generalize hfill : (if new.flags &&& rhdDeleted ≠ 0 then 0 else (rhdfSize - rhdSize) - body.length) =
    fill at *
  generalize hn : rhdSize + body.length + fill = n at *
  have hfill' : fill ≤ 9 := by
    have hsize : rhdfSize - rhdSize = 9 := rfl
    split at hfill <;> omega
  have hround := le_roundup n
  have hsize : rhdSize = 13 := rfl
  have hsize' : sizeofDpg = 28 := rfl
  have hmin : 1024 ≤ dbb.pageSize := dbb.min_le
  have himage (header : Rhd) := length_recordImage header body fill
  rw [hn] at himage
  simp only at havailable hspace hbelow ⊢
  have hslot := chainSlot_spec page
  generalize page.rpt.findIdx (·.length = 0) = slot at hslot ⊢
  rcases hslot with ⟨rfl, hall⟩ | ⟨hlt, hzero⟩
  · -- the line index grows
    have htop : sshort (sshort (highWater page.count) + sizeofRepeat) = highWater (page.count + 1) := by
      rw [hshort, hcount, hcount']
      exact (sshort_eq (x := 24 + 4 * page.count + 4) (by omega) (by omega)).trans (by omega)
    have hroom : sshort (available - sizeofRepeat) = available - 4 :=
      sshort_eq (x := available - 4) (by omega) (by omega)
    simp only [if_true, htop, hroom]
    split
    · exact .inl rfl
    right
    obtain ⟨page1, space1, heq, hroomy, hneed, habove⟩ :=
      exists_roomy_below h temp (roundup n) (highWater (page.count + 1)) (by omega)
        hspace.1 hspace.2 (by omega) (by omega) hbelow
        (fun hle i a ha => hle.trans (hbelow i a ha (hall i a ha)))
    obtain ⟨org', horg', hlen, -⟩ := hroomy.keeps line org horg
    have hline : page.count ≠ line := by
      rintro rfl
      exact absurd (List.getElem?_eq_some_iff.mp horg.1).1 (Nat.lt_irrefl _)
    have hget := getD_of_live (live_extend.mpr horg')
    have hlayout := hroomy.extend habove (by omega)
    rw [heq]
    simp only [Option.bind_eq_bind, Option.bind_some, if_pos hroomy.count.symm, hget]
    refine ⟨_, page.count, rfl, hline, ?_, ?_⟩
    · intro a ha
      exact absurd (List.getElem?_eq_some_iff.mp ha.1).1 (Nat.lt_irrefl _)
    · refine (hroomy.chain hlayout (fun i a ha => live_extend.mp ha) (live_extend.mpr horg')
        (hlen ▸ hheader org horg) hline hround.1 ?_ (length_fieldBytes 2 _) (himage _)).of_keeps
        fun i => (hroomy.keeps i).trans (keeps_extend page1 i)
      rw [count_extend, hroomy.count]
      exact hneed
  · have htop : sshort (sshort (highWater page.count) + (0 : ℕ)) = highWater page.count := by
      rw [hshort, Nat.cast_zero, add_zero, hshort]
    have hroom : sshort (available - (0 : ℕ)) = available := by
      rw [Nat.cast_zero, sub_zero]
      exact sshort_eq (by omega) (by omega)
    simp only [if_neg hlt.ne, htop, hroom]
    split
    · exact .inl rfl
    right
    obtain ⟨page1, space1, heq, hroomy, hneed, -⟩ :=
      exists_roomy_below h temp (roundup n) _ (by omega) hspace.1 hspace.2 le_rfl (by omega)
        hbelow (fun _ => h.above)
    obtain ⟨org', horg', hlen, -⟩ := hroomy.keeps line org horg
    have hline : slot ≠ line := by
      rintro rfl
      have := hheader org horg
      rw [hzero org horg.1] at this
      exact absurd this (by decide)
    have hget := getD_of_live horg'
    rw [heq]
    simp only [Option.bind_eq_bind, Option.bind_some, if_neg (hroomy.count.symm ▸ hlt.ne), hget]
    refine ⟨_, slot, rfl, hline, fun a ha => hzero a ha.1, ?_⟩
    refine (hroomy.chain hroomy.layout (fun i a ha => ha) horg' (hlen ▸ hheader org horg) hline
      hround.1 ?_ (length_fieldBytes 2 _) (himage _)).of_keeps hroomy.keeps
    rw [hroomy.count]
    exact hneed

/-! ## `DPM_delete` -/

/-- Lines in use are not dropped. -/
theorem getElem?_used (h : rpt[i]? = some index) (hne : index.offset ≠ 0) :
    (used rpt)[i]? = some index := by
  induction rpt generalizing i with
  | nil => cases h
  | cons first rpt ih =>
      have hrest : ∀ k : ℕ, rpt[k]? = some index → used rpt ≠ [] := by
        intro k hk hnil
        have := ih hk
        rw [hnil] at this
        cases this
      cases i with
      | zero =>
          obtain rfl := Option.some.inj h
          rw [used, if_neg fun hand => hne hand.1]
          rfl
      | succ i =>
          rw [used, if_neg fun hand => hrest i h hand.2]
          exact ih h

theorem used_prefix (rpt : List Extent) : used rpt <+: rpt := by
  induction rpt with
  | nil => exact List.nil_prefix
  | cons first rpt ih =>
      rw [used]
      split
      · exact List.nil_prefix
      · exact (List.prefix_cons_inj first).mpr ih

/-- **`DPM_delete`** -/
theorem dpmDelete_preserves (h : Layout dbb page) (line : ℕ) :
    dpmDelete page line = none ∨
      ∃ page', dpmDelete page line = some page' ∧ Preserves dbb page page' [line] := by
  unfold dpmDelete
  cases page.getHeader line with
  | none => exact .inl rfl
  | some header =>
      right
      have hclear : Layout dbb (page.setLine line ⟨0, 0⟩) := h.clear rfl
      have hinitial := used_prefix (page.setLine line ⟨0, 0⟩).rpt
      have hback : ∀ (i : ℕ) (a : Extent), (used (page.setLine line ⟨0, 0⟩).rpt)[i]? = some a →
          (page.setLine line ⟨0, 0⟩).rpt[i]? = some a := by
        intro i a ha
        obtain ⟨t, ht⟩ := hinitial
        rw [← ht]
        exact List.getElem?_append_left (List.getElem?_eq_some_iff.mp ha).1 ▸ ha
      have hle : highWater (used (page.setLine line ⟨0, 0⟩).rpt).length ≤
          highWater (page.setLine line ⟨0, 0⟩).count := by
        have := hinitial.length_le
        rw [highWater_eq, highWater_eq, DataPage.count]
        omega
      refine ⟨_, rfl, ⟨?_, ?_, ?_, ?_⟩, ?_⟩
      · exact hle.trans hclear.index
      · exact fun i a ha => hle.trans (hclear.above i a ⟨hback i a ha.1, ha.2⟩)
      · exact fun i a ha => hclear.inside i a ⟨hback i a ha.1, ha.2⟩
      · exact fun i j a b ha hb =>
          hclear.apart i j a b ⟨hback i a ha.1, ha.2⟩ ⟨hback j b hb.1, hb.2⟩
      · intro i hi a ha
        have hne : i ≠ line := fun heq => hi (List.mem_singleton.mpr heq)
        have ha' : (page.setLine line ⟨0, 0⟩).Live i a := (live_setLine_of_ne hne).mpr ha
        exact ⟨a, ⟨getElem?_used ha'.1 ha'.2, ha.2⟩, rfl, rfl⟩

/-! ## Main results -/

/-- **The layout of a data page is kept.** `find_space` where the lines that it reserves room for
are padded, `DPM_update` of a line of the page, `DPM_chain` of a line that holds a record header,
`DPM_delete`, and `DPM_compress` where the rounded lengths fit: none of them runs out of the page,
and the lines that are not named keep their bytes. -/
theorem dataPage_layout_kept (dbb : Dbb) (page : DataPage) (h : Layout dbb page)
    (temp : Memory UCHAR) :
    (∀ noReserve (size : ℤ) type, 0 ≤ size → size ≤ dbb.pageSize → Padded page (!noReserve) type →
      findSpace dbb noReserve temp page size type = some none ∨
        ∃ page' slot space, findSpace dbb noReserve temp page size type =
            some (some (page', slot, space)) ∧
          (∀ a, ¬page.Live slot a) ∧ page'.rpt[slot]? = some ⟨space.toNat, size.toNat⟩ ∧
          Preserves dbb page page' [slot]) ∧
    (∀ slot header body, slot < page.count →
      dpmUpdate dbb temp page slot header body = some none ∨
        ∃ page', dpmUpdate dbb temp page slot header body = some (some page') ∧
          Preserves dbb page page' [slot]) ∧
    (∀ line seen prior pageNumber new body, (∀ a, page.Live line a → rhdSize ≤ a.length) →
      dpmChain dbb temp page line seen prior pageNumber new body = some none ∨
        ∃ page' slot, dpmChain dbb temp page line seen prior pageNumber new body =
            some (some (page', slot)) ∧
          slot ≠ line ∧ (∀ a, page.Live slot a → a.length = 0) ∧
          Preserves dbb page page' [line, slot]) ∧
    (∀ line, dpmDelete page line = none ∨
      ∃ page', dpmDelete page line = some page' ∧ Preserves dbb page page' [line]) ∧
    (highWater page.count + taken page.rpt ≤ dbb.pageSize →
      ∃ page' space, dpmCompress dbb temp page = some (page', space) ∧
        Preserves dbb page page' []) := by
  refine ⟨?_, ?_, ?_, ?_, ?_⟩
  · exact fun noReserve size type hsize hsize' => findSpace_preserves h noReserve temp hsize hsize'
  · exact fun slot header body hslot => dpmUpdate_preserves h temp hslot header body
  · exact fun line seen prior pageNumber new body hheader =>
      dpmChain_preserves h temp line hheader seen prior pageNumber new body
  · exact dpmDelete_preserves h
  · intro hroom
    obtain ⟨page', space, heq, hcompressed⟩ := dpmCompress_spec temp h.inside (by omega)
    exact ⟨page', space, heq, hcompressed.layout h.index, fun i _ => hcompressed.keeps i⟩

/-- A layout that is given line by line -/
theorem layout_of_pairwise (hindex : highWater page.count ≤ dbb.pageSize)
    (hin : ∀ a ∈ page.rpt, highWater page.count ≤ a.offset ∧ a.stop ≤ dbb.pageSize)
    (hapart : page.rpt.Pairwise Extent.Apart) : Layout dbb page where
  index := hindex
  above i a ha := (hin a (List.mem_of_getElem? ha.1)).1
  inside i a ha := (hin a (List.mem_of_getElem? ha.1)).2
  apart i j a b ha hb hij := by
    obtain ⟨hi, rfl⟩ := List.getElem?_eq_some_iff.mp ha.1
    obtain ⟨hj, rfl⟩ := List.getElem?_eq_some_iff.mp hb.1
    have hpair := List.pairwise_iff_getElem.mp hapart
    rcases Nat.lt_or_gt_of_ne hij with hlt | hgt
    · exact hpair i j hi hj hlt
    · exact (hpair j i hj hi hgt).symm

/-- A page of 1024 bytes with two records -/
def twoRecords : DataPage := ⟨[⟨996, 25⟩, ⟨960, 30⟩], fun _ => 0⟩

def dbb1024 : Dbb := ⟨1024, min_le_1024, le_max_1024⟩

theorem layout_twoRecords : Layout dbb1024 twoRecords :=
  layout_of_pairwise (by decide) (by decide) (by decide)

/-- On the page with two records -/
theorem dataPage_layout_kept_twoRecords :
    Layout dbb1024 twoRecords ∧
      (∃ page', dpmUpdate dbb1024 (fun _ => 0) twoRecords 0 ⟨7, 0, 0, 0, 1⟩ [1, 2, 3] =
          some (some page') ∧ Preserves dbb1024 twoRecords page' [0]) ∧
      ∃ page' space, dpmCompress dbb1024 (fun _ => 0) twoRecords = some (page', space) ∧
        Preserves dbb1024 twoRecords page' [] := by
  have h := dataPage_layout_kept dbb1024 twoRecords layout_twoRecords (fun _ => 0)
  refine ⟨layout_twoRecords, ?_, h.2.2.2.2 (by decide)⟩
  rcases h.2.1 0 ⟨7, 0, 0, 0, 1⟩ [1, 2, 3] (by decide) with hnone | hsome
  · cases hnone
  · exact hsome

/-! ## Pages that are laid out well only at the first look -/

/-- 987 bytes in three lines that take 996 when they are rounded, on a page with 988 -/
def unaligned : DataPage := ⟨[⟨36, 985⟩, ⟨1021, 1⟩, ⟨1022, 1⟩], fun _ => 0⟩

theorem dpmCompress_unaligned :
    ∃ page' space, dpmCompress dbb1024 (fun _ => 0) unaligned = some (page', space) ∧
      ¬Layout dbb1024 page' := by
  have hrun : (dpmCompress dbb1024 (fun _ => 0) unaligned).map (·.1.rpt) =
      some [⟨36, 985⟩, ⟨32, 1⟩, ⟨28, 1⟩] := by decide
  obtain ⟨⟨page', space⟩, heq, hrpt⟩ := Option.map_eq_some_iff.mp hrun
  refine ⟨page', space, heq, fun h => ?_⟩
  have habove := h.above 2 ⟨28, 1⟩ ⟨by rw [hrpt]; rfl, by decide⟩
  rw [DataPage.count, hrpt] at habove
  exact absurd habove (by decide)

/-- A line of one byte, and a line where the flags of its header would be -/
def shortLines : DataPage := ⟨[⟨900, 1⟩, ⟨910, 2⟩], fun _ => 0⟩

theorem dpmChain_shortLines :
    Layout dbb1024 shortLines ∧
      ∃ page' slot, dpmChain dbb1024 (fun _ => 0) shortLines 0 ⟨0, 0, 0, 0, 0⟩ false 0
          ⟨0, 0, 0, 0, 0⟩ [] = some (some (page', slot)) ∧ slot ≠ 1 ∧ ¬Keeps shortLines page' 1 := by
  refine ⟨layout_of_pairwise (by decide) (by decide) (by decide), ?_⟩
  have hrun : (dpmChain dbb1024 (fun _ => 0) shortLines 0 ⟨0, 0, 0, 0, 0⟩ false 0
      ⟨0, 0, 0, 0, 0⟩ []).map (·.map fun r => (r.1.rpt, r.1.bytes.load 910 2, r.2)) =
      some (some ([⟨876, 22⟩, ⟨910, 2⟩, ⟨900, 1⟩], [2, 0], 2)) := by decide
  obtain ⟨r, heq, hr⟩ := Option.map_eq_some_iff.mp hrun
  obtain ⟨⟨page', slot⟩, rfl, hpage⟩ := Option.map_eq_some_iff.mp hr
  simp only [Prod.mk.injEq] at hpage
  obtain ⟨hrpt, hload, hslot⟩ := hpage
  refine ⟨page', slot, heq, by omega, fun h => ?_⟩
  obtain ⟨b, hb, -, hbytes⟩ := h ⟨910, 2⟩ ⟨rfl, by decide⟩
  have hget := hb.1
  rw [hrpt] at hget
  obtain rfl := Option.some.inj hget
  exact absurd (hload.symm.trans hbytes) (by decide)

/-- 1300 lines of no bytes, for each of which `find_space` reserves room -/
def crowded : DataPage := ⟨List.replicate 1300 ⟨16000, 0⟩, fun _ => 0⟩

def dbb16384 : Dbb := ⟨16384, by decide, by decide⟩

theorem layout_crowded : Layout dbb16384 crowded := by
  have hcount : crowded.count = 1300 := List.length_replicate
  apply layout_of_pairwise
  · rw [hcount]
    decide
  · intro a ha
    obtain rfl := List.eq_of_mem_replicate ha
    rw [hcount]
    decide
  · exact List.pairwise_replicate.mpr (.inr (.inl rfl))

/-- The sum wraps round to -31708: 12000 bytes are found where 11156 are left. -/
theorem findSpace_crowded :
    ∃ page' slot space, findSpace dbb16384 false (fun _ => 0) crowded 12000 .primary =
        some (some (page', slot, space)) ∧ ¬Layout dbb16384 page' := by
  have hcount : crowded.count = 1300 := List.length_replicate
  have hdead : emptySlot crowded.rpt 0 0 = 0 := by
    by_contra hne
    obtain ⟨a, ha, h0⟩ := emptySlot_lt hne
    obtain rfl := List.eq_of_mem_replicate (List.mem_of_getElem? ha)
    exact absurd h0 (by decide)
  have htotal : total (findCounts crowded.bytes true .primary) crowded.rpt = 1300 * 22 := by
    rw [total, crowded, List.map_replicate, List.sum_replicate]
    decide
  have htaken : taken crowded.rpt = 0 := by
    rw [taken, crowded, List.map_replicate, List.sum_replicate]
    decide
  have hsum := scan_sum (findCounts crowded.bytes true .primary) crowded.rpt dbb16384.pageSize
    (sshort_sshort (highWater crowded.count))
  have hspace : (scan (findCounts crowded.bytes true .primary) crowded.rpt dbb16384.pageSize
      (sshort (highWater crowded.count))).1 ≤ 16000 := by
    have hmem : (⟨16000, 0⟩ : Extent) ∈ crowded.rpt := List.mem_replicate.mpr ⟨by decide, rfl⟩
    refine le_trans (scan_le hmem (by decide)) (le_of_eq ?_)
    exact Nat.cast_ofNat
  rw [htotal] at hsum
  obtain ⟨page', space, heq, hcompressed⟩ :=
    dpmCompress_spec (fun _ => 0) layout_crowded.inside (by rw [hcount, htaken]; decide)
  have hleft : space = 16384 := by
    rw [hcompressed.space_eq, htaken]
    rfl
  have hcount' : page'.count = 1300 := hcompressed.count.trans hcount
  refine ⟨page'.extend.setLine page'.count ⟨4384, 12000⟩, page'.count, 4384, ?_, fun h => ?_⟩
  · unfold findSpace
    simp only [Bool.not_false, hdead, if_true]
    generalize scan (findCounts crowded.bytes true .primary) crowded.rpt dbb16384.pageSize
      (sshort (highWater crowded.count)) = r at hsum hspace ⊢
    obtain ⟨lowest, used⟩ := r
    simp only at hsum hspace
    have hused : sshort (used + sizeofRepeat) = -31708 := by
      rw [hsum, hcount]
      decide
    have hsize : sshort (roundup 12000) = 12000 := by decide
    have hpage : (dbb16384.pageSize : ℤ) = 16384 := rfl
    have hwater : highWater (crowded.count + 1) = 5228 := by
      rw [hcount]
      decide
    rw [hused, hsize, hwater, if_neg (by omega), if_pos (by omega), heq, hleft]
    rfl
  · have habove := h.above page'.count ⟨4384, 12000⟩
      ⟨List.getElem?_set_self (by rw [← DataPage.count, count_extend]; omega), by decide⟩
    rw [count_setLine, count_extend, hcount'] at habove
    exact absurd habove (by decide)

/-- The property as it stands is not kept: `DPM_compress` does not look whether the rounded lengths
fit, `DPM_chain` sets a flag outside of a line that is too short for a header, and the sum in
`find_space` overflows when it reserves room for lines that are not padded. -/
theorem dataPage_layout_not_kept :
    (Layout dbb1024 unaligned ∧ ∃ page' space,
      dpmCompress dbb1024 (fun _ => 0) unaligned = some (page', space) ∧ ¬Layout dbb1024 page') ∧
    (Layout dbb1024 shortLines ∧ ∃ page' slot,
      dpmChain dbb1024 (fun _ => 0) shortLines 0 ⟨0, 0, 0, 0, 0⟩ false 0 ⟨0, 0, 0, 0, 0⟩ [] =
        some (some (page', slot)) ∧ slot ≠ 1 ∧ ¬Keeps shortLines page' 1) ∧
    (Layout dbb16384 crowded ∧ ∃ page' slot space,
      findSpace dbb16384 false (fun _ => 0) crowded 12000 .primary =
        some (some (page', slot, space)) ∧ ¬Layout dbb16384 page') :=
  ⟨⟨layout_of_pairwise (by decide) (by decide) (by decide), dpmCompress_unaligned⟩,
    dpmChain_shortLines, layout_crowded, findSpace_crowded⟩

end Firebird.Dpm
