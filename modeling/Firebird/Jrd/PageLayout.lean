import Firebird.Jrd.DataPage

/-! # The layout of a data page is kept (`jrd/dpm.epp`)

Each routine that changes a data page leaves the lines apart from each other, above the line index
and inside the page, and does not touch the bytes of the lines that it does not name.

Lines may lie at offsets that are no multiple of `ODS_ALIGNMENT`. Then more may be in use by
rounded lengths than the page has. The routines that look for space give up there;
`DPM_compress` itself does not look.
-/

namespace Firebird.Dpm

variable {dbb : Dbb} {page page' page'' : DataPage} {i j slot : ℕ} {a b line : Extent}
  {rpt : List Extent} {bytes temp : Memory UCHAR} {space sum : ℤ} {ws : List UCHAR} {p : ℕ}

/-! ## Lines set anew -/

theorem live_setLine_of_ne (h : i ≠ slot) : (page.setLine slot line).Live i a ↔ page.Live i a := by
  rw [DataPage.Live, DataPage.setLine, List.getElem?_set_ne h.symm, DataPage.Live]

theorem live_setLine_self (h : (page.setLine slot line).Live slot a) : a = line := by
  have hget := h.1
  rw [DataPage.setLine, List.getElem?_set_self'] at hget
  cases hline : page.rpt[slot]? with
  | none =>
      rw [hline] at hget
      cases hget
  | some b =>
      rw [hline] at hget
      exact (Option.some.inj hget).symm

theorem count_setLine (page : DataPage) (slot : ℕ) (line : Extent) :
    (page.setLine slot line).count = page.count :=
  List.length_set

theorem count_extend (page : DataPage) : page.extend.count = page.count + 1 :=
  List.length_append

theorem live_extend : page.extend.Live i a ↔ page.Live i a := by
  unfold DataPage.Live DataPage.extend
  rcases Nat.lt_or_ge i page.rpt.length with hlt | hge
  · rw [List.getElem?_append_left hlt]
  · rw [List.getElem?_append_right hge, List.getElem?_eq_none hge]
    constructor
    · rintro ⟨hget, hne⟩
      have hempty := List.mem_singleton.mp (List.mem_of_getElem? hget)
      exact absurd (congrArg Extent.offset hempty) hne
    · rintro ⟨hget, -⟩
      cases hget

theorem Layout.write (h : Layout dbb page) (p : ℕ) (ws : List UCHAR) :
    Layout dbb (page.write p ws) where
  index := h.index
  above := h.above
  inside := h.inside
  apart := h.apart

theorem Layout.extend (h : Layout dbb page) (hindex : highWater (page.count + 1) ≤ dbb.pageSize)
    (habove : ∀ i a, page.Live i a → highWater (page.count + 1) ≤ a.offset) :
    Layout dbb page.extend where
  index := (count_extend page).symm ▸ hindex
  above i a ha := (count_extend page).symm ▸ habove i a (live_extend.mp ha)
  inside i a ha := h.inside i a (live_extend.mp ha)
  apart i j a b ha hb := h.apart i j a b (live_extend.mp ha) (live_extend.mp hb)

theorem Layout.setLine (h : Layout dbb page) (hlo : highWater page.count ≤ line.offset)
    (hhi : line.stop ≤ dbb.pageSize) (hapart : ∀ i a, i ≠ slot → page.Live i a → Extent.Apart line a) :
    Layout dbb (page.setLine slot line) where
  index := (count_setLine page slot line).symm ▸ h.index
  above i a ha := by
    rw [count_setLine]
    by_cases hi : i = slot
    · subst hi
      rwa [live_setLine_self ha]
    · exact h.above i a ((live_setLine_of_ne hi).mp ha)
  inside i a ha := by
    by_cases hi : i = slot
    · subst hi
      rwa [live_setLine_self ha]
    · exact h.inside i a ((live_setLine_of_ne hi).mp ha)
  apart i j a b ha hb hij := by
    by_cases hi : i = slot
    · subst hi
      rw [live_setLine_self ha]
      exact hapart j b hij.symm ((live_setLine_of_ne hij.symm).mp hb)
    · have ha' := (live_setLine_of_ne hi).mp ha
      by_cases hj : j = slot
      · subst hj
        rw [live_setLine_self hb]
        exact (hapart i a hi ha').symm
      · exact h.apart i j a b ha' ((live_setLine_of_ne hj).mp hb) hij

theorem keeps_setLine (h : i ≠ slot) : Keeps page (page.setLine slot line) i :=
  fun a ha => ⟨a, (live_setLine_of_ne h).mpr ha, rfl, rfl⟩

theorem keeps_extend (page : DataPage) (i : ℕ) : Keeps page page.extend i :=
  fun a ha => ⟨a, live_extend.mpr ha, rfl, rfl⟩

/-- What is written to an extent is not seen in a line apart from it. -/
theorem keeps_write (line : Extent) (h : ∀ a, page.Live i a → Extent.Apart a line) (hlo : line.offset ≤ p)
    (hhi : p + ws.length ≤ line.stop) : Keeps page (page.write p ws) i :=
  fun a ha => ⟨a, ha, rfl, Extent.content_store (h a ha) hlo hhi⟩

/-! ## Room on the page -/

/-- The bytes of the lines in use -/
def lengths (rpt : List Extent) : ℕ := ((rpt.filter (·.offset ≠ 0)).map Extent.length).sum

theorem Layout.lengths_le (h : Layout dbb page) :
    highWater page.count + lengths page.rpt ≤ dbb.pageSize := by
  have hindex := h.index
  have hwater := highWater_eq page.count
  have hpair : (page.rpt.filter (·.offset ≠ 0)).Pairwise Extent.Apart := by
    rw [List.pairwise_filter, List.pairwise_iff_getElem]
    intro i j hi hj hij hne hne'
    exact h.apart i j _ _ ⟨List.getElem?_eq_getElem hi, by simpa using hne⟩
      ⟨List.getElem?_eq_getElem hj, by simpa using hne'⟩ hij.ne
  have hsum := Extent.sum_length_le (highWater page.count).toNat dbb.pageSize hpair ?_
  · unfold lengths
    omega
  · intro a ha
    obtain ⟨hmem, hne⟩ := List.mem_filter.mp ha
    obtain ⟨i, hi⟩ := List.mem_iff_getElem?.mp hmem
    have hlive : page.Live i a := ⟨hi, by simpa using hne⟩
    have habove := h.above i a hlive
    exact ⟨by omega, h.inside i a hlive⟩

/-- The sum over the lines that count -/
def total (counts : Extent → Option ℤ) (rpt : List Extent) : ℤ :=
  (rpt.map fun index => (counts index).getD 0).sum

variable {counts : Extent → Option ℤ} {reserving : Bool} {type : StoreType}

theorem total_cons (index : Extent) (rpt : List Extent) :
    total counts (index :: rpt) = (counts index).getD 0 + total counts rpt := by
  rw [total, List.map_cons, List.sum_cons, total]

theorem scan_sum (counts : Extent → Option ℤ) (rpt : List Extent) (space : ℤ) (h : sshort sum = sum) :
    (scan counts rpt space sum).2 = sshort (sum + total counts rpt) := by
  induction rpt generalizing space sum with
  | nil => rw [scan, total, List.map_nil, List.sum_nil, add_zero, h]
  | cons index rpt ih =>
      rw [scan_cons, total_cons]
      cases hcount : counts index with
      | none => exact (ih space h).trans (by rw [Option.getD_none, zero_add])
      | some n =>
          refine (ih _ (sshort_sshort _)).trans ?_
          rw [sshort_sshort_add, Option.getD_some, add_assoc]

theorem scan_le_space : (scan counts rpt space sum).1 ≤ space := by
  induction rpt generalizing space sum with
  | nil => exact le_rfl
  | cons index rpt ih =>
      rw [scan_cons]
      split
      · exact ih
      · exact ih.trans (min_le_left _ _)

/-- The lowest offset is at most each one that counts, -/
theorem scan_le (hline : line ∈ rpt) (hcount : counts line ≠ none) :
    (scan counts rpt space sum).1 ≤ line.offset := by
  induction rpt generalizing space sum with
  | nil => cases hline
  | cons index rpt ih =>
      rw [scan_cons]
      rcases List.mem_cons.mp hline with rfl | hline
      · split
        · rename_i hnone
          exact absurd hnone hcount
        · exact scan_le_space.trans (min_le_right _ _)
      · split
        · exact ih hline
        · exact ih hline

/-- and not below all of them. -/
theorem le_scan {lo : ℤ} (hspace : lo ≤ space)
    (h : ∀ a ∈ rpt, counts a ≠ none → lo ≤ a.offset) : lo ≤ (scan counts rpt space sum).1 := by
  induction rpt generalizing space sum with
  | nil => exact hspace
  | cons index rpt ih =>
      obtain ⟨hfirst, hrest⟩ := List.forall_mem_cons.mp h
      rw [scan_cons]
      split
      · exact ih hspace hrest
      · rename_i n hcount
        exact ih (le_min hspace (hfirst (by rw [hcount]; exact Option.some_ne_none n))) hrest

/-- What a line adds is little more than its length: the 16-bit sums do not overflow. -/
theorem total_le (rpt : List Extent) (counts : Extent → Option ℤ)
    (h : ∀ a ∈ rpt, ∀ n, counts a = some n → a.offset ≠ 0 ∧ n ≤ 2 * a.length + 4) :
    total counts rpt ≤ 2 * lengths rpt + 4 * rpt.length := by
  induction rpt with
  | nil => exact le_rfl
  | cons index rpt ih =>
      obtain ⟨hfirst, hrest⟩ := List.forall_mem_cons.mp h
      have htail := ih hrest
      have hlengths : lengths (index :: rpt) =
          (if index.offset ≠ 0 then index.length else 0) + lengths rpt := by
        unfold lengths
        by_cases h0 : index.offset = 0
        · simp [h0]
        · simp [h0]
      rw [total_cons, hlengths, List.length_cons]
      cases hcount : counts index with
      | none =>
          rw [Option.getD_none]
          split <;> omega
      | some n =>
          obtain ⟨hne, hn⟩ := hfirst n hcount
          rw [Option.getD_some, if_pos hne]
          omega

theorem taken_le_total (h : ∀ a ∈ rpt, a.offset ≠ 0 → ∃ n, counts a = some n ∧ roundup a.length ≤ n)
    (h0 : ∀ a ∈ rpt, a.offset = 0 → counts a = none) : taken rpt ≤ total counts rpt := by
  induction rpt with
  | nil => exact le_rfl
  | cons index rpt ih =>
      obtain ⟨hfirst, hrest⟩ := List.forall_mem_cons.mp h
      obtain ⟨hfirst0, hrest0⟩ := List.forall_mem_cons.mp h0
      have htail := ih hrest hrest0
      rw [total_cons]
      by_cases hz : index.offset = 0
      · rw [taken_cons_of_eq hz, hfirst0 hz, Option.getD_none, zero_add]
        exact htail
      · obtain ⟨n, hn, hle⟩ := hfirst hz
        rw [taken_cons_of_ne hz, hn, Option.getD_some]
        omega

/-! ## `find_space` -/

theorem emptySlot_spec (rpt : List Extent) (i slot : ℕ) :
    emptySlot rpt i slot = slot ∨
      ∃ a, rpt[emptySlot rpt i slot - i]? = some a ∧ i ≤ emptySlot rpt i slot ∧ a.offset = 0 := by
  induction rpt generalizing i slot with
  | nil => exact .inl rfl
  | cons index rpt ih =>
      rw [emptySlot]
      split
      · rename_i hempty
        rcases ih (i + 1) i with heq | ⟨a, ha, hle, h0⟩
        · right
          rw [heq, Nat.sub_self]
          exact ⟨index, rfl, le_rfl, hempty.1⟩
        · right
          refine ⟨a, ?_, by omega, h0⟩
          obtain ⟨k, hk⟩ := Nat.exists_eq_add_of_le hle
          rw [hk, Nat.add_sub_cancel_left] at ha
          rw [hk, show i + 1 + k - i = k + 1 by omega]
          exact ha
      · rcases ih (i + 1) slot with heq | ⟨a, ha, hle, h0⟩
        · exact .inl heq
        · right
          refine ⟨a, ?_, by omega, h0⟩
          obtain ⟨k, hk⟩ := Nat.exists_eq_add_of_le hle
          rw [hk, Nat.add_sub_cancel_left] at ha
          rw [hk, show i + 1 + k - i = k + 1 by omega]
          exact ha

/-- A slot that is found is not in use. -/
theorem emptySlot_lt (h : emptySlot rpt 0 0 ≠ 0) :
    ∃ a, rpt[emptySlot rpt 0 0]? = some a ∧ a.offset = 0 := by
  rcases emptySlot_spec rpt 0 0 with heq | ⟨a, ha, -, h0⟩
  · exact absurd heq h
  · exact ⟨a, ha, h0⟩

/-- The lines that `find_space` reserves room for are padded to the length of a fragment header. -/
def Padded (page : DataPage) (reserving : Bool) (type : StoreType) : Prop :=
  type = .primary → reserving = true →
    ∀ i a, page.Live i a → reserves page.bytes a = true → rhdfSize ≤ a.length

/-- The page is laid out well, and the lines that are not named keep their bytes. -/
def Preserves (dbb : Dbb) (page page' : DataPage) (named : List ℕ) : Prop :=
  Layout dbb page' ∧ ∀ i, i ∉ named → Keeps page page' i

/-- The page from which the space is taken, compressed or not: the lines that have bytes are at
`space` or above. -/
structure Roomy (dbb : Dbb) (page page' : DataPage) (space : ℤ) : Prop where
  layout : Layout dbb page'
  keeps : ∀ i, Keeps page page' i
  count : page'.count = page.count
  inside : space ≤ dbb.pageSize
  above : ∀ i b, page'.Live i b → 0 < b.length → space ≤ b.offset
  dead : ∀ (i : ℕ) (a : Extent), page.rpt[i]? = some a → a.offset = 0 → page'.rpt[i]? = some a

theorem Compressed.roomy (h : Compressed dbb page page' space)
    (hindex : highWater page.count ≤ dbb.pageSize) : Roomy dbb page page' space where
  layout := h.layout hindex
  keeps := h.keeps
  count := h.count
  inside := by
    rw [h.space_eq]
    have := taken_nonneg page.rpt
    omega
  above i b hb _ := (h.le_offset hb).1
  dead i a ha h0 := by
    obtain ⟨b, hb, hmoved⟩ := h.line i a ha
    rcases hmoved with ⟨-, rfl⟩ | ⟨hne, -⟩
    · exact hb
    · exact absurd h0 hne

theorem Layout.roomy (h : Layout dbb page) (hinside : space ≤ dbb.pageSize)
    (habove : ∀ i b, page.Live i b → 0 < b.length → space ≤ b.offset) :
    Roomy dbb page page space where
  layout := h
  keeps := Keeps.refl page
  count := rfl
  inside := hinside
  above := habove
  dead _ _ ha _ := ha

/-- What is put below the lines that have bytes is apart from them. -/
theorem Roomy.apart (h : Roomy dbb page page' space) (hstop : (line.stop : ℤ) ≤ space)
    (ha : page'.Live i a) : Extent.Apart line a := by
  rcases Nat.eq_zero_or_pos a.length with hempty | hpos
  · exact .inr (.inl hempty)
  · have := h.above i a ha hpos
    exact .inr (.inr (.inl (by omega)))

/-- The bounds that keep `used` and `available` short integers -/
theorem Layout.bounds (h : Layout dbb page) :
    dbb.pageSize ≤ 16384 ∧ (24 : ℤ) + 4 * page.count + lengths page.rpt ≤ dbb.pageSize ∧
      0 ≤ taken page.rpt ∧ taken page.rpt ≤ 2 * lengths page.rpt + 4 * page.count := by
  have hle := h.lengths_le
  rw [highWater_eq] at hle
  refine ⟨dbb.le_max, hle, taken_nonneg _, ?_⟩
  have htotal := total_le page.rpt
    (fun index => if index.offset = 0 then none else some (roundup index.length)) ?_
  · refine le_trans (le_of_eq ?_) htotal
    rw [taken, total]
    congr 2
    funext index
    split <;> rfl
  · intro a _ n hn
    split at hn
    · cases hn
    · rename_i hne
      obtain rfl := Option.some.inj hn
      have := le_roundup a.length
      exact ⟨hne, by omega⟩

theorem findCounts_spec (hpad : Padded page reserving type) (hline : page.Live i a) :
    ∃ n, findCounts page.bytes reserving type a = some n ∧ roundup a.length ≤ n ∧
      n ≤ 2 * a.length + 4 := by
  have hround := le_roundup a.length
  have hfudge : spaceFudge = 22 := rfl
  unfold findCounts
  rw [if_neg hline.2]
  split
  · rename_i hreserve
    simp only [Bool.and_eq_true, decide_eq_true_eq] at hreserve
    have hlen : 22 ≤ a.length := hpad hreserve.1.1 hreserve.1.2 i a hline hreserve.2
    exact ⟨_, rfl, by omega, by omega⟩
  · refine ⟨_, rfl, le_rfl, ?_⟩
    by_cases h0 : a.length = 0
    · rw [h0]
      decide
    · omega

/-- What `find_space` adds up, and how low the lines reach -/
theorem findScan_spec (h : Layout dbb page) (hpad : Padded page reserving type) :
    ∃ space used : ℤ,
      scan (findCounts page.bytes reserving type) page.rpt dbb.pageSize
        (sshort (highWater page.count)) = (space, used) ∧
      highWater page.count + taken page.rpt ≤ used ∧ used ≤ 32744 ∧
      space ≤ dbb.pageSize ∧ ∀ i a, page.Live i a → space ≤ a.offset := by
  obtain ⟨hmax, hlengths, -, -⟩ := h.bounds
  have hwater := highWater_eq page.count
  have hcount : page.count = page.rpt.length := rfl
  have hshort : sshort (highWater page.count) = highWater page.count :=
    sshort_eq (by omega) (by omega)
  have hcounts : ∀ a ∈ page.rpt, a.offset ≠ 0 → ∃ n, findCounts page.bytes reserving type a = some n ∧
      roundup a.length ≤ n ∧ n ≤ 2 * a.length + 4 := by
    intro a ha hne
    obtain ⟨i, hi⟩ := List.mem_iff_getElem?.mp ha
    exact findCounts_spec hpad ⟨hi, hne⟩
  have hnone : ∀ a ∈ page.rpt, a.offset = 0 → findCounts page.bytes reserving type a = none :=
    fun a _ h0 => if_pos h0
  have htaken : taken page.rpt ≤ total (findCounts page.bytes reserving type) page.rpt := by
    apply taken_le_total _ hnone
    intro a ha hne
    obtain ⟨n, hn, hle, -⟩ := hcounts a ha hne
    exact ⟨n, hn, hle⟩
  have htotal : total (findCounts page.bytes reserving type) page.rpt ≤
      2 * lengths page.rpt + 4 * page.rpt.length := by
    apply total_le
    intro a ha n hn
    have hne : a.offset ≠ 0 := by
      intro h0
      rw [hnone a ha h0] at hn
      cases hn
    obtain ⟨n', hn', -, hle⟩ := hcounts a ha hne
    obtain rfl := Option.some.inj (hn.symm.trans hn')
    exact ⟨hne, hle⟩
  have htaken0 := taken_nonneg page.rpt
  have hsum := scan_sum (findCounts page.bytes reserving type) page.rpt dbb.pageSize
    (sshort_sshort (highWater page.count))
  rw [hshort, sshort_eq (by omega) (by omega)] at hsum
  refine ⟨_, _, rfl, ?_, ?_, scan_le_space, ?_⟩
  · rw [hshort, hsum]
    omega
  · rw [hshort, hsum]
    omega
  · intro i a ha
    apply scan_le (List.mem_of_getElem? ha.1)
    obtain ⟨n, hn, -⟩ := hcounts a (List.mem_of_getElem? ha.1) ha.2
    rw [hn]
    exact Option.some_ne_none n

/-- The line index grows by the line that is set. -/
theorem Roomy.extend (h : Roomy dbb page page' space)
    (habove : ∀ i b, page'.Live i b → highWater (page.count + 1) ≤ b.offset)
    (hindex : highWater (page.count + 1) ≤ space) : Layout dbb page'.extend := by
  have hinside := h.inside
  apply h.layout.extend
  · rw [h.count]
    omega
  · rw [h.count]
    exact habove

/-- If there is room by the rounded lengths, the page has it below its lines, or does when it is
compressed. -/
theorem exists_roomy (h : Layout dbb page) (temp : Memory UCHAR) (need water : ℤ) (hneed : 0 ≤ need)
    (hspace : space ≤ dbb.pageSize) (hwater : highWater page.count ≤ water)
    (hroom : water + need + taken page.rpt ≤ dbb.pageSize)
    (hbelow : ∀ i a, page.Live i a → 0 < a.length → space ≤ a.offset)
    (habove : water ≤ space → ∀ i a, page.Live i a → water ≤ a.offset) :
    ∃ page' space', (if need > space - water then dpmCompress dbb temp page
        else some (page, space)) = some (page', space') ∧
      Roomy dbb page page' space' ∧ water + need ≤ space' ∧
      ∀ i b, page'.Live i b → water ≤ b.offset := by
  split
  · obtain ⟨page', space', heq, hcompressed⟩ := dpmCompress_spec temp h.inside (by omega)
    have hspace' := hcompressed.space_eq
    refine ⟨page', space', heq, hcompressed.roomy h.index, by omega, fun i b hb => ?_⟩
    have := (hcompressed.le_offset hb).1
    omega
  · exact ⟨page, space, rfl, h.roomy hspace hbelow, by omega, habove (by omega)⟩

/-- A line is put below the others, `need` bytes below `space`. -/
theorem Roomy.setLine (h : Roomy dbb page page' space) (hlayout : Layout dbb page'')
    (hlive : ∀ i a, page''.Live i a → page'.Live i a) {need : ℤ} {n : ℕ} (hn : n ≤ need)
    (hwater : highWater page''.count + need ≤ space) :
    Layout dbb (page''.setLine slot ⟨(space - need).toNat, n⟩) := by
  have hcount := highWater_eq page''.count
  have hinside := h.inside
  have hstop : ((⟨(space - need).toNat, n⟩ : Extent).stop : ℤ) ≤ space := by
    change (((space - need).toNat + n : ℕ) : ℤ) ≤ space
    omega
  apply hlayout.setLine
  · change highWater page''.count ≤ ((space - need).toNat : ℤ)
    omega
  · omega
  · intro i a _ ha
    exact h.apart hstop (hlive i a ha)

/-- **`find_space`** -/
theorem findSpace_preserves (h : Layout dbb page) (noReserve : Bool) (temp : Memory UCHAR) {size : ℤ}
    (hsize : 0 ≤ size) (hsize' : size ≤ dbb.pageSize) (hpad : Padded page (!noReserve) type) :
    findSpace dbb noReserve temp page size type = some none ∨
      ∃ page' slot space, findSpace dbb noReserve temp page size type =
          some (some (page', slot, space)) ∧
        (∀ a, ¬page.Live slot a) ∧ page'.rpt[slot]? = some ⟨space.toNat, size.toNat⟩ ∧
        Preserves dbb page page' [slot] := by
  obtain ⟨hmax, hlengths, htaken, -⟩ := h.bounds
  obtain ⟨space, used, hscan, hused, hused', hspace, hbelow⟩ := findScan_spec h hpad
  have hround := le_roundup size
  have haligned : sshort (roundup size) = roundup size := sshort_eq (by omega) (by omega)
  have hwater := highWater_eq page.count
  have hwater' := highWater_eq (page.count + 1)
  unfold findSpace
  rw [hscan, haligned]
  by_cases hslot : emptySlot page.rpt 0 0 = 0
  · -- the line index grows
    have hshort : sshort (used + sizeofRepeat) = used + 4 :=
      sshort_eq (x := used + 4) (by omega) (by omega)
    simp only [if_pos hslot, hshort]
    split
    · exact .inl rfl
    right
    obtain ⟨page', space', heq, hroomy, hneed, habove⟩ :=
      exists_roomy h temp (roundup size) (highWater (page.count + 1)) (by omega)
        hspace (by omega) (by omega) (fun i a ha _ => hbelow i a ha)
        (fun hle i a ha => hle.trans (hbelow i a ha))
    have hinside := hroomy.inside
    have hsub : sshort (space' - roundup size) = space' - roundup size :=
      sshort_eq (by omega) (by omega)
    have hcount := hroomy.count
    have hextend := hroomy.extend habove (by omega)
    rw [heq]
    refine ⟨page'.extend.setLine page'.count ⟨(space' - roundup size).toNat, size.toNat⟩,
      page'.count, space' - roundup size, ?_, ?_, ?_, ?_, ?_⟩
    · simp only [Option.bind_eq_bind, Option.bind_some, hsub]
    · rintro a ⟨hget, -⟩
      rw [hcount, DataPage.count, List.getElem?_eq_none le_rfl] at hget
      cases hget
    · exact List.getElem?_set_self (by rw [← DataPage.count, count_extend]; omega)
    · apply hroomy.setLine hextend (fun i a ha => live_extend.mp ha) (by omega)
      rw [count_extend, hcount]
      exact hneed
    · intro i hi
      have hne : i ≠ page'.count := fun heq => hi (List.mem_singleton.mpr heq)
      exact ((hroomy.keeps i).trans (keeps_extend page' i)).trans (keeps_setLine hne)
  · obtain ⟨dead, hdead, h0⟩ := emptySlot_lt hslot
    simp only [if_neg hslot]
    split
    · exact .inl rfl
    right
    obtain ⟨page', space', heq, hroomy, hneed, -⟩ :=
      exists_roomy h temp (roundup size) (highWater page.count) (by omega)
        hspace le_rfl (by omega) (fun i a ha _ => hbelow i a ha) (fun _ => h.above)
    have hinside := hroomy.inside
    have hsub : sshort (space' - roundup size) = space' - roundup size :=
      sshort_eq (by omega) (by omega)
    have hlt := (List.getElem?_eq_some_iff.mp hdead).1
    rw [Nat.add_zero, heq]
    refine ⟨page'.setLine (emptySlot page.rpt 0 0) ⟨(space' - roundup size).toNat, size.toNat⟩,
      emptySlot page.rpt 0 0, space' - roundup size, ?_, ?_, ?_, ?_, ?_⟩
    · simp only [Option.bind_eq_bind, Option.bind_some, hsub]
    · rintro a ⟨hget, hne⟩
      obtain rfl := Option.some.inj (hdead.symm.trans hget)
      exact hne h0
    · apply List.getElem?_set_self
      rw [← DataPage.count, hroomy.count]
      exact hlt
    · apply hroomy.setLine hroomy.layout (fun i a ha => ha) (by omega)
      rw [hroomy.count]
      exact hneed
    · intro i hi
      have hne : i ≠ emptySlot page.rpt 0 0 := fun heq => hi (List.mem_singleton.mpr heq)
      exact (hroomy.keeps i).trans (keeps_setLine hne)

end Firebird.Dpm
