import Firebird.Jrd.EventFree

/-! # The heap of the event region

The region stays a heap in all runs of the event manager whose requests are longer than the header of
a block and shorter than the longest signed length. A shorter block has no room for the offset of the
next free block.
-/

namespace Firebird.Event

open Extent Wrap Transition

variable {S : Build} {r r' : Region} {a b : Extent} {as bs free live : List Extent}
  {p lo length k n : ℕ} {type : UCHAR} {best : Option (ℕ × ℤ)}

/-! ## The block that fits best -/

/-- A link to a block that is long enough, and what it has more -/
def Fits (free : List Extent) (length : ℕ) (x : ℕ × ℤ) : Prop :=
  ∃ front b back, free = front ++ b :: back ∧ x.1 = link evhFree front ∧
    length ≤ b.length ∧ x.2 = b.length - length

theorem bestFit_spec (bs : List Extent) (best : Option (ℕ × ℤ))
    (hc : Chain r.mem (link evhFree bs) as 0) (hrow : Row lo r.mapped as) (hlo : 0 < lo)
    (hp : link evhFree bs + 4 ≤ r.mapped) (hmapped : r.mapped < 2147483648)
    (hlen : length ≤ 2147483648) (hk : as.length < k) (hbest : ∀ x ∈ best, Fits (bs ++ as) length x) :
    ∃ best', bestFit r length k (link evhFree bs) best = .ok best' ∧
      ∀ x ∈ best', Fits (bs ++ as) length x := by
  induction as generalizing bs k best with
  | nil =>
      obtain ⟨k, rfl⟩ := Nat.exists_eq_add_one.mpr hk
      have hv : r.mem.long (link evhFree bs) = (0 : ℕ) := hc
      refine ⟨best, ?_, hbest⟩
      rw [bestFit, get_ok hp, Outcome.ok_seq, hv, absPtr_natCast, Outcome.ok_seq, if_pos rfl]
      rfl
  | cons a as ih =>
      obtain ⟨k, rfl⟩ := Nat.exists_eq_add_one.mpr (Nat.zero_lt_of_lt hk)
      obtain ⟨ha, has, -⟩ := row_cons.mp hrow
      obtain ⟨hv, hlength, hrest⟩ := hc
      unfold sizeofFrb stop at ha
      have hlink : link evhFree (bs ++ [a]) = a.offset + frbNext := link_concat
      have hsplit : bs ++ a :: as = (bs ++ [a]) ++ as := (List.append_cons bs a as)
      rw [bestFit, get_ok hp, Outcome.ok_seq, hv, absPtr_natCast, Outcome.ok_seq,
        if_neg (show a.offset ≠ 0 by omega), get_ok (by omega), Outcome.ok_seq, hlength,
        toInt32_of_lt (by omega) (by omega), ← hlink, hsplit]
      refine ih (bs ++ [a]) _ (hlink ▸ hrest) has (by rw [hlink]; unfold frbNext; omega)
        (Nat.lt_of_succ_lt_succ hk) fun x hx => ?_
      rw [← hsplit]
      split at hx
      · rename_i htail
        cases hx
        exact ⟨bs, a, as, rfl, rfl, by omega, rfl⟩
      · exact hbest x hx

/-! ## Taking a block -/

/-- Free blocks in front of a free block and behind it, and the live blocks -/
theorem Heap.around (h : Heap S r (as ++ b :: bs) live) :
    (∀ f ∈ as, f.stop < b.offset) ∧ (∀ c ∈ bs, b.stop < c.offset) ∧
      ∀ c ∈ live, ∀ f ∈ as ++ [b], c.offset + 4 ≤ f.offset ∨ f.stop ≤ c.offset := by
  obtain ⟨-, hgb, hfb⟩ := gapped_append.mp h.gapped
  refine ⟨fun f hf => hfb f hf b List.mem_cons_self, (gapped_cons.mp hgb).1, fun c hc f hf => ?_⟩
  have hf' : f ∈ as ++ b :: bs := by
    rw [List.append_cons]
    exact List.mem_append_left bs hf
  have hor := h.apart hf' hc
  have hlc := h.large c (List.mem_append_right _ hc)
  unfold sizeofFrb at hlc
  unfold stop at hor ⊢
  omega

/-- A free block is taken out of the list. -/
theorem unlink_heap (h : Heap S r (as ++ b :: bs) live) :
    ∃ r', unlink r (link evhFree as) b.offset = .ok (r', b.offset) ∧ r'.mapped = r.mapped ∧
      Heap S r' (as ++ bs) (b :: live) := by
  have hevh := S.le_evh
  have hmem : b ∈ as ++ b :: bs := List.mem_append_right as List.mem_cons_self
  have hwb := h.within (List.mem_append_left live hmem)
  unfold sizeofFrb stop at hwb
  obtain ⟨hrowa, hrowb, hfb⟩ := row_append.mp h.row
  obtain ⟨hfa, hbc, hlive⟩ := h.around
  obtain ⟨hfront, hlength, hback⟩ := chain_middle.mp h.chain
  have hlink := hrowa.link_le (show evhFree + 4 ≤ r.mapped by unfold evhFree; omega)
  have hget : r.get (b.offset + frbNext) = .ok (r.mem.long (b.offset + frbNext)) :=
    get_ok (by unfold frbNext; omega)
  let mem := r.mem.putLong (link evhFree as) (r.mem.long (b.offset + frbNext))
  have hkeep : ∀ q, q + 4 ≤ link evhFree as ∨ link evhFree as + 4 ≤ q →
      mem.long q = r.mem.long q := fun q hq => Memory.long_putLong_of_disjoint (by omega)
  -- behind the last link
  have hrow' : Row S.evh b.offset as :=
    ⟨hrowa.order, fun f hf => ⟨(hrowa.within f hf).1, (hrowa.within f hf).2.1, (hfa f hf).le⟩⟩
  have hlast := hrow'.link_le (show evhFree + 4 ≤ b.offset by unfold evhFree; omega)
  have hkeepl : ∀ c ∈ live, mem.long c.offset = r.mem.long c.offset := by
    intro c hc
    have hwc := h.within (List.mem_append_right _ hc)
    refine hkeep c.offset (disjoint_link (.inr (by unfold evhFree; omega)) fun f hf => ?_)
    have hor := hlive c hc f (List.mem_append_left [b] hf)
    have hlf := (hrowa.within f hf).2.1
    unfold stop at hor
    omega
  have hperm : (as ++ b :: bs ++ live).Perm (as ++ bs ++ b :: live) := by
    rw [List.append_assoc, List.append_assoc, List.cons_append]
    exact List.Perm.append_left as List.perm_middle.symm
  refine ⟨⟨mem, r.mapped⟩, ?_, rfl, ?_, ?_, h.tiles.perm (hperm.cons _), ?_,
    fun c hc => h.large c (hperm.mem_iff.mpr hc), ?_, h.mapped⟩
  · rw [unlink, hget, Outcome.ok_seq, put_ok hlink, Outcome.ok_seq]
    rfl
  · refine chain_append.mpr ⟨?_, ?_⟩
    · exact hfront.relink hrowa hevh rfl fun q hq => hkeep q (.inl hq)
    · refine hback.congr ?_ fun c hc => ?_
      · exact (Memory.long_putLong _ _ _).trans (Memory.toInt32_long _ _)
      · have hle := hbc c hc
        unfold stop at hle
        constructor
        · exact hkeep c.offset (.inr (by omega))
        · exact hkeep (c.offset + frbNext) (.inr (by omega))
  · obtain ⟨hga, hgb, hgap⟩ := gapped_append.mp h.gapped
    exact gapped_append.mpr ⟨hga, (gapped_cons.mp hgb).2, fun f hf c hc =>
      hgap f hf c (List.mem_cons_of_mem b hc)⟩
  · intro c hc
    rcases List.mem_cons.mp hc with rfl | hc
    · exact (hkeep c.offset (.inr hlast)).trans hlength
    · exact (hkeepl c hc).trans (h.lengths c hc)
  · refine (hkeep evhLength (disjoint_link (.inl (by decide)) fun f hf => .inl ?_)).trans h.length
    have hwf := (hrowa.within f hf).1
    unfold evhLength
    omega

/-- A block is cut from the end of a free block. -/
theorem cut_heap (h : Heap S r (as ++ b :: bs) live) (hlen : sizeofFrb ≤ length)
    (hrest : length + sizeofFrb ≤ b.length) :
    ∃ r', cut r length b.offset = .ok (r', b.offset + (b.length - length)) ∧
      r'.mapped = r.mapped ∧
      Heap S r' (as ++ ⟨b.offset, b.length - length⟩ :: bs)
        (⟨b.offset + (b.length - length), length⟩ :: live) := by
  have hevh := S.le_evh
  have hmapped := h.mapped
  have hwb := h.within (List.mem_append_left live (List.mem_append_right as List.mem_cons_self))
  obtain ⟨hfa, hbc, hlive⟩ := h.around
  obtain ⟨hfront, hlength, hback⟩ := chain_middle.mp h.chain
  unfold sizeofFrb at hlen hrest
  unfold sizeofFrb stop at hwb
  obtain ⟨rest, hsum⟩ := Nat.exists_eq_add_of_le (show length ≤ b.length by omega)
  rw [show b.length - length = rest by omega]
  let block := b.offset + rest
  let mem := (r.mem.putLong b.offset rest).putLong block length
  have hkeep : ∀ q, q + 4 ≤ b.offset ∨ b.offset + 4 ≤ q → q + 4 ≤ block ∨ block + 4 ≤ q →
      mem.long q = r.mem.long q := by
    intro q hq hq'
    rw [Memory.long_putLong_of_disjoint (by omega), Memory.long_putLong_of_disjoint (by omega)]
  have hout : ∀ q, q + 4 ≤ b.offset ∨ b.stop ≤ q → mem.long q = r.mem.long q := by
    intro q hq
    unfold stop at hq
    exact hkeep q (by omega) (by omega)
  refine ⟨⟨mem, r.mapped⟩, ?_, rfl, ?_, ?_, ?_, ?_, ?_, ?_, hmapped⟩
  · have hdiff : toInt32 ((b.length : ℤ) - length) = (rest : ℕ) := by
      rw [toInt32_of_lt (by omega) (by omega)]
      omega
    have hput : Region.put { r with mem := r.mem.putLong b.offset rest } (b.offset + rest) length =
        .ok ⟨mem, r.mapped⟩ :=
      put_ok (show block + 4 ≤ r.mapped by omega)
    rw [cut, get_ok (by omega), hlength, Outcome.ok_seq, hdiff]
    simp only
    rw [put_ok (by omega), Outcome.ok_seq, ← Nat.cast_add, absPtr_natCast, Outcome.ok_seq, hput]
    rfl
  · refine chain_middle.mpr ⟨?_, ?_, ?_⟩
    · refine hfront.frame (hout evhFree (.inl (by unfold evhFree; omega))) fun f hf q hq hq' => ?_
      have hle := hfa f hf
      have hlf := h.large f (List.mem_append_left live (List.mem_append_left _ hf))
      unfold stop at hle
      exact hout q (.inl (by omega))
    · change mem.long b.offset = rest
      rw [Memory.long_putLong_of_disjoint (by omega), Memory.long_putLong,
        toInt32_of_lt (by omega) (by omega)]
    · refine hback.frame (hkeep _ (.inr ?_) (.inl ?_)) fun c hc q hq hq' => ?_
      · unfold frbNext
        omega
      · unfold frbNext
        omega
      · exact hout q (.inr ((hbc c hc).le.trans hq))
  · obtain ⟨hga, hgb, hgap⟩ := gapped_append.mp h.gapped
    obtain ⟨hgbc, hgc⟩ := gapped_cons.mp hgb
    refine gapped_append.mpr ⟨hga, gapped_cons.mpr ⟨fun c hc => ?_, hgc⟩, fun f hf c hc => ?_⟩
    · have hlt := hgbc c hc
      unfold stop at hlt ⊢
      simp only
      omega
    · rcases List.mem_cons.mp hc with rfl | hc
      · exact hfa f hf
      · exact hgap f hf c (List.mem_cons_of_mem b hc)
  · refine h.tiles.of_layers fun q => ?_
    have hb : b = ⟨b.offset, rest + length⟩ := by
      rw [Nat.add_comm, ← hsum]
    have hsplit := layers_split (o := b.offset) (l := rest) (m := length) (p := q)
    rw [← hb] at hsplit
    simp only [layers_cons, layers_append, layers_nil] at hsplit ⊢
    omega
  · intro c hc
    rcases List.mem_cons.mp hc with rfl | hc
    · change mem.long block = length
      rw [Memory.long_putLong, toInt32_of_lt (by omega) (by omega)]
    · have hor := hlive c hc b (List.mem_append_right as (List.mem_singleton_self b))
      exact (hout c.offset hor).trans (h.lengths c hc)
  · intro c hc
    rcases List.mem_append.mp hc with hc | hc
    · rcases List.mem_append.mp hc with hc | hc
      · exact h.large c (List.mem_append_left live (List.mem_append_left _ hc))
      · rcases List.mem_cons.mp hc with rfl | hc
        · change 12 ≤ rest
          omega
        · exact h.large c (List.mem_append_left live
            (List.mem_append_right as (List.mem_cons_of_mem b hc)))
    · rcases List.mem_cons.mp hc with rfl | hc
      · exact hlen
      · exact h.large c (List.mem_append_right _ hc)
  · refine (hout evhLength (.inl ?_)).trans h.length
    unfold evhLength
    omega

theorem clear_heap (type : UCHAR) (h : Heap S r free (a :: live)) :
    ∃ r', clear r type a.offset = .ok r' ∧ r'.mapped = r.mapped ∧ Heap S r' free (a :: live) := by
  have hwa := h.within (List.mem_append_right free List.mem_cons_self)
  have hlength := h.lengths a List.mem_cons_self
  unfold sizeofFrb stop at hwa
  let bytes := List.replicate ((a.length : ℤ) - sizeofHdr).toNat (0 : UCHAR)
  have hbytes : bytes.length = a.length - 8 := by
    rw [List.length_replicate]
    unfold sizeofHdr
    omega
  let r₁ : Region := { r with mem := r.mem.store (a.offset + sizeofHdr) bytes }
  have hfill₁ : r.fill (a.offset + sizeofHdr) 0 (a.length - sizeofHdr) = .ok r₁ :=
    fill_ok (by unfold sizeofHdr; omega) (by unfold sizeofHdr; omega)
  have h₁ : Heap S r₁ free (a :: live) := by
    refine h.write (.inr (.inr ⟨a, List.mem_cons_self, ?_, ?_⟩))
    · unfold sizeofHdr
      omega
    · rw [hbytes]
      unfold sizeofHdr stop
      omega
  let r₂ : Region := { r₁ with mem := r₁.mem.store (a.offset + hdrType) (List.replicate 1 type) }
  have hfill₂ : r₁.fill (a.offset + hdrType) type 1 = .ok r₂ :=
    fill_ok (by decide) (show ((a.offset + 4 : ℕ) : ℤ) + 1 ≤ r.mapped by omega)
  refine ⟨r₂, ?_, rfl, h₁.write (.inr (.inr ⟨a, List.mem_cons_self, le_rfl, ?_⟩))⟩
  · rw [clear, get_ok (by omega), hlength, Outcome.ok_seq, hfill₁, Outcome.ok_seq, hfill₂]
  · unfold hdrType stop
    rw [List.length_replicate]
    omega

theorem take_heap (type : UCHAR) (h : Heap S r free live) (hlen : sizeofFrb ≤ length) {x : ℕ × ℤ}
    (hx : Fits free length x) :
    ∃ r' a free', take r type length x = .ok (r', a.offset) ∧ r'.mapped = r.mapped ∧
      length ≤ a.length ∧ Heap S r' free' (a :: live) := by
  obtain ⟨front, b, back, rfl, hlink, hle, htail⟩ := hx
  have hevh := S.le_evh
  obtain ⟨hfront, -, -⟩ := chain_middle.mp h.chain
  have hmapped : evhFree + 4 ≤ r.mapped := by
    have hle := h.evh_le
    unfold evhFree
    omega
  have hget : r.get x.1 = .ok (b.offset : ℤ) := by
    rw [hlink, get_ok ((row_append.mp h.row).1.link_le hmapped), hfront.long_link]
  by_cases hlt : x.2 < sizeofFrb
  · obtain ⟨r₁, hunlink, hm₁, h₁⟩ := unlink_heap h
    obtain ⟨r₂, hclear, hm₂, h₂⟩ := clear_heap type h₁
    refine ⟨r₂, b, _, ?_, hm₂.trans hm₁, hle, h₂⟩
    rw [take, hget, Outcome.ok_seq, absPtr_natCast, Outcome.ok_seq, if_pos hlt, hlink, hunlink,
      Outcome.ok_seq]
    simp only [hclear, Outcome.ok_seq]
    rfl
  · obtain ⟨r₁, hcut, hm₁, h₁⟩ := cut_heap h hlen (by omega)
    obtain ⟨r₂, hclear, hm₂, h₂⟩ := clear_heap type h₁
    refine ⟨r₂, _, _, ?_, hm₂.trans hm₁, ?_, h₂⟩
    · rw [take, hget, Outcome.ok_seq, absPtr_natCast, Outcome.ok_seq, if_neg hlt, hcut,
        Outcome.ok_seq]
      simp only [hclear, Outcome.ok_seq]
      rfl
    · exact le_rfl

/-! ## `alloc_global` -/

theorem Build.roundUp_spec (S : Build) (h : sizeofHdr < n) (h' : n ≤ 2147483648) :
    sizeofFrb ≤ S.roundUp n ∧ n ≤ S.roundUp n ∧ S.roundUp n ≤ 2147483648 ∧
      S.roundUp (S.roundUp n) = S.roundUp n := by
  unfold sizeofHdr at h
  unfold roundUp sizeofFrb
  rcases S.iptr_eq with hi | hi
  · rw [hi]
    omega
  · rw [hi]
    omega

/-- What a search for a block and its taking lead to -/
theorem allocFrom_heap (type : UCHAR) (h : Heap S r free live) (hn : sizeofHdr < n)
    (hn' : n ≤ 2147483648) {extend : ℕ → Except Stop (Region × ℕ)} :
    (∃ r' a free', allocFrom S r type n extend = .ok (r', a.offset) ∧ n ≤ a.length ∧
      Heap S r' free' (a :: live)) ∨
    allocFrom S r type n extend = extend (S.roundUp n) := by
  obtain ⟨hlarge, hle, hsmall, -⟩ := S.roundUp_spec hn hn'
  have hevh := S.le_evh
  have hmapped : evhFree + 4 ≤ r.mapped := by
    have hle := h.evh_le
    unfold evhFree
    omega
  obtain ⟨best, hbest, hfits⟩ := bestFit_spec [] none h.chain h.row (by omega)
    hmapped h.mapped hsmall h.length_lt (fun _ hx => nomatch hx)
  rw [allocFrom]
  rw [link_nil] at hbest
  cases best with
  | none =>
      right
      simp only [hbest, Outcome.ok_seq]
  | some x =>
      left
      obtain ⟨r', a, free', htake, -, hlen, hheap⟩ := take_heap type h hlarge (hfits x rfl)
      refine ⟨r', a, free', ?_, hle.trans hlen, hheap⟩
      simp only [hbest, Outcome.ok_seq]
      exact htake

theorem remapFile_spec (h : r.mapped < 2147483648) {available : Bool}
    (hmap : remapFile r available = some r') :
    r'.mem = r.mem ∧ r'.mapped = r.mapped + eventExtendSize ∧ r'.mapped < 2147483648 := by
  rw [remapFile] at hmap
  split at hmap
  · rename_i hcond
    cases hmap
    have hpos := hcond.2
    unfold eventExtendSize at hpos ⊢
    rw [toInt32_eq] at hpos ⊢
    refine ⟨rfl, ?_, ?_⟩
    · simp only
      omega
    · simp only
      omega
  · cases hmap

/-- The region is extended by a block, which becomes free. -/
theorem extension_heap (h : Heap S r free live) {available : Bool}
    (hmap : remapFile r available = some r') :
    ∃ r'' free', addExtension r' r.mapped = .ok r'' ∧ Heap S r'' free' live := by
  obtain ⟨hmem, hnew, hlt⟩ := remapFile_spec h.mapped hmap
  have hevh := S.le_evh
  have hle := h.evh_le
  unfold eventExtendSize at hnew
  let a : Extent := ⟨r.mapped, 32768⟩
  let r₁ : Region := { r' with mem := r'.mem.putLong r.mapped (r'.mapped - r.mapped) }
  let r₂ : Region := { r₁ with mem := r₁.mem.store (r.mapped + hdrType) (List.replicate 1 typeFrb) }
  let r₃ : Region := { r₂ with mem := r₂.mem.putLong (r.mapped + frbNext) 0 }
  let r₄ : Region := { r₃ with mem := r₃.mem.putLong evhLength r'.mapped }
  have hput₁ : r'.put r.mapped (r'.mapped - r.mapped) = .ok r₁ := put_ok (by omega)
  have hput₂ : r₁.fill (r.mapped + hdrType) typeFrb 1 = .ok r₂ :=
    fill_ok (by decide) (show ((r.mapped + 4 : ℕ) : ℤ) + 1 ≤ r'.mapped by omega)
  have hput₃ : r₂.put (r.mapped + frbNext) 0 = .ok r₃ :=
    put_ok (show r.mapped + 8 + 4 ≤ r'.mapped by omega)
  have hput₄ : r₃.put evhLength r'.mapped = .ok r₄ := put_ok (show 0 + 4 ≤ r'.mapped by omega)
  -- what was in the region is as it was, but for its length
  have hkeep : ∀ q, 4 ≤ q → q + 4 ≤ r.mapped → r₄.mem.long q = r.mem.long q := by
    intro q hq hq'
    have hstore : r₂.mem.long q = r₁.mem.long q :=
      Memory.long_congr fun x _ hx => Memory.store_of_outside (.inl (by omega))
    rw [Memory.long_putLong_of_disjoint (by unfold evhLength; omega),
      Memory.long_putLong_of_disjoint (by omega), hstore, Memory.long_putLong_of_disjoint (by omega),
      hmem]
  have hnewLength : r₄.mem.long r.mapped = (32768 : ℕ) := by
    have hstore : r₂.mem.long r.mapped = r₁.mem.long r.mapped :=
      Memory.long_congr fun x _ hx => Memory.store_of_outside (.inl (by unfold hdrType; omega))
    rw [Memory.long_putLong_of_disjoint (by unfold evhLength; omega),
      Memory.long_putLong_of_disjoint (by unfold frbNext; omega), hstore, Memory.long_putLong,
      toInt32_of_lt (by omega) (by omega)]
    omega
  have h₄ : Heap S r₄ free (a :: live) := by
    refine ⟨?_, h.gapped, ?_, ?_, ?_, ?_, hlt⟩
    · refine h.chain.frame (hkeep evhFree (by decide) (by unfold evhFree; omega))
        fun b hb q hq hq' => ?_
      have hwb := h.within (List.mem_append_left live hb)
      unfold stop at hwb
      exact hkeep q (by omega) (by omega)
    · have htiles := h.tiles.extend 32768
      rw [← hnew] at htiles
      refine htiles.perm ((List.Perm.swap _ _ _).trans ?_)
      exact List.perm_middle.symm.cons _
    · intro b hb
      rcases List.mem_cons.mp hb with rfl | hb
      · exact hnewLength
      · have hwb := h.within (List.mem_append_right free hb)
        unfold sizeofFrb stop at hwb
        exact (hkeep b.offset (by omega) (by omega)).trans (h.lengths b hb)
    · intro b hb
      rcases List.mem_append.mp hb with hb | hb
      · exact h.large b (List.mem_append_left live hb)
      · rcases List.mem_cons.mp hb with rfl | hb
        · exact (show 12 ≤ 32768 by decide)
        · exact h.large b (List.mem_append_right free hb)
    · change r₄.mem.long evhLength = r'.mapped
      rw [Memory.long_putLong, toInt32_of_lt (by omega) (by omega)]
  obtain ⟨r₅, free', hfree, -, h₅⟩ := free_heap h₄
  refine ⟨r₅, free', ?_, h₅⟩
  rw [addExtension, hput₁, Outcome.ok_seq, hput₂, Outcome.ok_seq, hput₃, Outcome.ok_seq]
  exact (congrArg (· >>= _) hput₄).trans hfree

theorem allocGlobal_heap (h : Heap S r free live) (hn : sizeofHdr < n) (hn' : n ≤ 2147483648)
    (type : UCHAR) (available : Bool) :
    (∃ r' a free', allocGlobal S r type n available = .ok (r', a.offset) ∧ n ≤ a.length ∧
      Heap S r' free' (a :: live)) ∨
    allocGlobal S r type n available = .error .exhausted := by
  obtain ⟨hlarge, hle, hsmall, hagain⟩ := S.roundUp_spec hn hn'
  rw [allocGlobal]
  rcases allocFrom_heap type h hn hn' with hok | hext
  · exact .inl hok
  · rw [hext]
    cases hmap : remapFile r available with
    | none => exact .inr rfl
    | some r₁ =>
        obtain ⟨r₂, free', hadd, h₂⟩ := extension_heap h hmap
        simp only [hadd, Outcome.ok_seq]
        rcases allocFrom_heap type h₂ (hn.trans_le hle) hsmall with
          ⟨r', a, free'', hok, hlen, h'⟩ | hext
        · exact .inl ⟨r', a, free'', hok, hle.trans hlen, h'⟩
        · exact .inr hext

/-! ## Runs -/

/-- The live blocks, as long as their headers say -/
def blocks (m : Memory UCHAR) (live : List (ℕ × ℕ)) : List Extent :=
  live.map fun b => ⟨b.1, (m.long b.1).toNat⟩

/-- The free list, the free blocks and the live blocks in a state of the region -/
structure WellFormed (S : Build) (s : State) (free : List Extent) : Prop where
  chain : Chain s.region.mem evhFree free 0
  gapped : Gapped free
  apart : (free ++ blocks s.region.mem s.live).Pairwise Apart
  within : ∀ a ∈ free ++ blocks s.region.mem s.live,
    S.evh ≤ a.offset ∧ 0 < a.length ∧ a.stop ≤ s.region.mem.long evhLength
  requested : ∀ b ∈ s.live, b.2 ≤ s.region.mem.long b.1
  total : ((free ++ blocks s.region.mem s.live).map Extent.length).sum =
    s.region.mem.long evhLength - S.evh

/-- The lengths of requests that are longer than the header of a block, and not longer than half of
what an unsigned long can be -/
def Sized : Op → Prop
  | .alloc _ length _ => sizeofHdr < length ∧ length ≤ 2147483648
  | _ => True

/-- The invariant of the runs -/
def Inv (S : Build) (s : State) : Prop :=
  (∃ free, Heap S s.region free (blocks s.region.mem s.live)) ∧
    ∀ b ∈ s.live, b.2 ≤ s.region.mem.long b.1

variable {s s' : State} {op : Op} {live₀ : List (ℕ × ℕ)}

theorem init_heap (S : Build) (mem : Memory UCHAR) :
    ∃ r, init S mem = .ok r ∧ ∃ free, Heap S r free [] := by
  have hevh := S.le_evh
  have hle := S.evh_le
  obtain ⟨n, hn⟩ : ∃ n, n = eventDefaultSize := ⟨_, rfl⟩
  have hsize : n = 32768 := hn
  let a : Extent := ⟨S.evh, n - S.evh⟩
  let r₀ : Region := ⟨mem, n⟩
  let r₁ : Region := { r₀ with mem := r₀.mem.putLong evhLength n }
  let r₂ : Region := { r₁ with mem := r₁.mem.putLong S.evh (n - S.evh) }
  let r₃ : Region := { r₂ with mem := r₂.mem.store (S.evh + hdrType) (List.replicate 1 typeFrb) }
  let r₄ : Region := { r₃ with mem := r₃.mem.putLong (S.evh + frbNext) 0 }
  let r₅ : Region := { r₄ with mem := r₄.mem.putLong evhFree S.evh }
  have hput₁ : r₀.put evhLength n = .ok r₁ := put_ok (show 0 + 4 ≤ n by omega)
  have hput₂ : r₁.put S.evh (n - S.evh) = .ok r₂ := put_ok (show S.evh + 4 ≤ n by omega)
  have hput₃ : r₂.fill (S.evh + hdrType) typeFrb 1 = .ok r₃ :=
    fill_ok (by decide) (show ((S.evh + 4 : ℕ) : ℤ) + 1 ≤ n by omega)
  have hput₄ : r₃.put (S.evh + frbNext) 0 = .ok r₄ := put_ok (show S.evh + 8 + 4 ≤ n by omega)
  have hput₅ : r₄.put evhFree S.evh = .ok r₅ := put_ok (show 24 + 4 ≤ n by omega)
  -- the type of the first block is not in the fields
  have hstore : ∀ q, q + 4 ≤ S.evh + hdrType ∨ S.evh + hdrType + 1 ≤ q →
      r₃.mem.long q = r₂.mem.long q := fun q hq =>
    Memory.long_congr fun x hx hx' => Memory.store_of_outside (by
      rw [List.length_replicate]
      omega)
  unfold hdrType at hstore
  refine ⟨r₅, ?_, [a], ⟨?_, ?_, ?_⟩, List.pairwise_singleton _ a, ?_, List.forall_mem_nil _, ?_, ?_,
    show n < 2147483648 by omega⟩
  · rw [init, ← hn]
    change (r₀.put evhLength n >>= _) = _
    rw [hput₁, Outcome.ok_seq]
    change (r₁.put S.evh (n - S.evh) >>= _) = _
    rw [hput₂, Outcome.ok_seq, hput₃, Outcome.ok_seq, hput₄, Outcome.ok_seq]
    exact hput₅
  · rw [Memory.long_putLong, toInt32_of_lt (by omega) (by omega)]
  · change r₅.mem.long S.evh = ((n - S.evh : ℕ) : ℤ)
    rw [Memory.long_putLong_of_disjoint (by unfold evhFree; omega),
      Memory.long_putLong_of_disjoint (by unfold frbNext; omega), hstore S.evh (.inl le_rfl),
      Memory.long_putLong, toInt32_of_lt (by omega) (by omega)]
    omega
  · change r₅.mem.long (S.evh + frbNext) = 0
    rw [Memory.long_putLong_of_disjoint (by unfold evhFree; omega), Memory.long_putLong]
    rfl
  · have htiles := (Tiles.extend tiles_nil S.evh).extend (n - S.evh)
    rw [Nat.zero_add, Nat.add_sub_of_le (by omega)] at htiles
    exact htiles.perm (List.Perm.swap _ _ _)
  · intro b hb
    rw [List.mem_singleton.mp hb]
    change 12 ≤ n - S.evh
    omega
  · change r₅.mem.long evhLength = n
    rw [Memory.long_putLong_of_disjoint (by decide),
      Memory.long_putLong_of_disjoint (by unfold evhLength; omega),
      hstore evhLength (.inl (by unfold evhLength; omega)),
      Memory.long_putLong_of_disjoint (by unfold evhLength; omega), Memory.long_putLong,
      toInt32_of_lt (by omega) (by omega)]

/-- The blocks that a heap has kept -/
theorem Heap.blocks_eq (as : List Extent) (h : Heap S r' free (as ++ blocks r.mem live₀)) :
    blocks r'.mem live₀ = blocks r.mem live₀ := by
  refine List.map_congr_left fun b hb => ?_
  have hlength := h.lengths _ (List.mem_append_right as (List.mem_map_of_mem hb))
  rw [hlength, Int.toNat_natCast]

theorem Heap.requested (as : List Extent) (h : Heap S r' free (as ++ blocks r.mem live₀))
    (hreq : ∀ b ∈ live₀, b.2 ≤ r.mem.long b.1) : ∀ b ∈ live₀, b.2 ≤ r'.mem.long b.1 := by
  intro b hb
  have hlength := h.lengths _ (List.mem_append_right as (List.mem_map_of_mem hb))
  have hle := hreq b hb
  simp only at hlength
  omega

theorem inv_alloc (h : Inv S s) (type : UCHAR) (available : Bool) (hn : sizeofHdr < n)
    (hn' : n ≤ 2147483648) :
    (∃ r block, allocGlobal S s.region type n available = .ok (r, block) ∧
      Inv S ⟨r, (block, n) :: s.live⟩) ∨
    allocGlobal S s.region type n available = .error .exhausted := by
  obtain ⟨⟨free, hheap⟩, hreq⟩ := h
  rcases allocGlobal_heap hheap hn hn' type available with ⟨r, a, free', hok, hlen, h'⟩ | hend
  · left
    have hlength := h'.lengths a List.mem_cons_self
    have hblocks : blocks r.mem ((a.offset, n) :: s.live) = a :: blocks s.region.mem s.live := by
      change ⟨a.offset, (r.mem.long a.offset).toNat⟩ :: blocks r.mem s.live = _
      rw [hlength, Int.toNat_natCast, h'.blocks_eq [a]]
    refine ⟨r, a.offset, hok, ⟨free', ?_⟩, List.forall_mem_cons.mpr ⟨?_, ?_⟩⟩
    · rw [hblocks]
      exact h'
    · simp only [hlength]
      omega
    · exact h'.requested [a] hreq
  · exact .inr hend

theorem inv_free (h : Inv S s) {b : ℕ × ℕ} (hb : b ∈ s.live) :
    ∃ r, freeGlobal s.region b.1 = .ok r ∧ Inv S ⟨r, s.live.erase b⟩ := by
  obtain ⟨⟨free, hheap⟩, hreq⟩ := h
  have hperm := (List.perm_cons_erase hb).map fun b =>
    (⟨b.1, (s.region.mem.long b.1).toNat⟩ : Extent)
  obtain ⟨r, free', hok, -, h'⟩ := free_heap (hheap.perm_live hperm)
  have hblocks : blocks r.mem (s.live.erase b) = blocks s.region.mem (s.live.erase b) :=
    h'.blocks_eq []
  refine ⟨r, hok, ⟨free', ?_⟩, h'.requested [] fun c hc => ?_⟩
  · rw [hblocks]
    exact h'
  · exact hreq c (List.mem_of_mem_erase hc)

theorem inv_write (h : Inv S s) {bytes : List UCHAR} (hp : Writable S s p bytes.length) :
    Inv S { s with region := { s.region with mem := s.region.mem.store p bytes } } := by
  obtain ⟨⟨free, hheap⟩, hreq⟩ := h
  have h' : Heap S { s.region with mem := s.region.mem.store p bytes } free
      (blocks s.region.mem s.live) := by
    refine hheap.write ?_
    rcases hp with hp | hp | ⟨b, hb, hp⟩
    · exact .inl hp
    · exact .inr (.inl hp)
    · refine .inr (.inr ⟨_, List.mem_map_of_mem hb, ?_⟩)
      unfold sizeofHdr at hp
      unfold stop
      simp only
      omega
  refine ⟨⟨free, ?_⟩, h'.requested [] hreq⟩
  rw [h'.blocks_eq []]
  exact h'

/-- One operation keeps the invariant. -/
theorem inv_next (h : Inv S s) (hsized : Sized op) (hs : next S s op = some s') : Inv S s' := by
  cases op with
  | alloc type length available =>
      rw [next] at hs
      split at hs
      · rcases inv_alloc h type available hsized.1 hsized.2 with ⟨r, block, hok, hinv⟩ | hend
        · rw [hok] at hs
          cases hs
          exact hinv
        · rw [hend] at hs
          cases hs
      · cases hs
  | free block =>
      rw [next] at hs
      obtain ⟨b, hfind, hs⟩ := Option.bind_eq_some_iff.mp hs
      obtain ⟨r, hok, hinv⟩ := inv_free h (List.mem_of_find?_eq_some hfind)
      have hb : b.1 = block := by simpa using List.find?_some hfind
      rw [hb] at hok
      rw [hok] at hs
      cases hs
      exact hinv
  | write p bytes =>
      rw [next] at hs
      split at hs
      · rename_i hp
        cases hs
        exact inv_write h hp
      · cases hs

theorem Inv.wellFormed (h : Inv S s) : ∃ free, WellFormed S s free := by
  obtain ⟨⟨free, hheap⟩, hreq⟩ := h
  have hparts := (List.pairwise_cons.mp hheap.tiles.pairwise).2
  refine ⟨free, hheap.chain, hheap.gapped, hparts, fun a ha => ?_, hreq, ?_⟩
  · have hwa := hheap.within ha
    unfold sizeofFrb at hwa
    rw [hheap.length]
    omega
  · have hsum := hheap.tiles.sum_length
    rw [List.map_cons, List.sum_cons] at hsum
    rw [hheap.length, ← hsum, Nat.cast_add]
    exact (add_sub_cancel_left _ _).symm

/-- The state that operations lead to, from a file with the content `mem` -/
def runFrom (S : Build) (mem : Memory UCHAR) (ops : List Op) : Option State :=
  (init S mem).toOption.bind fun r => ops.foldlM (next S) ⟨r, []⟩

theorem Reachable.of_runFrom {M : System State Op} {mem : Memory UCHAR} {ops : List Op}
    (hinit : M.init = (manager S).init) (hstep : ∀ op ∈ ops, ∀ t t', next S t op = some t' →
      M.step t op t') (h : runFrom S mem ops = some s) : Reachable M s := by
  obtain ⟨r, hr, hrun⟩ := Option.bind_eq_some_iff.mp h
  refine Reachable.of_foldlM hstep (.init ?_) hrun
  rw [hinit]
  refine ⟨rfl, mem, ?_⟩
  cases hok : init S mem with
  | error e =>
      rw [hok] at hr
      cases hr
  | ok r' =>
      rw [hok] at hr
      cases hr
      rfl

/-- In every run whose requests are longer than the header of a block, the region is well formed;
a request gives a block that is long enough, unless the region cannot be extended enough, and every
live block can be freed. -/
theorem heap_well_formed (S : Build)
    (h : Reachable ((manager S).restrict fun _ op => Sized op) s) :
    (∃ free, WellFormed S s free) ∧
    (∀ type length available, Sized (.alloc type length available) →
      (∃ r block, allocGlobal S s.region type length available = .ok (r, block) ∧
        length ≤ r.mem.long block) ∨
      allocGlobal S s.region type length available = .error .exhausted) ∧
    ∀ b ∈ s.live, ∃ r, freeGlobal s.region b.1 = .ok r := by
  have hinv : Inv S s := by
    refine h.invariant (I := Inv S) (fun t ht => ?_) fun t op t' ht hstep => ?_
    · obtain ⟨hlive, mem, hmem⟩ := ht
      obtain ⟨r, hr, free, hheap⟩ := init_heap S mem
      rw [hmem] at hr
      cases hr
      unfold Inv
      rw [hlive]
      exact ⟨⟨free, hheap⟩, List.forall_mem_nil _⟩
    · exact inv_next ht hstep.2 hstep.1
  refine ⟨hinv.wellFormed, fun type length available hsized => ?_, fun b hb => ?_⟩
  · rcases inv_alloc hinv type available hsized.1 hsized.2 with ⟨r, block, hok, -, hreq⟩ | hend
    · exact .inl ⟨r, block, hok, hreq (block, length) List.mem_cons_self⟩
    · exact .inr hend
  · obtain ⟨r, hok, -⟩ := inv_free hinv hb
    exact ⟨r, hok⟩

/-- Blocks of two lengths, and the first one is given back -/
theorem heap_well_formed_two :
    ∃ s, (∃ b ∈ s.live, b.2 = 100) ∧ ∃ free, WellFormed build32 s free := by
  have hrun : (runFrom build32 (fun _ => 7) [.alloc 3 64 true, .alloc 5 100 false, .free 32704]).any
      (fun s => decide (∃ b ∈ s.live, b.2 = 100)) = true := by
    decide
  obtain ⟨s, hs, hlive⟩ := (Option.any_eq_true _ _).mp hrun
  refine ⟨s, of_decide_eq_true hlive, (heap_well_formed build32 ?_).1⟩
  have hsized : ∀ op ∈ [Op.alloc 3 64 true, .alloc 5 100 false, .free 32704], Sized op := by
    simp only [List.forall_mem_cons, List.not_mem_nil, false_imp_iff, implies_true, and_true]
    exact ⟨⟨by decide, by decide⟩, ⟨by decide, by decide⟩, trivial⟩
  exact Reachable.of_runFrom rfl (fun op hop t t' hstep => ⟨hstep, hsized op hop⟩) hs

/-- A block of the length of its header: when it is freed, the offset of the next free block is put
where the length of the block behind it is. -/
theorem heap_short_block : ∃ s, Reachable (manager build32) s ∧ ¬∃ free, WellFormed build32 s free := by
  have hrun : (runFrom build32 (fun _ => 7) [.alloc 3 64 true, .alloc 3 8 true, .free 32696]).any
      (fun s => decide (∃ b ∈ s.live, s.region.mem.long b.1 < b.2)) = true := by
    decide
  obtain ⟨s, hs, hlive⟩ := (Option.any_eq_true _ _).mp hrun
  refine ⟨s, Reachable.of_runFrom rfl (fun _ _ _ _ hstep => hstep) hs, ?_⟩
  rintro ⟨free, hwf⟩
  obtain ⟨b, hb, hlt⟩ := of_decide_eq_true hlive
  have hle := hwf.requested b hb
  omega

end Firebird.Event
