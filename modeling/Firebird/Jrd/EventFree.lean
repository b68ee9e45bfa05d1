import Firebird.Jrd.EventRegion
import Firebird.Lib.Coalesce

/-! # Freeing blocks of the event region

The free blocks are a list of extents that stands in the memory. What `free_global` does to the memory
puts the block in its place in the list and joins it with its neighbours.
-/

namespace Firebird.Event

open Extent Wrap

variable {m m' : Memory UCHAR} {p q lo hi : ℕ} {v w : ℤ} {a b : Extent} {as bs : List Extent}

/-! ## The list in the memory -/

/-- Links that lead through free blocks to a link with a value -/
def Chain (m : Memory UCHAR) : ℕ → List Extent → ℤ → Prop
  | p, [], v => m.long p = v
  | p, a :: as, v =>
      m.long p = a.offset ∧ m.long a.offset = a.length ∧ Chain m (a.offset + frbNext) as v

/-- The last link -/
def link (p : ℕ) (as : List Extent) : ℕ := as.foldl (fun _ a => a.offset + frbNext) p

@[simp] theorem link_nil : link p [] = p := rfl

@[simp] theorem link_cons : link p (a :: as) = link (a.offset + frbNext) as := rfl

@[simp] theorem link_concat : link p (as ++ [a]) = a.offset + frbNext := by
  rw [link, List.foldl_append]
  rfl

theorem Chain.long_link (h : Chain m p as v) : m.long (link p as) = v := by
  induction as generalizing p with
  | nil => exact h
  | cons a as ih => exact ih h.2.2

theorem chain_append :
    Chain m p (as ++ bs) v ↔ Chain m p as (m.long (link p as)) ∧ Chain m (link p as) bs v := by
  induction as generalizing p with
  | nil =>
      constructor
      · intro h
        exact ⟨rfl, h⟩
      · intro h
        exact h.2
  | cons a as ih =>
      rw [List.cons_append, link_cons]
      simp only [Chain, ih, and_assoc]

/-- A block in the middle of the list -/
theorem chain_middle : Chain m p (as ++ a :: bs) v ↔
    Chain m p as a.offset ∧ m.long a.offset = a.length ∧ Chain m (a.offset + frbNext) bs v := by
  rw [chain_append]
  constructor
  · rintro ⟨has, hlink, hlength, hbs⟩
    rw [hlink] at has
    exact ⟨has, hlength, hbs⟩
  · rintro ⟨has, hlength, hbs⟩
    have hlink := has.long_link
    rw [hlink]
    exact ⟨has, hlink, hlength, hbs⟩

/-- The blocks of a list where they are, also from another link with the same value -/
theorem Chain.congr (h : Chain m q as v) (hq : m'.long p = m.long q)
    (has : ∀ a ∈ as, m'.long a.offset = m.long a.offset ∧
      m'.long (a.offset + frbNext) = m.long (a.offset + frbNext)) : Chain m' p as v := by
  induction as generalizing p q with
  | nil => exact hq.trans h
  | cons a as ih =>
      have ha := has a List.mem_cons_self
      refine ⟨hq.trans h.1, ha.1.trans h.2.1, ?_⟩
      exact ih h.2.2 ha.2 fun b hb => has b (List.mem_cons_of_mem a hb)

/-! ## Rows of blocks -/

/-- Blocks in order between two places, each with room for the fields of a free block -/
structure Row (lo hi : ℕ) (as : List Extent) : Prop where
  order : as.Pairwise fun a b => a.stop ≤ b.offset
  within : ∀ a ∈ as, lo ≤ a.offset ∧ sizeofFrb ≤ a.length ∧ a.stop ≤ hi

theorem row_append : Row lo hi (as ++ bs) ↔
    Row lo hi as ∧ Row lo hi bs ∧ ∀ a ∈ as, ∀ b ∈ bs, a.stop ≤ b.offset := by
  constructor
  · rintro ⟨horder, hwithin⟩
    obtain ⟨has, hbs, hab⟩ := List.pairwise_append.mp horder
    obtain ⟨hwas, hwbs⟩ := List.forall_mem_append.mp hwithin
    exact ⟨⟨has, hwas⟩, ⟨hbs, hwbs⟩, hab⟩
  · rintro ⟨has, hbs, hab⟩
    exact ⟨List.pairwise_append.mpr ⟨has.order, hbs.order, hab⟩,
      List.forall_mem_append.mpr ⟨has.within, hbs.within⟩⟩

theorem row_cons : Row lo hi (a :: as) ↔
    (lo ≤ a.offset ∧ sizeofFrb ≤ a.length ∧ a.stop ≤ hi) ∧ Row lo hi as ∧
      ∀ b ∈ as, a.stop ≤ b.offset := by
  constructor
  · rintro ⟨horder, hwithin⟩
    obtain ⟨ha, has⟩ := List.pairwise_cons.mp horder
    obtain ⟨hwa, hwas⟩ := List.forall_mem_cons.mp hwithin
    exact ⟨hwa, ⟨has, hwas⟩, ha⟩
  · rintro ⟨hwa, has, ha⟩
    exact ⟨List.pairwise_cons.mpr ⟨ha, has.order⟩, List.forall_mem_cons.mpr ⟨hwa, has.within⟩⟩

/-- The blocks in front of a place stay where they are, and lead to another value. -/
theorem Chain.relink (h : Chain m p as v) (hrow : Row lo hi as) (hp : p + 4 ≤ lo)
    (hlink : m'.long (link p as) = w)
    (hrest : ∀ q, q + 4 ≤ link p as → m'.long q = m.long q) : Chain m' p as w := by
  rcases List.eq_nil_or_concat as with rfl | ⟨front, l, rfl⟩
  · exact hlink
  · rw [List.concat_eq_append] at h hrow hlink hrest ⊢
    rw [link_concat] at hlink hrest
    obtain ⟨hfront, hlength, -⟩ := chain_middle.mp h
    obtain ⟨hrowf, hrowl, hfl⟩ := row_append.mp hrow
    have hl := (row_cons.mp hrowl).1
    unfold frbNext at hrest
    refine chain_middle.mpr ⟨?_, ?_, hlink⟩
    · refine hfront.congr (hrest p (by omega)) fun a ha => ?_
      have hal := hfl a ha l List.mem_cons_self
      have hlen := (hrowf.within a ha).2.1
      unfold stop at hal
      unfold sizeofFrb at hlen
      constructor
      · exact hrest a.offset (by omega)
      · exact hrest (a.offset + frbNext) (by unfold frbNext; omega)
    · rw [hrest l.offset (by omega), hlength]

/-- A list is as it was where the memory was not changed. -/
theorem Chain.frame (h : Chain m p as v) (hp : m'.long p = m.long p)
    (has : ∀ a ∈ as, ∀ q, a.offset ≤ q → q + 4 ≤ a.offset + sizeofFrb → m'.long q = m.long q) :
    Chain m' p as v := by
  refine h.congr hp fun a ha => ?_
  constructor
  · exact has a ha a.offset le_rfl (by unfold sizeofFrb; omega)
  · exact has a ha (a.offset + frbNext) (Nat.le_add_right _ _)
      (by unfold sizeofFrb frbNext; omega)

/-! ## Accesses -/

variable {r r' : Region} {k block n : ℕ} {prior : Option ℕ}

theorem get_ok (h : p + 4 ≤ r.mapped) : r.get p = .ok (r.mem.long p) := if_pos h

theorem put_ok (h : p + 4 ≤ r.mapped) : r.put p v = .ok { r with mem := r.mem.putLong p v } :=
  if_pos h

theorem absPtr_natCast (n : ℕ) : absPtr n = .ok n := by
  rw [absPtr, if_neg (by omega), Int.toNat_natCast]

theorem fill_ok {x : UCHAR} {c : ℤ} (h : 0 ≤ c) (h' : p + c ≤ r.mapped) :
    r.fill p x c = .ok { r with mem := r.mem.store p (List.replicate c.toNat x) } :=
  if_pos ⟨h, h'⟩

/-! ## The heap -/

/-- The free blocks are in the list, in order and with something between them; the header, the free
blocks and the live blocks are the region. -/
structure Heap (S : Build) (r : Region) (free live : List Extent) : Prop where
  chain : Chain r.mem evhFree free 0
  gapped : Gapped free
  tiles : Tiles (⟨0, S.evh⟩ :: (free ++ live)) r.mapped
  lengths : ∀ a ∈ live, r.mem.long a.offset = a.length
  large : ∀ a ∈ free ++ live, sizeofFrb ≤ a.length
  length : r.mem.long evhLength = r.mapped
  mapped : r.mapped < 2147483648

variable {S : Build} {free live : List Extent}

namespace Heap

theorem within (h : Heap S r free live) (ha : a ∈ free ++ live) :
    S.evh ≤ a.offset ∧ sizeofFrb ≤ a.length ∧ a.stop ≤ r.mapped := by
  have hlarge := h.large a ha
  have hpos : 0 < a.length := lt_of_lt_of_le (by decide) hlarge
  have hapart := (List.pairwise_cons.mp h.tiles.pairwise).1 a ha
  have hstop := h.tiles.stop_le (List.mem_cons_of_mem _ ha) hpos
  have hevh := S.le_evh
  refine ⟨?_, hlarge, hstop⟩
  unfold Apart stop at hapart
  simp only at hapart
  omega

theorem evh_le (h : Heap S r free live) : S.evh ≤ r.mapped := by
  have hevh := S.le_evh
  have hstop := h.tiles.stop_le List.mem_cons_self (show 0 < S.evh by omega)
  simpa [stop] using hstop

theorem row (h : Heap S r free live) : Row S.evh r.mapped free where
  order := h.gapped.imp le_of_lt
  within _ ha := h.within (List.mem_append_left live ha)

/-- A free block and a live one -/
theorem apart (h : Heap S r free live) (ha : a ∈ free) (hb : b ∈ live) :
    a.stop ≤ b.offset ∨ b.stop ≤ a.offset := by
  have hparts := (List.pairwise_append.mp (List.pairwise_cons.mp h.tiles.pairwise).2).2.2 a ha b hb
  have hla := h.large a (List.mem_append_left live ha)
  have hlb := h.large b (List.mem_append_right free hb)
  unfold sizeofFrb at hla hlb
  unfold Apart at hparts
  omega

theorem perm_live {live' : List Extent} (h : Heap S r free live) (hp : live.Perm live') :
    Heap S r free live' where
  chain := h.chain
  gapped := h.gapped
  tiles := h.tiles.perm ((hp.append_left free).cons _)
  lengths a ha := h.lengths a (hp.mem_iff.mpr ha)
  large a ha := h.large a ((hp.append_left free).mem_iff.mpr ha)
  length := h.length
  mapped := h.mapped

/-- A region with the same fields -/
theorem congr (h : Heap S r free live) (hmapped : r'.mapped = r.mapped)
    (hfree : r'.mem.long evhFree = r.mem.long evhFree)
    (hlength : r'.mem.long evhLength = r.mem.long evhLength)
    (hblocks : ∀ a ∈ free, ∀ q, a.offset ≤ q → q + 4 ≤ a.offset + sizeofFrb →
      r'.mem.long q = r.mem.long q)
    (hlive : ∀ a ∈ live, r'.mem.long a.offset = r.mem.long a.offset) : Heap S r' free live where
  chain := h.chain.frame hfree hblocks
  gapped := h.gapped
  tiles := hmapped ▸ h.tiles
  lengths a ha := (hlive a ha).trans (h.lengths a ha)
  large := h.large
  length := by rw [hlength, h.length, hmapped]
  mapped := hmapped ▸ h.mapped

/-- Two live blocks -/
theorem apart_live (h : Heap S r free live) (ha : a ∈ live) (hb : b ∈ live) (hne : a ≠ b) :
    a.stop ≤ b.offset ∨ b.stop ≤ a.offset := by
  have hparts := (List.pairwise_append.mp (List.pairwise_cons.mp h.tiles.pairwise).2).2.1
  have hapart := hparts.forall ha hb hne
  have hla := h.large a (List.mem_append_right free ha)
  have hlb := h.large b (List.mem_append_right free hb)
  unfold sizeofFrb at hla hlb
  unfold Apart at hapart
  omega

/-- What is written in the header apart from its fields, or in a live block behind its length -/
theorem write {bytes : List UCHAR} (h : Heap S r free live)
    (hp : evhLength + 4 ≤ p ∧ p + bytes.length ≤ evhFree ∨
      evhFree + 4 ≤ p ∧ p + bytes.length ≤ S.evh ∨
      ∃ a ∈ live, a.offset + 4 ≤ p ∧ p + bytes.length ≤ a.stop) :
    Heap S { r with mem := r.mem.store p bytes } free live := by
  have hevh := S.le_evh
  have hrest : ∀ q, (q + 4 ≤ p ∨ p + bytes.length ≤ q) →
      (r.mem.store p bytes).long q = r.mem.long q := fun q hq =>
    Memory.long_congr fun x hx hx' => Memory.store_of_outside (by omega)
  -- the fields of the header are not in a live block
  have hheader : ∀ q, q = evhFree ∨ q = evhLength →
      (r.mem.store p bytes).long q = r.mem.long q := by
    intro q hq
    unfold evhFree evhLength at hq hp
    apply hrest
    rcases hp with hp | hp | ⟨a, ha, hp⟩
    · omega
    · omega
    · have hla := (h.within (List.mem_append_right free ha)).1
      omega
  unfold evhLength evhFree at hp
  refine h.congr rfl (hheader _ (.inl rfl)) (hheader _ (.inr rfl)) (fun b hb q hq hq' => ?_)
    fun b hb => ?_
  · have hwb := h.within (List.mem_append_left live hb)
    unfold sizeofFrb at hq' hwb
    apply hrest
    rcases hp with hp | hp | ⟨a, ha, hp⟩
    · omega
    · omega
    · have hab := h.apart hb ha
      unfold stop at hab hp
      omega
  · have hwb := h.within (List.mem_append_right free hb)
    unfold sizeofFrb at hwb
    apply hrest
    rcases hp with hp | hp | ⟨a, ha, hp⟩
    · omega
    · omega
    · by_cases hab : a = b
      · subst hab
        omega
      · have happ := h.apart_live ha hb hab
        unfold stop at happ hp
        omega

end Heap

theorem Heap.length_lt (h : Heap S r free live) : free.length < r.mapped := by
  have hsum := h.tiles.sum_length
  have hle : free.length ≤ (free.map Extent.length).sum := by
    rw [← List.length_map (f := Extent.length)]
    refine List.length_le_sum_of_one_le _ fun n hn => ?_
    obtain ⟨a, ha, rfl⟩ := List.mem_map.mp hn
    have hlarge := h.large a (List.mem_append_left live ha)
    unfold sizeofFrb at hlarge
    omega
  have hevh := S.le_evh
  simp only [List.map_cons, List.map_append, List.sum_cons, List.sum_append] at hsum
  omega

/-! ## The place of a block -/

/-- The offset of the first block of a list, or the null offset -/
def first : List Extent → ℕ
  | [] => 0
  | a :: _ => a.offset

/-- The last block that has been passed -/
def last (prior : Option ℕ) (as : List Extent) : Option ℕ := as.foldl (fun _ a => some a.offset) prior

theorem Chain.long_first (h : Chain m p as 0) : m.long p = first as := by
  cases as with
  | nil => exact h
  | cons a as => exact h.1

theorem Row.link_le (h : Row lo hi as) (hp : p + 4 ≤ hi) : link p as + 4 ≤ hi := by
  rcases List.eq_nil_or_concat as with rfl | ⟨front, l, rfl⟩
  · exact hp
  · rw [List.concat_eq_append] at h ⊢
    have hl := h.within l (List.mem_append_right front (List.mem_singleton_self l))
    rw [link_concat]
    unfold sizeofFrb stop at hl
    unfold frbNext
    omega

theorem findFree_spec (block : ℕ) (prior : Option ℕ) (hc : Chain r.mem p as 0)
    (hrow : Row lo r.mapped as) (hlo : 0 < lo) (hp : p + 4 ≤ r.mapped) (hk : as.length < k) :
    ∃ front back, as = front ++ back ∧
      findFree r block k p prior = .ok (link p front, last prior front, first back) ∧
      (∀ a ∈ front, a.offset ≤ block) ∧ ∀ a ∈ back, block < a.offset := by
  induction as generalizing p k prior with
  | nil =>
      obtain ⟨k, rfl⟩ := Nat.exists_eq_add_one.mpr hk
      refine ⟨[], [], rfl, ?_, List.forall_mem_nil _, List.forall_mem_nil _⟩
      have hv : r.mem.long p = (0 : ℕ) := hc
      rw [findFree, get_ok hp, Outcome.ok_seq, hv, absPtr_natCast, Outcome.ok_seq, if_pos (.inl rfl)]
      rfl
  | cons a as ih =>
      obtain ⟨k, rfl⟩ := Nat.exists_eq_add_one.mpr (Nat.zero_lt_of_lt hk)
      obtain ⟨ha, has, hfirst⟩ := row_cons.mp hrow
      obtain ⟨hv, -, hrest⟩ := hc
      have hne : a.offset ≠ 0 := by omega
      rw [findFree, get_ok hp, Outcome.ok_seq, hv, absPtr_natCast, Outcome.ok_seq]
      by_cases hlt : block < a.offset
      · refine ⟨[], a :: as, rfl, ?_, List.forall_mem_nil _, fun b hb => ?_⟩
        · rw [if_pos (.inr hlt)]
          rfl
        · rcases List.mem_cons.mp hb with rfl | hb
          · exact hlt
          · have hab := hfirst b hb
            unfold stop at hab
            omega
      · have hp' : a.offset + frbNext + 4 ≤ r.mapped := by
          unfold sizeofFrb stop at ha
          unfold frbNext
          omega
        obtain ⟨front, back, rfl, hfind, hfront, hback⟩ :=
          ih (some a.offset) hrest has hp' (Nat.lt_of_succ_lt_succ hk)
        refine ⟨a :: front, back, rfl, ?_, ?_, hback⟩
        · rw [if_neg (not_or.mpr ⟨hne, hlt⟩), hfind]
          rfl
        · exact List.forall_mem_cons.mpr ⟨Nat.le_of_not_lt hlt, hfront⟩

/-! ## Joining -/

theorem mergeNext_spec (hc : Chain r.mem p (as ++ b :: bs) 0)
    (hrow : Row lo r.mapped (as ++ b :: bs)) (hp : p + 4 ≤ lo) (hmapped : r.mapped < 2147483648) :
    ∃ r', mergeNext r b.offset (first bs) = .ok r' ∧ r'.mapped = r.mapped ∧
      Chain r'.mem p (as ++ join b bs) 0 ∧
      ∀ q, q + 4 ≤ b.offset ∨ b.offset + sizeofFrb ≤ q → r'.mem.long q = r.mem.long q := by
  obtain ⟨hfront, hb, hback⟩ := chain_middle.mp hc
  obtain ⟨hrowf, hrowb, hfb⟩ := row_append.mp hrow
  obtain ⟨hwb, hrowbs, hbs⟩ := row_cons.mp hrowb
  unfold sizeofFrb stop at hwb
  have hget : r.get b.offset = .ok (b.length : ℤ) := by
    rw [get_ok (by omega), hb]
  cases bs with
  | nil =>
      refine ⟨r, ?_, rfl, hc, fun _ _ => rfl⟩
      rw [mergeNext, hget, Outcome.ok_seq, first, if_neg (by omega)]
      rfl
  | cons c bs =>
      by_cases hadj : b.stop = c.offset
      · obtain ⟨hlink, hlength, hrest⟩ := hback
        obtain ⟨hwc, hrowcs, hcs⟩ := row_cons.mp hrowbs
        unfold sizeofFrb stop at hwc
        unfold stop at hadj
        have hlast : (r.mem.putLong b.offset (b.length + c.length)).long (c.offset + frbNext) =
            r.mem.long (c.offset + frbNext) :=
          Memory.long_putLong_of_disjoint (by unfold frbNext; omega)
        let mem := (r.mem.putLong b.offset (b.length + c.length)).putLong (b.offset + frbNext)
          (r.mem.long (c.offset + frbNext))
        have hkeep : ∀ q, q + 4 ≤ b.offset ∨ b.offset + sizeofFrb ≤ q →
            mem.long q = r.mem.long q := by
          intro q hq
          unfold sizeofFrb at hq
          rw [Memory.long_putLong_of_disjoint (by unfold frbNext; omega),
            Memory.long_putLong_of_disjoint (by omega)]
        refine ⟨⟨mem, r.mapped⟩, ?_, rfl, ?_, hkeep⟩
        · rw [mergeNext, hget, Outcome.ok_seq, first, if_pos (by omega), Outcome.ok_seq,
            get_ok (by omega), hlength, Outcome.ok_seq, put_ok (by omega), Outcome.ok_seq,
            get_ok (by unfold frbNext; simp only; omega), hlast, Outcome.ok_seq,
            put_ok (by unfold frbNext; simp only; omega)]
        · rw [join_of_eq hadj]
          refine chain_middle.mpr ⟨?_, ?_, ?_⟩
          · refine hfront.frame (hkeep p (.inl (by omega))) fun f hf q hq hq' => ?_
            have hfb := hfb f hf b List.mem_cons_self
            have hlarge := (hrowf.within f hf).2.1
            unfold stop at hfb
            exact hkeep q (.inl (by omega))
          · change mem.long b.offset = _
            rw [Memory.long_putLong_of_disjoint (by unfold frbNext; omega), Memory.long_putLong,
              Wrap.toInt32_of_lt (by omega) (by omega), Nat.cast_add]
          · refine hrest.congr ?_ fun d hd => ?_
            · exact (Memory.long_putLong _ _ _).trans (Memory.toInt32_long _ _)
            · have hcd := hcs d hd
              unfold stop at hcd
              constructor
              · exact hkeep d.offset (by unfold sizeofFrb; omega)
              · exact hkeep (d.offset + frbNext) (by unfold sizeofFrb; omega)
      · refine ⟨r, ?_, rfl, ?_, fun _ _ => rfl⟩
        · unfold stop at hadj
          rw [mergeNext, hget, Outcome.ok_seq, first, if_neg (by omega)]
          rfl
        · rw [join_of_ne hadj]
          exact hc

/-! ## `free_global` -/

theorem last_concat : last prior (as ++ [a]) = some a.offset := by
  rw [last, List.foldl_append]
  rfl

theorem badBlock_false (hlen : 4 ≤ r.mapped) (hlength : r.mem.long evhLength = r.mapped)
    (hpos : 0 < block) (hle : block ≤ r.mapped)
    (hprior : ∀ q ∈ prior, q + 4 ≤ r.mapped ∧ q + r.mem.long q ≤ block) :
    badBlock r block prior = .ok false := by
  unfold badBlock
  rw [get_ok (by unfold evhLength; omega), hlength, Outcome.ok_seq, if_neg (by omega)]
  cases prior with
  | none => rfl
  | some q =>
      have hq := hprior q rfl
      simp only [get_ok hq.1, Outcome.ok_seq]
      rw [decide_eq_false (by omega)]
      rfl

/-- A block gets into the list between those in front of it and those behind it. -/
theorem chain_insert (hc : Chain m p (as ++ bs) 0) (hrow : Row lo hi (as ++ a :: bs))
    (hp : p + 4 ≤ lo) (hhi : hi < 2147483648) (ha : m.long a.offset = a.length) :
    Chain ((m.putLong (a.offset + frbNext) (first bs)).putLong (link p as) a.offset) p
      (as ++ a :: bs) 0 ∧
    ∀ q, (q + 4 ≤ a.offset ∨ a.offset + sizeofFrb ≤ q) → (q + 4 ≤ link p as ∨ link p as + 4 ≤ q) →
      ((m.putLong (a.offset + frbNext) (first bs)).putLong (link p as) a.offset).long q =
        m.long q := by
  obtain ⟨has, hbs⟩ := chain_append.mp hc
  obtain ⟨hrowa, hrowb, hfb⟩ := row_append.mp hrow
  obtain ⟨hwa, hrowbs, hab⟩ := row_cons.mp hrowb
  have hfa : ∀ f ∈ as, f.stop ≤ a.offset := fun f hf => hfb f hf a List.mem_cons_self
  have hrowa' : Row lo a.offset as :=
    ⟨hrowa.order, fun f hf => ⟨(hrowa.within f hf).1, (hrowa.within f hf).2.1, hfa f hf⟩⟩
  have hlink := hrowa'.link_le (p := p) (by omega)
  have hkeep : ∀ q, (q + 4 ≤ a.offset ∨ a.offset + sizeofFrb ≤ q) →
      (q + 4 ≤ link p as ∨ link p as + 4 ≤ q) →
      ((m.putLong (a.offset + frbNext) (first bs)).putLong (link p as) a.offset).long q =
        m.long q := by
    intro q hq hq'
    unfold sizeofFrb at hq
    rw [Memory.long_putLong_of_disjoint (by omega),
      Memory.long_putLong_of_disjoint (by unfold frbNext; omega)]
  unfold sizeofFrb stop at hwa
  refine ⟨chain_middle.mpr ⟨?_, ?_, ?_⟩, hkeep⟩
  · refine has.relink hrowa hp ?_ fun q hq => hkeep q (.inl (by omega)) (.inl hq)
    rw [Memory.long_putLong, toInt32_of_lt (by omega) (by omega)]
  · rw [Memory.long_putLong_of_disjoint (by omega),
      Memory.long_putLong_of_disjoint (by unfold frbNext; omega), ha]
  · refine hbs.congr ?_ fun b hb => ?_
    · rw [Memory.long_putLong_of_disjoint (by omega), Memory.long_putLong, ← hbs.long_first,
        Memory.toInt32_long]
    · have hle := hab b hb
      have hwb := hrowbs.within b hb
      unfold stop at hle
      unfold sizeofFrb at hkeep
      constructor
      · exact hkeep b.offset (.inr (by omega)) (.inr (by omega))
      · exact hkeep (b.offset + frbNext) (.inr (by omega)) (.inr (by omega))

/-- The heap when a live block has got into the list and has been joined with its neighbours -/
theorem Heap.freed (h : Heap S r (as ++ bs) (a :: live)) (hmapped : r'.mapped = r.mapped)
    (has : ∀ f ∈ as, f.stop ≤ a.offset) (hbs : ∀ b ∈ bs, a.stop ≤ b.offset)
    (hchain : Chain r'.mem evhFree (joinLast as (join a bs)) 0)
    (hkeep : ∀ q, (q + 4 ≤ evhFree ∨ evhFree + 4 ≤ q) →
      (∀ f ∈ as ++ [a], q + 4 ≤ f.offset ∨ f.offset + sizeofFrb ≤ q) →
      r'.mem.long q = r.mem.long q) : Heap S r' (joinLast as (join a bs)) live := by
  have hevh := S.le_evh
  have hla := h.large a (List.mem_append_right _ List.mem_cons_self)
  have hlf : ∀ f ∈ as ++ bs, sizeofFrb ≤ f.length := fun f hf =>
    h.large f (List.mem_append_left _ hf)
  obtain ⟨hgf, hgb, hgap⟩ := gapped_append.mp h.gapped
  -- what is changed is not in the live blocks
  have hlive : ∀ c ∈ live, r'.mem.long c.offset = r.mem.long c.offset := by
    intro c hc
    have hwc := h.within (List.mem_append_right _ (List.mem_cons_of_mem a hc))
    refine hkeep c.offset (.inr (by unfold evhFree; omega)) fun f hf => ?_
    have hparts : f.stop ≤ c.offset ∨ c.stop ≤ f.offset := by
      rcases List.mem_append.mp hf with hf | hf
      · exact h.apart (List.mem_append_left bs hf) (List.mem_cons_of_mem a hc)
      · obtain rfl := List.mem_singleton.mp hf
        have hall := (List.pairwise_cons.mp h.tiles.pairwise).2
        have hac := (List.pairwise_cons.mp (List.pairwise_append.mp hall).2.1).1 c hc
        unfold sizeofFrb at hla hwc
        unfold Apart at hac
        omega
    have hlarge : sizeofFrb ≤ f.length := by
      rcases List.mem_append.mp hf with hf | hf
      · exact hlf f (List.mem_append_left bs hf)
      · rwa [List.mem_singleton.mp hf]
    unfold sizeofFrb at hwc hlarge ⊢
    unfold stop at hparts
    omega
  refine ⟨hchain, ?_, ?_, ?_, ?_, ?_, hmapped ▸ h.mapped⟩
  · refine hgf.joinLast (hgb.join hbs) fun f hf b hb => ?_
    refine (has f hf).trans (le_offset_of_mem_join (fun c hc => ?_) hb)
    exact (Nat.le_add_right _ _).trans (hbs c hc)
  · rw [hmapped]
    refine h.tiles.of_layers fun p => ?_
    simp only [layers_cons, layers_append, layers_joinLast, layers_join]
    omega
  · intro c hc
    rw [hlive c hc]
    exact h.lengths c (List.mem_cons_of_mem a hc)
  · intro c hc
    rcases List.mem_append.mp hc with hc | hc
    · refine length_of_mem_joinLast (fun f hf => hlf f (List.mem_append_left bs hf)) (fun b hb => ?_) hc
      exact length_of_mem_join hla (fun f hf => hlf f (List.mem_append_right as hf)) hb
    · exact h.large c (List.mem_append_right _ (List.mem_cons_of_mem a hc))
  · rw [hmapped, ← h.length]
    refine hkeep evhLength (.inl (by decide)) fun f hf => .inl ?_
    have hwf : S.evh ≤ f.offset := by
      rcases List.mem_append.mp hf with hf | hf
      · exact (h.within (List.mem_append_left _ (List.mem_append_left bs hf))).1
      · rw [List.mem_singleton.mp hf]
        exact (h.within (List.mem_append_right _ List.mem_cons_self)).1
    unfold evhLength
    omega

theorem Row.join (h : Row lo hi (as ++ a :: bs)) : Row lo hi (as ++ join a bs) := by
  cases bs with
  | nil => exact h
  | cons b bs =>
      rw [join_cons]
      split
      · rename_i hadj
        obtain ⟨hrowa, hrowb, hfb⟩ := row_append.mp h
        obtain ⟨hwa, hrowbs, hab⟩ := row_cons.mp hrowb
        obtain ⟨hwb, hrowc, hbc⟩ := row_cons.mp hrowbs
        unfold stop at hadj
        refine row_append.mpr ⟨hrowa, row_cons.mpr ⟨?_, hrowc, fun c hc => ?_⟩, fun f hf c hc => ?_⟩
        · unfold stop at hwa hwb ⊢
          simp only
          omega
        · have hle := hbc c hc
          unfold stop at hle ⊢
          simp only
          omega
        · rcases List.mem_cons.mp hc with rfl | hc
          · exact hfb f hf a List.mem_cons_self
          · exact hfb f hf c (List.mem_cons_of_mem a (List.mem_cons_of_mem b hc))
      · exact h

/-- The last step of `free_global`: the block in front takes in the block. -/
theorem mergePrior_spec (hc : Chain r.mem p (as ++ join a bs) 0)
    (hrow : Row lo r.mapped (as ++ join a bs)) (hp : p + 4 ≤ lo) (hmapped : r.mapped < 2147483648) :
    ∃ r', (match last none as with
        | none => pure r
        | some prior => mergeNext r prior a.offset : Except Stop Region) = .ok r' ∧
      r'.mapped = r.mapped ∧ Chain r'.mem p (joinLast as (join a bs)) 0 ∧
      ∀ q, (∀ f ∈ as, q + 4 ≤ f.offset ∨ f.offset + sizeofFrb ≤ q) →
        r'.mem.long q = r.mem.long q := by
  obtain ⟨b, cs, hjoin, hb⟩ := exists_join_eq a bs
  rw [hjoin] at hc hrow ⊢
  rw [← hb]
  rcases List.eq_nil_or_concat as with rfl | ⟨front, l, rfl⟩
  · exact ⟨r, rfl, rfl, hc, fun _ _ => rfl⟩
  · rw [List.concat_eq_append] at hc hrow ⊢
    rw [List.append_assoc, List.singleton_append] at hc hrow
    obtain ⟨r', hmerge, hm, hchain, hkeep⟩ := mergeNext_spec hc hrow hp hmapped
    refine ⟨r', ?_, hm, ?_, fun q hq => ?_⟩
    · rw [last_concat]
      exact hmerge
    · rw [joinLast_concat]
      exact hchain
    · exact hkeep q (hq l (List.mem_append_right front (List.mem_singleton_self l)))

theorem Chain.length_eq (h : Chain m p as v) (ha : a ∈ as) : m.long a.offset = a.length := by
  induction as generalizing p with
  | nil => cases ha
  | cons b as ih =>
      rcases List.mem_cons.mp ha with rfl | ha
      · exact h.2.1
      · exact ih h.2.2 ha

/-- What does not meet the header's field or a block in front does not meet the last link. -/
theorem disjoint_link (hp : q + 4 ≤ p ∨ p + 4 ≤ q)
    (has : ∀ f ∈ as, q + 4 ≤ f.offset ∨ f.offset + sizeofFrb ≤ q) :
    q + 4 ≤ link p as ∨ link p as + 4 ≤ q := by
  rcases List.eq_nil_or_concat as with rfl | ⟨front, l, rfl⟩
  · exact hp
  · rw [List.concat_eq_append] at has ⊢
    have hl := has l (List.mem_append_right front (List.mem_singleton_self l))
    unfold sizeofFrb at hl
    rw [link_concat]
    unfold frbNext
    omega

/-- The free blocks lie in front of a live block or behind it. -/
theorem Heap.place (h : Heap S r (as ++ bs) (a :: live)) (has : ∀ f ∈ as, f.offset ≤ a.offset)
    (hbs : ∀ b ∈ bs, a.offset < b.offset) :
    (∀ f ∈ as, f.stop ≤ a.offset) ∧ (∀ b ∈ bs, a.stop ≤ b.offset) ∧
      Row S.evh r.mapped (as ++ a :: bs) := by
  have hwa := h.within (List.mem_append_right _ List.mem_cons_self)
  have hfa : ∀ f ∈ as, f.stop ≤ a.offset := by
    intro f hf
    have hle := has f hf
    have hor := h.apart (List.mem_append_left bs hf) List.mem_cons_self
    unfold sizeofFrb stop at hwa
    unfold stop at hor ⊢
    omega
  have hab : ∀ b ∈ bs, a.stop ≤ b.offset := by
    intro b hb
    have hlt := hbs b hb
    have hor := h.apart (List.mem_append_right as hb) List.mem_cons_self
    unfold stop at hor ⊢
    omega
  obtain ⟨hrowf, hrowb, -⟩ := row_append.mp h.row
  refine ⟨hfa, hab, row_append.mpr ⟨hrowf, row_cons.mpr ⟨hwa, hrowb, hab⟩, fun f hf b hb => ?_⟩⟩
  have hle := hfa f hf
  rcases List.mem_cons.mp hb with rfl | hb
  · exact hle
  · exact hle.trans (hbs b hb).le

theorem Heap.badBlock_false (h : Heap S r (as ++ bs) (a :: live))
    (has : ∀ f ∈ as, f.stop ≤ a.offset) : badBlock r a.offset (last none as) = .ok false := by
  have hevh := S.le_evh
  have hwa := h.within (List.mem_append_right _ List.mem_cons_self)
  unfold sizeofFrb stop at hwa
  refine Event.badBlock_false (by omega) h.length (by omega) (by omega) fun q hq => ?_
  rcases List.eq_nil_or_concat as with rfl | ⟨init, l, rfl⟩
  · cases hq
  · have hl : l ∈ init.concat l := List.concat_eq_append ▸ List.mem_append_right init
      (List.mem_singleton_self l)
    have hwl := h.within (List.mem_append_left (a :: live) (List.mem_append_left bs hl))
    have hstop := has l hl
    rw [List.concat_eq_append, last_concat] at hq
    cases hq
    rw [h.chain.length_eq (List.mem_append_left bs hl)]
    unfold sizeofFrb stop at hwl
    unfold stop at hstop
    omega

/-- A live block becomes free. -/
theorem free_heap (h : Heap S r free (a :: live)) :
    ∃ r' free', freeGlobal r a.offset = .ok r' ∧ r'.mapped = r.mapped ∧ Heap S r' free' live := by
  have hevh := S.le_evh
  have hwa := h.within (List.mem_append_right free List.mem_cons_self)
  unfold sizeofFrb stop at hwa
  -- the type of the block
  let r₁ : Region := { r with mem := r.mem.store (a.offset + hdrType) (List.replicate 1 typeFrb) }
  have hfill : r.fill (a.offset + hdrType) typeFrb 1 = .ok r₁ :=
    fill_ok (by decide) (by unfold hdrType; omega)
  have h₁ : Heap S r₁ free (a :: live) := by
    refine h.write (.inr (.inr ⟨a, List.mem_cons_self, le_rfl, ?_⟩))
    unfold hdrType stop
    rw [List.length_replicate]
    omega
  have hmapped : evhFree + 4 ≤ r₁.mapped := show 28 ≤ r.mapped by omega
  -- its place in the list
  obtain ⟨front, back, rfl, hfind, hfront, hback⟩ :=
    findFree_spec a.offset none h₁.chain h₁.row (by omega) hmapped h₁.length_lt
  obtain ⟨hfa, hab, hrow⟩ := h₁.place hfront hback
  have hlink := (row_append.mp hrow).1.link_le hmapped
  have hnext : r₁.get (link evhFree front) = .ok (first back : ℤ) := by
    rw [get_ok hlink, (chain_append.mp h₁.chain).2.long_first]
  -- the links to it and from it
  let r₂ : Region := { r₁ with mem := r₁.mem.putLong (a.offset + frbNext) (first back) }
  have hput₂ : r₁.put (a.offset + frbNext) (first back) = .ok r₂ :=
    put_ok (show a.offset + 8 + 4 ≤ r.mapped by omega)
  let r₃ : Region := { r₂ with mem := r₂.mem.putLong (link evhFree front) a.offset }
  have hput₃ : r₂.put (link evhFree front) a.offset = .ok r₃ := put_ok hlink
  have hlow : evhFree + 4 ≤ S.evh := hevh
  obtain ⟨hchain₃, hkeep₃⟩ :=
    chain_insert h₁.chain hrow hlow h.mapped (h₁.lengths a List.mem_cons_self)
  -- its neighbours
  obtain ⟨r₄, hmerge₄, hm₄, hchain₄, hkeep₄⟩ :=
    mergeNext_spec (r := r₃) hchain₃ hrow hlow h.mapped
  obtain ⟨r₅, hmerge₅, hm₅, hchain₅, hkeep₅⟩ :=
    mergePrior_spec hchain₄ (hm₄ ▸ hrow.join) hlow (hm₄ ▸ h.mapped)
  have hm : r₅.mapped = r₁.mapped := hm₅.trans hm₄
  refine ⟨r₅, _, ?_, hm, h₁.freed hm hfa hab hchain₅ fun q hq hf => ?_⟩
  · unfold freeGlobal
    rw [hfill, Outcome.ok_seq, hfind, Outcome.ok_seq]
    simp only [h₁.badBlock_false hfa, Outcome.ok_seq]
    rw [if_neg Bool.false_ne_true, hnext, Outcome.ok_seq, hput₂, Outcome.ok_seq, hput₃,
      Outcome.ok_seq, hmerge₄, Outcome.ok_seq]
    exact hmerge₅
  · obtain ⟨hqf, hqa⟩ := List.forall_mem_append.mp hf
    have hqa := hqa a (List.mem_singleton_self a)
    rw [hkeep₅ q hqf, hkeep₄ q hqa]
    exact hkeep₃ q hqa (disjoint_link hq hqf)

end Firebird.Event
