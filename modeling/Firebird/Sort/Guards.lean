import Mathlib.Data.Finset.Max
import Mathlib.Data.List.GetD
import Firebird.Sort.Sorted

/-! # What the guards are good for

The scans have no bound of their own. Going up they stop at `high_key` if it compares above the
record that they start from, so this must differ from all ones within the 64 longwords that
`high_key` has. Otherwise they go on behind the pointers or behind `high_key`. Where a pointer
takes two longwords, one longword more than the record has is compared, so that no two records
may be equal either.
-/

namespace Firebird.Sort

open Pointers (Rearranged Linked)

/-! ## Comparing with `high_key` -/

/-- A record that is below `high_key` -/
def Guarded (r : List ULONG) : Prop := ∃ w ∈ r.take 64, w ≠ MAX_ULONG

instance (r : List ULONG) : Decidable (Guarded r) :=
  inferInstanceAs (Decidable (∃ w ∈ r.take 64, w ≠ MAX_ULONG))

variable {p q r : List ULONG} {tl : ℕ}

/-- What two records have in common is passed. -/
theorem compareLongs_common (tl : ℕ) (l p q : List ULONG) :
    compareLongs (l.length + tl) (l ++ p) (l ++ q) = compareLongs tl p q := by
  induction l with
  | nil => rw [List.length_nil, Nat.zero_add, List.nil_append, List.nil_append]
  | cons x l ih =>
      rw [List.length_cons, Nat.succ_add, List.cons_append, List.cons_append, compareLongs,
        if_pos rfl, ih]

/-- Equal records are compared to what stands behind them. -/
theorem compareLongs_self (htl : p.length < tl) : compareLongs tl p p = none := by
  obtain ⟨k, rfl⟩ := Nat.exists_eq_add_of_lt htl
  have hcommon := compareLongs_common (k + 1) p [] []
  rwa [List.append_nil] at hcommon

/-- Different records are told apart before what stands behind them. -/
theorem compareLongs_of_ne (hlen : p.length = q.length) (hne : p ≠ q) (htl : p.length ≤ tl)
    (p' q' : List ULONG) : compareLongs tl (p ++ p') (q ++ q') = compareLongs tl p q := by
  induction p generalizing q tl with
  | nil => exact absurd (List.length_eq_zero_iff.mp hlen.symm).symm hne
  | cons x p ih =>
      cases q with
      | nil => cases hlen
      | cons y q =>
          cases tl with
          | zero => cases htl
          | succ tl =>
              rw [List.cons_append, List.cons_append, compareLongs, compareLongs]
              by_cases hxy : x = y
              · subst hxy
                rw [if_pos rfl, if_pos rfl]
                exact ih (Nat.succ.inj hlen) (fun heq => hne (heq ▸ rfl))
                  (Nat.le_of_succ_le_succ htl)
              · rw [if_neg hxy, if_neg hxy]

theorem lt_of_compareLongs (h : compareLongs tl p q = some .gt) : q < p := by
  induction tl generalizing p q with
  | zero => cases h
  | succ tl ih =>
      cases p with
      | nil => cases h
      | cons x p =>
          cases q with
          | nil => cases h
          | cons y q =>
              rw [compareLongs] at h
              split at h
              · rename_i hxy
                subst hxy
                exact List.cons_lt_cons_iff.mpr (.inr ⟨rfl, ih h⟩)
              · rename_i hxy
                split at h
                · cases h
                · rename_i hlt
                  exact List.Lex.rel (lt_of_le_of_ne (not_lt.mp hlt) (Ne.symm hxy))

theorem compareLongs_nil_right (tl : ℕ) (p : List ULONG) : compareLongs (tl + 1) p [] = none := by
  cases p <;> rfl

/-- A record that is all ones is equal to `high_key` if no more is compared than both have. -/
theorem compareLongs_of_not_guarded (h : ¬Guarded r) (htl : r.length ≤ tl) :
    let res : Option Ordering := if tl = r.length ∧ tl ≤ 64 then some .eq else none
    compareLongs tl highKey r = res ∧ compareLongs tl r highKey = res := by
  have hones : r.take 64 = List.replicate (min 64 r.length) MAX_ULONG := by
    refine List.eq_replicate_iff.mpr ⟨List.length_take, fun w hw => ?_⟩
    exact Decidable.byContradiction fun hne => h ⟨w, hw, hne⟩
  have hcommon : ∀ p q : List ULONG, compareLongs tl
      (List.replicate (min 64 r.length) MAX_ULONG ++ p)
      (List.replicate (min 64 r.length) MAX_ULONG ++ q) =
        compareLongs (tl - min 64 r.length) p q := fun p q => by
    have heq := compareLongs_common (tl - min 64 r.length)
      (List.replicate (min 64 r.length) MAX_ULONG) p q
    rwa [List.length_replicate, show min 64 r.length + (tl - min 64 r.length) = tl by omega] at heq
  have hr : r = List.replicate (min 64 r.length) MAX_ULONG ++ r.drop 64 := by
    rw [← hones, List.take_append_drop]
  have hhigh : highKey = List.replicate (min 64 r.length) MAX_ULONG ++
      List.replicate (64 - min 64 r.length) MAX_ULONG := by
    rw [highKey, List.replicate_append_replicate]
    congr 1
    omega
  have h₁ := hcommon (List.replicate (64 - min 64 r.length) MAX_ULONG) (r.drop 64)
  have h₂ := hcommon (r.drop 64) (List.replicate (64 - min 64 r.length) MAX_ULONG)
  rw [← hhigh, ← hr] at h₁ h₂
  rw [h₁, h₂]
  rcases Nat.lt_or_ge 64 r.length with hlong | hshort
  · -- `high_key` ends first
    rw [if_neg (by omega), Nat.min_eq_left hlong.le]
    obtain ⟨k, hk⟩ := Nat.exists_eq_add_of_lt (show 64 < tl by omega)
    rw [show tl - 64 = k + 1 by omega]
    exact ⟨rfl, compareLongs_nil_right k _⟩
  · rw [Nat.min_eq_right hshort, List.drop_eq_nil_of_le hshort]
    by_cases heq : tl = r.length
    · rw [if_pos ⟨heq, by omega⟩, heq, Nat.sub_self]
      exact ⟨rfl, rfl⟩
    · rw [if_neg fun hand => heq hand.1]
      obtain ⟨k, hk⟩ := Nat.exists_eq_add_of_lt (show r.length < tl by omega)
      rw [show tl - r.length = k + 1 by omega]
      exact ⟨compareLongs_nil_right k _, rfl⟩

theorem ones_of_le {m : ℕ} (h : ∀ w ∈ p.take m, w = MAX_ULONG) (hle : p ≤ q)
    (hlen : p.length = q.length) : ∀ w ∈ q.take m, w = MAX_ULONG := by
  induction p generalizing q m with
  | nil =>
      obtain rfl := List.length_eq_zero_iff.mp hlen.symm
      exact h
  | cons x p ih =>
      cases q with
      | nil => cases hlen
      | cons y q =>
          cases m with
          | zero => nofun
          | succ m =>
              rw [List.take_succ_cons] at h ⊢
              have hx := h x List.mem_cons_self
              have hnlt : ¬y :: q < x :: p := not_lt.mpr hle
              rw [List.cons_lt_cons_iff, not_or] at hnlt
              have hxy : y = x := le_antisymm (hx ▸ le_MAX_ULONG y) (not_lt.mp hnlt.1)
              have hpq : p ≤ q := not_lt.mp fun hlt => hnlt.2 ⟨hxy, hlt⟩
              rintro w (_ | ⟨_, hw⟩)
              · exact hxy.trans hx
              · exact ih (fun w hw => h w (List.mem_cons_of_mem _ hw)) hpq (Nat.succ.inj hlen) w hw

/-- A record above one that is all ones is so too. -/
theorem not_guarded_of_le (h : ¬Guarded p) (hle : p ≤ q) (hlen : p.length = q.length) :
    ¬Guarded q := by
  rintro ⟨w, hw, hne⟩
  refine hne (ones_of_le (fun w hw => ?_) hle hlen w hw)
  exact Decidable.byContradiction fun hne => h ⟨w, hw, hne⟩

/-! ## A memoryful -/

/-- Records of `width` longwords in the sort memory, where a pointer takes `pointerLongs`. What
stands behind a record is no key of its own. -/
def memoryful (pointerLongs width : ℕ) (records : List (List ULONG)) : Buffer where
  count := records.length
  longs := width + pointerLongs
  data k := records.getD k (List.replicate width 0)
  behind _ _ := []

/-- Each pointer is to a record, and the back pointer of that record is to the pointer. -/
structure Arranged (n : ℕ) (s : Pointers) : Prop where
  slot_lt : ∀ i, 1 ≤ i → i ≤ n → s.slot i < n
  linked : Linked n s

/-- From every order of the pointers, `sort` ends with them in the order of their records, and
reads nothing behind the guards or a record on the way. -/
def SortsAll (b : Buffer) : Prop :=
  ∀ s, Arranged b.count s → ∃ s', b.sort s = some s' ∧ Rearranged 1 b.count s s' ∧
    Arranged b.count s' ∧ b.Sorted s' 1 b.count

namespace Arranged

variable {n : ℕ} {s s' : Pointers}

theorem rearranged (h : Arranged n s) (hre : Rearranged 1 n s s') (hlinked : Linked n s') :
    Arranged n s' where
  slot_lt i hi hn := hre.forall_mem (P := fun k => k < n) h.slot_lt i hi hn
  linked := hlinked

theorem slot_inj (h : Arranged n s) {i j : ℕ} (hi : 1 ≤ i ∧ i ≤ n) (hj : 1 ≤ j ∧ j ≤ n)
    (heq : s.slot i = s.slot j) : i = j := by
  rw [← h.linked i hi.1 hi.2, ← h.linked j hj.1 hj.2, heq]

theorem exchange (h : Arranged n s) {i j : ℕ} (hi : 1 ≤ i ∧ i ≤ n) (hj : 1 ≤ j ∧ j ≤ n) :
    Arranged n (s.exchange i j) :=
  h.rearranged (Pointers.rearranged_exchange hi hj) (h.linked.exchange hi hj)

end Arranged

/-- The pointers in the order of the records -/
def inOrder : Pointers := ⟨fun i => i - 1, fun k => k + 1⟩

theorem arranged_inOrder (n : ℕ) : Arranged n inOrder where
  slot_lt i hi hn := by
    dsimp only [inOrder]
    omega
  linked i hi _ := Nat.sub_add_cancel hi

namespace Buffer

variable {b : Buffer} {s : Pointers} {i j r : ℕ}

/-- Nothing of a key stands behind a record. -/
def Bare (b : Buffer) : Prop := ∀ back k, b.behind back k = []

namespace Bare

theorem image_eq (hb : b.Bare) (hi : b.InRange i) : b.image s i = some (b.value s i) := by
  rw [image_of_inRange hi, hb, List.append_nil]

theorem compare_eq (hb : b.Bare) (hi : b.InRange i) (hj : b.InRange j) :
    b.compare s i j = compareLongs (b.longs - 1) (b.value s i) (b.value s j) := by
  rw [compare, hb.image_eq hi, hb.image_eq hj]
  rfl

end Bare

/-! ## Where the guards fail -/

/-- A record that is all ones and not below any other -/
structure Topmost (b : Buffer) (s : Pointers) (r : ℕ) : Prop where
  inRange : b.InRange r
  ne_nil : b.value s r ≠ []
  length_le : (b.value s r).length ≤ b.longs - 1
  ones : ¬Guarded (b.value s r)
  above : ∀ k, b.InRange k → b.value s k ≤ b.value s r

namespace Topmost

theorem first_eq (h : b.Topmost s r) (hb : b.Bare) : b.first s r = some MAX_ULONG := by
  obtain ⟨w, t, hv⟩ := List.exists_cons_of_ne_nil h.ne_nil
  have hw : w = MAX_ULONG := by
    have hones := h.ones
    rw [hv] at hones
    exact Decidable.byContradiction fun hne => hones ⟨w, List.mem_cons_self, hne⟩
  rw [first, hb.image_eq h.inRange, hv, hw]
  rfl

theorem compare_high (h : b.Topmost s r) (hb : b.Bare) :
    let res : Option Ordering :=
      if b.longs - 1 = (b.value s r).length ∧ b.longs - 1 ≤ 64 then some .eq else none
    b.compare s (b.count + 1) r = res ∧ b.compare s r (b.count + 1) = res := by
  rw [compare, compare, hb.image_eq h.inRange, image_high]
  exact compareLongs_of_not_guarded h.ones h.length_le

/-- Going up from there, there is nothing to stop at. -/
theorem whileNotAbove_none (h : b.Topmost s r) (hb : b.Bare) (hi : 1 ≤ i) (fuel : ℕ) :
    b.whileNotAbove s r fuel i = none := by
  induction fuel generalizing i with
  | zero => rfl
  | succ fuel ih =>
      have hnot : b.compare s i r ≠ some .gt := by
        rcases Nat.lt_trichotomy i (b.count + 1) with hlt | rfl | hgt
        · have hin : b.InRange i := ⟨hi, Nat.le_of_lt_succ hlt⟩
          rw [hb.compare_eq hin h.inRange]
          exact fun hgt => absurd (lt_of_compareLongs hgt) (not_lt.mpr (h.above i hin))
        · rw [(h.compare_high hb).1]
          split
          · exact fun heq => by cases heq
          · exact fun heq => by cases heq
        · -- behind the pointers
          rw [compare, image, if_neg (by omega), if_neg (by omega), if_neg (by omega)]
          exact fun heq => by cases heq
      rw [whileNotAbove]
      cases ho : b.compare s i r with
      | none => rfl
      | some o =>
          simp only [Option.bind_eq_bind, Option.bind_some]
          rw [if_neg (by
            rintro rfl
            exact hnot ho)]
          exact ih (Nat.le_succ_of_le hi)

end Topmost

theorem whileBelow_spec {key : ULONG} {fuel : ℕ} (h : b.whileBelow s key fuel i = some j) :
    i ≤ j ∧ ∃ w, b.first s j = some w ∧ ¬w < key := by
  induction fuel generalizing i with
  | zero => cases h
  | succ fuel ih =>
      rw [whileBelow] at h
      obtain ⟨w, hw, hrest⟩ := Option.bind_eq_some_iff.mp h
      split at hrest
      · obtain ⟨hle, hstop⟩ := ih hrest
        exact ⟨Nat.le_of_succ_le hle, hstop⟩
      · rename_i hnot
        cases hrest
        exact ⟨Nat.le_refl _, w, hw, hnot⟩

theorem Topmost.up_none (h : b.Topmost s r) (hb : b.Bare) (hi : 1 ≤ i) : b.up s r i = none := by
  rw [up, h.first_eq hb]
  simp only [Option.bind_eq_bind, Option.bind_some]
  cases hj : b.whileBelow s MAX_ULONG (b.count + 2) i with
  | none => rfl
  | some j =>
      obtain ⟨hle, w, hw, hnot⟩ := whileBelow_spec hj
      have hones : w = MAX_ULONG := le_antisymm (le_MAX_ULONG w) (not_lt.mp hnot)
      rw [Option.bind_some, hw, Option.bind_some, if_pos hones]
      exact h.whileNotAbove_none hb (hi.trans hle) _

/-- The first step of `quick` fails. -/
theorem sort_none_of_up (hcount : 3 ≤ b.count)
    (hup : b.up (s.exchange 1 (1 + (b.count - 1) / 2)) 1 2 = none) : b.sort s = none := by
  have hquick : b.quick s = none := by
    rw [quick, quickLoop, if_neg (by omega)]
    dsimp only
    rw [converge, hup]
    rfl
  rw [sort, hquick]
  rfl

/-- The last record is compared with `high_key`. -/
theorem Topmost.pairs_none (h : b.Topmost s b.count) (hb : b.Bare)
    (hlonger : ¬(b.longs - 1 = (b.value s b.count).length ∧ b.longs - 1 ≤ 64)) :
    b.pairs 1 s b.count = none := by
  have hcompare := (h.compare_high hb).2
  rw [if_neg hlonger] at hcompare
  rw [pairs, h.first_eq hb, Sortable.first_high, hcompare]
  simp only [Option.bind_eq_bind, Option.bind_some, le_refl, if_true, Option.bind_none]

theorem quick_of_le_two (hcount : b.count ≤ 2) : b.quick s = some s := by
  rw [quick, quickLoop, if_pos (by omega), quickLoop]

theorem Topmost.sort_none (h : b.Topmost s b.count) (hb : b.Bare) (hcount : b.count ≤ 2)
    (hlonger : ¬(b.longs - 1 = (b.value s b.count).length ∧ b.longs - 1 ≤ 64)) :
    b.sort s = none := by
  have hlast := h.pairs_none hb hlonger
  rw [sort, quick_of_le_two hcount]
  simp only [Option.bind_eq_bind, Option.bind_some]
  have hone := h.inRange.1
  have hcases : b.count = 1 ∨ b.count = 2 := by omega
  rcases hcases with heq | heq
  · rw [heq] at hlast ⊢
    exact hlast
  · have hin : b.InRange 1 := ⟨le_refl 1, by omega⟩
    have habove := h.above 1 hin
    have hright := h.inRange
    rw [heq] at hlast habove hright ⊢
    rw [pairs]
    cases b.first s 1 with
    | none => rfl
    | some p =>
        cases b.first s 2 with
        | none => rfl
        | some q =>
            simp only [Option.bind_eq_bind, Option.bind_some]
            split
            · cases ho : b.compare s 1 2 with
              | none => rfl
              | some o =>
                  have hnot : o ≠ .gt := by
                    rintro rfl
                    rw [hb.compare_eq hin hright] at ho
                    exact absurd (lt_of_compareLongs ho) (not_lt.mpr habove)
                  rw [Option.bind_some, if_neg hnot]
                  exact hlast
            · exact hlast

/-- Two equal records are compared to what stands behind them. -/
theorem Bare.compare_none (hb : b.Bare) (hi : b.InRange i) (hj : b.InRange j)
    (heq : b.value s i = b.value s j) (hlong : (b.value s j).length < b.longs - 1) :
    b.compare s i j = none := by
  rw [hb.compare_eq hi hj, heq, compareLongs_self hlong]

theorem Bare.first_congr (hb : b.Bare) (hi : b.InRange i) (hj : b.InRange j)
    (heq : b.value s i = b.value s j) : b.first s i = b.first s j := by
  rw [first, first, hb.image_eq hi, hb.image_eq hj, heq]

theorem Bare.up_none (hb : b.Bare) (hcount : 2 ≤ b.count) (heq : b.value s 2 = b.value s 1)
    (hlong : (b.value s 1).length < b.longs - 1) : b.up s 1 2 = none := by
  have h₁ : b.InRange 1 := ⟨le_refl 1, by omega⟩
  have h₂ : b.InRange 2 := ⟨by decide, hcount⟩
  rw [up]
  cases hfirst : b.first s 1 with
  | none => rfl
  | some key =>
      have hsecond : b.first s 2 = some key := (hb.first_congr h₂ h₁ heq).trans hfirst
      simp only [Option.bind_eq_bind, Option.bind_some, whileBelow, hsecond, lt_irrefl, if_false,
        if_true, whileNotAbove, hb.compare_none h₂ h₁ heq hlong, Option.bind_none]

theorem Bare.sort_none_of_two (hb : b.Bare) (hcount : b.count = 2)
    (heq : b.value s 1 = b.value s 2) (hlong : (b.value s 2).length < b.longs - 1) :
    b.sort s = none := by
  have h₁ : b.InRange 1 := ⟨le_refl 1, by omega⟩
  have h₂ : b.InRange 2 := ⟨by decide, by omega⟩
  rw [sort, quick_of_le_two hcount.le, hcount]
  simp only [Option.bind_eq_bind, Option.bind_some]
  rw [pairs, hb.first_congr h₁ h₂ heq, hb.compare_none h₁ h₂ heq hlong]
  cases b.first s 2 with
  | none => rfl
  | some key =>
      simp only [Option.bind_eq_bind, Option.bind_some, le_refl, if_true, Option.bind_none]

end Buffer

/-! ## Orders of the pointers -/

theorem exchange_exchange_slot (s : Pointers) (i j k : ℕ) :
    ((s.exchange i j).exchange i j).slot k = s.slot k := by
  rw [Pointers.exchange_slot, Pointers.exchange_slot, Equiv.swap_apply_self]

variable {n a c : ℕ}

/-- Any record may stand at any place. -/
theorem exists_arranged {i : ℕ} (hi : 1 ≤ i ∧ i ≤ n) (ha : a < n) :
    ∃ s, Arranged n s ∧ s.slot i = a :=
  ⟨inOrder.exchange i (a + 1), (arranged_inOrder n).exchange hi ⟨by omega, ha⟩,
    inOrder.exchange_slot_left i (a + 1)⟩

/-- Any two records may stand in front. -/
theorem exists_arranged_two (ha : a < n) (hc : c < n) (hac : a ≠ c) :
    ∃ s, Arranged n s ∧ s.slot 1 = a ∧ s.slot 2 = c := by
  have hone : 1 ≤ 1 ∧ 1 ≤ n := ⟨le_refl 1, by omega⟩
  have hfirst := (arranged_inOrder n).exchange hone ⟨by omega, show a + 1 ≤ n from ha⟩
  have hslot := inOrder.exchange_slot_left 1 (a + 1)
  -- where the second one is after the first exchange
  obtain ⟨q, hq, hqn, hqc⟩ :
      ∃ q, 2 ≤ q ∧ q ≤ n ∧ (inOrder.exchange 1 (a + 1)).slot q = c := by
    rcases Nat.eq_zero_or_pos c with rfl | hpos
    · exact ⟨a + 1, by omega, ha, inOrder.exchange_slot_right 1 (a + 1)⟩
    · exact ⟨c + 1, by omega, hc, inOrder.exchange_slot_of_ne (by omega) (by omega)⟩
  refine ⟨_, hfirst.exchange ⟨by decide, by omega⟩ ⟨by omega, hqn⟩, ?_,
    (Pointers.exchange_slot_left _ 2 q).trans hqc⟩
  rw [Pointers.exchange_slot_of_ne _ (by decide) (by omega), hslot]
  rfl

/-! ## Which records are not sorted -/

section Memoryful

variable {pointerLongs width : ℕ} {records : List (List ULONG)}

theorem memoryful_count : (memoryful pointerLongs width records).count = records.length := rfl

theorem memoryful_longs : (memoryful pointerLongs width records).longs = width + pointerLongs := rfl

theorem bare_memoryful : (memoryful pointerLongs width records).Bare := fun _ _ => rfl

theorem data_memoryful {k : ℕ} (h : k < records.length) :
    (memoryful pointerLongs width records).data k = records[k] :=
  List.getD_eq_getElem records (List.replicate width 0) h

theorem length_data (pointerLongs : ℕ) (hlen : ∀ r ∈ records, r.length = width) (k : ℕ) :
    ((memoryful pointerLongs width records).data k).length = width := by
  change (records.getD k (List.replicate width 0)).length = width
  rcases Nat.lt_or_ge k records.length with hlt | hge
  · rw [List.getD_eq_getElem records _ hlt]
    exact hlen _ (List.getElem_mem hlt)
  · rw [List.getD_eq_default records _ hge, List.length_replicate]

/-- If a record is all ones, so is one that is not below any other. -/
theorem exists_top (pointerLongs : ℕ) (hlen : ∀ r ∈ records, r.length = width)
    {r : List ULONG} (hr : r ∈ records) (hones : ¬Guarded r) :
    ∃ m < records.length, ¬Guarded ((memoryful pointerLongs width records).data m) ∧
      ∀ k < records.length, (memoryful pointerLongs width records).data k ≤
        (memoryful pointerLongs width records).data m := by
  obtain ⟨k, hk, rfl⟩ := List.getElem_of_mem hr
  obtain ⟨m, hm, hmax⟩ := Finset.exists_max_image (Finset.range records.length)
    (memoryful pointerLongs width records).data ⟨k, Finset.mem_range.mpr hk⟩
  refine ⟨m, Finset.mem_range.mp hm, ?_, fun j hj => hmax j (Finset.mem_range.mpr hj)⟩
  refine not_guarded_of_le hones ?_ ?_
  · have hle := hmax k (Finset.mem_range.mpr hk)
    rwa [data_memoryful hk] at hle
  · rw [length_data pointerLongs hlen, hlen _ (List.getElem_mem hk)]

/-- The pointer to such a record -/
theorem topmost_of_slot (hwidth : 0 < width) (hpointer : 0 < pointerLongs)
    (hlen : ∀ r ∈ records, r.length = width) {s : Pointers} {i m : ℕ}
    (hs : ∀ i, 1 ≤ i → i ≤ records.length → s.slot i < records.length)
    (hi : 1 ≤ i ∧ i ≤ records.length) (hm : s.slot i = m)
    (hones : ¬Guarded ((memoryful pointerLongs width records).data m))
    (hmax : ∀ k < records.length, (memoryful pointerLongs width records).data k ≤
      (memoryful pointerLongs width records).data m) :
    (memoryful pointerLongs width records).Topmost s i := by
  have hv : (memoryful pointerLongs width records).value s i =
      (memoryful pointerLongs width records).data m := by rw [Buffer.value, hm]
  have hlength := length_data pointerLongs hlen m
  refine ⟨hi, ?_, ?_, ?_, fun k hk => ?_⟩
  · rw [hv]
    intro hnil
    rw [hnil] at hlength
    cases hlength
    exact Nat.lt_irrefl 0 hwidth
  · rw [hv, hlength]
    rw [memoryful_longs]
    omega
  · rwa [hv]
  · rw [hv]
    exact hmax _ (hs k hk.1 hk.2)

theorem not_sortsAll_of_none {s : Pointers} (hs : Arranged records.length s)
    (hnone : (memoryful pointerLongs width records).sort s = none) :
    ¬SortsAll (memoryful pointerLongs width records) := by
  intro h
  obtain ⟨s', hs', -⟩ := h s hs
  rw [hnone] at hs'
  cases hs'

/-- A record that is all ones as far as `high_key` goes -/
theorem not_sortsAll_of_ones (hwidth : 0 < width) (hpointer : 0 < pointerLongs)
    (hlen : ∀ r ∈ records, r.length = width) {r : List ULONG} (hr : r ∈ records)
    (hones : ¬Guarded r) (hshort : 3 ≤ records.length ∨ ¬(pointerLongs = 1 ∧ width ≤ 64)) :
    ¬SortsAll (memoryful pointerLongs width records) := by
  obtain ⟨m, hm, htop, hmax⟩ := exists_top pointerLongs hlen hr hones
  have hpos : 1 ≤ records.length := Nat.zero_lt_of_lt hm
  rcases Nat.lt_or_ge records.length 3 with htwo | hthree
  · obtain ⟨s, hs, hslot⟩ := exists_arranged ⟨hpos, le_refl records.length⟩ hm
    have htopmost :=
      topmost_of_slot hwidth hpointer hlen hs.slot_lt ⟨hpos, le_refl _⟩ hslot htop hmax
    refine not_sortsAll_of_none hs (htopmost.sort_none bare_memoryful (Nat.le_of_lt_succ htwo) ?_)
    rw [memoryful_longs, memoryful_count, Buffer.value, length_data pointerLongs hlen]
    omega
  · -- the record is put where the first exchange takes it from
    obtain ⟨t, ht, hslot⟩ := exists_arranged ⟨le_refl 1, hpos⟩ hm
    have hmid : 1 ≤ 1 + (records.length - 1) / 2 ∧
        1 + (records.length - 1) / 2 ≤ records.length := by
      omega
    have hback := exchange_exchange_slot t 1 (1 + (records.length - 1) / 2)
    refine not_sortsAll_of_none (ht.exchange ⟨le_refl 1, hpos⟩ hmid)
      (Buffer.sort_none_of_up hthree (Buffer.Topmost.up_none ?_ bare_memoryful (by decide)))
    refine topmost_of_slot hwidth hpointer hlen (fun i hi hn => ?_) ⟨le_refl 1, hpos⟩
      ((hback 1).trans hslot) htop hmax
    exact lt_of_eq_of_lt (hback i) (ht.slot_lt i hi hn)

/-- Two equal records where more than the record is compared -/
theorem not_sortsAll_of_equal (hpointer : 1 < pointerLongs)
    (hlen : ∀ r ∈ records, r.length = width) (hdup : ¬records.Nodup) :
    ¬SortsAll (memoryful pointerLongs width records) := by
  obtain ⟨a, c, hac, hc, heq⟩ : ∃ a c, a < c ∧ c < records.length ∧
      (memoryful pointerLongs width records).data a =
        (memoryful pointerLongs width records).data c := by
    rw [List.Nodup, List.pairwise_iff_getElem] at hdup
    push Not at hdup
    obtain ⟨a, c, ha, hc, hac, heq⟩ := hdup
    refine ⟨a, c, hac, hc, ?_⟩
    rwa [data_memoryful ha, data_memoryful hc]
  obtain ⟨t, ht, h₁, h₂⟩ := exists_arranged_two (hac.trans hc) hc hac.ne
  rcases Nat.lt_or_ge records.length 3 with htwo | hthree
  · have hcount : records.length = 2 := by omega
    refine not_sortsAll_of_none ht (bare_memoryful.sort_none_of_two hcount ?_ ?_)
    · rw [Buffer.value, Buffer.value, h₁, h₂, heq]
    · rw [Buffer.value, length_data pointerLongs hlen, memoryful_longs]
      omega
  · have hmid : 1 ≤ 1 + (records.length - 1) / 2 ∧
        1 + (records.length - 1) / 2 ≤ records.length := by
      omega
    have hback := exchange_exchange_slot t 1 (1 + (records.length - 1) / 2)
    refine not_sortsAll_of_none (ht.exchange ⟨le_refl 1, by omega⟩ hmid)
      (Buffer.sort_none_of_up hthree (bare_memoryful.up_none (Nat.le_of_succ_le hthree) ?_ ?_))
    · rw [Buffer.value, Buffer.value, memoryful_count, hback, hback, h₁, h₂, heq]
    · rw [Buffer.value, length_data pointerLongs hlen, memoryful_longs]
      omega

end Memoryful

/-! ## Comparisons that come out alike -/

/-- Two memoryfuls with the same first longwords and the same outcomes of comparisons, as long as
the pointers are as `D` says, which exchanges keep -/
structure Alike (b b' : Buffer) (D : Pointers → Prop) : Prop where
  count : b.count = b'.count
  first : ∀ s i, b.first s i = b'.first s i
  compare : ∀ s i j, D s → 1 ≤ i → 1 ≤ j → i ≠ j → b.compare s i j = b'.compare s i j
  exchange : ∀ s i j, D s → b.InRange i → b.InRange j → D (s.exchange i j)
  high : ∀ s i, D s → b.InRange i → b.compare s i (b.count + 1) ≠ some .gt

namespace Alike

variable {b b' : Buffer} {D : Pointers → Prop} {s s' : Pointers} {i j r u : ℕ} {key : ULONG}

theorem whileBelow_eq (h : Alike b b' D) (fuel : ℕ) :
    b.whileBelow s key fuel i = b'.whileBelow s key fuel i := by
  induction fuel generalizing i with
  | zero => rfl
  | succ fuel ih => simp only [Buffer.whileBelow, h.first, ih]

theorem whileAbove_eq (h : Alike b b' D) (fuel : ℕ) :
    b.whileAbove s key fuel j = b'.whileAbove s key fuel j := by
  induction fuel generalizing j with
  | zero => rfl
  | succ fuel ih => simp only [Buffer.whileAbove, h.first, ih]

theorem whileNotAbove_eq (h : Alike b b' D) (hs : D s) (hr : 1 ≤ r) (hi : r < i) (fuel : ℕ) :
    b.whileNotAbove s r fuel i = b'.whileNotAbove s r fuel i := by
  induction fuel generalizing i with
  | zero => rfl
  | succ fuel ih =>
      rw [Buffer.whileNotAbove, Buffer.whileNotAbove, h.compare s i r hs (by omega) hr (by omega),
        ih (Nat.lt_succ_of_lt hi)]

theorem whileNotBelow_eq (h : Alike b b' D) (hs : D s) (hr : 1 ≤ r) (hj : r ≤ j) (fuel : ℕ) :
    b.whileNotBelow s r fuel j = b'.whileNotBelow s r fuel j := by
  induction fuel generalizing j with
  | zero => rfl
  | succ fuel ih =>
      rw [Buffer.whileNotBelow, Buffer.whileNotBelow]
      by_cases hjr : j = r
      · rw [if_pos hjr, if_pos hjr]
      · rw [if_neg hjr, if_neg hjr, h.compare s j r hs (by omega) hr hjr, ih (by omega)]

theorem up_eq (h : Alike b b' D) (hs : D s) (hr : 1 ≤ r) (hi : r < i) :
    b.up s r i = b'.up s r i := by
  rw [Buffer.up, Buffer.up, h.first, h.count]
  cases b'.first s r with
  | none => rfl
  | some key =>
      simp only [Option.bind_eq_bind, Option.bind_some, h.whileBelow_eq]
      cases hw : b'.whileBelow s key (b'.count + 2) i with
      | none => rfl
      | some k =>
          have hik := (Buffer.whileBelow_spec hw).1
          simp only [Option.bind_some, h.first,
            h.whileNotAbove_eq hs hr (lt_of_lt_of_le hi hik) (b'.count + 2)]

/-- Going down does not pass the record that it starts from. -/
theorem whileAbove_spec {fuel : ℕ} (hkey : b.first s r = some key) (hj : r ≤ j)
    (hres : b.whileAbove s key fuel j = some i) : r ≤ i ∧ i ≤ j := by
  induction fuel generalizing j with
  | zero => cases hres
  | succ fuel ih =>
      rw [Buffer.whileAbove] at hres
      obtain ⟨w, hw, hrest⟩ := Option.bind_eq_some_iff.mp hres
      split at hrest
      · rename_i hlt
        have hne : j ≠ r := by
          rintro rfl
          rw [hkey] at hw
          cases hw
          exact lt_irrefl _ hlt
        obtain ⟨hri, hij⟩ := ih (by omega) hrest
        exact ⟨hri, by omega⟩
      · cases hrest
        exact ⟨hj, Nat.le_refl _⟩

theorem whileNotBelow_spec {fuel : ℕ} (hj : r ≤ j)
    (hres : b.whileNotBelow s r fuel j = some i) : r ≤ i ∧ i ≤ j := by
  induction fuel generalizing j with
  | zero => cases hres
  | succ fuel ih =>
      rw [Buffer.whileNotBelow] at hres
      split at hres
      · cases hres
        exact ⟨hj, Nat.le_refl _⟩
      · obtain ⟨o, ho, hrest⟩ := Option.bind_eq_some_iff.mp hres
        split at hrest
        · cases hrest
          exact ⟨hj, Nat.le_refl _⟩
        · obtain ⟨hri, hij⟩ := ih (by omega) hrest
          exact ⟨hri, by omega⟩

theorem down_spec (hj : r ≤ j) (hres : b.down s r j = some i) : r ≤ i ∧ i ≤ j := by
  rw [Buffer.down] at hres
  obtain ⟨key, hkey, hres⟩ := Option.bind_eq_some_iff.mp hres
  obtain ⟨k, hk, hres⟩ := Option.bind_eq_some_iff.mp hres
  obtain ⟨hrk, hkj⟩ := whileAbove_spec hkey hj hk
  obtain ⟨w, -, hres⟩ := Option.bind_eq_some_iff.mp hres
  split at hres
  · obtain ⟨hri, hik⟩ := whileNotBelow_spec hrk hres
    exact ⟨hri, hik.trans hkj⟩
  · cases hres
    exact ⟨hrk, hkj⟩

theorem down_eq (h : Alike b b' D) (hs : D s) (hr : 1 ≤ r) (hj : r ≤ j) :
    b.down s r j = b'.down s r j := by
  rw [Buffer.down, Buffer.down, h.first, h.count]
  cases hkey : b'.first s r with
  | none => rfl
  | some key =>
      simp only [Option.bind_eq_bind, Option.bind_some, h.whileAbove_eq]
      cases hw : b'.whileAbove s key (b'.count + 2) j with
      | none => rfl
      | some k =>
          have hrk := (whileAbove_spec hkey hj hw).1
          simp only [Option.bind_some, h.first, h.whileNotBelow_eq hs hr hrk (b'.count + 2)]

theorem whileNotAbove_spec {fuel : ℕ} (hres : b.whileNotAbove s r fuel i = some j) : i ≤ j := by
  induction fuel generalizing i with
  | zero => cases hres
  | succ fuel ih =>
      rw [Buffer.whileNotAbove] at hres
      obtain ⟨o, ho, hrest⟩ := Option.bind_eq_some_iff.mp hres
      split at hrest
      · cases hrest
        exact Nat.le_refl _
      · exact Nat.le_of_succ_le (ih hrest)

theorem up_spec (hres : b.up s r i = some j) : i ≤ j := by
  rw [Buffer.up] at hres
  obtain ⟨key, hkey, hres⟩ := Option.bind_eq_some_iff.mp hres
  obtain ⟨k, hk, hres⟩ := Option.bind_eq_some_iff.mp hres
  have hik := (Buffer.whileBelow_spec hk).1
  obtain ⟨w, -, hres⟩ := Option.bind_eq_some_iff.mp hres
  split at hres
  · exact hik.trans (whileNotAbove_spec hres)
  · cases hres
    exact hik

/-- The two scans and the exchanges between them -/
theorem converge_eq (h : Alike b b' D) (hs : D s) (hr : 1 ≤ r) (hi : r < i) (hj : r ≤ j)
    (hcount : j ≤ b.count) (fuel : ℕ) :
    b.converge r fuel s i j = b'.converge r fuel s i j ∧
      ∀ s' j', b'.converge r fuel s i j = some (s', j') → D s' ∧ r ≤ j' ∧ j' ≤ j := by
  induction fuel generalizing s i j with
  | zero => exact ⟨rfl, fun _ _ h => by cases h⟩
  | succ fuel ih =>
      rw [Buffer.converge, Buffer.converge, h.up_eq hs hr hi, h.down_eq hs hr hj]
      cases hup : b'.up s r i with
      | none =>
          simp only [Option.bind_eq_bind, Option.bind_none]
          exact ⟨trivial, fun _ _ h => by cases h⟩
      | some i' =>
          cases hdown : b'.down s r j with
          | none =>
              simp only [Option.bind_eq_bind, Option.bind_some, Option.bind_none]
              exact ⟨trivial, fun _ _ h => by cases h⟩
          | some j' =>
              have hii' := up_spec hup
              obtain ⟨hrj', hj'j⟩ := down_spec hj hdown
              simp only [Option.bind_eq_bind, Option.bind_some]
              by_cases hle : j' ≤ i'
              · rw [if_pos hle, if_pos hle]
                refine ⟨rfl, ?_⟩
                rintro s' k hk
                cases hk
                exact ⟨hs, hrj', hj'j⟩
              · rw [if_neg hle, if_neg hle]
                have hs' := h.exchange s i' j' hs ⟨by omega, by omega⟩ ⟨by omega, by omega⟩
                obtain ⟨heq, hspec⟩ :=
                  ih hs' (i := i' + 1) (j := j' - 1) (by omega) (by omega) (by omega)
                refine ⟨heq, fun s'' k hk => ?_⟩
                obtain ⟨hd, hrk, hkj⟩ := hspec s'' k hk
                exact ⟨hd, hrk, by omega⟩

/-- One turn of the loop over the intervals, after the scans have converged -/
theorem quickLoop_succ (hlong : ¬u - r < 2) (fuel : ℕ) (stack : List (ℕ × ℕ))
    {res : Option (Pointers × ℕ)}
    (hres : b.converge r (b.count + 2) (s.exchange r (r + (u - r) / 2)) (r + 1) u = res) :
    b.quickLoop (fuel + 1) s ((r, u) :: stack) = res.bind fun x =>
      if 50 < stack.length + 2 then none
      else if u - x.2 + 1 < x.2 - r then
        b.quickLoop fuel (x.1.exchange r x.2) ((x.2 + 1, u) :: (r, x.2 - 1) :: stack)
      else b.quickLoop fuel (x.1.exchange r x.2) ((r, x.2 - 1) :: (x.2 + 1, u) :: stack) := by
  rw [Buffer.quickLoop, if_neg hlong, ← hres]
  rfl

/-- The loop over the intervals -/
theorem quickLoop_eq (h : Alike b b' D) (hs : D s) {stack : List (ℕ × ℕ)}
    (hstack : ∀ x ∈ stack, 1 ≤ x.1 ∧ x.2 ≤ b.count) (fuel : ℕ) :
    b.quickLoop fuel s stack = b'.quickLoop fuel s stack ∧
      ∀ s', b'.quickLoop fuel s stack = some s' → D s' := by
  induction fuel generalizing s stack with
  | zero =>
      cases stack with
      | nil =>
          refine ⟨rfl, fun s' hs' => ?_⟩
          cases hs'
          exact hs
      | cons x stack => exact ⟨rfl, fun _ h => by cases h⟩
  | succ fuel ih =>
      cases stack with
      | nil =>
          refine ⟨rfl, fun s' hs' => ?_⟩
          cases hs'
          exact hs
      | cons x stack =>
          obtain ⟨r, u⟩ := x
          obtain ⟨hr, hu⟩ : 1 ≤ r ∧ u ≤ b.count := hstack _ List.mem_cons_self
          have hrest : ∀ x ∈ stack, 1 ≤ x.1 ∧ x.2 ≤ b.count := fun x hx =>
            hstack x (List.mem_cons_of_mem _ hx)
          by_cases hshort : u - r < 2
          · rw [Buffer.quickLoop, Buffer.quickLoop, if_pos hshort, if_pos hshort]
            exact ih hs hrest
          · have hs₁ := h.exchange s r (r + (u - r) / 2) hs ⟨hr, by omega⟩ ⟨by omega, by omega⟩
            obtain ⟨hconv, hspec⟩ :=
              h.converge_eq hs₁ hr (Nat.lt_add_one r) (by omega) hu (b.count + 2)
            have hconv' : b.converge r (b.count + 2) (s.exchange r (r + (u - r) / 2)) (r + 1) u =
                b'.converge r (b'.count + 2) (s.exchange r (r + (u - r) / 2)) (r + 1) u := by
              rw [hconv, h.count]
            rw [h.count] at hspec
            rw [quickLoop_succ hshort fuel stack hconv', quickLoop_succ hshort fuel stack rfl]
            cases hres :
                b'.converge r (b'.count + 2) (s.exchange r (r + (u - r) / 2)) (r + 1) u with
            | none =>
                rw [Option.bind_none, Option.bind_none]
                exact ⟨rfl, fun _ h => by cases h⟩
            | some x =>
                obtain ⟨s₂, j⟩ := x
                obtain ⟨hd, hrj, hju⟩ := hspec s₂ j hres
                have hs₃ := h.exchange s₂ r j hd ⟨hr, by omega⟩ ⟨by omega, by omega⟩
                have hlow : 1 ≤ (r, j - 1).1 ∧ (r, j - 1).2 ≤ b.count :=
                  ⟨hr, (Nat.sub_le j 1).trans (hju.trans hu)⟩
                have hhigh : 1 ≤ (j + 1, u).1 ∧ (j + 1, u).2 ≤ b.count := ⟨Nat.succ_pos j, hu⟩
                rw [Option.bind_some, Option.bind_some]
                by_cases hfull : 50 < stack.length + 2
                · rw [if_pos hfull, if_pos hfull]
                  exact ⟨rfl, fun _ h => by cases h⟩
                · rw [if_neg hfull, if_neg hfull]
                  by_cases hlonger : u - j + 1 < j - r
                  · rw [if_pos hlonger, if_pos hlonger]
                    exact ih hs₃ (List.forall_mem_cons.mpr
                      ⟨hhigh, List.forall_mem_cons.mpr ⟨hlow, hrest⟩⟩)
                  · rw [if_neg hlonger, if_neg hlonger]
                    exact ih hs₃ (List.forall_mem_cons.mpr
                      ⟨hlow, List.forall_mem_cons.mpr ⟨hhigh, hrest⟩⟩)

theorem pairs_eq (h : Alike b b' D) (hs : D s) {n : ℕ} (hi : 1 ≤ i) (hn : i + n = b.count + 1) :
    b.pairs n s i = b'.pairs n s i := by
  induction n generalizing s i with
  | zero => rfl
  | succ n ih =>
      rw [Buffer.pairs, Buffer.pairs, h.first, h.first,
        h.compare s i (i + 1) hs hi (Nat.succ_pos i) (Nat.succ_ne_self i).symm,
        ih hs (Nat.succ_pos i) (by omega)]
      cases b'.first s i with
      | none => rfl
      | some p =>
          cases b'.first s (i + 1) with
          | none => rfl
          | some q =>
              simp only [Option.bind_eq_bind, Option.bind_some]
              split
              · cases ho : b'.compare s i (i + 1) with
                | none => rfl
                | some o =>
                    simp only [Option.bind_some]
                    split
                    · rename_i hgt
                      subst hgt
                      have hlt : i < b.count := by
                        refine Nat.lt_of_le_of_ne (by omega) ?_
                        rintro rfl
                        refine h.high s b.count hs ⟨hi, le_refl _⟩ ?_
                        rw [h.compare s _ _ hs hi (Nat.succ_pos _) (Nat.succ_ne_self _).symm, ho]
                      exact ih (h.exchange s i (i + 1) hs ⟨hi, hlt.le⟩ ⟨Nat.succ_pos i, hlt⟩)
                        (Nat.succ_pos i) (by omega)
                    · rfl
              · rfl

theorem sort_eq (h : Alike b b' D) (hs : D s) : b.sort s = b'.sort s := by
  have hstack : ∀ x ∈ [(1, b.count)], 1 ≤ x.1 ∧ x.2 ≤ b.count := by
    rintro x (_ | ⟨_, hx⟩)
    · exact ⟨le_refl 1, le_refl _⟩
    · cases hx
  obtain ⟨hquick, hspec⟩ := h.quickLoop_eq hs hstack (2 * b.count + 1)
  rw [Buffer.sort, Buffer.sort, Buffer.quick, Buffer.quick, hquick, ← h.count]
  cases hres : b'.quickLoop (2 * b.count + 1) s [(1, b.count)] with
  | none => rfl
  | some s' => exact h.pairs_eq (hspec s' hres) (le_refl 1) (Nat.add_comm 1 _)

end Alike

/-! ## Which records are sorted -/

section Memoryful

variable {pointerLongs width : ℕ} {records : List (List ULONG)}

/-- The same memoryful, with longwords behind the records that are equal -/
def padded (pointerLongs width : ℕ) (records : List (List ULONG)) : Buffer :=
  { memoryful pointerLongs width records with
    behind := fun _ _ => List.replicate (pointerLongs - 1) 0 }

theorem low_data (pointerLongs : ℕ) (hwidth : 0 < width) (hguarded : ∀ r ∈ records, Guarded r)
    (k : ℕ) :
    Guarded ((memoryful pointerLongs width records).data k) := by
  rcases Nat.lt_or_ge k records.length with hlt | hge
  · rw [data_memoryful hlt]
    exact hguarded _ (List.getElem_mem hlt)
  · change Guarded (records.getD k (List.replicate width 0))
    rw [List.getD_eq_default records _ hge]
    obtain ⟨w, rfl⟩ := Nat.exists_eq_succ_of_ne_zero hwidth.ne'
    exact ⟨0, List.mem_cons_self, by decide⟩

theorem sortable_padded (hwidth : 0 < width) (hpointer : 0 < pointerLongs)
    (hlen : ∀ r ∈ records, r.length = width) (hguarded : ∀ r ∈ records, Guarded r) :
    (padded pointerLongs width records).Sortable width where
  width_pos := hwidth
  data_length k := length_data pointerLongs hlen k
  behind_length back k := by
    change width + (List.replicate (pointerLongs - 1) (0 : ULONG)).length = width + pointerLongs - 1
    rw [List.length_replicate]
    omega
  low k := low_data pointerLongs hwidth hguarded k

theorem image_padded {s : Pointers} {i : ℕ} (hi : 1 ≤ i ∧ i ≤ records.length) :
    (padded pointerLongs width records).image s i =
      some ((memoryful pointerLongs width records).value s i ++
        List.replicate (pointerLongs - 1) 0) :=
  Buffer.image_of_inRange (b := padded pointerLongs width records) hi

/-- Nothing else is different in the padded memoryful. -/
theorem image_padded_of_outside {s : Pointers} {i : ℕ} (hi : ¬(1 ≤ i ∧ i ≤ records.length)) :
    (padded pointerLongs width records).image s i =
      (memoryful pointerLongs width records).image s i := by
  have hcount : (padded pointerLongs width records).count = records.length := rfl
  rw [Buffer.image, Buffer.image, hcount, memoryful_count]
  by_cases hzero : i = 0
  · rw [if_pos hzero, if_pos hzero]
  · have hbehind : ¬i ≤ records.length := by omega
    rw [if_neg hzero, if_neg hzero, if_neg hbehind, if_neg hbehind]

theorem compare_high_memoryful (hpointer : 0 < pointerLongs)
    (hlen : ∀ r ∈ records, r.length = width) (hwidth : 0 < width)
    (hguarded : ∀ r ∈ records, Guarded r) (s : Pointers) (i : ℕ) (p' : List ULONG) :
    compareLongs (width + pointerLongs - 1) highKey
        ((memoryful pointerLongs width records).value s i ++ p') = some .gt ∧
      compareLongs (width + pointerLongs - 1)
        ((memoryful pointerLongs width records).value s i ++ p') highKey = some .lt := by
  refine compareLongs_high (low_data pointerLongs hwidth hguarded (s.slot i)) ?_ p'
  rw [length_data pointerLongs hlen]
  omega

/-- Where different records are compared, nothing behind them matters. -/
theorem alike_padded (hwidth : 0 < width) (hpointer : 0 < pointerLongs)
    (hlen : ∀ r ∈ records, r.length = width) (hguarded : ∀ r ∈ records, Guarded r)
    (hnodup : records.Nodup) :
    Alike (memoryful pointerLongs width records) (padded pointerLongs width records)
      (Arranged records.length) where
  count := rfl
  first s i := by
    rw [Buffer.first, Buffer.first]
    by_cases hi : 1 ≤ i ∧ i ≤ records.length
    · rw [bare_memoryful.image_eq hi, image_padded hi]
      have hlength : ((memoryful pointerLongs width records).value s i).length = width :=
        length_data pointerLongs hlen _
      cases hv : (memoryful pointerLongs width records).value s i with
      | nil =>
          rw [hv] at hlength
          exact absurd hlength hwidth.ne
      | cons w t => rfl
    · rw [image_padded_of_outside hi]
  compare s i j hs hi hj hij := by
    have hhigh := compare_high_memoryful hpointer hlen hwidth hguarded s
    have hlongs : (padded pointerLongs width records).longs = width + pointerLongs := rfl
    have himage : ∀ k, k ≠ 0 → ¬(1 ≤ k ∧ k ≤ records.length) →
        (memoryful pointerLongs width records).image s k =
          if k = records.length + 1 then some highKey else none := fun k hk hout => by
      rw [Buffer.image, memoryful_count, if_neg hk, if_neg (by omega)]
    rw [Buffer.compare, Buffer.compare, memoryful_longs, hlongs]
    by_cases hin : 1 ≤ i ∧ i ≤ records.length
    · rw [bare_memoryful.image_eq hin, image_padded hin]
      by_cases hjn : 1 ≤ j ∧ j ≤ records.length
      · -- two records, which are different
        rw [bare_memoryful.image_eq hjn, image_padded hjn]
        have hne : (memoryful pointerLongs width records).value s i ≠
            (memoryful pointerLongs width records).value s j := by
          rw [Buffer.value, Buffer.value, data_memoryful (hs.slot_lt i hin.1 hin.2),
            data_memoryful (hs.slot_lt j hjn.1 hjn.2)]
          exact fun heq => hij (hs.slot_inj hin hjn ((hnodup.getElem_inj_iff).mp heq))
        refine (compareLongs_of_ne ?_ hne ?_ _ _).symm
        · rw [Buffer.value, Buffer.value, length_data pointerLongs hlen,
            length_data pointerLongs hlen]
        · rw [Buffer.value, length_data pointerLongs hlen]
          omega
      · rw [image_padded_of_outside hjn, himage j (by omega) hjn]
        split
        · have hlow := (hhigh i []).2
          rw [List.append_nil] at hlow
          exact hlow.trans (hhigh i _).2.symm
        · rfl
    · rw [image_padded_of_outside hin, himage i (by omega) hin]
      split
      · by_cases hjn : 1 ≤ j ∧ j ≤ records.length
        · rw [bare_memoryful.image_eq hjn, image_padded hjn]
          have hlow := (hhigh j []).1
          rw [List.append_nil] at hlow
          exact hlow.trans (hhigh j _).1.symm
        · rw [image_padded_of_outside hjn]
      · rfl
  exchange s i j hs hi hj := hs.exchange hi hj
  high s i hs hi := by
    rw [Buffer.compare, bare_memoryful.image_eq hi, Buffer.image_high]
    have hlow := (compare_high_memoryful hpointer hlen hwidth hguarded s i []).2
    rw [List.append_nil] at hlow
    change compareLongs (width + pointerLongs - 1) _ highKey ≠ _
    rw [hlow]
    decide

/-- Records below `high_key`, and different from each other unless no more than they is compared -/
theorem sortsAll_of_guarded (hwidth : 0 < width) (hpointer : 0 < pointerLongs)
    (hlen : ∀ r ∈ records, r.length = width) (hguarded : ∀ r ∈ records, Guarded r)
    (hcount : records.length < 2 ^ 31) (hdistinct : pointerLongs = 1 ∨ records.Nodup) :
    SortsAll (memoryful pointerLongs width records) := by
  intro s hs
  have hsortable := sortable_padded hwidth hpointer hlen hguarded
  have hsame : (memoryful pointerLongs width records).sort s =
      (padded pointerLongs width records).sort s := by
    rcases hdistinct with rfl | hnodup
    · rfl
    · exact (alike_padded hwidth hpointer hlen hguarded hnodup).sort_eq hs
  obtain ⟨s', hs', hre, hlinked, hsorted⟩ :=
    Buffer.sort_eq hsortable (lt_trans hcount (by decide)) s
  exact ⟨s', hsame.trans hs', hre, hs.rearranged hre (hlinked hs.linked), hsorted⟩

section Few

variable (hwidth : 0 < width) (hlen : ∀ r ∈ records, r.length = width)

include hwidth hlen

theorem first_memoryful (pointerLongs : ℕ) (s : Pointers) {i : ℕ}
    (hi : 1 ≤ i ∧ i ≤ records.length) :
    ∃ w, (memoryful pointerLongs width records).first s i = some w := by
  have hlength : ((memoryful pointerLongs width records).value s i).length = width :=
    length_data pointerLongs hlen _
  rw [Buffer.first, bare_memoryful.image_eq hi]
  cases hv : (memoryful pointerLongs width records).value s i with
  | nil =>
      rw [hv] at hlength
      exact absurd hlength hwidth.ne
  | cons w t => exact ⟨w, rfl⟩

/-- The last record is not above `high_key`. -/
theorem pairs_last (hle : width ≤ 64) (hpos : 1 ≤ records.length) (s : Pointers) :
    (memoryful 1 width records).pairs 1 s records.length = some s := by
  have hin : 1 ≤ records.length ∧ records.length ≤ records.length := ⟨hpos, le_refl _⟩
  obtain ⟨p, hp⟩ := first_memoryful hwidth hlen 1 s hin
  have hlength : ((memoryful 1 width records).value s records.length).length = width :=
    length_data 1 hlen _
  have hcompare : ∃ o, (memoryful 1 width records).compare s records.length (records.length + 1) =
      some o ∧ o ≠ .gt := by
    rw [Buffer.compare, bare_memoryful.image_eq hin]
    rw [show (memoryful 1 width records).image s (records.length + 1) = some highKey from
      Buffer.image_high]
    by_cases hguarded : Guarded ((memoryful 1 width records).value s records.length)
    · -- below `high_key`
      have hlow := (compareLongs_high hguarded hlength.le []).2
      rw [List.append_nil] at hlow
      exact ⟨.lt, hlow, by decide⟩
    · -- equal to what is compared of `high_key`
      have heq := (compareLongs_of_not_guarded hguarded hlength.le).2
      rw [if_pos ⟨hlength.symm, hle⟩] at heq
      exact ⟨.eq, heq, by decide⟩
  obtain ⟨o, ho, hnot⟩ := hcompare
  have hhigh : (memoryful 1 width records).first s (records.length + 1) = some MAX_ULONG :=
    Buffer.Sortable.first_high
  rw [Buffer.pairs, hp, hhigh, ho]
  simp only [Option.bind_eq_bind, Option.bind_some, if_neg hnot]
  split
  · rfl
  · rfl

/-- What the first pair of two records is put to -/
theorem pairs_first (htwo : records.length = 2) (s : Pointers) :
    ∃ s', (memoryful 1 width records).pairs 2 s 1 =
        (memoryful 1 width records).pairs 1 s' 2 ∧
      (s' = s ∨ s' = s.exchange 1 2) ∧
        (memoryful 1 width records).value s' 1 ≤ (memoryful 1 width records).value s' 2 := by
  have h₁ : 1 ≤ 1 ∧ 1 ≤ records.length := ⟨le_refl 1, by omega⟩
  have h₂ : 1 ≤ 2 ∧ 2 ≤ records.length := ⟨by omega, by omega⟩
  have hlength : ∀ i, ((memoryful 1 width records).value s i).length = width :=
    fun i => length_data 1 hlen _
  obtain ⟨p, hp⟩ := first_memoryful hwidth hlen 1 s h₁
  obtain ⟨q, hq⟩ := first_memoryful hwidth hlen 1 s h₂
  have hnil : ([] : List ULONG).length = ([] : List ULONG).length := rfl
  obtain ⟨o, ho, hlt, hgt, heq⟩ := compareLongs_append ((hlength 1).trans (hlength 2).symm) hnil
  rw [List.append_nil, List.append_nil, hlength 1] at ho
  have hcompare : (memoryful 1 width records).compare s 1 2 = some o := by
    rw [bare_memoryful.compare_eq h₁ h₂]
    exact ho
  rw [Buffer.pairs, hp, hq, hcompare]
  simp only [Option.bind_eq_bind, Option.bind_some]
  by_cases hqp : q ≤ p
  · rw [if_pos hqp]
    by_cases habove : o = .gt
    · -- exchanged
      rw [if_pos habove]
      refine ⟨s.exchange 1 2, rfl, .inr rfl, ?_⟩
      rw [Buffer.value, Buffer.value, s.exchange_slot_left, s.exchange_slot_right]
      exact hgt habove
    · rw [if_neg habove]
      refine ⟨s, rfl, .inl rfl, ?_⟩
      cases o with
      | lt => exact hlt rfl
      | eq => exact le_of_eq (heq rfl)
      | gt => exact absurd rfl habove
  · rw [if_neg hqp]
    refine ⟨s, rfl, .inl rfl, le_of_lt ?_⟩
    rw [Buffer.first, bare_memoryful.image_eq h₁] at hp
    rw [Buffer.first, bare_memoryful.image_eq h₂] at hq
    obtain ⟨t, ht⟩ := List.head?_eq_some_iff.mp hp
    obtain ⟨t', ht'⟩ := List.head?_eq_some_iff.mp hq
    rw [ht, ht']
    exact List.Lex.rel (not_le.mp hqp)

/-- No more than two records, which `high_key` is compared with as a whole -/
theorem sortsAll_of_few (hle : width ≤ 64) (hcount : records.length ≤ 2) :
    SortsAll (memoryful 1 width records) := by
  intro s hs
  have hsort : (memoryful 1 width records).sort s =
      (memoryful 1 width records).pairs records.length s 1 := by
    rw [Buffer.sort, Buffer.quick_of_le_two (b := memoryful 1 width records) hcount]
    rfl
  rw [hsort]
  have hcases : records.length = 0 ∨ records.length = 1 ∨ records.length = 2 := by omega
  rcases hcases with hzero | hone | htwo
  · refine ⟨s, by rw [hzero]; rfl, .refl _ _ s, hs, fun i k hi hik hk => ?_⟩
    rw [memoryful_count] at hk
    omega
  · have hlast := pairs_last hwidth hlen hle (by omega) s
    rw [hone] at hlast ⊢
    refine ⟨s, hlast, .refl _ _ s, hs, fun i k hi hik hk => ?_⟩
    rw [memoryful_count] at hk
    rw [show i = k by omega]
  · obtain ⟨s', hs', hwhich, hordered⟩ := pairs_first hwidth hlen htwo s
    have hlast := pairs_last hwidth hlen hle (by omega) s'
    have h₁ : 1 ≤ 1 ∧ 1 ≤ (memoryful 1 width records).count := ⟨le_refl 1, by
      rw [memoryful_count]
      omega⟩
    have h₂ : 1 ≤ 2 ∧ 2 ≤ (memoryful 1 width records).count := ⟨by omega, by
      rw [memoryful_count]
      omega⟩
    have hre : Rearranged 1 (memoryful 1 width records).count s s' := by
      rcases hwhich with rfl | rfl
      · exact .refl _ _ _
      · exact Pointers.rearranged_exchange h₁ h₂
    have harranged : Arranged (memoryful 1 width records).count s' := by
      rcases hwhich with rfl | rfl
      · exact hs
      · exact hs.exchange h₁ h₂
    rw [htwo] at hlast ⊢
    refine ⟨s', hs'.trans hlast, hre, harranged, fun i k hi hik hk => ?_⟩
    rw [memoryful_count] at hk
    by_cases heq : i = k
    · rw [heq]
    · obtain rfl : i = 1 := by omega
      obtain rfl : k = 2 := by omega
      exact hordered

end Few

/-- The records that `sort` puts in order, however the pointers are arranged -/
def Safe (pointerLongs width : ℕ) (records : List (List ULONG)) : Prop :=
  if pointerLongs = 1 then
    (∀ r ∈ records, Guarded r) ∨ width ≤ 64 ∧ records.length ≤ 2
  else (∀ r ∈ records, Guarded r) ∧ records.Nodup

/-- Three records of a longword -/
def threeLongs : List (List ULONG) := [[7], [MAX_ULONG - 1], [7]]

/-- Three records of a longword, all ones as `high_key` is -/
def threeOnes : List (List ULONG) := [[MAX_ULONG], [MAX_ULONG], [MAX_ULONG]]

end Memoryful

end Firebird.Sort
