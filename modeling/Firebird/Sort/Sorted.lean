import Firebird.Sort.Quick

/-! # The pointers are sorted

`quick` puts every two records in order that are not next to each other, and the pass over
the pairs does the rest. Records whose longwords are all equal may end up in any order: what
stands behind them decides.
-/

namespace Firebird.Sort

/-! ## Comparing -/

theorem compareLongs_total {p q : List ULONG} (h : p.length = q.length) :
    ∃ o, compareLongs p.length p q = some o := by
  induction p generalizing q with
  | nil => exact ⟨.eq, rfl⟩
  | cons x p ih =>
      cases q with
      | nil => cases h
      | cons y q =>
          rw [List.length_cons, compareLongs]
          split
          · exact ih (Nat.succ.inj h)
          · exact ⟨_, rfl⟩

/-- Two records with something behind them -/
theorem compareLongs_append {p q p' q' : List ULONG} (h : p.length = q.length)
    (h' : p'.length = q'.length) :
    ∃ o, compareLongs (p.length + p'.length) (p ++ p') (q ++ q') = some o ∧
      (o = .lt → p ≤ q) ∧ (o = .gt → q ≤ p) ∧ (o = .eq → p = q) := by
  induction p generalizing q with
  | nil =>
      obtain rfl := List.length_eq_zero_iff.mp h.symm
      obtain ⟨o, ho⟩ := compareLongs_total h'
      refine ⟨o, ?_, fun _ => le_refl _, fun _ => le_refl _, fun _ => rfl⟩
      rw [List.length_nil, Nat.zero_add]
      exact ho
  | cons x p ih =>
      cases q with
      | nil => cases h
      | cons y q =>
          rw [List.length_cons, Nat.succ_add, List.cons_append, List.cons_append, compareLongs]
          by_cases hxy : x = y
          · subst hxy
            rw [if_pos rfl]
            obtain ⟨o, ho, hlt, hgt, heq⟩ := ih (Nat.succ.inj h)
            exact ⟨o, ho, fun h => List.cons_le_cons x (hlt h), fun h => List.cons_le_cons x (hgt h),
              fun h => by rw [heq h]⟩
          · rw [if_neg hxy]
            rcases lt_or_gt_of_ne hxy with hlt | hgt
            · rw [if_pos hlt]
              exact ⟨.lt, rfl, fun _ => le_of_lt (List.Lex.rel hlt), nofun, nofun⟩
            · rw [if_neg (not_lt_of_gt hgt)]
              exact ⟨.gt, rfl, nofun, fun _ => le_of_lt (List.Lex.rel hgt), nofun⟩

/-- A record that is not all ones as far as `high_key` goes -/
theorem compareLongs_high {p : List ULONG} {m tl : ℕ} (h : ∃ w ∈ p.take m, w ≠ MAX_ULONG)
    (htl : p.length ≤ tl) (p' : List ULONG) :
    compareLongs tl (List.replicate m MAX_ULONG) (p ++ p') = some .gt ∧
      compareLongs tl (p ++ p') (List.replicate m MAX_ULONG) = some .lt := by
  induction p generalizing m tl with
  | nil =>
      obtain ⟨w, hw, -⟩ := h
      rw [List.take_nil] at hw
      cases hw
  | cons x p ih =>
      obtain ⟨w, hw, hne⟩ := h
      cases m with
      | zero => cases hw
      | succ m =>
          cases tl with
          | zero => cases htl
          | succ tl =>
              rw [List.replicate_succ, List.cons_append, compareLongs, compareLongs]
              by_cases hx : x = MAX_ULONG
              · subst hx
                rw [if_pos rfl, if_pos rfl]
                refine ih ⟨w, ?_, hne⟩ (Nat.le_of_succ_le_succ htl)
                rw [List.take_succ_cons] at hw
                exact (List.mem_cons.mp hw).resolve_left hne
              · have hlt : x < MAX_ULONG := lt_of_le_of_ne (le_MAX_ULONG x) hx
                rw [if_neg (Ne.symm hx), if_neg hx, if_pos hlt, if_neg (not_lt_of_gt hlt)]
                exact ⟨rfl, rfl⟩

/-- Records of `width` longwords, none of which is all ones -/
structure Buffer.Sortable (b : Buffer) (width : ℕ) : Prop where
  width_pos : 0 < width
  data_length : ∀ k, (b.data k).length = width
  behind_length : ∀ back k, width + (b.behind back k).length = b.longs - 1
  low : ∀ k, ∃ w ∈ (b.data k).take 64, w ≠ MAX_ULONG

namespace Buffer

variable {b : Buffer} {s : Pointers} {width i j k r : ℕ}

/-- The record that a pointer is to -/
def value (b : Buffer) (s : Pointers) (i : ℕ) : List ULONG := b.data (s.slot i)

/-- A pointer to a record -/
def InRange (b : Buffer) (i : ℕ) : Prop := 1 ≤ i ∧ i ≤ b.count

theorem image_of_inRange (hi : b.InRange i) :
    b.image s i = some (b.value s i ++ b.behind s.back (s.slot i)) := by
  rw [image, if_neg (Nat.one_le_iff_ne_zero.mp hi.1), if_pos hi.2, value]

theorem image_high : b.image s (b.count + 1) = some highKey := by
  rw [image, if_neg (Nat.succ_ne_zero _), if_neg (Nat.not_succ_le_self _), if_pos rfl]

namespace Sortable

theorem value_cons (h : b.Sortable width) (s : Pointers) (i : ℕ) :
    ∃ w t, b.value s i = w :: t := by
  refine List.exists_cons_of_ne_nil fun hnil => ?_
  have hlen := h.data_length (s.slot i)
  rw [value] at hnil
  rw [hnil] at hlen
  have hpos := h.width_pos
  rw [← hlen] at hpos
  exact Nat.lt_irrefl 0 hpos

theorem first_eq (h : b.Sortable width) (s : Pointers) (hi : b.InRange i) :
    ∃ w t, b.value s i = w :: t ∧ b.first s i = some w := by
  obtain ⟨w, t, hv⟩ := h.value_cons s i
  refine ⟨w, t, hv, ?_⟩
  rw [first, image_of_inRange hi, hv]
  rfl

theorem first_high : b.first s (b.count + 1) = some MAX_ULONG := by
  rw [first, image_high]
  rfl

theorem compare_eq (h : b.Sortable width) (s : Pointers) (hi : b.InRange i) (hj : b.InRange j) :
    ∃ o, b.compare s i j = some o ∧ (o = .lt → b.value s i ≤ b.value s j) ∧
      (o = .gt → b.value s j ≤ b.value s i) ∧ (o = .eq → b.value s i = b.value s j) := by
  have hlen : ∀ i, (b.value s i).length = width := fun i => h.data_length _
  have hbehind : ∀ i, (b.behind s.back (s.slot i)).length = b.longs - 1 - width := fun i => by
    have := h.behind_length s.back (s.slot i)
    omega
  obtain ⟨o, ho, horder⟩ := compareLongs_append ((hlen i).trans (hlen j).symm)
    ((hbehind i).trans (hbehind j).symm)
  refine ⟨o, ?_, horder⟩
  rw [hlen, h.behind_length] at ho
  rw [compare, image_of_inRange hi, image_of_inRange hj]
  exact ho

theorem compare_high (h : b.Sortable width) (s : Pointers) (hi : b.InRange i) :
    b.compare s (b.count + 1) i = some .gt ∧ b.compare s i (b.count + 1) = some .lt := by
  have htl : (b.value s i).length ≤ b.longs - 1 := by
    have := h.behind_length s.back (s.slot i)
    rw [value, h.data_length]
    omega
  have hhigh := compareLongs_high (h.low (s.slot i)) htl (b.behind s.back (s.slot i))
  rw [compare, compare, image_of_inRange hi, image_high]
  exact hhigh

end Sortable

/-! ## Going up and down -/

/-- The first record not below a key -/
theorem whileBelow_eq (h : b.Sortable width) (s : Pointers) (key : ULONG) (hi : 1 ≤ i)
    (hn : i ≤ b.count + 1) (fuel : ℕ) (hfuel : b.count + 2 ≤ i + fuel) :
    ∃ i', b.whileBelow s key fuel i = some i' ∧ i ≤ i' ∧ i' ≤ b.count + 1 ∧
      (∀ k, i ≤ k → k < i' → ∃ w, b.first s k = some w ∧ w < key) ∧
        ∃ w, b.first s i' = some w ∧ ¬w < key := by
  induction fuel generalizing i with
  | zero => omega
  | succ fuel ih =>
      rw [whileBelow]
      by_cases hin : i ≤ b.count
      · obtain ⟨w, t, -, hw⟩ := h.first_eq s ⟨hi, hin⟩
        rw [hw]
        change ∃ i', (if w < key then _ else _) = some i' ∧ _
        split
        · rename_i hlt
          obtain ⟨i', hi', hle, hle', hbelow, hstop⟩ :=
            ih (Nat.le_succ_of_le hi) (Nat.succ_le_succ hin) (by omega)
          refine ⟨i', hi', Nat.le_of_succ_le hle, hle', fun k hk hk' => ?_, hstop⟩
          rcases Nat.eq_or_lt_of_le hk with rfl | hk
          · exact ⟨w, hw, hlt⟩
          · exact hbelow k hk hk'
        · rename_i hnot
          exact ⟨i, rfl, le_refl i, hn, fun k hk hk' => absurd hk (Nat.not_le_of_lt hk'), w, hw, hnot⟩
      · have heq : i = b.count + 1 := by omega
        subst heq
        have hnot : ¬MAX_ULONG < key := not_lt_of_ge (le_MAX_ULONG key)
        rw [Sortable.first_high]
        change ∃ i', (if MAX_ULONG < key then _ else _) = some i' ∧ _
        rw [if_neg hnot]
        exact ⟨_, rfl, le_refl _, le_refl _, fun k hk hk' => absurd hk (Nat.not_le_of_lt hk'), _,
          Sortable.first_high, hnot⟩

/-- A smaller first longword makes a smaller key. -/
theorem Sortable.value_le_of_first (h : b.Sortable width) (hi : b.InRange i) (hj : b.InRange j)
    {w w' : ULONG} (hw : b.first s i = some w) (hw' : b.first s j = some w') (hlt : w < w') :
    b.value s i ≤ b.value s j := by
  obtain ⟨x, t, hv, hx⟩ := h.first_eq s hi
  obtain ⟨x', t', hv', hx'⟩ := h.first_eq s hj
  rw [hw] at hx
  rw [hw'] at hx'
  cases hx
  cases hx'
  rw [hv, hv']
  exact le_of_lt (List.Lex.rel hlt)

/-- The first record above `*r`, or `high_key` -/
theorem whileNotAbove_eq (h : b.Sortable width) (s : Pointers) (hr : b.InRange r)
    (hi : 1 ≤ i) (hn : i ≤ b.count + 1) (fuel : ℕ) (hfuel : b.count + 2 ≤ i + fuel) :
    ∃ i', b.whileNotAbove s r fuel i = some i' ∧ i ≤ i' ∧ i' ≤ b.count + 1 ∧
      (∀ k, i ≤ k → k < i' → b.value s k ≤ b.value s r) ∧
        (i' ≤ b.count → b.value s r ≤ b.value s i') := by
  induction fuel generalizing i with
  | zero => omega
  | succ fuel ih =>
      rw [whileNotAbove]
      by_cases hin : i ≤ b.count
      · obtain ⟨o, ho, hlt, hgt, heq⟩ := h.compare_eq s ⟨hi, hin⟩ hr
        rw [ho]
        change ∃ i', (if o = .gt then _ else _) = some i' ∧ _
        split
        · rename_i habove
          exact ⟨i, rfl, le_refl i, hn, fun k hk hk' => absurd hk (Nat.not_le_of_lt hk'),
            fun _ => hgt habove⟩
        · rename_i hnot
          have hle : b.value s i ≤ b.value s r := by
            cases o with
            | lt => exact hlt rfl
            | eq => exact le_of_eq (heq rfl)
            | gt => exact absurd rfl hnot
          obtain ⟨i', hi', hle', hle'', hpassed, hstop⟩ :=
            ih (Nat.le_succ_of_le hi) (Nat.succ_le_succ hin) (by omega)
          refine ⟨i', hi', Nat.le_of_succ_le hle', hle'', fun k hk hk' => ?_, hstop⟩
          rcases Nat.eq_or_lt_of_le hk with rfl | hk
          · exact hle
          · exact hpassed k hk hk'
      · have heq : i = b.count + 1 := by omega
        subst heq
        rw [(h.compare_high s hr).1]
        exact ⟨_, rfl, le_refl _, le_refl _, fun k hk hk' => absurd hk (Nat.not_le_of_lt hk'),
          fun hle => absurd hle (Nat.not_succ_le_self _)⟩

/-- All records that `i` passes are not above `*r`, and it stops at one not below, or behind
the records. -/
theorem up_eq (h : b.Sortable width) (s : Pointers) (hr : b.InRange r) (hi : 1 ≤ i)
    (hn : i ≤ b.count + 1) :
    ∃ i', b.up s r i = some i' ∧ i ≤ i' ∧ i' ≤ b.count + 1 ∧
      (∀ k, i ≤ k → k < i' → b.value s k ≤ b.value s r) ∧
        (i' ≤ b.count → b.value s r ≤ b.value s i') := by
  obtain ⟨key, t, -, hkey⟩ := h.first_eq s hr
  obtain ⟨i₁, hi₁, hle₁, hn₁, hbelow, w, hw, hstop⟩ :=
    whileBelow_eq h s key hi hn (b.count + 2) (by omega)
  have hpassed : ∀ k, i ≤ k → k < i₁ → b.value s k ≤ b.value s r := by
    intro k hk hk'
    obtain ⟨w', hw', hlt⟩ := hbelow k hk hk'
    exact h.value_le_of_first ⟨by omega, by omega⟩ hr hw' hkey hlt
  simp only [up, hkey, hi₁, hw, Option.bind_eq_bind, Option.bind_some]
  split
  · obtain ⟨i₂, hi₂, hle₂, hn₂, hpassed', hstop'⟩ :=
      whileNotAbove_eq h s hr (by omega) hn₁ (b.count + 2) (by omega)
    refine ⟨i₂, hi₂, by omega, hn₂, fun k hk hk' => ?_, hstop'⟩
    by_cases hk₁ : k < i₁
    · exact hpassed k hk hk₁
    · exact hpassed' k (by omega) hk'
  · rename_i hne
    refine ⟨i₁, rfl, hle₁, hn₁, hpassed, fun hin => ?_⟩
    exact h.value_le_of_first hr ⟨by omega, hin⟩ hkey hw
      (lt_of_le_of_ne (not_lt.mp hstop) (Ne.symm hne))

/-- The first record from above that is not above a key -/
theorem whileAbove_eq (h : b.Sortable width) (s : Pointers) {key : ULONG}
    (hr : b.InRange r) (hkey : b.first s r = some key) (hj : r ≤ j) (hn : j ≤ b.count)
    (fuel : ℕ) (hfuel : j < r + fuel) :
    ∃ j', b.whileAbove s key fuel j = some j' ∧ r ≤ j' ∧ j' ≤ j ∧
      (∀ k, j' < k → k ≤ j → ∃ w, b.first s k = some w ∧ key < w) ∧
        ∃ w, b.first s j' = some w ∧ ¬key < w := by
  induction fuel generalizing j with
  | zero => omega
  | succ fuel ih =>
      obtain ⟨w, t, -, hw⟩ := h.first_eq s (i := j) ⟨hr.1.trans hj, hn⟩
      rw [whileAbove, hw]
      change ∃ j', (if key < w then _ else _) = some j' ∧ _
      split
      · rename_i hlt
        have hne : j ≠ r := by
          rintro rfl
          rw [hw] at hkey
          cases hkey
          exact lt_irrefl _ hlt
        obtain ⟨j', hj', hrj, hjj, habove, hstop⟩ := ih (j := j - 1) (by omega) (by omega) (by omega)
        refine ⟨j', hj', hrj, by omega, fun k hk hk' => ?_, hstop⟩
        by_cases hkj : k = j
        · exact ⟨w, hkj ▸ hw, hlt⟩
        · exact habove k hk (by omega)
      · rename_i hnot
        exact ⟨j, rfl, hj, le_refl j, fun k hk hk' => absurd hk (Nat.not_lt_of_le hk'), w, hw, hnot⟩

/-- The first record from above that is below `*r`, or this one -/
theorem whileNotBelow_eq (h : b.Sortable width) (s : Pointers) (hr : b.InRange r)
    (hj : r ≤ j) (hn : j ≤ b.count) (fuel : ℕ) (hfuel : j < r + fuel) :
    ∃ j', b.whileNotBelow s r fuel j = some j' ∧ r ≤ j' ∧ j' ≤ j ∧
      (∀ k, j' < k → k ≤ j → b.value s r ≤ b.value s k) ∧
        (j' ≠ r → b.value s j' ≤ b.value s r) := by
  induction fuel generalizing j with
  | zero => omega
  | succ fuel ih =>
      rw [whileNotBelow]
      by_cases hjr : j = r
      · rw [if_pos hjr]
        exact ⟨j, rfl, hj, le_refl j, fun k hk hk' => absurd hk (Nat.not_lt_of_le hk'),
          fun hne => absurd hjr hne⟩
      · obtain ⟨o, ho, hlt, hgt, heq⟩ := h.compare_eq s (i := j) ⟨hr.1.trans hj, hn⟩ hr
        rw [if_neg hjr, ho]
        change ∃ j', (if o = .lt then _ else _) = some j' ∧ _
        split
        · rename_i hbelow
          exact ⟨j, rfl, hj, le_refl j, fun k hk hk' => absurd hk (Nat.not_lt_of_le hk'),
            fun _ => hlt hbelow⟩
        · rename_i hnot
          have hle : b.value s r ≤ b.value s j := by
            cases o with
            | lt => exact absurd rfl hnot
            | eq => exact le_of_eq (heq rfl).symm
            | gt => exact hgt rfl
          obtain ⟨j', hj', hrj, hjj, hpassed, hstop⟩ :=
            ih (j := j - 1) (by omega) (by omega) (by omega)
          refine ⟨j', hj', hrj, by omega, fun k hk hk' => ?_, hstop⟩
          by_cases hkj : k = j
          · exact hkj ▸ hle
          · exact hpassed k hk (by omega)

/-- All records that `j` passes are not below `*r`, and it stops at one not above, or at `r`. -/
theorem down_eq (h : b.Sortable width) (s : Pointers) (hr : b.InRange r) (hj : r ≤ j)
    (hn : j ≤ b.count) :
    ∃ j', b.down s r j = some j' ∧ r ≤ j' ∧ j' ≤ j ∧
      (∀ k, j' < k → k ≤ j → b.value s r ≤ b.value s k) ∧
        (j' ≠ r → b.value s j' ≤ b.value s r) := by
  obtain ⟨key, t, -, hkey⟩ := h.first_eq s hr
  obtain ⟨j₁, hj₁, hrj₁, hle₁, habove, w, hw, hstop⟩ :=
    whileAbove_eq h s hr hkey hj hn (b.count + 2) (by omega)
  have hpassed : ∀ k, j₁ < k → k ≤ j → b.value s r ≤ b.value s k := by
    intro k hk hk'
    obtain ⟨w', hw', hlt⟩ := habove k hk hk'
    have := hr.1
    exact h.value_le_of_first hr ⟨by omega, by omega⟩ hkey hw' hlt
  simp only [down, hkey, hj₁, hw, Option.bind_eq_bind, Option.bind_some]
  split
  · obtain ⟨j₂, hj₂, hrj₂, hle₂, hpassed', hstop'⟩ :=
      whileNotBelow_eq h s hr hrj₁ (by omega) (b.count + 2) (by omega)
    refine ⟨j₂, hj₂, hrj₂, by omega, fun k hk hk' => ?_, hstop'⟩
    by_cases hk₁ : j₁ < k
    · exact hpassed k hk₁ hk'
    · exact hpassed' k hk (by omega)
  · rename_i hne
    refine ⟨j₁, rfl, hrj₁, hle₁, hpassed, fun hjr => ?_⟩
    have := hr.1
    exact h.value_le_of_first ⟨by omega, by omega⟩ hr hw hkey
      (lt_of_le_of_ne (not_lt.mp hstop) hne)

end Buffer

/-! ## Exchanging pointers -/

namespace Pointers

/-- The pointers from `lo` to `hi` are the same, but may be in another order. -/
def Rearranged (lo hi : ℕ) (s s' : Pointers) : Prop :=
  ∃ σ : Equiv.Perm ℕ, (∀ k, k < lo ∨ hi < k → σ k = k) ∧ ∀ k, s'.slot k = s.slot (σ k)

/-- The back pointers of the records lead to their pointers. -/
def Linked (n : ℕ) (s : Pointers) : Prop := ∀ k, 1 ≤ k → k ≤ n → s.back (s.slot k) = k

variable {s s' s'' : Pointers} {lo hi i j n : ℕ}

namespace Rearranged

theorem refl (lo hi : ℕ) (s : Pointers) : Rearranged lo hi s s :=
  ⟨Equiv.refl ℕ, fun _ _ => rfl, fun _ => rfl⟩

theorem trans (h : Rearranged lo hi s s') (h' : Rearranged lo hi s' s'') :
    Rearranged lo hi s s'' := by
  obtain ⟨σ, hfix, hslot⟩ := h
  obtain ⟨τ, hfix', hslot'⟩ := h'
  refine ⟨τ.trans σ, fun k hk => ?_, fun k => ?_⟩
  · rw [Equiv.trans_apply, hfix' k hk, hfix k hk]
  · rw [hslot', hslot, Equiv.trans_apply]

theorem mono {lo' hi' : ℕ} (h : Rearranged lo hi s s') (hlo : lo' ≤ lo) (hhi : hi ≤ hi') :
    Rearranged lo' hi' s s' := by
  obtain ⟨σ, hfix, hslot⟩ := h
  exact ⟨σ, fun k hk => hfix k (by omega), hslot⟩

theorem slot_eq (h : Rearranged lo hi s s') {k : ℕ} (hk : k < lo ∨ hi < k) :
    s'.slot k = s.slot k := by
  obtain ⟨σ, hfix, hslot⟩ := h
  rw [hslot, hfix k hk]

/-- What holds of all pointers in between still does. -/
theorem forall_mem (h : Rearranged lo hi s s') {P : ℕ → Prop}
    (hP : ∀ k, lo ≤ k → k ≤ hi → P (s.slot k)) : ∀ k, lo ≤ k → k ≤ hi → P (s'.slot k) := by
  obtain ⟨σ, hfix, hslot⟩ := h
  intro k hlo hhi
  rw [hslot]
  have hin : ¬(σ k < lo ∨ hi < σ k) := by
    intro hout
    have heq := σ.injective (hfix (σ k) hout)
    omega
  exact hP (σ k) (by omega) (by omega)

end Rearranged

theorem exchange_slot (s : Pointers) (i j k : ℕ) :
    (s.exchange i j).slot k = s.slot (Equiv.swap i j k) := by
  rw [exchange]
  dsimp only
  by_cases hj : k = j
  · subst hj
    rw [Function.update_self, Equiv.swap_apply_right]
  · rw [Function.update_of_ne hj]
    by_cases hi : k = i
    · subst hi
      rw [Function.update_self, Equiv.swap_apply_left]
    · rw [Function.update_of_ne hi, Equiv.swap_apply_of_ne_of_ne hi hj]

theorem exchange_slot_left (s : Pointers) (i j : ℕ) : (s.exchange i j).slot i = s.slot j := by
  rw [exchange_slot, Equiv.swap_apply_left]

theorem exchange_slot_right (s : Pointers) (i j : ℕ) : (s.exchange i j).slot j = s.slot i := by
  rw [exchange_slot, Equiv.swap_apply_right]

theorem exchange_slot_of_ne (s : Pointers) {k : ℕ} (hi : k ≠ i) (hj : k ≠ j) :
    (s.exchange i j).slot k = s.slot k := by
  rw [exchange_slot, Equiv.swap_apply_of_ne_of_ne hi hj]

theorem rearranged_exchange (hin : lo ≤ i ∧ i ≤ hi) (hjn : lo ≤ j ∧ j ≤ hi) :
    Rearranged lo hi s (s.exchange i j) :=
  ⟨Equiv.swap i j, fun k hk => Equiv.swap_apply_of_ne_of_ne (by omega) (by omega),
    s.exchange_slot i j⟩

theorem Linked.exchange (h : Linked n s) (hi : 1 ≤ i ∧ i ≤ n) (hj : 1 ≤ j ∧ j ≤ n) :
    Linked n (s.exchange i j) := by
  intro k hk hk'
  have hinj : ∀ {a c}, 1 ≤ a ∧ a ≤ n → 1 ≤ c ∧ c ≤ n → s.slot a = s.slot c → a = c := by
    intro a c ha hc heq
    rw [← h a ha.1 ha.2, ← h c hc.1 hc.2, heq]
  by_cases hkj : k = j
  · subst hkj
    rw [exchange_slot_right, Pointers.exchange]
    dsimp only
    by_cases heq : s.slot i = s.slot k
    · rw [heq, Function.update_self]
      exact hinj hi hj heq
    · rw [Function.update_of_ne heq, Function.update_self]
  · by_cases hki : k = i
    · subst hki
      rw [exchange_slot_left, Pointers.exchange]
      dsimp only
      rw [Function.update_self]
    · rw [exchange_slot_of_ne s hki hkj, Pointers.exchange]
      dsimp only
      rw [Function.update_of_ne fun heq => hkj (hinj ⟨hk, hk'⟩ hj heq),
        Function.update_of_ne fun heq => hki (hinj ⟨hk, hk'⟩ hi heq)]
      exact h k hk hk'

end Pointers

open Pointers (Rearranged Linked)

namespace Buffer

variable {b : Buffer} {s : Pointers} {width i j r u : ℕ}

/-! ## Partitions -/

/-- The records from `r + 1` to `j` are not above `*r`, those from `j + 1` to `u` not below. -/
theorem converge_eq (h : b.Sortable width) (hr : b.InRange r) (hu : u ≤ b.count) (fuel : ℕ)
    (hi : r < i) (hin : i ≤ b.count + 1) (hij : i ≤ j + 1) (hju : j ≤ u)
    (hlow : ∀ k, r < k → k < i → b.value s k ≤ b.value s r)
    (hhigh : ∀ k, j < k → k ≤ u → b.value s r ≤ b.value s k) (hfuel : b.count + 2 ≤ i + fuel) :
    ∃ s' j', b.converge r fuel s i j = some (s', j') ∧ r ≤ j' ∧ j' ≤ u ∧
      Rearranged (r + 1) u s s' ∧ (Linked b.count s → Linked b.count s') ∧
        (∀ k, r < k → k ≤ j' → b.value s' k ≤ b.value s' r) ∧
          ∀ k, j' < k → k ≤ u → b.value s' r ≤ b.value s' k := by
  induction fuel generalizing s i j with
  | zero => omega
  | succ fuel ih =>
      obtain ⟨i', hi', hii', hin', hpassed, hstop⟩ := up_eq h s hr (i := i) (by omega) hin
      obtain ⟨j', hj', hrj', hjj', hpassed', hstop'⟩ :=
        down_eq h s hr (j := j) (by omega) (by omega)
      simp only [converge, hi', hj', Option.bind_eq_bind, Option.bind_some]
      split
      · rename_i hji
        refine ⟨s, j', rfl, hrj', by omega, .refl _ _ s, id, fun k hk hk' => ?_, fun k hk hk' => ?_⟩
        · by_cases hki : k < i
          · exact hlow k hk hki
          · by_cases hki' : k < i'
            · exact hpassed k (by omega) hki'
            · have hkj : k = j' := by omega
              rw [hkj]
              exact hstop' (by omega)
        · by_cases hkj : j < k
          · exact hhigh k hkj hk'
          · exact hpassed' k hk (by omega)
      · rename_i hji
        rw [not_le] at hji
        have hr₁ := hr.1
        have hrest : ∀ k, k ≠ i' → k ≠ j' → b.value (s.exchange i' j') k = b.value s k := by
          intro k hk hk'
          rw [value, s.exchange_slot_of_ne hk hk', value]
        have hleft : b.value (s.exchange i' j') i' = b.value s j' := by
          rw [value, s.exchange_slot_left, value]
        have hright : b.value (s.exchange i' j') j' = b.value s i' := by
          rw [value, s.exchange_slot_right, value]
        have hvalue : b.value (s.exchange i' j') r = b.value s r :=
          hrest r (by omega) (by omega)
        have hlow' : ∀ k, r < k → k < i' + 1 →
            b.value (s.exchange i' j') k ≤ b.value (s.exchange i' j') r := by
          intro k hk hk'
          rw [hvalue]
          by_cases hki' : k = i'
          · rw [hki', hleft]
            exact hstop' (by omega)
          · rw [hrest k hki' (by omega)]
            by_cases hki : k < i
            · exact hlow k hk hki
            · exact hpassed k (by omega) (by omega)
        have hhigh' : ∀ k, j' - 1 < k → k ≤ u →
            b.value (s.exchange i' j') r ≤ b.value (s.exchange i' j') k := by
          intro k hk hk'
          rw [hvalue]
          by_cases hkj' : k = j'
          · rw [hkj', hright]
            exact hstop (by omega)
          · rw [hrest k (by omega) hkj']
            by_cases hkj : j < k
            · exact hhigh k hkj hk'
            · exact hpassed' k (by omega) (by omega)
        obtain ⟨s', j'', hconv, hrj'', hju'', hre, hlink, hsides⟩ :=
          ih (i := i' + 1) (j := j' - 1) (by omega) (by omega) (by omega) (by omega) hlow' hhigh'
            (by omega)
        refine ⟨s', j'', hconv, hrj'', hju'', ?_, fun hl => hlink ?_, hsides⟩
        · exact (Pointers.rearranged_exchange ⟨by omega, by omega⟩ ⟨by omega, by omega⟩).trans hre
        · exact hl.exchange ⟨by omega, by omega⟩ ⟨by omega, by omega⟩

/-- Any two records are in order that are not next to each other. -/
def NearlySorted (b : Buffer) (s : Pointers) (lo hi : ℕ) : Prop :=
  ∀ i k, lo ≤ i → i + 1 < k → k ≤ hi → b.value s i ≤ b.value s k

/-- The record at `j` is not below those before it and not above those behind it. -/
structure Partitioned (b : Buffer) (s : Pointers) (r j u : ℕ) : Prop where
  before : ∀ k, r ≤ k → k + 1 ≤ j → b.value s k ≤ b.value s j
  behind : ∀ k, j + 1 ≤ k → k ≤ u → b.value s j ≤ b.value s k

theorem value_eq_of_rearranged {s' : Pointers} {lo hi k : ℕ} (hre : Rearranged lo hi s s')
    (hk : k < lo ∨ hi < k) : b.value s' k = b.value s k := by
  rw [value, hre.slot_eq hk, value]

namespace Partitioned

variable {s' : Pointers}

theorem rearranged_before (h : b.Partitioned s r j u) (hj : 1 ≤ j)
    (hre : Rearranged r (j - 1) s s') : b.Partitioned s' r j u := by
  have hpivot : b.value s' j = b.value s j := value_eq_of_rearranged hre (by omega)
  refine ⟨fun k hk hk' => ?_, fun k hk hk' => ?_⟩
  · rw [hpivot]
    exact hre.forall_mem (P := fun x => b.data x ≤ b.value s j)
      (fun k hk hk' => h.before k hk (by omega)) k hk (by omega)
  · rw [hpivot, value_eq_of_rearranged hre (by omega)]
    exact h.behind k hk hk'

theorem rearranged_behind (h : b.Partitioned s r j u) (hre : Rearranged (j + 1) u s s') :
    b.Partitioned s' r j u := by
  have hpivot : b.value s' j = b.value s j := value_eq_of_rearranged hre (by omega)
  refine ⟨fun k hk hk' => ?_, fun k hk hk' => ?_⟩
  · rw [hpivot, value_eq_of_rearranged hre (by omega)]
    exact h.before k hk hk'
  · rw [hpivot]
    exact hre.forall_mem (P := fun x => b.value s j ≤ b.data x) h.behind k hk hk'

/-- Both sides done -/
theorem nearlySorted (h : b.Partitioned s r j u) (hbefore : b.NearlySorted s r (j - 1))
    (hbehind : b.NearlySorted s (j + 1) u) : b.NearlySorted s r u := by
  intro i k hi hik hk
  by_cases hij : i < j
  · by_cases hkj : k < j
    · exact hbefore i k hi hik (by omega)
    · have hpivot : b.value s j ≤ b.value s k := by
        rcases Nat.eq_or_lt_of_not_lt hkj with rfl | hjk
        · exact le_refl _
        · exact h.behind k hjk hk
      exact (h.before i hi hij).trans hpivot
  · rcases Nat.eq_or_lt_of_not_lt hij with rfl | hji
    · exact h.behind k (by omega) hk
    · exact hbehind i k hji hik hk

end Partitioned

theorem NearlySorted.rearranged_outside {s' : Pointers} {lo hi : ℕ}
    (h : b.NearlySorted s lo hi) (hre : Rearranged r u s s') (hout : hi < r ∨ u < lo) :
    b.NearlySorted s' lo hi := by
  intro i k hi' hik hk
  rw [value_eq_of_rearranged hre (by omega), value_eq_of_rearranged hre (by omega)]
  exact h i k hi' hik hk

/-! ## The stacked intervals -/

/-- One interval of three records or more is partitioned. -/
theorem partition_eq (h : b.Sortable width) (hr : 1 ≤ r) (hru : r < u) (hu : u ≤ b.count) :
    ∃ s₁ j, b.converge r (b.count + 2) (s.exchange r (r + (u - r) / 2)) (r + 1) u = some (s₁, j) ∧
      r ≤ j ∧ j ≤ u ∧ Rearranged r u s (s₁.exchange r j) ∧
        (Linked b.count s → Linked b.count (s₁.exchange r j)) ∧
          b.Partitioned (s₁.exchange r j) r j u := by
  obtain ⟨s₁, j, hconv, hrj, hju, hre, hlink, hbefore, hbehind⟩ :=
    converge_eq h (s := s.exchange r (r + (u - r) / 2)) (r := r) ⟨hr, by omega⟩ hu
      (b.count + 2) (i := r + 1) (j := u) (by omega) (by omega) (by omega) (le_refl u)
      (fun k hk hk' => absurd hk (by omega)) (fun k hk hk' => absurd hk (by omega)) (by omega)
  refine ⟨s₁, j, hconv, hrj, hju, ?_, fun hl => ?_, fun k hk hk' => ?_, fun k hk hk' => ?_⟩
  · have hmiddle : Rearranged r u s (s.exchange r (r + (u - r) / 2)) :=
      Pointers.rearranged_exchange ⟨le_refl r, by omega⟩ ⟨by omega, by omega⟩
    exact (hmiddle.trans (hre.mono (Nat.le_succ r) (le_refl u))).trans
      (Pointers.rearranged_exchange ⟨le_refl r, by omega⟩ ⟨hrj, hju⟩)
  · exact (hlink (hl.exchange ⟨hr, by omega⟩ ⟨by omega, by omega⟩)).exchange ⟨hr, by omega⟩
      ⟨by omega, by omega⟩
  · rw [value, value, s₁.exchange_slot_right]
    by_cases hkr : k = r
    · rw [hkr, s₁.exchange_slot_left]
      exact hbefore j (by omega) (le_refl j)
    · rw [s₁.exchange_slot_of_ne hkr (by omega)]
      exact hbefore k (by omega) (by omega)
  · rw [value, value, s₁.exchange_slot_right, s₁.exchange_slot_of_ne (by omega) (by omega)]
    exact hbehind k hk hk'

/-- An interval of `z` records is done in `2 * z + 1` steps at most, and takes no more room on
the stack than there is, as the shorter side comes first. -/
theorem quickLoop_eq (h : b.Sortable width) {z : ℕ} (stack : List (ℕ × ℕ))
    (hz : u + 1 = r + z) (hr : 1 ≤ r) (hu : u ≤ b.count) (hstack : z < 2 ^ (50 - stack.length)) :
    ∃ c s', c ≤ 2 * z + 1 ∧
      (∀ fuel, b.quickLoop (fuel + c) s ((r, u) :: stack) = b.quickLoop fuel s' stack) ∧
        Rearranged r u s s' ∧ (Linked b.count s → Linked b.count s') ∧
          b.NearlySorted s' r u := by
  induction z using Nat.strong_induction_on generalizing r u s stack with
  | _ z ih =>
      by_cases hshort : u - r < 2
      · refine ⟨1, s, by omega, fun fuel => ?_, .refl r u s, id, fun i k hi hik hk => ?_⟩
        · rw [quickLoop, if_pos hshort]
        · exact absurd hik (by omega)
      · obtain ⟨s₁, j, hconv, hrj, hju, hre, hlink, hpart⟩ :=
          partition_eq h (s := s) hr (u := u) (by omega) hu
        -- three records are in the interval, so two more fit on the stack
        have hdepth : stack.length + 2 ≤ 50 := by
          by_contra hfull
          have hpow : 2 ^ (50 - stack.length) ≤ 2 ^ 1 := Nat.pow_le_pow_right (by omega) (by omega)
          omega
        have hhalf : 2 ^ (50 - stack.length) = 2 * 2 ^ (50 - (stack.length + 1)) := by
          rw [← Nat.pow_succ']
          congr 1
          omega
        have hstep : ∀ fuel, b.quickLoop (fuel + 1) s ((r, u) :: stack) =
            if u - j + 1 < j - r then
              b.quickLoop fuel (s₁.exchange r j) ((j + 1, u) :: (r, j - 1) :: stack)
            else b.quickLoop fuel (s₁.exchange r j) ((r, j - 1) :: (j + 1, u) :: stack) := by
          intro fuel
          rw [quickLoop, if_neg hshort]
          simp only [hconv, Option.bind_eq_bind, Option.bind_some]
          rw [if_neg (Nat.not_lt.mpr hdepth)]
        by_cases hlonger : u - j + 1 < j - r
        · obtain ⟨c₂, s₂, hc₂, hloop₂, hre₂, hlink₂, hsort₂⟩ :=
            ih (u - j) (by omega) (r := j + 1) (u := u) (s := s₁.exchange r j)
              ((r, j - 1) :: stack) (by omega) (by omega) hu
              (by rw [List.length_cons]; omega)
          obtain ⟨c₃, s₃, hc₃, hloop₃, hre₃, hlink₃, hsort₃⟩ :=
            ih (j - r) (by omega) (r := r) (u := j - 1) (s := s₂) stack (by omega) hr
              (by omega) (by omega)
          have hpart₂ := hpart.rearranged_behind hre₂
          refine ⟨c₃ + c₂ + 1, s₃, by omega, fun fuel => ?_, ?_, fun hl => hlink₃ (hlink₂ (hlink hl)),
            (hpart₂.rearranged_before (by omega) hre₃).nearlySorted hsort₃
              (hsort₂.rearranged_outside hre₃ (by omega))⟩
          · rw [← Nat.add_assoc, hstep, if_pos hlonger, ← Nat.add_assoc, hloop₂, hloop₃]
          · exact (hre.trans (hre₂.mono (by omega) (le_refl u))).trans
              (hre₃.mono (le_refl r) (by omega))
        · obtain ⟨c₂, s₂, hc₂, hloop₂, hre₂, hlink₂, hsort₂⟩ :=
            ih (j - r) (by omega) (r := r) (u := j - 1) (s := s₁.exchange r j)
              ((j + 1, u) :: stack) (by omega) hr (by omega)
              (by rw [List.length_cons]; omega)
          obtain ⟨c₃, s₃, hc₃, hloop₃, hre₃, hlink₃, hsort₃⟩ :=
            ih (u - j) (by omega) (r := j + 1) (u := u) (s := s₂) stack (by omega)
              (by omega) hu (by omega)
          have hpart₂ := hpart.rearranged_before (by omega) hre₂
          refine ⟨c₃ + c₂ + 1, s₃, by omega, fun fuel => ?_, ?_, fun hl => hlink₃ (hlink₂ (hlink hl)),
            (hpart₂.rearranged_behind hre₃).nearlySorted
              (hsort₂.rearranged_outside hre₃ (by omega)) hsort₃⟩
          · rw [← Nat.add_assoc, hstep, if_neg hlonger, ← Nat.add_assoc, hloop₂, hloop₃]
          · exact (hre.trans (hre₂.mono (le_refl r) (by omega))).trans
              (hre₃.mono (by omega) (le_refl u))

theorem quick_eq (h : b.Sortable width) (hcount : b.count < 2 ^ 50) (s : Pointers) :
    ∃ s', b.quick s = some s' ∧ Rearranged 1 b.count s s' ∧
      (Linked b.count s → Linked b.count s') ∧ b.NearlySorted s' 1 b.count := by
  obtain ⟨c, s', hc, hloop, hrest⟩ :=
    quickLoop_eq h (s := s) (r := 1) (u := b.count) (z := b.count) [] (by omega)
      (le_refl 1) (le_refl _) hcount
  refine ⟨s', ?_, hrest⟩
  obtain ⟨fuel, hfuel⟩ := Nat.exists_eq_add_of_le' hc
  rw [quick, hfuel, hloop, quickLoop]

/-! ## The pairs -/

/-- The records from `lo` to `hi` are in order. -/
def Sorted (b : Buffer) (s : Pointers) (lo hi : ℕ) : Prop :=
  ∀ i k, lo ≤ i → i ≤ k → k ≤ hi → b.value s i ≤ b.value s k

theorem Sorted.snoc {lo : ℕ} (h : b.Sorted s lo i) (hnear : b.NearlySorted s lo (i + 1))
    (hpair : b.value s i ≤ b.value s (i + 1)) : b.Sorted s lo (i + 1) := by
  intro a c ha hac hc
  by_cases hci : c ≤ i
  · exact h a c ha hac hci
  · obtain rfl : c = i + 1 := by omega
    by_cases hai : a < i
    · exact hnear a (i + 1) ha (by omega) (le_refl _)
    · by_cases haeq : a = i
      · rw [haeq]
        exact hpair
      · rw [show a = i + 1 by omega]

section

variable {n : ℕ} (hnear : b.NearlySorted s 1 n) (hsorted : b.Sorted s 1 i) (hi : 1 ≤ i)
  (hin : i < n) (hpair : b.value s (i + 1) ≤ b.value s i)
include hnear hsorted hi hin hpair

theorem NearlySorted.exchange : b.NearlySorted (s.exchange i (i + 1)) 1 n := by
  intro a c ha hac hc
  have hleft : b.value (s.exchange i (i + 1)) i = b.value s (i + 1) := by
    rw [value, s.exchange_slot_left, value]
  have hright : b.value (s.exchange i (i + 1)) (i + 1) = b.value s i := by
    rw [value, s.exchange_slot_right, value]
  have hrest : ∀ k, k ≠ i → k ≠ i + 1 → b.value (s.exchange i (i + 1)) k = b.value s k := by
    intro k hk hk'
    rw [value, s.exchange_slot_of_ne hk hk', value]
  by_cases hai : a = i
  · rw [hai, hleft, hrest c (by omega) (by omega)]
    exact hpair.trans (hnear i c hi (by omega) hc)
  · by_cases hai' : a = i + 1
    · rw [hai', hright, hrest c (by omega) (by omega)]
      exact hnear i c hi (by omega) hc
    · rw [hrest a hai hai']
      by_cases hci : c = i
      · rw [hci, hleft]
        exact hnear a (i + 1) ha (by omega) (by omega)
      · by_cases hci' : c = i + 1
        · rw [hci', hright]
          exact hsorted a i ha (by omega) (le_refl i)
        · rw [hrest c hci hci']
          exact hnear a c ha hac hc

omit hi in
theorem Sorted.exchange : b.Sorted (s.exchange i (i + 1)) 1 (i + 1) := by
  intro a c ha hac hc
  have hleft : b.value (s.exchange i (i + 1)) i = b.value s (i + 1) := by
    rw [value, s.exchange_slot_left, value]
  have hright : b.value (s.exchange i (i + 1)) (i + 1) = b.value s i := by
    rw [value, s.exchange_slot_right, value]
  by_cases hci : c = i + 1
  · rw [hci, hright]
    by_cases hai : a = i
    · rw [hai, hleft]
      exact hpair
    · by_cases hai' : a = i + 1
      · rw [hai', hright]
      · rw [value, s.exchange_slot_of_ne hai hai', ← value]
        exact hsorted a i ha (by omega) (le_refl i)
  · by_cases hci' : c = i
    · rw [hci', hleft]
      by_cases hai : a = i
      · rw [hai, hleft]
      · rw [value, s.exchange_slot_of_ne hai (by omega), ← value]
        exact hnear a (i + 1) ha (by omega) (by omega)
    · rw [value, value, s.exchange_slot_of_ne (by omega) (by omega),
        s.exchange_slot_of_ne hci' hci, ← value, ← value]
      exact hsorted a c ha hac (by omega)

end

/-- A pair is in order, or is found not to be. -/
theorem pair_eq (h : b.Sortable width) (s : Pointers) (hi : 1 ≤ i) (hin : i < b.count) :
    ∃ p q o, b.first s i = some p ∧ b.first s (i + 1) = some q ∧ b.compare s i (i + 1) = some o ∧
      (q ≤ p → o = .gt → b.value s (i + 1) ≤ b.value s i) ∧
        (¬(q ≤ p ∧ o = .gt) → b.value s i ≤ b.value s (i + 1)) := by
  obtain ⟨p, t, -, hp⟩ := h.first_eq s (i := i) ⟨hi, by omega⟩
  obtain ⟨q, t', -, hq⟩ := h.first_eq s (i := i + 1) ⟨by omega, hin⟩
  obtain ⟨o, ho, hlt, hgt, heq⟩ :=
    h.compare_eq s (i := i) (j := i + 1) ⟨hi, by omega⟩ ⟨by omega, hin⟩
  refine ⟨p, q, o, hp, hq, ho, fun _ habove => hgt habove, fun hnot => ?_⟩
  by_cases hqp : q ≤ p
  · cases o with
    | lt => exact hlt rfl
    | eq => exact le_of_eq (heq rfl)
    | gt => exact absurd ⟨hqp, rfl⟩ hnot
  · exact h.value_le_of_first ⟨hi, by omega⟩ ⟨by omega, hin⟩ hp hq (not_le.mp hqp)

theorem pairs_eq (h : b.Sortable width) {n : ℕ} (hn : i + n = b.count + 1) (hi : 1 ≤ i)
    (hnear : b.NearlySorted s 1 b.count) (hsorted : b.Sorted s 1 (min i b.count)) :
    ∃ s', b.pairs n s i = some s' ∧ Rearranged 1 b.count s s' ∧
      (Linked b.count s → Linked b.count s') ∧ b.Sorted s' 1 b.count := by
  induction n generalizing s i with
  | zero =>
      refine ⟨s, rfl, .refl _ _ s, id, ?_⟩
      rw [show min i b.count = b.count by omega] at hsorted
      exact hsorted
  | succ n ih =>
      by_cases hin : i < b.count
      · rw [Nat.min_eq_left (by omega)] at hsorted
        obtain ⟨p, q, o, hp, hq, ho, habove, hbelow⟩ := pair_eq h s hi hin
        simp only [pairs, hp, hq, ho, Option.bind_eq_bind, Option.bind_some]
        by_cases hswap : q ≤ p ∧ o = .gt
        · obtain ⟨hqp, rfl⟩ := hswap
          have hpair := habove hqp rfl
          obtain ⟨s', hs', hre, hlink, hdone⟩ :=
            ih (s := s.exchange i (i + 1)) (i := i + 1) (by omega) (by omega)
              (hnear.exchange hsorted hi hin hpair) (by
                rw [Nat.min_eq_left (by omega)]
                exact Sorted.exchange hnear hsorted hin hpair)
          refine ⟨s', ?_, ?_, fun hl => hlink ?_, hdone⟩
          · rw [if_pos hqp, if_pos rfl]
            exact hs'
          · exact (Pointers.rearranged_exchange ⟨hi, by omega⟩ ⟨by omega, hin⟩).trans hre
          · exact hl.exchange ⟨hi, by omega⟩ ⟨by omega, hin⟩
        · have hnext : b.Sorted s 1 (min (i + 1) b.count) := by
            rw [Nat.min_eq_left (by omega)]
            exact hsorted.snoc (fun a c ha hac hc => hnear a c ha hac (by omega)) (hbelow hswap)
          obtain ⟨s', hs', hrest⟩ := ih (i := i + 1) (by omega) (by omega) hnear hnext
          refine ⟨s', ?_, hrest⟩
          by_cases hqp : q ≤ p
          · rw [if_pos hqp, if_neg fun hgt => hswap ⟨hqp, hgt⟩]
            exact hs'
          · rw [if_neg hqp]
            exact hs'
      · -- the last record and `high_key`
        have hlast : i = b.count := by omega
        obtain rfl : n = 0 := by omega
        obtain ⟨p, t, -, hp⟩ := h.first_eq s (i := i) ⟨hi, by omega⟩
        rw [Nat.min_eq_left (by omega), hlast] at hsorted
        refine ⟨s, ?_, .refl _ _ s, id, hsorted⟩
        subst hlast
        simp only [pairs, hp, Sortable.first_high, (h.compare_high s ⟨hi, le_refl _⟩).2,
          Option.bind_eq_bind, Option.bind_some]
        split
        · rfl
        · rfl

/-- `sort` puts the records in order. -/
theorem sort_eq (h : b.Sortable width) (hcount : b.count < 2 ^ 50) (s : Pointers) :
    ∃ s', b.sort s = some s' ∧ Rearranged 1 b.count s s' ∧
      (Linked b.count s → Linked b.count s') ∧ b.Sorted s' 1 b.count := by
  obtain ⟨s₁, hs₁, hre, hlink, hnear⟩ := quick_eq h hcount s
  have hfirst : b.Sorted s₁ 1 (min 1 b.count) := by
    intro a c ha hac hc
    rw [show a = c by omega]
  obtain ⟨s', hs', hre', hlink', hsorted⟩ :=
    pairs_eq h (n := b.count) (Nat.add_comm 1 _) (le_refl 1) hnear hfirst
  refine ⟨s', ?_, hre.trans hre', fun hl => hlink' (hlink hl), hsorted⟩
  rw [sort, hs₁]
  exact hs'

end Buffer

end Firebird.Sort
