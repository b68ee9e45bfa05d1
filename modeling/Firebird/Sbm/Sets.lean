import Mathlib.Tactic.Ring
import Firebird.Sbm.Bitmap

/-! # The set a bitmap stands for

The representation is kept by every function: no slot above the high water mark is used, and
none while the state is not `SBM_PLURAL`. With it the functions are those on sets of numbers.
-/

namespace Firebird.Bitmap

theorem exists_mem_some {β : Type} {p : β → Prop} {b : β} : (∃ c ∈ some b, p c) ↔ p b := by
  simp only [Option.mem_some_iff, exists_eq_left']

theorem not_exists_mem_none {β : Type} {p : β → Prop} : ¬ ∃ c ∈ (none : Option β), p c := by
  rintro ⟨c, hc, -⟩
  cases hc

/-- What a slot holds stands for a set of numbers below the width. -/
class LawfulChunk (α : Type) extends Chunk α where
  Mem : α → ℕ → Prop
  Ok : α → Prop
  width_pos : 0 < toChunk.width
  mem_lt : ∀ {c n}, Ok c → Mem c n → n < toChunk.width
  ok_blank : Ok toChunk.blank
  not_mem_blank : ∀ n, ¬ Mem toChunk.blank n
  test_iff : ∀ {c n}, Ok c → n < toChunk.width → (toChunk.test c n = true ↔ Mem c n)
  ok_clear : ∀ {c n}, Ok c → n < toChunk.width → Ok (toChunk.clear c n).2
  clear_iff : ∀ {c n}, Ok c → n < toChunk.width → ((toChunk.clear c n).1 = true ↔ Mem c n)
  mem_clear : ∀ {c n}, Ok c → n < toChunk.width → ∀ x,
    Mem (toChunk.clear c n).2 x ↔ Mem c x ∧ x ≠ n
  ok_set : ∀ {c n}, Ok c → n < toChunk.width → Ok (toChunk.set c n)
  mem_set : ∀ {c n}, Ok c → n < toChunk.width → ∀ x, Mem (toChunk.set c n) x ↔ Mem c x ∨ x = n
  ok_and : ∀ {c1 s2}, Ok c1 → (∀ c2 ∈ s2, Ok c2) →
    (∀ c ∈ (toChunk.and c1 s2).1, Ok c) ∧ ∀ c ∈ (toChunk.and c1 s2).2, Ok c
  mem_and : ∀ {c1 s2}, Ok c1 → (∀ c2 ∈ s2, Ok c2) → ∀ x,
    (∃ c ∈ (toChunk.and c1 s2).1, Mem c x) ↔ Mem c1 x ∧ ∃ c2 ∈ s2, Mem c2 x
  ok_or : ∀ {s1 c2}, (∀ c1 ∈ s1, Ok c1) → Ok c2 →
    (∀ c ∈ (toChunk.or s1 c2).1, Ok c) ∧ ∀ c ∈ (toChunk.or s1 c2).2, Ok c
  mem_or : ∀ {s1 c2}, (∀ c1 ∈ s1, Ok c1) → Ok c2 → ∀ x,
    (∃ c ∈ (toChunk.or s1 c2).1, Mem c x) ↔ (∃ c1 ∈ s1, Mem c1 x) ∨ Mem c2 x

namespace Sbm

variable {α : Type} [LawfulChunk α] {m m' : Sbm α} {n x slot cap : ℕ}

/-- A number is in the slot it belongs to. -/
def InSlots (segments : ℕ → Option α) (n : ℕ) : Prop :=
  ∃ c ∈ segments (n / Chunk.width α), LawfulChunk.Mem c (n % Chunk.width α)

/-- A bitmap stands for a set of numbers. -/
def Mem (m : Sbm α) (n : ℕ) : Prop :=
  match m.state with
  | .empty => False
  | .singular => n = m.number
  | .plural => InSlots m.segments n

/-- The representation of a bitmap with at most `cap` slots -/
structure Ok (cap : ℕ) (m : Sbm α) : Prop where
  above : ∀ i, m.highWater < i → m.segments i = none
  owned : m.state ≠ .plural → ∀ i, m.segments i = none
  highWater_lt : m.highWater < m.size
  count_eq : m.count = m.size
  size_le : m.size ≤ cap
  number_lt : m.number < cap * Chunk.width α
  ok : ∀ i, ∀ c ∈ m.segments i, LawfulChunk.Ok c

theorem mem_of_empty (h : m.state = .empty) (n : ℕ) : ¬ m.Mem n := by
  rw [Mem, h]
  exact not_false

theorem mem_of_singular (h : m.state = .singular) : m.Mem n ↔ n = m.number := by rw [Mem, h]

theorem mem_of_plural (h : m.state = .plural) : m.Mem n ↔ InSlots m.segments n := by rw [Mem, h]

theorem mod_width_lt (n : ℕ) : n % Chunk.width α < Chunk.width α :=
  Nat.mod_lt n LawfulChunk.width_pos

/-- Numbers of one slot are told apart by their position in it. -/
theorem eq_iff_mod_eq (hdiv : x / Chunk.width α = n / Chunk.width α) :
    x = n ↔ x % Chunk.width α = n % Chunk.width α := by
  constructor
  · rintro rfl
    rfl
  · intro hmod
    rw [← Nat.div_add_mod x (Chunk.width α), hdiv, hmod, Nat.div_add_mod]

/-- There are no numbers above the slots. -/
theorem Ok.mem_lt (h : m.Ok cap) (hn : m.Mem n) : n < cap * Chunk.width α := by
  cases hstate : m.state with
  | empty => exact absurd hn (mem_of_empty hstate n)
  | singular =>
      rw [mem_of_singular hstate] at hn
      rw [hn]
      exact h.number_lt
  | plural =>
      obtain ⟨c, hc, -⟩ := (mem_of_plural hstate).mp hn
      have hle : n / Chunk.width α ≤ m.highWater := by
        by_contra hlt
        rw [h.above _ (Nat.lt_of_not_le hlt)] at hc
        cases hc
      have hcap : n / Chunk.width α < cap := by
        have hhigh := h.highWater_lt
        have hsize := h.size_le
        omega
      exact (Nat.div_lt_iff_lt_mul LawfulChunk.width_pos).mp hcap

/-! ## `SBM_test` and `SBM_clear` -/

theorem test_iff (h : m.Ok cap) (n : ℕ) : m.test n = true ↔ m.Mem n := by
  rw [test, Mem]
  cases m.state with
  | empty => exact iff_of_false Bool.false_ne_true not_false
  | singular => exact decide_eq_true_iff
  | plural =>
      dsimp only
      split
      · rename_i hhigh
        refine iff_of_false Bool.false_ne_true ?_
        rintro ⟨c, hc, -⟩
        rw [h.above _ hhigh] at hc
        cases hc
      · cases hc : m.segments (n / Chunk.width α) with
        | none =>
            refine iff_of_false Bool.false_ne_true ?_
            rintro ⟨c, hc', -⟩
            rw [hc] at hc'
            cases hc'
        | some c =>
            rw [InSlots, hc, exists_mem_some]
            exact LawfulChunk.test_iff (h.ok _ c hc) (mod_width_lt n)

omit [LawfulChunk α] in
theorem segments_store (s : Option α) :
    (m.store slot s).segments = Function.update m.segments slot s := rfl

/-- Only the slots and the high water mark have changed. -/
structure SameVector (m m' : Sbm α) : Prop where
  number_eq : m'.number = m.number
  count_eq : m'.count = m.count
  size_eq : m'.size = m.size

theorem Ok.of_plural (h : m.Ok cap) (hsame : SameVector m m') (hstate : m'.state = .plural)
    (habove : ∀ i, m'.highWater < i → m'.segments i = none) (hlt : m'.highWater < m.size)
    (hok : ∀ i, ∀ c ∈ m'.segments i, LawfulChunk.Ok c) : m'.Ok cap where
  above := habove
  owned hne := absurd hstate hne
  highWater_lt := by rwa [hsame.size_eq]
  count_eq := by rw [hsame.count_eq, hsame.size_eq, h.count_eq]
  size_le := by
    rw [hsame.size_eq]
    exact h.size_le
  number_lt := by
    rw [hsame.number_eq]
    exact h.number_lt
  ok := hok

/-- A slot below the high water mark is changed. -/
theorem Ok.store (h : m.Ok cap) (hstate : m.state = .plural) (hslot : slot ≤ m.highWater)
    {s : Option α} (hs : ∀ c ∈ s, LawfulChunk.Ok c) : (m.store slot s).Ok cap := by
  refine h.of_plural ⟨rfl, rfl, rfl⟩ hstate (fun i hi => ?_) h.highWater_lt fun i c hc => ?_
  · have hne : i ≠ slot := (Nat.lt_of_le_of_lt hslot hi).ne'
    rw [segments_store, Function.update_of_ne hne]
    exact h.above i hi
  · rw [segments_store] at hc
    by_cases hi : i = slot
    · rw [hi, Function.update_self] at hc
      exact hs c hc
    · rw [Function.update_of_ne hi] at hc
      exact h.ok i c hc

/-- What is in the slots after a change of one slot -/
theorem inSlots_update {segments : ℕ → Option α} {s : Option α} :
    InSlots (Function.update segments slot s) x ↔
      if x / Chunk.width α = slot then ∃ c ∈ s, LawfulChunk.Mem c (x % Chunk.width α)
      else InSlots segments x := by
  rw [InSlots]
  split
  · rename_i heq
    rw [heq, Function.update_self]
  · rename_i hne
    rw [Function.update_of_ne hne]
    rfl

/-- A number is put into its slot. -/
theorem inSlots_update_or {segments : ℕ → Option α} {c : α}
    (hc : ∀ y, LawfulChunk.Mem c y ↔ (∃ c' ∈ segments (n / Chunk.width α), LawfulChunk.Mem c' y) ∨
      y = n % Chunk.width α) :
    InSlots (Function.update segments (n / Chunk.width α) (some c)) x ↔
      InSlots segments x ∨ x = n := by
  rw [inSlots_update]
  split
  · rename_i heq
    simp only [exists_mem_some, hc, InSlots, heq, eq_iff_mod_eq heq]
  · rename_i hne
    refine (or_iff_left ?_).symm
    rintro rfl
    exact hne rfl

/-- A number is taken out of its slot. -/
theorem inSlots_update_and {segments : ℕ → Option α} {c c' : α}
    (hsome : segments (n / Chunk.width α) = some c)
    (hc : ∀ y, LawfulChunk.Mem c' y ↔ LawfulChunk.Mem c y ∧ y ≠ n % Chunk.width α) :
    InSlots (Function.update segments (n / Chunk.width α) (some c')) x ↔
      InSlots segments x ∧ x ≠ n := by
  rw [inSlots_update]
  split
  · rename_i heq
    simp only [exists_mem_some, hc, InSlots, heq, hsome, ne_eq, eq_iff_mod_eq heq]
  · rename_i hne
    refine (and_iff_left ?_).symm
    rintro rfl
    exact hne rfl

/-- What `SBM_clear` leaves -/
theorem clear_spec (h : m.Ok cap) (n : ℕ) :
    (m.clear n).2.Ok cap ∧ ((m.clear n).1 = true ↔ m.Mem n) ∧
      ∀ x, (m.clear n).2.Mem x ↔ m.Mem x ∧ x ≠ n := by
  rw [clear]
  cases hstate : m.state with
  | empty =>
      refine ⟨h, iff_of_false Bool.false_ne_true (mem_of_empty hstate n), fun x => ?_⟩
      exact iff_of_false (mem_of_empty hstate x) fun hx => mem_of_empty hstate x hx.1
  | singular =>
      dsimp only
      have hone := fun x => mem_of_singular (n := x) hstate
      split
      · rename_i heq
        refine ⟨{ h with owned := fun _ => h.owned (by rw [hstate]; decide) }, ?_, fun x => ?_⟩
        · exact iff_of_true rfl ((hone n).mpr heq)
        · refine iff_of_false (mem_of_empty rfl x) fun hx => hx.2 ?_
          rw [heq, ← (hone x)]
          exact hx.1
      · rename_i hne
        refine ⟨h, iff_of_false Bool.false_ne_true fun hn => hne ((hone n).mp hn), fun x => ?_⟩
        refine (and_iff_left_of_imp fun hx => ?_).symm
        rintro rfl
        exact hne ((hone x).mp hx)
  | plural =>
      dsimp only
      have hin := fun x => mem_of_plural (n := x) hstate
      have hnone : m.segments (n / Chunk.width α) = none → ¬ m.Mem n := by
        rintro hnone hn
        obtain ⟨c, hc, -⟩ := (hin n).mp hn
        rw [hnone] at hc
        cases hc
      -- nothing changes if the number is not there
      have hsame : ¬ m.Mem n → m.Ok cap ∧ (false = true ↔ m.Mem n) ∧
          ∀ x, m.Mem x ↔ m.Mem x ∧ x ≠ n := by
        refine fun hn => ⟨h, iff_of_false Bool.false_ne_true hn, fun x => ?_⟩
        refine (and_iff_left_of_imp fun hx => ?_).symm
        rintro rfl
        exact hn hx
      split
      · rename_i hhigh
        exact hsame (hnone (h.above _ hhigh))
      · rename_i hhigh
        split
        · rename_i hslot
          exact hsame (hnone hslot)
        · rename_i c hslot
          have hc := h.ok _ c hslot
          have hwidth := mod_width_lt (α := α) n
          refine ⟨h.store hstate (Nat.le_of_not_lt hhigh) fun c' hc' => ?_, ?_, fun x => ?_⟩
          · cases hc'
            exact LawfulChunk.ok_clear hc hwidth
          · refine (LawfulChunk.clear_iff hc hwidth).trans ?_
            rw [hin, InSlots, hslot, exists_mem_some]
          · rw [hin, mem_of_plural (m := m.store _ _) hstate, segments_store]
            exact inSlots_update_and hslot (LawfulChunk.mem_clear hc hwidth)

omit [LawfulChunk α] in
theorem size_clear [Chunk α] (m : Sbm α) (n : ℕ) : (m.clear n).2.size = m.size := by
  rw [clear]
  split
  · rfl
  · split <;> rfl
  · dsimp only
    split
    · rfl
    · split <;> rfl

/-! ## `SBM_set` -/

/-- A slot that is used is not above the high water mark. -/
theorem Ok.le_highWater (h : m.Ok cap) {c : α} (hc : m.segments slot = some c) :
    slot ≤ m.highWater := by
  by_contra hlt
  rw [h.above _ (Nat.lt_of_not_le hlt)] at hc
  cases hc

theorem put_eq (h : m.Ok cap) (n : ℕ) :
    m.put n =
      { m with
        highWater := max m.highWater (n / Chunk.width α)
        segments := Function.update m.segments (n / Chunk.width α) (some (Chunk.set
          ((m.segments (n / Chunk.width α)).getD Chunk.blank) (n % Chunk.width α))) } := by
  rw [put]
  cases hc : m.segments (n / Chunk.width α) with
  | some c =>
      simp only [store, Option.getD_some, max_eq_left (h.le_highWater hc)]
  | none =>
      simp only [store, Option.getD_none]
      congr 1
      split
      · rename_i hlt
        exact (max_eq_right hlt.le).symm
      · rename_i hge
        exact (max_eq_left (Nat.le_of_not_lt hge)).symm

/-- The bit is set in a slot of the vector. -/
theorem put_spec (h : m.Ok cap) (hslot : n / Chunk.width α < m.size) :
    ({ m.put n with state := .plural } : Sbm α).Ok cap ∧
      ∀ x, ({ m.put n with state := .plural } : Sbm α).Mem x ↔ InSlots m.segments x ∨ x = n := by
  have hwidth := mod_width_lt (α := α) n
  have hok : LawfulChunk.Ok ((m.segments (n / Chunk.width α)).getD Chunk.blank) := by
    cases hc : m.segments (n / Chunk.width α) with
    | some c => exact h.ok _ c hc
    | none => exact LawfulChunk.ok_blank
  have hmem : ∀ y, LawfulChunk.Mem ((m.segments (n / Chunk.width α)).getD Chunk.blank) y ↔
      ∃ c ∈ m.segments (n / Chunk.width α), LawfulChunk.Mem c y := by
    intro y
    cases m.segments (n / Chunk.width α) with
    | some c => rw [Option.getD_some, exists_mem_some]
    | none => exact iff_of_false (LawfulChunk.not_mem_blank y) not_exists_mem_none
  rw [put_eq h]
  constructor
  · refine h.of_plural ⟨rfl, rfl, rfl⟩ rfl (fun i hi => ?_) (max_lt h.highWater_lt hslot) fun i c hc => ?_
    · dsimp only at hi ⊢
      rw [Function.update_of_ne ((le_max_right _ _).trans_lt hi).ne']
      exact h.above i ((le_max_left _ _).trans_lt hi)
    · dsimp only at hc
      by_cases hi : i = n / Chunk.width α
      · rw [hi, Function.update_self] at hc
        cases hc
        exact LawfulChunk.ok_set hok hwidth
      · rw [Function.update_of_ne hi] at hc
        exact h.ok i c hc
  · intro x
    rw [mem_of_plural rfl]
    refine inSlots_update_or fun y => ?_
    rw [LawfulChunk.mem_set hok hwidth, hmem]

omit [LawfulChunk α] in
theorem state_put [Chunk α] (m : Sbm α) (n : ℕ) : (m.put n).state = m.state := by
  rw [put]
  split <;> rfl

omit [LawfulChunk α] in
theorem number_put [Chunk α] (m : Sbm α) (n : ℕ) : (m.put n).number = m.number := by
  rw [put]
  split <;> rfl

omit [LawfulChunk α] in
theorem size_put [Chunk α] (m : Sbm α) (n : ℕ) : (m.put n).size = m.size := by
  rw [put]
  split <;> rfl

/-- The bit is set where bits are set already. -/
theorem put_spec_of_plural (h : m.Ok cap) (hstate : m.state = .plural)
    (hslot : n / Chunk.width α < m.size) :
    (m.put n).Ok cap ∧ ∀ x, (m.put n).Mem x ↔ m.Mem x ∨ x = n := by
  have hput := put_spec h hslot
  have heq : ({ m.put n with state := .plural } : Sbm α) = m.put n := by
    rw [← hstate, ← state_put m n]
  rw [heq] at hput
  refine ⟨hput.1, fun x => ?_⟩
  rw [hput.2, mem_of_plural hstate]

theorem Ok.singular (h : m.Ok cap) (hstate : m.state ≠ .plural) (hn : n < cap * Chunk.width α) :
    ({ m with state := .singular, number := n } : Sbm α).Ok cap :=
  { h with owned := fun _ => h.owned hstate, number_lt := hn }

theorem not_inSlots (h : m.Ok cap) (hstate : m.state ≠ .plural) (x : ℕ) :
    ¬ InSlots m.segments x := by
  rintro ⟨c, hc, -⟩
  rw [h.owned hstate] at hc
  cases hc

/-- What `SBM_set` leaves of a bucket, in whose vector there is a slot for every number -/
theorem set_spec (h : m.Ok cap) (hsize : m.size = cap) (hn : n < cap * Chunk.width α) :
    (m.set n).Ok cap ∧ (m.set n).size = cap ∧ ∀ x, (m.set n).Mem x ↔ m.Mem x ∨ x = n := by
  have hslot : ∀ k, k < cap * Chunk.width α → k / Chunk.width α < m.size := by
    intro k hk
    rw [hsize]
    exact (Nat.div_lt_iff_lt_mul LawfulChunk.width_pos).mpr hk
  rw [set]
  cases hstate : m.state with
  | empty =>
      refine ⟨h.singular (by rw [hstate]; decide) hn, hsize, fun x => ?_⟩
      rw [mem_of_singular rfl]
      exact (or_iff_right (mem_of_empty hstate x)).symm
  | plural =>
      have hput := put_spec_of_plural h hstate (hslot n hn)
      exact ⟨hput.1, (size_put m n).trans hsize, hput.2⟩
  | singular =>
      have hfirst := put_spec h (hslot n hn)
      have hsize' : m.number / Chunk.width α <
          ({ m.put n with state := .plural } : Sbm α).size := by
        rw [size_put]
        exact hslot _ h.number_lt
      have hsecond := put_spec_of_plural hfirst.1 rfl hsize'
      refine ⟨hsecond.1, ?_, fun x => ?_⟩
      · rw [size_put, size_put]
        exact hsize
      · rw [hsecond.2, hfirst.2, mem_of_singular hstate,
          or_iff_right (not_inSlots h (by rw [hstate]; decide) x), or_comm]

end Sbm

end Firebird.Bitmap
