import Firebird.Sbm.Next

/-! # When `SBM_next` is right

Forward, the next number is missed if it is alone in a bucket, unless it is the first one of the
bucket. Backward, the number before is missed if it is alone in its bucket, and every number is if
the search begins above the high water mark.
-/

namespace Firebird.Bitmap

open Search (First Last)

/-- The numbers of a set that are ahead of `n`; backward `-1` is the end. -/
def Ahead (S : ℕ → Prop) (mode : Mode) (n : ℤ) : Set ℕ :=
  match mode with
  | .forward => {y | S y ∧ n < y}
  | .backward => {y | S y ∧ (n = -1 ∨ (y : ℤ) < n)}

/-- What `SBM_next` should find -/
def Right (S : ℕ → Prop) (mode : Mode) (n : ℤ) (o : Option ℕ) : Prop :=
  match mode, o with
  | mode, none => Ahead S mode n = ∅
  | .forward, some x => IsLeast (Ahead S .forward n) x
  | .backward, some x => IsGreatest (Ahead S .backward n) x

/-- The number is in a bucket that is `SBM_SINGULAR`. -/
def Alone (m : Root) (x : ℕ) : Prop :=
  ∃ b ∈ m.segments (x / 32768), b.state = .singular ∧ b.number = x % 32768

/-- The numbers that are missed -/
def Root.Missed (mode : Mode) (m : Root) (n : ℤ) : Prop :=
  m.state = .plural ∧
    match mode with
    | .forward => Alone m (n + 1).toNat ∧ (n + 1) % 32768 ≠ 0
    | .backward => 0 < n ∧
        (Alone m (n - 1).toNat ∨ (m.highWater : ℤ) < (n - 1) / 32768 ∧ ∃ x, Sbm.Mem m x)

variable {S : ℕ → Prop} {n : ℤ} {o : Option ℕ} {m : Root} {bound : ℕ}

theorem right_forward_iff (hS : ∀ y, S y → y < bound) (hn : -1 ≤ n) :
    Right S .forward n o ↔ First S (n + 1).toNat bound o := by
  have hahead : ∀ y, y ∈ Ahead S .forward n ↔ S y ∧ (n + 1).toNat ≤ y := by
    intro y
    refine and_congr_right fun _ => ?_
    omega
  cases o with
  | none =>
      rw [Right, Set.eq_empty_iff_forall_notMem]
      constructor
      · exact fun h y hy _ hmem => h y ((hahead y).mpr ⟨hmem, hy⟩)
      · intro h y hy
        obtain ⟨hmem, hle⟩ := (hahead y).mp hy
        exact h y hle (hS y hmem) hmem
  | some x =>
      constructor
      · rintro ⟨hx, hleast⟩
        obtain ⟨hmem, hle⟩ := (hahead x).mp hx
        refine ⟨hmem, hle, hS x hmem, fun y hy hlt hmem' => ?_⟩
        exact absurd (hleast ((hahead y).mpr ⟨hmem', hy⟩)) (Nat.not_le_of_lt hlt)
      · rintro ⟨hmem, hle, -, hno⟩
        refine ⟨(hahead x).mpr ⟨hmem, hle⟩, fun y hy => ?_⟩
        obtain ⟨hmem', hle'⟩ := (hahead y).mp hy
        by_contra hlt
        exact hno y hle' (Nat.lt_of_not_le hlt) hmem'

/-- Where a search backward from `n` ends -/
def upto (bound : ℕ) (n : ℤ) : ℕ := if n = -1 then bound else n.toNat

theorem right_backward_iff (hS : ∀ y, S y → y < bound) (hn : -1 ≤ n) :
    Right S .backward n o ↔ Last S 0 (upto bound n) o := by
  have hahead : ∀ y, y ∈ Ahead S .backward n ↔ S y ∧ y < upto bound n := by
    intro y
    refine and_congr_right fun hy => ?_
    have hlt := hS y hy
    rw [upto]
    split <;> omega
  cases o with
  | none =>
      rw [Right, Set.eq_empty_iff_forall_notMem]
      constructor
      · exact fun h y _ hy hmem => h y ((hahead y).mpr ⟨hmem, hy⟩)
      · intro h y hy
        obtain ⟨hmem, hlt⟩ := (hahead y).mp hy
        exact h y (Nat.zero_le y) hlt hmem
  | some x =>
      constructor
      · rintro ⟨hx, hgreatest⟩
        obtain ⟨hmem, hlt⟩ := (hahead x).mp hx
        refine ⟨hmem, Nat.zero_le x, hlt, fun y hxy hy hmem' => ?_⟩
        exact absurd (hgreatest ((hahead y).mpr ⟨hmem', hy⟩)) (Nat.not_le_of_lt hxy)
      · rintro ⟨hmem, -, hlt, hno⟩
        refine ⟨(hahead x).mpr ⟨hmem, hlt⟩, fun y hy => ?_⟩
        obtain ⟨hmem', hlt'⟩ := (hahead y).mp hy
        by_contra hxy
        exact hno y (Nat.lt_of_not_le hxy) hlt' hmem'

theorem Root.Ok.mem_lt (h : m.Ok) {y : ℕ} (hy : Sbm.Mem m y) : y < 2 ^ 31 := h.sbm.mem_lt hy

/-- A number of a bucket that is `SBM_SINGULAR` is alone. -/
theorem mem_iff_alone (hstate : m.state = .plural) {x : ℕ} {b : Bucket}
    (hb : m.segments (x / 32768) = some b) (hone : b.state = .singular) :
    Sbm.Mem m x ↔ Alone m x := by
  rw [Sbm.mem_of_plural hstate]
  change (∃ c ∈ m.segments (x / 32768), Sbm.Mem c (x % 32768)) ↔ _
  rw [Alone, hb, exists_mem_some, exists_mem_some, Sbm.mem_of_singular hone, eq_comm,
    and_iff_right hone]

theorem not_alone {x : ℕ} (hb : ∀ b ∈ m.segments (x / 32768), b.state ≠ .singular) :
    ¬ Alone m x := by
  rintro ⟨b, hmem, hone, -⟩
  exact hb b hmem hone

/-- The search forward in a bitmap that is `SBM_PLURAL`, from a number on -/
theorem Root.next_forward (h : m.Ok) (hstate : m.state = .plural) {x : ℕ} (hx : x < 2 ^ 31) :
    Root.Same m (Root.next .forward m ((x : ℤ) - 1)).2 ∧
      (First (Sbm.Mem m) x (2 ^ 31) (Root.next .forward m ((x : ℤ) - 1)).1 ↔
        ¬ (Alone m x ∧ x % 32768 ≠ 0)) := by
  have hnumber : ((x : ℤ) - 1 + 1).bmod (2 ^ 32) = x := by
    rw [Int.sub_add_cancel, Int.bmod_eq_of_le (by omega) (by omega)]
  have hslot : (x : ℤ) / 32768 = (x / 32768 : ℕ) := by omega
  have hpos : ¬ (Mode.forward = Mode.backward ∧ (x : ℤ) - 1 = 0) := by simp
  have hne : ¬ (x : ℤ) = -1 := by omega
  rw [Root.next, hstate]
  simp only [hnumber, hslot, if_neg hpos, if_neg hne, true_and]
  have hrelative : (if (x : ℤ) % 32768 = 0 then (-1 : ℤ) else (x : ℤ) % 32768) =
      if x % 32768 = 0 then -1 else ((x % 32768 : ℕ) : ℤ) := by split <;> split <;> omega
  rw [hrelative]
  have hlt : x % 32768 < 32768 := Nat.mod_lt x (by decide)
  have hrange : Relative (if x % 32768 = 0 then -1 else ((x % 32768 : ℕ) : ℤ)) := by
    rw [Relative]
    split <;> omega
  have hwalk := fun start hstart hb => Root.walk_forward (x / 32768) start h hstate
    (Nat.le_add_left (m.highWater + 2) _) hrange of_decide_eq_true hstart hb
  by_cases hone : (∃ b ∈ m.segments (x / 32768), b.state = .singular) ∧ x % 32768 ≠ 0
  · -- the bucket looks behind the number
    obtain ⟨⟨b, hb, hsingular⟩, hzero⟩ := hone
    obtain ⟨hsame, hfirst⟩ := hwalk (x % 32768 + 1) hlt fun b' hb' => by
      rw [hb] at hb'
      cases hb'
      rw [Bucket.start, if_neg hzero, if_neg (by omega), if_pos hsingular, Int.toNat_natCast]
    rw [← Nat.add_assoc, Nat.div_add_mod] at hfirst
    refine ⟨hsame, (hfirst.iff_not hx).trans ?_⟩
    rw [mem_iff_alone hstate hb hsingular, and_iff_left hzero]
  · obtain ⟨hsame, hfirst⟩ := hwalk (x % 32768) hlt.le fun b hb => by
      rw [Bucket.start]
      by_cases hzero : x % 32768 = 0
      · rw [if_pos hzero, if_pos rfl, hzero]
      · rw [if_neg hzero, if_neg (by omega), if_neg fun hs => hone ⟨⟨b, hb, hs⟩, hzero⟩,
          Int.toNat_natCast]
    rw [Nat.div_add_mod] at hfirst
    refine ⟨hsame, iff_of_true hfirst ?_⟩
    rintro ⟨⟨b, hb, hs, -⟩, hzero⟩
    exact hone ⟨⟨b, hb, hs⟩, hzero⟩

/-- The search backward in a bitmap that is `SBM_PLURAL`, from the number before -/
theorem Root.next_backward (h : m.Ok) (hstate : m.state = .plural) {x : ℕ} :
    Root.Same m (Root.next .backward m ((x : ℤ) + 1)).2 ∧
      (Last (Sbm.Mem m) 0 (x + 1) (Root.next .backward m ((x : ℤ) + 1)).1 ↔
        ¬ (Alone m x ∨ m.highWater < x / 32768 ∧ ∃ y, Sbm.Mem m y)) := by
  have hslot : (x : ℤ) / 32768 = (x / 32768 : ℕ) := by omega
  have hrelative : (x : ℤ) % 32768 = (x % 32768 : ℕ) := by omega
  have hlt : x % 32768 < 32768 := Nat.mod_lt x (by decide)
  have hrange : Relative ((x % 32768 : ℕ) : ℤ) := ⟨by omega, by omega⟩
  rw [Root.next, hstate]
  simp only [if_neg (show ¬ (x : ℤ) + 1 = 0 by omega), if_pos (show 0 < (x : ℤ) + 1 by omega),
    Int.add_sub_cancel, hslot, hrelative, true_and, reduceCtorEq, false_and, if_false]
  rcases Nat.lt_or_ge m.highWater (x / 32768) with hhigh | hhigh
  · -- the search ends at once
    rw [Root.walk_of_lt _ (by omega)]
    refine ⟨.refl h, ?_⟩
    have halone : ¬ Alone m x := not_alone fun b hb => by
      rw [h.sbm.above _ hhigh] at hb
      cases hb
    rw [or_iff_right halone, and_iff_right hhigh, not_exists]
    refine ⟨fun hlast y hy => hlast y (Nat.zero_le y) ?_ hy, fun hnone y _ _ => hnone y⟩
    by_contra hge
    refine h.sbm.not_mem_above hstate ?_ hy
    change 32768 * (m.highWater + 1) ≤ y
    omega
  have hnot : ¬ (m.highWater < x / 32768 ∧ ∃ y, Sbm.Mem m y) :=
    fun hboth => absurd hboth.1 (Nat.not_lt_of_le hhigh)
  rw [or_iff_left hnot]
  have hwalk := fun stop hstop hb => Root.walk_backward stop (decide (((x % 32768 : ℕ) : ℤ) = -1)) h
    hstate hhigh (show x / 32768 < m.highWater + 2 by omega) hrange hstop hb
  by_cases hone : ∃ b ∈ m.segments (x / 32768), b.state = .singular
  · obtain ⟨b, hb, hsingular⟩ := hone
    obtain ⟨hsame, hlast⟩ := hwalk (x % 32768) hlt.le fun b' hb' => by
      rw [hb] at hb'
      cases hb'
      rw [Bucket.stop, if_neg (by omega), if_pos hsingular, Int.toNat_natCast]
    rw [Nat.div_add_mod] at hlast
    refine ⟨hsame, hlast.iff_not.trans ?_⟩
    rw [mem_iff_alone hstate hb hsingular]
  · obtain ⟨hsame, hlast⟩ := hwalk (x % 32768 + 1) hlt fun b hb => by
      rw [Bucket.stop, if_neg (by omega), if_neg fun hs => hone ⟨b, hb, hs⟩, Int.toNat_natCast]
    rw [← Nat.add_assoc, Nat.div_add_mod] at hlast
    exact ⟨hsame, iff_of_true hlast (not_alone fun b hb hs => hone ⟨b, hb, hs⟩)⟩

/-- The search for the last number -/
theorem Root.next_last (h : m.Ok) (hstate : m.state = .plural) :
    Root.Same m (Root.next .backward m (-1)).2 ∧
      Last (Sbm.Mem m) 0 (2 ^ 31) (Root.next .backward m (-1)).1 := by
  rw [Root.next, hstate]
  have hwalk := Root.walk_backward 32768 true h hstate le_rfl
    (show m.highWater < m.highWater + 2 by omega) ⟨le_rfl, by decide⟩ le_rfl fun b _ => if_pos rfl
  have hcap := h.sbm.highWater_lt.trans h.size_lt
  refine ⟨hwalk.1, hwalk.2.widen (fun y hy => h.sbm.not_mem_above hstate hy) (by omega)⟩

theorem Root.next_of_empty (hstate : m.state = .empty) (mode : Mode) (n : ℤ) :
    Root.next mode m n = (none, m) := by
  cases mode <;> rw [Root.next, hstate]

theorem Root.next_of_singular (hstate : m.state = .singular) (mode : Mode) (n : ℤ) :
    Root.next mode m n = (nextSingular mode m.number n, m) := by
  cases mode <;> rw [Root.next, hstate]

/-- Forward from the largest number the search ends at once. -/
theorem Root.next_overflow (hstate : m.state = .plural) :
    Root.next .forward m (2 ^ 31 - 1) = (none, m) := by
  rw [Root.next, hstate]
  exact Root.walk_of_neg _ (by decide) _ _ _

/-- `SBM_next` keeps the set, and is right unless numbers are missed. -/
theorem Root.next_spec (h : m.Ok) (mode : Mode) (hlow : -1 ≤ n) (hhigh : n < 2 ^ 31) :
    Root.Same m (Root.next mode m n).2 ∧
      (Right (Sbm.Mem m) mode n (Root.next mode m n).1 ↔ ¬ Root.Missed mode m n) := by
  have hmem : ∀ y, Sbm.Mem m y → y < 2 ^ 31 := fun y => h.mem_lt
  cases hstate : m.state with
  | empty =>
      have hnone := Sbm.mem_of_empty hstate
      have hplural : ¬ Root.Missed mode m n := fun hmissed => by
        rw [hmissed.1] at hstate
        cases hstate
      rw [Root.next_of_empty hstate]
      refine ⟨.refl h, iff_of_true ?_ hplural⟩
      rw [Right, Set.eq_empty_iff_forall_notMem]
      cases mode <;> exact fun y hy => hnone y hy.1
  | singular =>
      have hone := fun y => Sbm.mem_of_singular (n := y) hstate
      have hnumber : m.number < 2 ^ 31 := h.sbm.number_lt
      have hplural : ¬ Root.Missed mode m n := fun hmissed => by
        rw [hmissed.1] at hstate
        cases hstate
      rw [Root.next_of_singular hstate]
      refine ⟨.refl h, iff_of_true ?_ hplural⟩
      cases mode with
      | forward =>
          rw [right_forward_iff hmem hlow]
          have hfirst := first_nextSingular hnumber hlow
          rw [show (if n = -1 then 0 else n.toNat + 1) = (n + 1).toNat by split <;> omega] at hfirst
          exact hfirst.congr fun y _ => (hone y).symm
      | backward =>
          rw [right_backward_iff hmem hlow]
          exact (last_nextSingular hnumber hlow).congr fun y _ => (hone y).symm
  | plural =>
      cases mode with
      | forward =>
          rw [right_forward_iff hmem hlow, Root.Missed, and_iff_right hstate]
          obtain ⟨x, rfl⟩ : ∃ x : ℕ, n = x - 1 := ⟨(n + 1).toNat, by omega⟩
          rw [Int.sub_add_cancel, Int.toNat_natCast]
          rcases Nat.lt_or_ge x (2 ^ 31) with hx | hx
          · obtain ⟨hsame, hiff⟩ := Root.next_forward h hstate hx
            refine ⟨hsame, hiff.trans (not_congr (and_congr_right fun _ => ?_))⟩
            omega
          · obtain rfl : x = 2 ^ 31 := by omega
            have hslot : m.segments (2 ^ 31 / 32768) = none :=
              h.sbm.segments_none h.size_lt.le
            have halone : ¬ Alone m (2 ^ 31) := by
              rintro ⟨b, hb, -⟩
              rw [hslot] at hb
              cases hb
            rw [show ((2 ^ 31 : ℕ) : ℤ) - 1 = 2 ^ 31 - 1 by norm_num, Root.next_overflow hstate]
            exact ⟨.refl h, iff_of_true (Search.first_none_of_le le_rfl)
              fun hboth => halone hboth.1⟩
      | backward =>
          rw [right_backward_iff hmem hlow, Root.Missed, and_iff_right hstate, upto]
          split
          · rename_i hlast
            subst hlast
            obtain ⟨hsame, hlast⟩ := Root.next_last h hstate
            exact ⟨hsame, iff_of_true hlast fun hboth => absurd hboth.1 (by decide)⟩
          rename_i hne
          rcases Int.lt_or_le 0 n with hpos | hzero
          · obtain ⟨x, rfl⟩ : ∃ x : ℕ, n = x + 1 := ⟨(n - 1).toNat, by omega⟩
            rw [Int.add_sub_cancel, Int.toNat_natCast, and_iff_right hpos,
              show (((x : ℤ) + 1).toNat) = x + 1 by omega]
            obtain ⟨hsame, hiff⟩ := @Root.next_backward m h hstate x
            refine ⟨hsame, hiff.trans (not_congr (or_congr_right (and_congr_left fun _ => ?_)))⟩
            omega
          · obtain rfl : n = 0 := by omega
            have hnext : Root.next .backward m 0 = (none, m) := by
              rw [Root.next, hstate]
              rfl
            rw [hnext]
            exact ⟨.refl h, iff_of_true (Search.last_none_of_le le_rfl)
              fun hboth => absurd hboth.1 (by decide)⟩

end Firebird.Bitmap
