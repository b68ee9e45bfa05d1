import Firebird.Lib.Search
import Firebird.Sbm.Levels

/-! # `SBM_next`

The root moves the number on before it looks into a bucket, and a bucket that is `SBM_PLURAL` looks
from the number on. One that is `SBM_SINGULAR` looks behind the number.
-/

namespace Firebird.Bitmap

open Search (First Last)

/-- `RSE_GET_MODE`, as far as the functions of bitmaps are called with it -/
inductive Mode
  | forward
  | backward
  deriving DecidableEq

/-- `slot++` or `slot--` -/
def Mode.step : Mode → ℤ → ℤ
  | .forward, slot => slot + 1
  | .backward, slot => slot - 1

namespace Sbm

variable {α : Type}

/-- `for (; slot > 0; --slot) if (bitmap->sbm_segments[slot]) break;` -/
def lower (segments : ℕ → Option α) : ℕ → ℕ
  | 0 => 0
  | slot + 1 => if (segments (slot + 1)).isSome then slot + 1 else lower segments slot

/-- What has been found empty is released. -/
def collect (m : Sbm α) (slot : ℕ) : Sbm α :=
  let m' := m.store slot none
  if slot = m.highWater then { m' with highWater := lower m'.segments slot } else m'

end Sbm

/-! ## Segments and buckets -/

/-- The loops over the bits of a segment from a position on -/
def Bms.up (segment : Bms) (relative : ℕ) : Option ℕ :=
  (Search.upFrom (fun bunch bit => Search.up (hasBit (segment.bits bunch)) (32 - bit) bit)
    (32 - relative / 32) (relative / 32) (relative % 32)).map fun r => 32 * r.1 + r.2

/-- The loops over the bits of a segment from a position down -/
def Bms.down (segment : Bms) (relative : ℕ) : Option ℕ :=
  (Search.downFrom (fun bunch bit => Search.down (hasBit (segment.bits bunch)) (bit + 1)) 31
    (relative / 32 + 1) (relative % 32)).map fun r => 32 * r.1 + r.2

/-- The loop over the segments of a bucket from a position on -/
def Bucket.up : ℕ → Bucket → ℕ → ℕ → Bool → Option ℕ × Bucket
  | 0, b, _, _, _ => (none, b)
  | k + 1, b, slot, relative, garbageCollect =>
      if b.highWater < slot then (none, b)
      else
        match b.segments slot with
        | none => Bucket.up k b (slot + 1) 0 true
        | some segment =>
            match segment.up relative with
            | some r => (some (1024 * slot + r), b)
            | none =>
                if garbageCollect then
                  let b' := b.collect slot
                  let slot := if slot = b.highWater then b'.highWater else slot
                  Bucket.up k b' (slot + 1) 0 true
                else Bucket.up k b (slot + 1) 0 true

/-- The loop over the segments of a bucket from a position down -/
def Bucket.down (b : Bucket) (slot relative : ℕ) : Option ℕ :=
  (Search.downFrom (fun slot relative => (b.segments slot).bind (·.down relative)) 1023
    (slot + 1) relative).map fun r => 1024 * r.1 + r.2

/-- `SBM_next` on a bitmap that is `SBM_SINGULAR`: the number it has, if it is returned -/
def nextSingular (mode : Mode) (own : ℕ) (number : ℤ) : Option ℕ :=
  if mode = .forward ∧ (own : ℤ) ≤ number then none
  else if mode = .backward ∧ number ≤ own ∧ number ≠ -1 then none
  else some own

/-- `SBM_next` on a bucket -/
def Bucket.next (mode : Mode) (b : Bucket) (number : ℤ) : Option ℕ × Bucket :=
  match b.state with
  | .empty => (none, b)
  | .singular => (nextSingular mode b.number number, b)
  | .plural =>
      match mode with
      | .forward =>
          let number := if number = -1 then 0 else number.toNat
          let slot := number / 1024
          let relative := number % 1024
          Bucket.up (b.highWater + 2) b slot relative (relative = 0)
      | .backward =>
          let number := if number = -1 then 1024 * b.highWater + 1024 - 1 else number.toNat
          (b.down (number / 1024) (number % 1024), b)

/-! ## The root -/

/-- The loop over the buckets of the root -/
def Root.walk (mode : Mode) : ℕ → Root → ℤ → ℤ → Bool → Option ℕ × Root
  | 0, m, _, _, _ => (none, m)
  | k + 1, m, slot, relative, garbageCollect =>
      if slot < 0 ∨ (m.highWater : ℤ) < slot then (none, m)
      else
        match m.segments slot.toNat with
        | none => Root.walk mode k m (mode.step slot) (-1) true
        | some bucket =>
            match Bucket.next mode bucket relative with
            | (some r, bucket') =>
                (some (32768 * slot.toNat + r), m.store slot.toNat (some bucket'))
            | (none, bucket') =>
                let m := m.store slot.toNat (some bucket')
                if garbageCollect ∧ mode = .forward then
                  let m' := m.collect slot.toNat
                  let slot := if slot = m.highWater then (m'.highWater : ℤ) else slot
                  Root.walk mode k m' (mode.step slot) (-1) true
                else Root.walk mode k m (mode.step slot) (-1) true

/-- `SBM_next` on a bitmap: the number found, and the bitmap after it -/
def Root.next (mode : Mode) (m : Root) (number : ℤ) : Option ℕ × Root :=
  match m.state with
  | .empty => (none, m)
  | .singular => (nextSingular mode m.number number, m)
  | .plural =>
      if mode = .backward ∧ number = 0 then (none, m)
      else
        let number :=
          match mode with
          | .forward => (number + 1).bmod (2 ^ 32)
          | .backward => if 0 < number then number - 1 else number
        if number = -1 then Root.walk mode (m.highWater + 2) m m.highWater (-1) true
        else
          let relative := number % 32768
          let relative := if mode = .forward ∧ relative = 0 then -1 else relative
          Root.walk mode (m.highWater + 2) m (number / 32768) relative (relative = -1)

/-- `SBM_next` -/
def sbmNext (mode : Mode) (bitmap : Option Root) (number : ℤ) : Option ℕ × Option Root :=
  match bitmap with
  | none => (none, none)
  | some m => (Root.next mode m number).map id some

/-! ## What is released -/

namespace Sbm

variable {α : Type} [LawfulChunk α] {m : Sbm α} {slot cap n x : ℕ}

omit [LawfulChunk α] in
theorem lower_spec (segments : ℕ → Option α) (slot : ℕ) :
    lower segments slot ≤ slot ∧
      ∀ i, lower segments slot < i → i ≤ slot → segments i = none := by
  induction slot with
  | zero => exact ⟨le_rfl, fun i hlt hle => absurd hlt (Nat.not_lt_of_le hle)⟩
  | succ slot ih =>
      rw [lower]
      split
      · exact ⟨le_rfl, fun i hlt hle => absurd hlt (Nat.not_lt_of_le hle)⟩
      · rename_i hnone
        refine ⟨ih.1.trans (Nat.le_succ slot), fun i hlt hle => ?_⟩
        rcases Nat.le_or_eq_of_le_succ hle with hle | rfl
        · exact ih.2 i hlt hle
        · rwa [Option.not_isSome_iff_eq_none] at hnone

/-- What is left after a slot with nothing in it has been released -/
structure Collected (cap : ℕ) (m : Sbm α) (slot : ℕ) (m' : Sbm α) : Prop where
  ok : m'.Ok cap
  state_eq : m'.state = m.state
  size_eq : m'.size = m.size
  mem_iff : ∀ x, m'.Mem x ↔ m.Mem x
  highWater_eq : slot ≠ m.highWater → m'.highWater = m.highWater

theorem collect_spec (h : m.Ok cap) (hstate : m.state = .plural) (hslot : slot ≤ m.highWater)
    (hnone : ∀ c ∈ m.segments slot, ∀ y, ¬ LawfulChunk.Mem c y) :
    Collected cap m slot (m.collect slot) := by
  have hstore : (m.store slot none).Ok cap := h.store hstate hslot fun c hc => (nomatch hc)
  have hmem : ∀ x, InSlots (Function.update m.segments slot none) x ↔ InSlots m.segments x := by
    intro x
    rw [inSlots_update]
    split
    · rename_i heq
      refine iff_of_false not_exists_mem_none ?_
      rintro ⟨c, hc, hx⟩
      rw [heq] at hc
      exact hnone c hc _ hx
    · rfl
  rw [collect]
  split
  · rename_i heq
    obtain ⟨hle, hlower⟩ := lower_spec (m.store slot none).segments slot
    refine ⟨?_, rfl, rfl, fun x => ?_, fun hne => absurd heq hne⟩
    · refine hstore.of_plural ⟨rfl, rfl, rfl⟩ hstate (fun i hi => ?_) ?_ hstore.ok
      · rcases Nat.lt_or_ge slot i with hlt | hge
        · rw [heq] at hlt
          exact hstore.above i hlt
        · exact hlower i hi hge
      · exact (hle.trans hslot).trans_lt h.highWater_lt
    · exact Iff.trans (mem_of_plural hstate) ((hmem x).trans (mem_of_plural hstate).symm)
  · refine ⟨hstore, rfl, rfl, fun x => ?_, fun _ => rfl⟩
    exact Iff.trans (mem_of_plural hstate) ((hmem x).trans (mem_of_plural hstate).symm)

/-- What is in a slot may change as long as it stands for the same numbers. -/
theorem store_spec (h : m.Ok cap) (hstate : m.state = .plural) {c c' : α}
    (hc : m.segments slot = some c) (hok : LawfulChunk.Ok c')
    (hmem : ∀ y, LawfulChunk.Mem c' y ↔ LawfulChunk.Mem c y) :
    (m.store slot (some c')).Ok cap ∧ ∀ x, (m.store slot (some c')).Mem x ↔ m.Mem x := by
  refine ⟨h.store hstate (h.le_highWater hc) ?_, fun x => ?_⟩
  · rintro _ ⟨⟩
    exact hok
  · rw [mem_of_plural (m := m.store _ _) hstate, mem_of_plural hstate, segments_store,
      inSlots_update]
    split
    · rename_i heq
      rw [exists_mem_some, hmem, InSlots, heq, hc, exists_mem_some]
    · rfl

/-- The numbers of one slot -/
theorem mem_add_iff (slot : ℕ) (hstate : m.state = .plural) {y : ℕ} (hy : y < Chunk.width α) :
    m.Mem (Chunk.width α * slot + y) ↔ ∃ c ∈ m.segments slot, LawfulChunk.Mem c y := by
  rw [mem_of_plural hstate, InSlots, Nat.mul_add_div LawfulChunk.width_pos, Nat.div_eq_of_lt hy,
    Nat.add_zero, Nat.mul_add_mod, Nat.mod_eq_of_lt hy]

/-- There are no numbers in slots above the high water mark. -/
theorem Ok.not_mem_above (h : m.Ok cap) (hstate : m.state = .plural)
    (hx : Chunk.width α * (m.highWater + 1) ≤ x) : ¬ m.Mem x := by
  rw [mem_of_plural hstate]
  rintro ⟨c, hc, -⟩
  have hslot : m.highWater < x / Chunk.width α :=
    (Nat.le_div_iff_mul_le LawfulChunk.width_pos).mpr (by rwa [Nat.mul_comm])
  rw [h.above _ hslot] at hc
  cases hc

/-- The search in what a slot holds -/
theorem first_slot (hstate : m.state = .plural) {c : α} (hc : m.segments slot = some c) {a : ℕ}
    {o : Option ℕ} (h : First (LawfulChunk.Mem c) a (Chunk.width α) o) :
    First m.Mem (Chunk.width α * slot + a) (Chunk.width α * (slot + 1))
      (o.map (Chunk.width α * slot + ·)) := by
  rw [Nat.mul_add_one]
  refine First.shift (h.congr fun y hy => ?_)
  rw [mem_add_iff _ hstate hy, hc, exists_mem_some]

theorem last_slot (hstate : m.state = .plural) {c : α} (hc : m.segments slot = some c) {b : ℕ}
    {o : Option ℕ} (hb : b ≤ Chunk.width α) (h : Last (LawfulChunk.Mem c) 0 b o) :
    Last m.Mem (Chunk.width α * slot) (Chunk.width α * slot + b)
      (o.map (Chunk.width α * slot + ·)) := by
  have hslot : Last (fun y => m.Mem (Chunk.width α * slot + y)) 0 b o := by
    refine h.congr fun y hy => ?_
    rw [mem_add_iff _ hstate (hy.trans_le hb), hc, exists_mem_some]
  exact hslot.shift

/-- There is nothing in a slot that is not used. -/
theorem first_none (hstate : m.state = .plural) (hc : m.segments slot = none) (a : ℕ) :
    First m.Mem (Chunk.width α * slot + a) (Chunk.width α * (slot + 1)) none := by
  intro y ha hb hy
  obtain ⟨d, rfl⟩ := Nat.exists_eq_add_of_le ((Nat.le_add_right _ a).trans ha)
  rw [Nat.mul_add_one] at hb
  rw [mem_add_iff _ hstate (Nat.lt_of_add_lt_add_left hb), hc] at hy
  exact not_exists_mem_none hy

theorem last_none (hstate : m.state = .plural) (hc : m.segments slot = none) {b : ℕ}
    (hb : b ≤ Chunk.width α) : Last m.Mem (Chunk.width α * slot) (Chunk.width α * slot + b) none := by
  intro y ha hlt hy
  obtain ⟨d, rfl⟩ := Nat.exists_eq_add_of_le ha
  rw [mem_add_iff _ hstate ((Nat.lt_of_add_lt_add_left hlt).trans_le hb), hc] at hy
  exact not_exists_mem_none hy

end Sbm

/-! ## Searches in segments and buckets -/

theorem Bms.mem_word {segment : Bms} {i y : ℕ} (hi : i < 32) (hy : y < 32) :
    hasBit (segment.bits i) y = true ↔ segment.Mem (32 * i + y) := by
  rw [hasBit_iff _ hy, Bms.Mem, Nat.mul_add_div (by decide), Nat.div_eq_of_lt hy, Nat.add_zero,
    Nat.mul_add_mod, Nat.mod_eq_of_lt hy, and_iff_right (by omega)]

theorem Bms.first_up (segment : Bms) {relative : ℕ} (h : relative < 1024) :
    First segment.Mem relative 1024 (segment.up relative) := by
  have hword : ∀ i < 32, ∀ j ≤ 32, First (fun y => segment.Mem (32 * i + y)) j 32
      (Search.up (hasBit (segment.bits i)) (32 - j) j) := by
    intro i hi j hj
    have hup := Search.first_up (p := hasBit (segment.bits i)) (32 - j) j
    rw [Nat.add_sub_of_le hj] at hup
    exact hup.congr fun y hy => Bms.mem_word hi hy
  have hsearch := Search.first_upFrom (k := 32 - relative / 32) (relative / 32) hword
    (Nat.mod_lt relative (by decide)).le (by omega)
  rw [Nat.div_add_mod, Nat.add_sub_of_le (by omega)] at hsearch
  exact hsearch

theorem Bms.last_down (segment : Bms) {relative : ℕ} (h : relative < 1024) :
    Last segment.Mem 0 (relative + 1) (segment.down relative) := by
  have hword : ∀ i < 32, ∀ j < 32, Last (fun y => segment.Mem (32 * i + y)) 0 (j + 1)
      (Search.down (hasBit (segment.bits i)) (j + 1)) := by
    intro i hi j hj
    have hdown := Search.last_down (p := hasBit (segment.bits i)) (j + 1)
    exact hdown.congr fun y hy => Bms.mem_word hi (by omega)
  have hsearch := Search.last_downFrom (i := relative / 32) hword rfl
    (Nat.mod_lt relative (by decide)) (by omega)
  rw [← Nat.add_assoc, Nat.div_add_mod] at hsearch
  exact hsearch

/-- What a search leaves of a bucket -/
structure Bucket.Same (b b' : Bucket) : Prop where
  ok : b'.Ok
  mem_iff : ∀ x, Sbm.Mem b' x ↔ Sbm.Mem b x

theorem Bucket.Same.trans {b b' b'' : Bucket} (h : Bucket.Same b b') (h' : Bucket.Same b' b'') :
    Bucket.Same b b'' :=
  ⟨h'.ok, fun x => (h'.mem_iff x).trans (h.mem_iff x)⟩

theorem Bucket.up_of_lt {b : Bucket} {slot : ℕ} (h : b.highWater < slot) (k relative : ℕ)
    (garbageCollect : Bool) : Bucket.up k b slot relative garbageCollect = (none, b) := by
  cases k with
  | zero => rfl
  | succ k => rw [Bucket.up, if_pos h]

/-- Above the high water mark nothing is found. -/
theorem Sbm.first_above {α : Type} [LawfulChunk α] {m : Sbm α} {cap slot : ℕ} (h : m.Ok cap)
    (hstate : m.state = .plural) (hslot : m.highWater < slot) (a b : ℕ) :
    First m.Mem (Chunk.width α * slot + a) b none := by
  intro y ha _
  refine h.not_mem_above hstate (le_trans ?_ ((Nat.le_add_right _ a).trans ha))
  exact Nat.mul_le_mul_left _ hslot

theorem Bucket.up_spec {k : ℕ} {b : Bucket} {slot relative : ℕ} {garbageCollect : Bool}
    (h : b.Ok) (hstate : b.state = .plural) (hk : b.highWater + 2 ≤ slot + k)
    (hrelative : relative < 1024) (hgarbage : garbageCollect = true → relative = 0) :
    Bucket.Same b (Bucket.up k b slot relative garbageCollect).2 ∧
      First (Sbm.Mem b) (1024 * slot + relative) 32768
        (Bucket.up k b slot relative garbageCollect).1 := by
  induction k generalizing b slot relative garbageCollect with
  | zero =>
      rw [Bucket.up_of_lt (by omega)]
      exact ⟨⟨h, fun _ => Iff.rfl⟩, Sbm.first_above h.1 hstate (by omega) relative 32768⟩
  | succ k ih =>
      rw [Bucket.up]
      split
      · rename_i hhigh
        exact ⟨⟨h, fun _ => Iff.rfl⟩, Sbm.first_above h.1 hstate hhigh relative 32768⟩
      rename_i hhigh
      have hcap : b.highWater < 32 := by
        rw [← h.2]
        exact h.1.highWater_lt
      have hle : 1024 * slot + relative ≤ 1024 * (slot + 1) := by omega
      split
      · -- the slot is not used
        rename_i hnone
        have hchunk := Sbm.first_none hstate hnone relative
        obtain ⟨hsame, hfirst⟩ := @ih b (slot + 1) 0 true h hstate (by omega)
          (Nat.succ_pos 1023) fun _ => rfl
        exact ⟨hsame, hchunk.append hfirst hle⟩
      rename_i segment hsegment
      have hsearch := Sbm.first_slot hstate hsegment (segment.first_up hrelative)
      split
      · rename_i r hr
        rw [hr] at hsearch
        have hend : 1024 * (slot + 1) ≤ 32768 := by omega
        exact ⟨⟨h, fun _ => Iff.rfl⟩, hsearch.extend hend⟩
      rename_i hr
      rw [hr] at hsearch
      split
      · -- there is nothing in the segment, and it is released
        rename_i hcollect
        rw [hgarbage hcollect] at hr hsearch
        have hnone : ∀ c ∈ b.segments slot, ∀ y, ¬ LawfulChunk.Mem c y := by
          intro c hc y hy
          rw [hsegment] at hc
          cases hc
          have hup := segment.first_up (Nat.succ_pos 1023)
          rw [hr] at hup
          exact hup y (Nat.zero_le y) hy.1 hy
        have hcol := Sbm.collect_spec h.1 hstate (Nat.le_of_not_lt hhigh) hnone
        have hsame : Bucket.Same b (b.collect slot) :=
          ⟨⟨hcol.ok, hcol.size_eq.trans h.2⟩, hcol.mem_iff⟩
        have hstate' := hcol.state_eq.trans hstate
        split
        · -- it was the last one: the search ends behind the new high water mark
          rename_i htop
          rw [Bucket.up_of_lt (Nat.lt_succ_self _), hgarbage hcollect]
          have habove : First (Sbm.Mem b) (1024 * (slot + 1) + 0) 32768 none :=
            Sbm.first_above h.1 hstate (by omega) 0 32768
          exact ⟨hsame, hsearch.append habove (Nat.mul_le_mul_left 1024 (Nat.le_succ slot))⟩
        · rename_i htop
          have hhigh' := hcol.highWater_eq htop
          obtain ⟨hsame', hfirst⟩ := @ih (b.collect slot) (slot + 1) 0 true hsame.ok hstate'
            (by omega) (Nat.succ_pos 1023) fun _ => rfl
          rw [hgarbage hcollect]
          refine ⟨hsame.trans hsame', ?_⟩
          exact hsearch.append (hfirst.congr fun y _ => hsame.mem_iff y)
            (Nat.mul_le_mul_left 1024 (Nat.le_succ slot))
      · obtain ⟨hsame, hfirst⟩ := @ih b (slot + 1) 0 true h hstate (by omega)
          (Nat.succ_pos 1023) fun _ => rfl
        exact ⟨hsame, hsearch.append hfirst hle⟩

theorem Bucket.down_spec {b : Bucket} {slot relative : ℕ} (hstate : b.state = .plural)
    (hslot : slot < 32) (hrelative : relative < 1024) :
    Last (Sbm.Mem b) 0 (1024 * slot + (relative + 1)) (b.down slot relative) := by
  refine Search.last_downFrom (c := 32) (fun i _ j hj => ?_) rfl hrelative hslot
  cases hc : b.segments i with
  | none =>
      intro y _ hy hmem
      have hslot := Sbm.mem_add_iff i hstate (show y < 1024 by omega)
      rw [hc] at hslot
      exact not_exists_mem_none (hslot.mp hmem)
  | some segment =>
      refine (segment.last_down hj).congr fun y hy => ?_
      have hslot := Sbm.mem_add_iff i hstate (show y < 1024 by omega)
      rw [hc, exists_mem_some] at hslot
      exact hslot.symm

/-- Where a bucket begins to look, forward -/
def Bucket.start (b : Bucket) (relative : ℤ) : ℕ :=
  if relative = -1 then 0
  else if b.state = .singular then relative.toNat + 1 else relative.toNat

/-- Where a bucket ends to look, backward -/
def Bucket.stop (b : Bucket) (relative : ℤ) : ℕ :=
  if relative = -1 then 32768
  else if b.state = .singular then relative.toNat else relative.toNat + 1

/-- A position in a bucket, or its beginning or end -/
def Relative (relative : ℤ) : Prop := -1 ≤ relative ∧ relative < 32768

theorem nextSingular_forward (own : ℕ) (number : ℤ) :
    nextSingular .forward own number = if (own : ℤ) ≤ number then none else some own := by
  simp only [nextSingular, true_and, reduceCtorEq, false_and, if_false]

theorem nextSingular_backward (own : ℕ) (number : ℤ) :
    nextSingular .backward own number =
      if number ≤ own ∧ number ≠ -1 then none else some own := by
  simp only [nextSingular, true_and, reduceCtorEq, false_and, if_false]

theorem first_nextSingular {own bound : ℕ} {number : ℤ} (hown : own < bound) (h : -1 ≤ number) :
    First (· = own) (if number = -1 then 0 else number.toNat + 1) bound
      (nextSingular .forward own number) := by
  rw [nextSingular_forward]
  by_cases hle : (own : ℤ) ≤ number
  · rw [if_pos hle, if_neg (by omega)]
    rintro y hy - rfl
    omega
  · rw [if_neg hle]
    refine ⟨rfl, ?_, hown, fun y _ hy => hy.ne⟩
    split <;> omega

theorem last_nextSingular {own bound : ℕ} {number : ℤ} (hown : own < bound) (h : -1 ≤ number) :
    Last (· = own) 0 (if number = -1 then bound else number.toNat)
      (nextSingular .backward own number) := by
  rw [nextSingular_backward]
  by_cases hle : number ≤ own ∧ number ≠ -1
  · rw [if_pos hle, if_neg hle.2]
    rintro y - hy rfl
    omega
  · rw [if_neg hle]
    refine ⟨rfl, Nat.zero_le own, ?_, fun y hy _ => hy.ne'⟩
    split <;> omega

theorem Bucket.next_forward {b : Bucket} {relative : ℤ} (h : b.Ok) (hrelative : Relative relative) :
    Bucket.Same b (Bucket.next .forward b relative).2 ∧
      First (Sbm.Mem b) (b.start relative) 32768 (Bucket.next .forward b relative).1 := by
  have hnumber : b.number < 32768 := h.1.number_lt
  obtain ⟨hlow, hhigh⟩ := hrelative
  rw [Bucket.next]
  cases hstate : b.state with
  | empty =>
      exact ⟨⟨h, fun _ => Iff.rfl⟩, fun y _ _ hy => Sbm.mem_of_empty hstate y hy⟩
  | singular =>
      refine ⟨⟨h, fun _ => Iff.rfl⟩, ?_⟩
      have hfirst := first_nextSingular hnumber hlow
      simp only [Bucket.start, hstate, if_true]
      exact hfirst.congr fun y _ => (Sbm.mem_of_singular hstate).symm
  | plural =>
      have hlt : (if relative = -1 then 0 else relative.toNat) < 32768 := by
        split <;> omega
      simp only [Bucket.start, hstate, reduceCtorEq, if_false]
      generalize (if relative = -1 then 0 else relative.toNat) = number at hlt ⊢
      have hup := Bucket.up_spec (k := b.highWater + 2) h hstate (Nat.le_add_left _ (number / 1024))
        (Nat.mod_lt number (by decide)) of_decide_eq_true
      rw [Nat.div_add_mod] at hup
      exact hup

theorem Bucket.next_backward {b : Bucket} {relative : ℤ} (h : b.Ok)
    (hrelative : Relative relative) :
    Bucket.Same b (Bucket.next .backward b relative).2 ∧
      Last (Sbm.Mem b) 0 (b.stop relative) (Bucket.next .backward b relative).1 := by
  have hnumber : b.number < 32768 := h.1.number_lt
  have hcap : b.highWater < 32 := by
    rw [← h.2]
    exact h.1.highWater_lt
  obtain ⟨hlow, hhigh⟩ := hrelative
  rw [Bucket.next]
  cases hstate : b.state with
  | empty =>
      exact ⟨⟨h, fun _ => Iff.rfl⟩, fun y _ _ hy => Sbm.mem_of_empty hstate y hy⟩
  | singular =>
      refine ⟨⟨h, fun _ => Iff.rfl⟩, ?_⟩
      have hlast := last_nextSingular hnumber hlow
      simp only [Bucket.stop, hstate, if_true]
      exact hlast.congr fun y _ => (Sbm.mem_of_singular hstate).symm
  | plural =>
      refine ⟨⟨h, fun _ => Iff.rfl⟩, ?_⟩
      simp only [Bucket.stop, hstate, reduceCtorEq, if_false]
      by_cases hend : relative = -1
      · -- the whole bucket, up to the last slot that is used
        simp only [hend, if_true]
        have hdown := Bucket.down_spec (b := b) hstate hcap (Nat.lt_succ_self 1023)
        have hslot : (1024 * b.highWater + 1024 - 1) / 1024 = b.highWater := by omega
        have hposition : (1024 * b.highWater + 1024 - 1) % 1024 = 1023 := by omega
        rw [hslot, hposition]
        refine hdown.widen (fun y hy => h.1.not_mem_above hstate ?_) (by omega)
        exact hy
      · simp only [hend, if_false]
        have hdown := Bucket.down_spec hstate (show relative.toNat / 1024 < 32 by omega)
          (Nat.mod_lt relative.toNat (by decide))
        rw [← Nat.add_assoc, Nat.div_add_mod] at hdown
        exact hdown

/-! ## Searches in the root -/

variable {m : Root}

/-- What a search leaves of a bitmap -/
structure Root.Same (m m' : Root) : Prop where
  ok : m'.Ok
  mem_iff : ∀ x, Sbm.Mem m' x ↔ Sbm.Mem m x

theorem Root.Same.refl (h : m.Ok) : Root.Same m m := ⟨h, fun _ => Iff.rfl⟩

theorem Root.Same.trans {m m' m'' : Root} (h : Root.Same m m') (h' : Root.Same m' m'') :
    Root.Same m m'' :=
  ⟨h'.ok, fun x => (h'.mem_iff x).trans (h.mem_iff x)⟩

/-- A bucket is put back after a search in it. -/
theorem Root.same_store (h : m.Ok) (hstate : m.state = .plural) {slot : ℕ} {b b' : Bucket}
    (hb : m.segments slot = some b) (hsame : Bucket.Same b b') :
    Root.Same m (m.store slot (some b')) := by
  obtain ⟨hok, hmem⟩ := Sbm.store_spec h.sbm hstate hb hsame.ok hsame.mem_iff
  exact ⟨⟨hok, h.size_lt⟩, hmem⟩

theorem Root.walk_of_lt (mode : Mode) {slot : ℤ} (h : (m.highWater : ℤ) < slot) (k : ℕ)
    (relative : ℤ) (garbageCollect : Bool) :
    Root.walk mode k m slot relative garbageCollect = (none, m) := by
  cases k with
  | zero => rfl
  | succ k => rw [Root.walk, if_pos (.inr h)]

theorem Root.walk_forward (slot start : ℕ) {k : ℕ} {relative : ℤ} {garbageCollect : Bool} (h : m.Ok)
    (hstate : m.state = .plural) (hk : m.highWater + 2 ≤ slot + k) (hrelative : Relative relative)
    (hgarbage : garbageCollect = true → relative = -1) (hstart : start ≤ 32768)
    (hb : ∀ b ∈ m.segments slot, Bucket.start b relative = start) :
    Root.Same m (Root.walk .forward k m slot relative garbageCollect).2 ∧
      First (Sbm.Mem m) (32768 * slot + start) (2 ^ 31)
        (Root.walk .forward k m slot relative garbageCollect).1 := by
  induction k generalizing m slot start relative garbageCollect with
  | zero =>
      rw [Root.walk_of_lt _ (by omega)]
      exact ⟨.refl h, Sbm.first_above h.sbm hstate (by omega) start _⟩
  | succ k ih =>
      rw [Root.walk]
      by_cases hhigh : m.highWater < slot
      · rw [if_pos (.inr (by omega))]
        exact ⟨.refl h, Sbm.first_above h.sbm hstate hhigh start _⟩
      rw [if_neg (by omega), Int.toNat_natCast]
      have hle : 32768 * slot + start ≤ 32768 * (slot + 1) := by omega
      have hcap : m.highWater < 65536 := h.sbm.highWater_lt.trans h.size_lt
      -- the rest of the search begins at the beginning of a bucket
      have hrest : ∀ {m' : Root}, m'.Ok → m'.state = .plural → m'.highWater = m.highWater →
          Root.Same m' (Root.walk .forward k m' (Mode.forward.step slot) (-1) true).2 ∧
            First (Sbm.Mem m') (32768 * (slot + 1)) (2 ^ 31)
              (Root.walk .forward k m' (Mode.forward.step slot) (-1) true).1 := by
        intro m' hok hplural hwater
        have hnext := @ih m' (slot + 1) 0 (-1) true hok hplural (by omega) ⟨le_rfl, by decide⟩
          (fun _ => rfl) (Nat.zero_le _) fun b _ => if_pos rfl
        exact hnext
      cases hbucket : m.segments slot with
      | none =>
          have hchunk := Sbm.first_none hstate hbucket start
          obtain ⟨hsame, hfirst⟩ := hrest h hstate rfl
          exact ⟨hsame, hchunk.append hfirst hle⟩
      | some bucket =>
          obtain ⟨hsame, hfirst⟩ := Bucket.next_forward (h.sbm.ok slot bucket hbucket) hrelative
          rw [hb bucket hbucket] at hfirst
          dsimp only
          cases hnext : Bucket.next .forward bucket relative with
          | mk o bucket' =>
          rw [hnext] at hsame hfirst
          have hstore := Root.same_store h hstate hbucket hsame
          have hsearch := Sbm.first_slot hstate hbucket hfirst
          cases o with
          | some r =>
              have hend : 32768 * (slot + 1) ≤ 2 ^ 31 := by omega
              exact ⟨hstore, hsearch.extend hend⟩
          | none =>
              dsimp only
              by_cases hcollect : garbageCollect = true
              · -- there is nothing in the bucket, and it is released
                have hzero : start = 0 := by
                  rw [← hb bucket hbucket, hgarbage hcollect]
                  rfl
                rw [hzero] at hfirst hsearch ⊢
                have hempty : ∀ c ∈ (m.store slot (some bucket')).segments slot,
                    ∀ y, ¬ LawfulChunk.Mem c y := by
                  intro c hc y hy
                  rw [Sbm.segments_store, Function.update_self] at hc
                  cases hc
                  have hmem := (hsame.mem_iff y).mp hy
                  exact hfirst y (Nat.zero_le y) (LawfulChunk.mem_lt hsame.ok hy) hmem
                have hcol := Sbm.collect_spec hstore.ok.sbm hstate (Nat.le_of_not_lt hhigh) hempty
                have hsame₁ : Root.Same m ((m.store slot (some bucket')).collect slot) :=
                  hstore.trans ⟨⟨hcol.ok, hcol.size_eq.trans_lt h.size_lt⟩, hcol.mem_iff⟩
                rw [if_pos ⟨hcollect, rfl⟩]
                have hwidth := Nat.mul_le_mul_left 32768 (Nat.le_succ slot)
                split
                · -- it was the last one: the search ends behind the new high water mark
                  rename_i htop
                  have hend : ∀ w : ℤ, w < Mode.forward.step w := Int.lt_succ
                  rw [Root.walk_of_lt _ (hend _)]
                  have htop' : slot = m.highWater := Int.ofNat.inj htop
                  have habove : First (Sbm.Mem m) (32768 * (slot + 1) + 0) (2 ^ 31) none :=
                    Sbm.first_above h.sbm hstate (by omega) 0 _
                  exact ⟨hsame₁, hsearch.append habove hwidth⟩
                · rename_i htop
                  have htop' : slot ≠ m.highWater := fun heq => htop (congrArg _ heq)
                  obtain ⟨hsame', hfirst'⟩ := hrest hsame₁.ok (hcol.state_eq.trans hstate)
                    (hcol.highWater_eq htop')
                  exact ⟨hsame₁.trans hsame', hsearch.append
                    (hfirst'.congr fun y _ => hsame₁.mem_iff y) hwidth⟩
              · rw [if_neg (by simp [hcollect])]
                obtain ⟨hsame', hfirst'⟩ := hrest hstore.ok hstate rfl
                exact ⟨hstore.trans hsame', hsearch.append
                  (hfirst'.congr fun y _ => hstore.mem_iff y) hle⟩

theorem Root.walk_of_neg (mode : Mode) {slot : ℤ} (h : slot < 0) (k : ℕ) (relative : ℤ)
    (garbageCollect : Bool) : Root.walk mode k m slot relative garbageCollect = (none, m) := by
  cases k with
  | zero => rfl
  | succ k => rw [Root.walk, if_pos (.inl h)]

theorem Root.walk_backward (stop : ℕ) (garbageCollect : Bool) {k slot : ℕ} {relative : ℤ} (h : m.Ok)
    (hstate : m.state = .plural) (hhigh : slot ≤ m.highWater) (hk : slot < k)
    (hrelative : Relative relative) (hstop : stop ≤ 32768)
    (hb : ∀ b ∈ m.segments slot, Bucket.stop b relative = stop) :
    Root.Same m (Root.walk .backward k m slot relative garbageCollect).2 ∧
      Last (Sbm.Mem m) 0 (32768 * slot + stop)
        (Root.walk .backward k m slot relative garbageCollect).1 := by
  induction k generalizing m slot stop relative garbageCollect with
  | zero => exact absurd hk (Nat.not_lt_zero _)
  | succ k ih =>
      rw [Root.walk, if_neg (by omega), Int.toNat_natCast]
      -- the rest of the search begins at the end of a bucket
      have hrest : ∀ {m' : Root}, m'.Ok → m'.state = .plural → m'.highWater = m.highWater →
          Root.Same m' (Root.walk .backward k m' (Mode.backward.step slot) (-1) true).2 ∧
            Last (Sbm.Mem m') 0 (32768 * slot)
              (Root.walk .backward k m' (Mode.backward.step slot) (-1) true).1 := by
        intro m' hok hplural hwater
        cases slot with
        | zero =>
            rw [Root.walk_of_neg _ (by decide)]
            exact ⟨.refl hok, Search.last_none_of_le le_rfl⟩
        | succ slot =>
            have hslot : Mode.backward.step (slot + 1 : ℕ) = slot := by
              rw [Mode.step]
              omega
            rw [hslot]
            exact @ih m' 32768 true slot (-1) hok hplural (by omega) (by omega)
              ⟨le_rfl, by decide⟩ le_rfl fun b _ => if_pos rfl
      cases hbucket : m.segments slot with
      | none =>
          have hchunk := Sbm.last_none hstate hbucket hstop
          obtain ⟨hsame, hlast⟩ := hrest h hstate rfl
          exact ⟨hsame, hchunk.append hlast (Nat.le_add_right _ _)⟩
      | some bucket =>
          obtain ⟨hsame, hlast⟩ := Bucket.next_backward (h.sbm.ok slot bucket hbucket) hrelative
          rw [hb bucket hbucket] at hlast
          dsimp only
          cases hnext : Bucket.next .backward bucket relative with
          | mk o bucket' =>
          rw [hnext] at hsame hlast
          have hstore := Root.same_store h hstate hbucket hsame
          have hsearch := Sbm.last_slot hstate hbucket hstop hlast
          cases o with
          | some r => exact ⟨hstore, hsearch.extend (Nat.zero_le _)⟩
          | none =>
              dsimp only
              rw [if_neg (by simp)]
              obtain ⟨hsame', hlast'⟩ := hrest hstore.ok hstate rfl
              exact ⟨hstore.trans hsame', hsearch.append
                (hlast'.congr fun y _ => hstore.mem_iff y) (Nat.le_add_right _ _)⟩

end Firebird.Bitmap
