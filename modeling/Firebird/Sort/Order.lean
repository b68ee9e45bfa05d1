import Firebird.Lib.Memory
import Firebird.Sort.Sorted

/-! # Records in physical order (`order` in `jrd/sort.cpp`)

Before a run is written, the records of the memoryful are moved so that they stand behind each
other in their order, without back pointers, from `scb_last_record` on. Positions count from
there. The records still to come are the live ones; a record that stands where the next one
is to go is moved to the slot that this one leaves. `none` stands for a back pointer that is
needed and is not there.
-/

namespace Firebird.Sort

/-- A longword of the sort memory: of a record, or of a back pointer. Each longword of a back
pointer holds all of it; it is `none` when the pointer is null. -/
inductive Word
  | long (w : ULONG)
  | pointer (p : Option ℕ)

/-- Records of `longs` longwords, `pointerLongs` of which are the back pointer -/
structure Shape where
  pointerLongs : ℕ
  longs : ℕ
  pointerLongs_pos : 0 < pointerLongs
  pointerLongs_lt : pointerLongs < longs

namespace Shape

variable (z : Shape)

/-- The longwords without the back pointer -/
def length : ℕ := z.longs - z.pointerLongs

/-- A back pointer -/
def bckptr (p : Option ℕ) : List Word := List.replicate z.pointerLongs (.pointer p)

/-- The loop that advances the lower limit over deleted or used records, `stop` being the end
of memory -/
def advance (mem : Memory Word) (stop : ℕ) : ℕ → ℕ → Option ℕ
  | 0, _ => none
  | fuel + 1, lower =>
      match mem lower with
      | .long _ => none
      | .pointer none =>
          if lower < stop then advance mem stop fuel (lower + z.longs) else some lower
      | .pointer (some _) => some lower

/-- What changes while the records are moved: a pointer that is null has no slot. -/
structure Moving where
  mem : Memory Word
  slot : ℕ → Option ℕ
  output : ℕ
  lower : ℕ

/-- The record in slot `k`, which a pointer is to, goes to the output. -/
def move (count : ℕ) (s : Moving) (k : ℕ) : Option Moving := do
  let record := k * z.longs
  let lower ← z.advance s.mem (count * z.longs) (count + 1) s.lower
  let data := s.mem.load (record + z.pointerLongs) z.length
  if record + z.pointerLongs = lower then
    some { s with mem := s.mem.store s.output data, output := s.output + z.length, lower }
  else if s.output + z.longs - 1 ≤ lower then
    some { s with
      mem := (s.mem.store record (z.bckptr none)).store s.output data
      output := s.output + z.length
      lower }
  else
    -- another record sits where ours is to go
    match s.mem lower with
    | .pointer (some q) =>
        some {
          mem := (s.mem.store record (s.mem.load lower z.longs)).store s.output data
          slot := Function.update s.slot q (some k)
          output := s.output + z.length
          lower := lower + z.longs }
    | _ => none

/-- The record of pointer `i`; a null pointer is passed over. -/
def moveNext (count : ℕ) (s : Moving) (i : ℕ) : Option Moving :=
  match s.slot i with
  | none => some s
  | some k => z.move count s k

/-- The pointers from `i` on -/
def moveAll (count : ℕ) : ℕ → Moving → ℕ → Option Moving
  | 0, s, _ => some s
  | n + 1, s, i => do
      let s ← z.moveNext count s i
      moveAll count n s (i + 1)

/-- `order`: the memory and how many records stand in order in it -/
def order (count : ℕ) (mem : Memory Word) (slot : ℕ → Option ℕ) :
    Option (Memory Word × ℕ) := do
  let s ← z.moveAll count count { mem, slot, output := 0, lower := 0 } 1
  some (s.mem, s.output / z.length)

/-! ## The moves -/

/-- Records as they stand in the output -/
def words (r : List ULONG) : List Word := r.map .long

/-- The slot `k` holds the record of pointer `i` and its back pointer. -/
structure Holds (mem : Memory Word) (k i : ℕ) (r : List ULONG) : Prop where
  bckptr : mem.load (k * z.longs) z.pointerLongs = z.bckptr (some i)
  data : mem.load (k * z.longs + z.pointerLongs) z.length = words r

/-- The pointers from `i` to `count` are null or to slots with their records, and a slot from `lo`
on that none of them is to has no back pointer. -/
structure Live (count : ℕ) (v : ℕ → List ULONG) (i lo : ℕ) (mem : Memory Word)
    (slot : ℕ → Option ℕ) : Prop where
  holds : ∀ j k, i ≤ j → j ≤ count → slot j = some k → lo ≤ k ∧ k < count ∧ z.Holds mem k j (v j)
  dead : ∀ k, lo ≤ k → k < count →
    (∃ j, i ≤ j ∧ j ≤ count ∧ slot j = some k) ∨ mem (k * z.longs) = .pointer none

/-- The records `out` stand in the output, and those of the pointers from `i` on are live. -/
structure Ordered (count : ℕ) (v : ℕ → List ULONG) (out : List (List ULONG)) (i lo : ℕ)
    (s : Moving) : Prop where
  output : s.output = out.length * z.length
  lower : s.lower = lo * z.longs
  room : out.length * z.length ≤ lo * z.longs
  written : s.mem.load 0 (out.length * z.length) = words out.flatten
  live : z.Live count v i lo s.mem s.slot

variable {z : Shape} {mem : Memory Word} {count lo i k : ℕ} {r : List ULONG} {s : Moving}
  {v : ℕ → List ULONG} {out : List (List ULONG)} {slot : ℕ → Option ℕ}

theorem length_pos : 0 < z.length := Nat.sub_pos_of_lt z.pointerLongs_lt

theorem pointerLongs_add_length : z.pointerLongs + z.length = z.longs :=
  Nat.add_sub_of_le (Nat.le_of_lt z.pointerLongs_lt)

theorem bckptr_eq_cons (p : Option ℕ) : ∃ ws, z.bckptr p = .pointer p :: ws := by
  rw [Shape.bckptr, ← Nat.succ_pred_eq_of_pos z.pointerLongs_pos, List.replicate_succ]
  exact ⟨_, rfl⟩

namespace Holds

theorem first (h : z.Holds mem k i r) : mem (k * z.longs) = .pointer (some i) := by
  obtain ⟨ws, hws⟩ := bckptr_eq_cons (z := z) (some i)
  have hb := h.bckptr
  rw [hws] at hb
  exact Memory.eq_of_load hb

/-- All longwords of the slot -/
theorem load (h : z.Holds mem k i r) :
    mem.load (k * z.longs) z.longs = z.bckptr (some i) ++ words r := by
  have hlongs := Memory.load_add mem (k * z.longs) z.pointerLongs z.length
  rw [pointerLongs_add_length, h.bckptr, h.data] at hlongs
  exact hlongs

theorem of_load (h : mem.load (k * z.longs) z.longs = z.bckptr (some i) ++ words r) :
    z.Holds mem k i r := by
  have hlongs := Memory.load_add mem (k * z.longs) z.pointerLongs z.length
  rw [pointerLongs_add_length, h] at hlongs
  have hlen : (z.bckptr (some i)).length = (mem.load (k * z.longs) z.pointerLongs).length := by
    rw [Memory.length_load, Shape.bckptr, List.length_replicate]
  obtain ⟨hb, hd⟩ := List.append_inj hlongs hlen
  exact ⟨hb.symm, hd.symm⟩

/-- Stores elsewhere leave a slot alone. -/
theorem store (h : z.Holds mem k i r) {a : ℕ} {ws : List Word}
    (hout : k * z.longs + z.longs ≤ a ∨ a + ws.length ≤ k * z.longs) :
    z.Holds (mem.store a ws) k i r := by
  have hsum := pointerLongs_add_length (z := z)
  refine ⟨?_, ?_⟩
  · rw [Memory.load_store_of_disjoint (by omega)]
    exact h.bckptr
  · rw [Memory.load_store_of_disjoint (by omega)]
    exact h.data

end Holds

/-! ## What a move does to the live records -/

theorem length_bckptr (p : Option ℕ) : (z.bckptr p).length = z.pointerLongs :=
  List.length_replicate

/-- Slots do not overlap. -/
theorem slot_apart {k m : ℕ} (h : k ≠ m) :
    k * z.longs + z.longs ≤ m * z.longs ∨ m * z.longs + z.longs ≤ k * z.longs := by
  rw [← Nat.succ_mul, ← Nat.succ_mul]
  rcases Nat.lt_or_gt_of_ne h with hlt | hgt
  · exact .inl (Nat.mul_le_mul_right _ hlt)
  · exact .inr (Nat.mul_le_mul_right _ hgt)

namespace Live

/-- No two pointers are to one slot. -/
theorem slot_inj (h : z.Live count v i lo mem slot) {j j' : ℕ} (hj : i ≤ j ∧ j ≤ count)
    (hj' : i ≤ j' ∧ j' ≤ count) (hk : slot j = some k) (hk' : slot j' = some k) : j = j' := by
  have hfirst := (h.holds j k hj.1 hj.2 hk).2.2.first
  rw [(h.holds j' k hj'.1 hj'.2 hk').2.2.first] at hfirst
  cases hfirst
  rfl

/-- A null pointer -/
theorem skip (h : z.Live count v i lo mem slot) (hi : slot i = none) :
    z.Live count v (i + 1) lo mem slot where
  holds j k hj := h.holds j k (Nat.le_of_succ_le hj)
  dead k hk hcount := by
    refine (h.dead k hk hcount).imp_left fun ⟨j, hij, hj, hslot⟩ => ⟨j, ?_, hj, hslot⟩
    refine Nat.lt_of_le_of_ne hij ?_
    rintro rfl
    rw [hi] at hslot
    cases hslot

/-- A slot without a live record -/
theorem pass (h : z.Live count v i lo mem slot) (hlo : mem (lo * z.longs) = .pointer none) :
    z.Live count v i (lo + 1) mem slot where
  holds j k hij hj hslot := by
    obtain ⟨hle, hlt, hrecord⟩ := h.holds j k hij hj hslot
    refine ⟨Nat.lt_of_le_of_ne hle ?_, hlt, hrecord⟩
    rintro rfl
    have hfirst := hrecord.first
    rw [hlo] at hfirst
    cases hfirst
  dead k hk := h.dead k (Nat.le_of_succ_le hk)

/-- The lower limit stops at a live record, before or at the one that is to be moved. -/
theorem advance (h : z.Live count v i lo mem slot) (hi : i ≤ count) (hk : slot i = some k)
    {fuel : ℕ} (hfuel : k < lo + fuel) :
    ∃ lo' q, lo ≤ lo' ∧ z.Live count v i lo' mem slot ∧ i ≤ q ∧ q ≤ count ∧ slot q = some lo' ∧
      z.advance mem (count * z.longs) fuel (lo * z.longs) = some (lo' * z.longs) := by
  obtain ⟨hle, hlt, -⟩ := h.holds i k (Nat.le_refl i) hi hk
  induction fuel generalizing lo with
  | zero => omega
  | succ fuel ih =>
      rw [Shape.advance]
      rcases h.dead lo (Nat.le_refl lo) (by omega) with ⟨q, hiq, hq, hslot⟩ | hdead
      · have hfirst := (h.holds q lo hiq hq hslot).2.2.first
        exact ⟨lo, q, Nat.le_refl lo, h, hiq, hq, hslot, by rw [hfirst]⟩
      · have hnext := h.pass hdead
        have hstop : lo * z.longs < count * z.longs :=
          Nat.mul_lt_mul_of_pos_right (by omega) (Nat.zero_lt_of_lt z.pointerLongs_lt)
        obtain ⟨lo', q, hlo', hlive⟩ :=
          ih hnext (by omega) (hnext.holds i k (Nat.le_refl i) hi hk).1
        refine ⟨lo', q, Nat.le_of_succ_le hlo', ?_⟩
        rw [hdead]
        dsimp only
        rw [if_pos hstop, ← Nat.succ_mul]
        exact hlive

/-- The record of pointer `i` has been moved to where no slot from the lower limit on is. -/
theorem clear (h : z.Live count v i lo mem slot) (hi : i ≤ count) (hk : slot i = some k) {a : ℕ}
    {ws : List Word} (ha : a + ws.length ≤ lo * z.longs) :
    z.Live count v (i + 1) lo ((mem.store (k * z.longs) (z.bckptr none)).store a ws) slot where
  holds j m hij hj hslot := by
    obtain ⟨hle, hlt, hrecord⟩ := h.holds j m (Nat.le_of_succ_le hij) hj hslot
    have hne : m ≠ k := by
      rintro rfl
      have := h.slot_inj ⟨Nat.le_refl i, hi⟩ ⟨Nat.le_of_succ_le hij, hj⟩ hk hslot
      omega
    have hapart := slot_apart (z := z) hne
    have hlow := Nat.mul_le_mul_right z.longs hle
    have hpointer := z.pointerLongs_lt
    refine ⟨hle, hlt, (hrecord.store ?_).store (.inr (ha.trans hlow))⟩
    rw [length_bckptr]
    omega
  dead m hm hcount := by
    have hlow := Nat.mul_le_mul_right z.longs hm
    by_cases hmk : m = k
    · subst hmk
      right
      rw [Memory.store_of_outside (by omega)]
      obtain ⟨ws, hws⟩ := bckptr_eq_cons (z := z) none
      have hstored := Memory.load_store mem (m * z.longs) (z.bckptr none)
      rw [hws] at hstored ⊢
      exact Memory.eq_of_load hstored
    · have hapart := slot_apart (z := z) hmk
      have hpointer := z.pointerLongs_lt
      rcases h.dead m hm hcount with ⟨j, hij, hj, hslot⟩ | hdead
      · refine .inl ⟨j, Nat.lt_of_le_of_ne hij ?_, hj, hslot⟩
        rintro rfl
        rw [hk] at hslot
        exact hmk (Option.some.inj hslot).symm
      · right
        rw [Memory.store_of_outside (by omega), Memory.store_of_outside (by rw [length_bckptr]; omega)]
        exact hdead

/-- The live record at the lower limit has been moved to the slot that the record of pointer `i`
leaves, and the latter to where no slot above the lower limit is. -/
theorem relocate (h : z.Live count v i lo mem slot) (hi : i ≤ count) (hk : slot i = some k) {q : ℕ}
    (hiq : i ≤ q) (hq : q ≤ count) (hqlo : slot q = some lo) {a : ℕ} {ws : List Word}
    (ha : a + ws.length ≤ (lo + 1) * z.longs) :
    z.Live count v (i + 1) (lo + 1)
      ((mem.store (k * z.longs) (mem.load (lo * z.longs) z.longs)).store a ws)
      (Function.update slot q (some k)) where
  holds j m hij hj hslot := by
    obtain ⟨hle, hlt, hrecord⟩ := h.holds i k (Nat.le_refl i) hi hk
    have hlower := (h.holds q lo hiq hq hqlo).2.2
    by_cases hjq : j = q
    · subst hjq
      rw [Function.update_self] at hslot
      obtain rfl := Option.some.inj hslot
      have hne : k ≠ lo := by
        rintro rfl
        have := h.slot_inj ⟨Nat.le_refl i, hi⟩ ⟨hiq, hq⟩ hk hqlo
        omega
      have hlow := Nat.mul_le_mul_right z.longs (show lo + 1 ≤ k by omega)
      refine ⟨by omega, hlt, Holds.store (Holds.of_load ?_) (.inr (ha.trans hlow))⟩
      have hstored := Memory.load_store mem (k * z.longs) (mem.load (lo * z.longs) z.longs)
      rw [Memory.length_load] at hstored
      rw [hstored, hlower.load]
    · rw [Function.update_of_ne hjq] at hslot
      obtain ⟨hmle, hmlt, hm⟩ := h.holds j m (Nat.le_of_succ_le hij) hj hslot
      have hmlo : m ≠ lo := by
        rintro rfl
        exact hjq (h.slot_inj ⟨Nat.le_of_succ_le hij, hj⟩ ⟨hiq, hq⟩ hslot hqlo)
      have hmk : m ≠ k := by
        rintro rfl
        have := h.slot_inj ⟨Nat.le_refl i, hi⟩ ⟨Nat.le_of_succ_le hij, hj⟩ hk hslot
        omega
      have hlow := Nat.mul_le_mul_right z.longs (show lo + 1 ≤ m by omega)
      have hapart := slot_apart (z := z) hmk
      refine ⟨by omega, hmlt, (hm.store ?_).store (.inr (ha.trans hlow))⟩
      rwa [Memory.length_load]
  dead m hm hcount := by
    have hlow := Nat.mul_le_mul_right z.longs hm
    by_cases hmk : m = k
    · subst hmk
      refine .inl ⟨q, Nat.lt_of_le_of_ne hiq ?_, hq, Function.update_self q _ slot⟩
      rintro rfl
      rw [hk] at hqlo
      have := Option.some.inj hqlo
      omega
    · rcases h.dead m (Nat.le_of_succ_le hm) hcount with ⟨j, hij, hj, hslot⟩ | hdead
      · refine .inl ⟨j, Nat.lt_of_le_of_ne hij ?_, hj, ?_⟩
        · rintro rfl
          rw [hk] at hslot
          exact hmk (Option.some.inj hslot).symm
        · rw [Function.update_of_ne, hslot]
          rintro rfl
          rw [hqlo] at hslot
          have := Option.some.inj hslot
          omega
      · have hapart := slot_apart (z := z) hmk
        have hpos : 0 < z.longs := Nat.zero_lt_of_lt z.pointerLongs_lt
        right
        rw [Memory.store_of_outside (by omega),
          Memory.store_of_outside (by rw [Memory.length_load]; omega)]
        exact hdead

end Live

/-! ## The whole pass -/

/-- A record is added to the output. -/
theorem load_append {a : ℕ} {out : List Word} (hout : mem.load 0 a = out) (ws : List Word) :
    (mem.store a ws).load 0 (a + ws.length) = out ++ ws := by
  have hfront : (mem.store a ws).load 0 a = out := by
    rw [Memory.load_store_of_disjoint (by omega), hout]
  rw [Memory.load_add, hfront, Nat.zero_add, Memory.load_store]

/-- One record is moved. -/
theorem Ordered.move (h : z.Ordered count v out i lo s) (hi : i ≤ count) (hk : s.slot i = some k) :
    ∃ s' lo', z.move count s k = some s' ∧ z.Ordered count v (out ++ [v i]) (i + 1) lo' s' ∧
      ∀ j, (s'.slot j).isSome = (s.slot j).isSome := by
  obtain ⟨mem, slot, output, lower⟩ := s
  obtain ⟨houtput, hlower, hroom, hwritten, hlive⟩ := h
  dsimp only at houtput hlower hwritten hlive hk ⊢
  subst houtput hlower
  obtain ⟨hle, hlt, -⟩ := hlive.holds i k (Nat.le_refl i) hi hk
  obtain ⟨lo', q, hlo', hlive', hiq, hq, hqlo, hadvance⟩ :=
    hlive.advance hi hk (show k < lo + (count + 1) by omega)
  obtain ⟨hle', -, hrecord⟩ := hlive'.holds i k (Nat.le_refl i) hi hk
  have hroom' : out.length * z.length ≤ lo' * z.longs :=
    hroom.trans (Nat.mul_le_mul_right _ hlo')
  have hlongs := pointerLongs_add_length (z := z)
  have hpointer := z.pointerLongs_pos
  have hdata : (mem.load (k * z.longs + z.pointerLongs) z.length).length = z.length :=
    Memory.length_load _ _ _
  have hflatten : words (out ++ [v i]).flatten =
      words out.flatten ++ mem.load (k * z.longs + z.pointerLongs) z.length := by
    rw [hrecord.data, List.flatten_append, List.flatten_singleton, words, List.map_append]
    rfl
  have hcount : (out ++ [v i]).length * z.length = out.length * z.length + z.length := by
    rw [List.length_append, List.length_singleton, Nat.succ_mul]
  rw [Shape.move, hadvance]
  dsimp only [Option.bind_eq_bind, Option.bind_some]
  have hlow := Nat.mul_le_mul_right z.longs hle'
  have hstore : ∀ m : Memory Word, m.load 0 (out.length * z.length) = words out.flatten →
      (m.store (out.length * z.length)
        (mem.load (k * z.longs + z.pointerLongs) z.length)).load 0
        ((out ++ [v i]).length * z.length) = words (out ++ [v i]).flatten := by
    intro m hm
    have happend := load_append hm (mem.load (k * z.longs + z.pointerLongs) z.length)
    rwa [hdata, ← hcount, ← hflatten] at happend
  -- the key of a record never stands at the lower limit, where back pointers are
  rw [if_neg (by omega)]
  split
  · rename_i hfits
    refine ⟨_, lo', rfl, ⟨hcount.symm, rfl, by omega, hstore _ ?_, ?_⟩, fun j => rfl⟩
    · rw [Memory.load_store_of_disjoint (by omega), hwritten]
    · exact hlive'.clear hi hk (by rw [hdata]; omega)
  · rw [(hlive'.holds q lo' hiq hq hqlo).2.2.first]
    have hnext : (lo' + 1) * z.longs = lo' * z.longs + z.longs := Nat.succ_mul _ _
    refine ⟨_, lo' + 1, rfl, ⟨hcount.symm, hnext.symm, by omega, hstore _ ?_, ?_⟩, fun j => ?_⟩
    · rw [Memory.load_store_of_disjoint (by omega), hwritten]
    · exact hlive'.relocate hi hk hiq hq hqlo (by rw [hdata]; omega)
    · dsimp only
      rw [Function.update_apply]
      split
      · rename_i hjq
        rw [hjq, hqlo]
        rfl
      · rfl

/-- The records of the pointers from `i` on that are not null -/
def kept (v : ℕ → List ULONG) (slot : ℕ → Option ℕ) : ℕ → ℕ → List (List ULONG)
  | 0, _ => []
  | n + 1, i => if (slot i).isSome then v i :: kept v slot n (i + 1) else kept v slot n (i + 1)

theorem kept_congr {slot' : ℕ → Option ℕ} (h : ∀ j, (slot' j).isSome = (slot j).isSome) (n : ℕ) :
    kept v slot' n i = kept v slot n i := by
  induction n generalizing i with
  | zero => rfl
  | succ n ih => rw [kept, kept, h, ih]

/-- The records of the pointers that are left are moved one after the other. -/
theorem Ordered.moveAll (h : z.Ordered count v out i lo s) {n : ℕ} (hn : i + n = count + 1) :
    ∃ s' lo', z.moveAll count n s i = some s' ∧
      z.Ordered count v (out ++ kept v s.slot n i) (count + 1) lo' s' := by
  induction n generalizing i lo s out with
  | zero =>
      obtain rfl : i = count + 1 := hn
      exact ⟨s, lo, rfl, by rwa [kept, List.append_nil]⟩
  | succ n ih =>
      rw [Shape.moveAll, Shape.moveNext, kept]
      cases hk : s.slot i with
      | none =>
          have hskip : z.Ordered count v out (i + 1) lo s :=
            ⟨h.output, h.lower, h.room, h.written, h.live.skip hk⟩
          exact ih hskip (by omega)
      | some k =>
          obtain ⟨s₁, lo₁, hmove, hordered, hslots⟩ := h.move (by omega) hk
          obtain ⟨s₂, lo₂, hall, hdone⟩ := ih hordered (by omega)
          refine ⟨s₂, lo₂, ?_, ?_⟩
          · dsimp only [Option.bind_eq_bind]
            rw [hmove]
            exact hall
          · rwa [kept_congr hslots, List.append_assoc] at hdone

/-! ## Main result -/

/-- The sort memory when `order` is called: each pointer is null or to the slot of a record whose
back pointer names it, and the back pointers of the other records are cleared. -/
structure Filled (count : ℕ) (mem : Memory Word) (slot : ℕ → Option ℕ) (v : ℕ → List ULONG) :
    Prop where
  holds : ∀ i k, 1 ≤ i → i ≤ count → slot i = some k → k < count ∧ z.Holds mem k i (v i)
  cleared : ∀ k < count,
    (∃ i, 1 ≤ i ∧ i ≤ count ∧ slot i = some k) ∨
      mem.load (k * z.longs) z.pointerLongs = z.bckptr none

/-- `order` returns the number of the pointers that are not null, and their records stand behind
each other in the order of the pointers. -/
theorem order_moves (h : z.Filled count mem slot v) :
    ∃ mem', z.order count mem slot = some (mem', (kept v slot count 1).length) ∧
      mem'.load 0 ((kept v slot count 1).length * z.length) = words (kept v slot count 1).flatten := by
  have hstart : z.Ordered count v [] 1 0 { mem, slot, output := 0, lower := 0 } := by
    refine ⟨(Nat.zero_mul _).symm, (Nat.zero_mul _).symm, ?_, ?_, ?_, fun k _ hk => ?_⟩
    · rw [List.length_nil, Nat.zero_mul, Nat.zero_mul]
    · rw [List.length_nil, Nat.zero_mul]
      rfl
    · intro j k hj hcount hslot
      exact ⟨Nat.zero_le k, h.holds j k hj hcount hslot⟩
    · refine (h.cleared k hk).imp_right fun hload => ?_
      obtain ⟨ws, hws⟩ := bckptr_eq_cons (z := z) none
      exact Memory.eq_of_load (hload.trans hws)
  obtain ⟨s, lo, hall, hordered⟩ := hstart.moveAll (Nat.add_comm 1 count)
  rw [List.nil_append] at hordered
  refine ⟨s.mem, ?_, hordered.written⟩
  rw [order, hall]
  dsimp only [Option.bind_eq_bind, Option.bind_some]
  rw [hordered.output, Nat.mul_div_cancel _ length_pos]

/-- Back pointers of one longword, records of two -/
def twoLongs : Shape := ⟨1, 3, Nat.one_pos, by decide⟩

/-- Three records, of which the one in the middle of the order has been rejected -/
def threeRecords : Memory Word := fun p =>
  [.pointer (some 3), .long 7, .long 8, .pointer (some 1), .long 3, .long 4, .pointer none, .long 3,
    .long 4].getD p (.pointer none)

/-- The pointers to them -/
def threeSlots : ℕ → Option ℕ
  | 1 => some 1
  | 3 => some 0
  | _ => none

/-- The keys and data -/
def threeKeys : ℕ → List ULONG
  | 3 => [7, 8]
  | _ => [3, 4]

theorem filled_threeRecords : twoLongs.Filled 3 threeRecords threeSlots threeKeys where
  holds := by
    intro i k h1 h3 hslot
    have hi : i = 1 ∨ i = 2 ∨ i = 3 := by omega
    rcases hi with rfl | rfl | rfl
    · cases hslot
      exact ⟨by decide, rfl, rfl⟩
    · cases hslot
    · cases hslot
      exact ⟨by decide, rfl, rfl⟩
  cleared := by
    intro k hk
    have hk' : k = 0 ∨ k = 1 ∨ k = 2 := by omega
    rcases hk' with rfl | rfl | rfl
    · exact .inl ⟨3, by decide, by decide, rfl⟩
    · exact .inl ⟨1, by decide, by decide, rfl⟩
    · exact .inr rfl

/-- The record of the first pointer goes to where that of the last one stands. -/
theorem order_moves_threeRecords :
    ∃ mem', twoLongs.order 3 threeRecords threeSlots = some (mem', 2) ∧
      mem'.load 0 4 = [.long 3, .long 4, .long 7, .long 8] :=
  order_moves filled_threeRecords

end Shape

end Firebird.Sort
