import Firebird.Sbm.Sets

/-! # `SBM_and` and `SBM_or` on sets

Both loops go through the slots of the shorter bitmap. What is done with the two slots of one number
keeps the representation of both operands, and gives the intersection or the union in one of them.
-/

namespace Firebird.Bitmap.Sbm

variable {α : Type} [LawfulChunk α] {map1 map2 : Sbm α} {n x y slot cap : ℕ}

/-- A number is in what a slot holds. -/
def InSlot (s : Option α) (y : ℕ) : Prop := ∃ c ∈ s, LawfulChunk.Mem c y

theorem inSlot_some {c : α} : InSlot (some c) y ↔ LawfulChunk.Mem c y := exists_mem_some

theorem not_inSlot_none : ¬ InSlot (none : Option α) y := not_exists_mem_none

/-! ## The slots -/

theorem andSlot_of_none (map2 : Sbm α) (h : map1.segments slot = none) :
    andSlot map1 map2 slot = (none, map2.segments slot) := by
  rw [andSlot, h]

theorem andSlot_of_some (h : map1.Ok cap) {c : α} (hc : map1.segments slot = some c) :
    andSlot map1 map2 slot = Chunk.and c (map2.segments slot) := by
  rw [andSlot, hc]
  dsimp only
  rw [if_pos (h.le_highWater hc)]

theorem ok_andSlot (h1 : map1.Ok cap) (h2 : map2.Ok cap) (slot : ℕ) :
    (∀ c ∈ (andSlot map1 map2 slot).1, LawfulChunk.Ok c) ∧
      ∀ c ∈ (andSlot map1 map2 slot).2, LawfulChunk.Ok c := by
  cases hc : map1.segments slot with
  | none =>
      rw [andSlot_of_none _ hc]
      exact ⟨fun c hc => (nomatch hc), h2.ok slot⟩
  | some c =>
      rw [andSlot_of_some h1 hc]
      exact LawfulChunk.ok_and (h1.ok slot c hc) (h2.ok slot)

theorem inSlot_andSlot (h1 : map1.Ok cap) (h2 : map2.Ok cap) :
    InSlot (andSlot map1 map2 slot).1 y ↔
      InSlot (map1.segments slot) y ∧ InSlot (map2.segments slot) y := by
  cases hc : map1.segments slot with
  | none =>
      rw [andSlot_of_none _ hc]
      exact iff_of_false not_inSlot_none fun h => not_inSlot_none h.1
  | some c =>
      rw [andSlot_of_some h1 hc, inSlot_some]
      exact LawfulChunk.mem_and (h1.ok slot c hc) (h2.ok slot) y

/-- The loop of `SBM_and` -/
theorem andSlots_spec (h1 : map1.Ok cap) (h2 : map2.Ok cap) (hstate1 : map1.state = .plural)
    (hstate2 : map2.state = .plural) (hle : map1.highWater ≤ map2.highWater) :
    (andSlots map1 map2).1.Ok cap ∧ (andSlots map1 map2).2.Ok cap ∧
      ∀ x, (andSlots map1 map2).1.Mem x ↔ map1.Mem x ∧ map2.Mem x := by
  refine ⟨?_, ?_, fun x => ?_⟩
  · refine h1.of_plural ⟨rfl, rfl, rfl⟩ hstate1 (fun i hi => ?_) h1.highWater_lt
      fun i => (ok_andSlot h1 h2 i).1
    exact congrArg Prod.fst (andSlot_of_none _ (h1.above i hi))
  · refine h2.of_plural ⟨rfl, rfl, rfl⟩ hstate2 (fun i hi => ?_) h2.highWater_lt
      fun i => (ok_andSlot h1 h2 i).2
    have hnone := andSlot_of_none map2 (h1.above i (hle.trans_lt hi))
    exact (congrArg Prod.snd hnone).trans (h2.above i hi)
  · rw [mem_of_plural (m := (andSlots map1 map2).1) hstate1, mem_of_plural hstate1,
      mem_of_plural hstate2]
    exact inSlot_andSlot h1 h2

theorem orSlot_of_none (map1 : Sbm α) (h : map2.segments slot = none) :
    orSlot map1 map2 slot = (map1.segments slot, none) := by
  rw [orSlot, h]

theorem orSlot_of_some (h : map2.Ok cap) {c : α} (hc : map2.segments slot = some c) :
    orSlot map1 map2 slot = Chunk.or (map1.segments slot) c := by
  rw [orSlot, hc]
  dsimp only
  rw [if_pos (h.le_highWater hc)]

theorem ok_orSlot (h1 : map1.Ok cap) (h2 : map2.Ok cap) (slot : ℕ) :
    (∀ c ∈ (orSlot map1 map2 slot).1, LawfulChunk.Ok c) ∧
      ∀ c ∈ (orSlot map1 map2 slot).2, LawfulChunk.Ok c := by
  cases hc : map2.segments slot with
  | none =>
      rw [orSlot_of_none _ hc]
      exact ⟨h1.ok slot, fun c hc => nomatch hc⟩
  | some c =>
      rw [orSlot_of_some h2 hc]
      exact LawfulChunk.ok_or (h1.ok slot) (h2.ok slot c hc)

theorem inSlot_orSlot (h1 : map1.Ok cap) (h2 : map2.Ok cap) :
    InSlot (orSlot map1 map2 slot).1 y ↔
      InSlot (map1.segments slot) y ∨ InSlot (map2.segments slot) y := by
  cases hc : map2.segments slot with
  | none =>
      rw [orSlot_of_none _ hc]
      exact (or_iff_left not_inSlot_none).symm
  | some c =>
      rw [orSlot_of_some h2 hc, inSlot_some]
      exact LawfulChunk.mem_or (h1.ok slot) (h2.ok slot c hc) y

/-- The loop of `SBM_or` -/
theorem orSlots_spec (h1 : map1.Ok cap) (h2 : map2.Ok cap) (hstate1 : map1.state = .plural)
    (hstate2 : map2.state = .plural) (hle : map2.highWater ≤ map1.highWater) :
    (orSlots map1 map2).1.Ok cap ∧ (orSlots map1 map2).2.Ok cap ∧
      ∀ x, (orSlots map1 map2).1.Mem x ↔ map1.Mem x ∨ map2.Mem x := by
  refine ⟨?_, ?_, fun x => ?_⟩
  · refine h1.of_plural ⟨rfl, rfl, rfl⟩ hstate1 (fun i hi => ?_) h1.highWater_lt
      fun i => (ok_orSlot h1 h2 i).1
    have hnone := orSlot_of_none map1 (h2.above i (hle.trans_lt hi))
    exact (congrArg Prod.fst hnone).trans (h1.above i hi)
  · refine h2.of_plural ⟨rfl, rfl, rfl⟩ hstate2 (fun i hi => ?_) h2.highWater_lt
      fun i => (ok_orSlot h1 h2 i).2
    exact congrArg Prod.snd (orSlot_of_none _ (h2.above i hi))
  · rw [mem_of_plural (m := (orSlots map1 map2).1) hstate1, mem_of_plural hstate1,
      mem_of_plural hstate2]
    exact inSlot_orSlot h1 h2

/-! ## The states -/

/-- Two operands after a function, and which of them is the result -/
structure Result (cap : ℕ) (map1 map2 : Sbm α) (S : ℕ → Prop)
    (r : Option Operand × Sbm α × Sbm α) : Prop where
  ok1 : r.2.1.Ok cap
  ok2 : r.2.2.Ok cap
  size1 : r.2.1.size = map1.size
  size2 : r.2.2.size = map2.size
  mem : ∀ x, (∃ o ∈ r.1, (o.of r.2.1 r.2.2).Mem x) ↔ S x

theorem eq_plural {s : State} (hempty : s ≠ .empty) (hone : s ≠ .singular) : s = .plural := by
  cases s with
  | empty => exact absurd rfl hempty
  | singular => exact absurd rfl hone
  | plural => rfl

/-- `SBM_and` is the intersection. -/
theorem and_spec (h1 : map1.Ok cap) (h2 : map2.Ok cap) :
    Result cap map1 map2 (fun x => map1.Mem x ∧ map2.Mem x) (map1.and map2) := by
  rw [and]
  split
  · rename_i hempty
    refine ⟨h1, h2, rfl, rfl, fun x => iff_of_false not_exists_mem_none fun hx => ?_⟩
    rcases hempty with hempty | hempty
    · exact mem_of_empty hempty x hx.1
    · exact mem_of_empty hempty x hx.2
  rename_i hempty
  rw [not_or] at hempty
  split
  · -- the number of the first operand is looked for in the second
    rename_i hone
    refine ⟨h1, h2, rfl, rfl, fun x => ?_⟩
    have hx := mem_of_singular (n := x) hone
    by_cases htest : map2.test map1.number = true
    · rw [if_pos htest, exists_mem_some, Operand.of]
      refine (and_iff_left_of_imp fun hmem => ?_).symm
      rw [hx.mp hmem]
      exact (test_iff h2 _).mp htest
    · rw [if_neg htest]
      refine iff_of_false not_exists_mem_none fun hmem => htest ((test_iff h2 _).mpr ?_)
      rw [← hx.mp hmem.1]
      exact hmem.2
  rename_i hone1
  split
  · rename_i hone
    refine ⟨h1, h2, rfl, rfl, fun x => ?_⟩
    have hx := mem_of_singular (n := x) hone
    by_cases htest : map1.test map2.number = true
    · rw [if_pos htest, exists_mem_some, Operand.of]
      refine (and_iff_right_of_imp fun hmem => ?_).symm
      rw [hx.mp hmem]
      exact (test_iff h1 _).mp htest
    · rw [if_neg htest]
      refine iff_of_false not_exists_mem_none fun hmem => htest ((test_iff h1 _).mpr ?_)
      rw [← hx.mp hmem.2]
      exact hmem.1
  rename_i hone2
  have hstate1 := eq_plural hempty.1 hone1
  have hstate2 := eq_plural hempty.2 hone2
  split
  · rename_i hlt
    obtain ⟨hok1, hok2, hmem⟩ := andSlots_spec h2 h1 hstate2 hstate1 hlt.le
    refine ⟨hok2, hok1, rfl, rfl, fun x => ?_⟩
    rw [exists_mem_some, Operand.of, hmem, and_comm]
  · rename_i hge
    obtain ⟨hok1, hok2, hmem⟩ := andSlots_spec h1 h2 hstate1 hstate2 (Nat.le_of_not_lt hge)
    refine ⟨hok1, hok2, rfl, rfl, fun x => ?_⟩
    rw [exists_mem_some, Operand.of, hmem]

theorem orPlural_spec (h1 : map1.Ok cap) (h2 : map2.Ok cap) (hstate1 : map1.state = .plural)
    (hstate2 : map2.state = .plural) :
    Result cap map1 map2 (fun x => map1.Mem x ∨ map2.Mem x)
      ((map1.orPlural map2).map some id) := by
  rw [orPlural]
  split
  · rename_i hlt
    obtain ⟨hok1, hok2, hmem⟩ := orSlots_spec h2 h1 hstate2 hstate1 hlt.le
    refine ⟨hok2, hok1, rfl, rfl, fun x => ?_⟩
    refine exists_mem_some.trans ?_
    rw [or_comm]
    exact hmem x
  · rename_i hge
    obtain ⟨hok1, hok2, hmem⟩ := orSlots_spec h1 h2 hstate1 hstate2 (Nat.le_of_not_lt hge)
    exact ⟨hok1, hok2, rfl, rfl, fun x => exists_mem_some.trans (hmem x)⟩

/-- `SBM_or` on buckets is the union. -/
theorem or_spec (h1 : map1.Ok cap) (h2 : map2.Ok cap) (hsize1 : map1.size = cap)
    (hsize2 : map2.size = cap) :
    Result cap map1 map2 (fun x => map1.Mem x ∨ map2.Mem x) ((map1.or map2).map some id) := by
  rw [or]
  split
  · rename_i hempty
    refine ⟨h1, h2, rfl, rfl, fun x => exists_mem_some.trans ?_⟩
    exact (or_iff_right (mem_of_empty hempty x)).symm
  rename_i hempty1
  split
  · rename_i hempty
    refine ⟨h1, h2, rfl, rfl, fun x => exists_mem_some.trans ?_⟩
    exact (or_iff_left (mem_of_empty hempty x)).symm
  rename_i hempty2
  split
  · rename_i hone
    obtain ⟨hok, hsize, hmem⟩ := set_spec h2 hsize2 h1.number_lt
    refine ⟨h1, hok, rfl, hsize.trans hsize2.symm, fun x => exists_mem_some.trans ?_⟩
    rw [or_comm, mem_of_singular hone]
    exact hmem x
  rename_i hone1
  split
  · rename_i hone
    obtain ⟨hok, hsize, hmem⟩ := set_spec h1 hsize1 h2.number_lt
    refine ⟨hok, h2, hsize.trans hsize1.symm, rfl, fun x => exists_mem_some.trans ?_⟩
    rw [mem_of_singular hone]
    exact hmem x
  rename_i hone2
  exact orPlural_spec h1 h2 (eq_plural hempty1 hone1) (eq_plural hempty2 hone2)

end Firebird.Bitmap.Sbm
