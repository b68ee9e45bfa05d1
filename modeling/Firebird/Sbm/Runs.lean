import Firebird.Lib.Transition
import Firebird.Sbm.Successor

/-! # Runs on bitmaps

Any number of bitmaps, and the functions on them in any order. `SBM_and` and `SBM_or` may destroy
their operands, and both can be used afterwards.
-/

namespace Firebird.Bitmap

open Transition (System Reachable)

/-- A call of one of the functions on the bitmaps with these numbers -/
inductive Op
  | set (v n : ℕ)
  | clear (v n : ℕ)
  | reset (v : ℕ)
  | and (v w : ℕ)
  | or (v w : ℕ)
  | next (mode : Mode) (v : ℕ) (n : ℤ)

/-- The bitmaps, `NULL` at first -/
abbrev Bitmaps := ℕ → Option Root

/-- Numbers are not negative, and two operands are not one bitmap. -/
def Op.Legal : Op → Prop
  | .set _ n => n < 2 ^ 31
  | .clear _ n => n < 2 ^ 31
  | .reset _ => True
  | .and v w => v ≠ w
  | .or v w => v ≠ w
  | .next _ _ n => -1 ≤ n ∧ n < 2 ^ 31

/-- The bitmaps after a call, `none` if it does not return -/
def exec (layout : Layout) (s : Bitmaps) : Op → Option Bitmaps
  | .set v n => (sbmSet layout (s v) n).map fun m => Function.update s v (some m)
  | .clear v n => some (Function.update s v (sbmClear (s v) n).2)
  | .reset v => some (Function.update s v ((s v).map Sbm.reset))
  | .and v w =>
      let r := sbmAnd (s v) (s w)
      some (Function.update (Function.update s v r.2.1) w r.2.2)
  | .or v w =>
      (sbmOr layout (s v) (s w)).map fun r =>
        Function.update (Function.update s v r.2.1) w r.2.2
  | .next mode v n => some (Function.update s v (sbmNext mode (s v) n).2)

/-- The runs on bitmaps -/
def system (layout : Layout) : System Bitmaps Op where
  init s := ∀ v, s v = none
  step s op s' := op.Legal ∧ exec layout s op = some s'

/-- No vector is extended to more slots than fit into a `USHORT`. -/
def OpFits (s : Bitmaps) : Op → Prop
  | .set v n => SetFits (s v) n
  | .or v w => OrFits (s v) (s w)
  | _ => True

variable {layout : Layout} {s s' : Bitmaps} {v w : ℕ} {bitmap : Option Root}

theorem valid_update (h : ∀ v, Valid (s v)) (hv : Valid bitmap) :
    ∀ v', Valid (Function.update s v bitmap v') := by
  intro v'
  by_cases heq : v' = v
  · rw [heq, Function.update_self]
    exact hv
  · rw [Function.update_of_ne heq]
    exact h v'

theorem valid_sbmClear (h : Valid bitmap) (n : ℕ) : Valid (sbmClear bitmap n).2 := by
  cases bitmap with
  | none => exact h
  | some m =>
      refine Valid.some ⟨(Sbm.clear_spec (h m rfl).sbm n).1, ?_⟩
      exact (Sbm.size_clear m n).trans_lt (h m rfl).size_lt

theorem valid_reset (h : Valid bitmap) : Valid (bitmap.map Sbm.reset) := by
  cases bitmap with
  | none => exact h
  | some m => exact Valid.some (reset_spec (h m rfl)).1

/-- The calls with numbers that `SBM_next` is wrong for -/
def Missed (mode : Mode) (bitmap : Option Root) (n : ℤ) : Prop :=
  ∃ m ∈ bitmap, Root.Missed mode m n

/-- What `SBM_next` finds, and leaves -/
theorem sbmNext_spec (h : Valid bitmap) (mode : Mode) {n : ℤ} (hlow : -1 ≤ n) (hhigh : n < 2 ^ 31) :
    Valid (sbmNext mode bitmap n).2 ∧
      (∀ x, Holds (sbmNext mode bitmap n).2 x ↔ Holds bitmap x) ∧
        (Right (Holds bitmap) mode n (sbmNext mode bitmap n).1 ↔ ¬ Missed mode bitmap n) := by
  cases bitmap with
  | none =>
      refine ⟨h, fun x => Iff.rfl, iff_of_true ?_ not_exists_mem_none⟩
      change Ahead (Holds none) mode n = ∅
      rw [Set.eq_empty_iff_forall_notMem]
      cases mode <;> exact fun y hy => not_holds_none hy.1
  | some m =>
      obtain ⟨hsame, hiff⟩ := Root.next_spec (h m rfl) mode hlow hhigh
      refine ⟨Valid.some hsame.ok, fun x => ?_, ?_⟩
      · refine holds_some.trans ((hsame.mem_iff x).trans holds_some.symm)
      · have hset : Holds (some m) = Sbm.Mem m := funext fun x => propext holds_some
        rw [hset, Missed, exists_mem_some]
        exact hiff

/-- The representation is kept by a call that fits. -/
theorem valid_exec {op : Op} (h : ∀ v, Valid (s v)) (hlegal : op.Legal) (hfits : OpFits s op)
    (hexec : exec layout s op = some s') : ∀ v, Valid (s' v) := by
  cases op with
  | set v n =>
      obtain ⟨m, hm, hok, -⟩ := sbmSet_spec layout (h v) hlegal hfits
      rw [exec, hm] at hexec
      cases hexec
      exact valid_update h (Valid.some hok)
  | clear v n =>
      cases hexec
      exact valid_update h (valid_sbmClear (h v) n)
  | reset v =>
      cases hexec
      exact valid_update h (valid_reset (h v))
  | and v w =>
      cases hexec
      obtain ⟨hv, hw, -⟩ := sbmAnd_spec (h v) (h w)
      exact valid_update (valid_update h hv) hw
  | or v w =>
      obtain ⟨r, hr, hv, hw, -⟩ := sbmOr_spec layout (h v) (h w) hfits
      rw [exec, hr] at hexec
      cases hexec
      exact valid_update (valid_update h hv) hw
  | next mode v n =>
      cases hexec
      exact valid_update h (sbmNext_spec (h v) mode hlegal.1 hlegal.2).1

/-- In every run whose calls fit, the bitmaps are represented as they should be. -/
theorem valid_of_reachable (h : Reachable ((system layout).restrict OpFits) s) :
    ∀ v, Valid (s v) := by
  refine Reachable.invariant (I := fun s => ∀ v, Valid (s v)) ?_ ?_ h
  · intro s hs v m hm
    rw [hs v] at hm
    cases hm
  · exact fun s op s' hs hstep => valid_exec hs hstep.1.1 hstep.2 hstep.1.2

/-! ## `SBM_next` -/

/-- In every run whose calls fit, `SBM_next` keeps the set, and finds the next number exactly if none
is missed. -/
theorem sbmNext_right_iff (h : Reachable ((system layout).restrict OpFits) s) (v : ℕ) (mode : Mode)
    (n : ℤ) (hn : -1 ≤ n ∧ n < 2 ^ 31) :
    (Right (Holds (s v)) mode n (sbmNext mode (s v) n).1 ↔ ¬ Missed mode (s v) n) ∧
      ∀ x, Holds (sbmNext mode (s v) n).2 x ↔ Holds (s v) x := by
  obtain ⟨-, hsame, hiff⟩ := sbmNext_spec (valid_of_reachable h v) mode hn.1 hn.2
  exact ⟨hiff, hsame⟩

def smallLayout : Layout := ⟨40, 4, by decide⟩

def noBitmaps : Bitmaps := fun _ => none

theorem init_noBitmaps : (system smallLayout).init noBitmaps := fun _ => rfl

/-- A number is set in one of the bitmaps. -/
def setIn (s : Bitmaps) (v n : ℕ) : Bitmaps := Function.update s v (sbmSet smallLayout (s v) n)

theorem reachable_noBitmaps : Reachable ((system smallLayout).restrict OpFits) noBitmaps :=
  .init init_noBitmaps

theorem step_setIn {n : ℕ} (hn : n < 2 ^ 31) (hsome : (sbmSet smallLayout (s v) n).isSome) :
    (system smallLayout).step s (.set v n) (setIn s v n) := by
  obtain ⟨m, hm⟩ := Option.isSome_iff_exists.mp hsome
  refine ⟨hn, ?_⟩
  rw [exec, setIn, hm]
  rfl

/-- Two numbers, each alone in its bucket -/
def twoBuckets : Bitmaps := setIn (setIn noBitmaps 0 5) 0 100000

theorem reachable_twoBuckets : Reachable ((system smallLayout).restrict OpFits) twoBuckets := by
  have hfirst : Reachable ((system smallLayout).restrict OpFits) (setIn noBitmaps 0 5) :=
    reachable_noBitmaps.step ⟨step_setIn (by decide) rfl, trivial⟩
  refine hfirst.step ⟨step_setIn (n := 100000) (by decide) rfl, ?_⟩
  exact ⟨.inl (by decide), .inl (.inl (by decide))⟩

/-- From the first of the two numbers on, the second one is found. -/
theorem sbmNext_right_twoBuckets :
    Right (Holds (twoBuckets 0)) .forward 5 (sbmNext .forward (twoBuckets 0) 5).1 ∧
      ∀ x, Holds (sbmNext .forward (twoBuckets 0) 5).2 x ↔ Holds (twoBuckets 0) x := by
  obtain ⟨hiff, hsame⟩ := sbmNext_right_iff reachable_twoBuckets 0 .forward 5 (by decide)
  refine ⟨hiff.mpr ?_, hsame⟩
  rintro ⟨m, hm, -, ⟨b, hb, -, hnumber⟩, -⟩
  cases hm
  cases hb
  revert hnumber
  decide

/-- The first of the two numbers is missed. -/
theorem sbmNext_not_right :
    ¬ ∀ (layout : Layout) (s : Bitmaps) (v : ℕ) (mode : Mode) (n : ℤ),
      Reachable (system layout) s → -1 ≤ n ∧ n < 2 ^ 31 →
        Right (Holds (s v)) mode n (sbmNext mode (s v) n).1 ∧
          ∀ x, Holds (sbmNext mode (s v) n).2 x ↔ Holds (s v) x := by
  intro hall
  have hright := (hall smallLayout twoBuckets 0 .forward 4 reachable_twoBuckets.of_restrict
    (by decide)).1
  have hfound : (sbmNext .forward (twoBuckets 0) 4).1 = some 100000 := rfl
  have hmem : Holds (twoBuckets 0) 5 := ⟨_, rfl, _, rfl, rfl⟩
  rw [hfound] at hright
  have hle : 100000 ≤ 5 := hright.2 ⟨hmem, by decide⟩
  exact absurd hle (by decide)

/-! ## `SBM_and` and `SBM_or` -/

/-- `*SBM_and(&bitmap1, &bitmap2)` -/
def andResult (bitmap1 bitmap2 : Option Root) : Option Root :=
  let r := sbmAnd bitmap1 bitmap2
  r.1.bind fun o => o.of r.2.1 r.2.2

/-- `*SBM_or(&bitmap1, &bitmap2)`, if it returns -/
def orResult (layout : Layout) (bitmap1 bitmap2 : Option Root) : Option (Option Root) :=
  (sbmOr layout bitmap1 bitmap2).map fun r => r.1.of r.2.1 r.2.2

/-- A bitmap that is represented as it should be stands for a set, and `SBM_test` tells it. -/
def Denotes (bitmap : Option Root) (S : ℕ → Prop) : Prop :=
  Valid bitmap ∧ (∀ x, Holds bitmap x ↔ S x) ∧ ∀ x, sbmTest bitmap x = true ↔ S x

theorem sbmTest_iff (h : Valid bitmap) (x : ℕ) : sbmTest bitmap x = true ↔ Holds bitmap x := by
  cases bitmap with
  | none => exact iff_of_false Bool.false_ne_true not_holds_none
  | some m =>
      rw [holds_some]
      exact Sbm.test_iff (h m rfl).sbm x

theorem Valid.denotes (h : Valid bitmap) {S : ℕ → Prop} (hS : ∀ x, Holds bitmap x ↔ S x) :
    Denotes bitmap S :=
  ⟨h, hS, fun x => (sbmTest_iff h x).trans (hS x)⟩

theorem denotes_andResult {bitmap1 bitmap2 : Option Root} (h1 : Valid bitmap1)
    (h2 : Valid bitmap2) :
    Denotes (andResult bitmap1 bitmap2) fun x => Holds bitmap1 x ∧ Holds bitmap2 x := by
  obtain ⟨hv, hw, hmem⟩ := sbmAnd_spec h1 h2
  rw [andResult]
  generalize sbmAnd bitmap1 bitmap2 = r at hv hw hmem
  obtain ⟨o, b1, b2⟩ := r
  rcases o with - | (- | -)
  · have hnone : Valid none := fun m hm => nomatch hm
    refine hnone.denotes fun x => Iff.trans ?_ (hmem x)
    exact iff_of_false not_holds_none not_exists_mem_none
  · refine hv.denotes fun x => Iff.trans ?_ (hmem x)
    rw [exists_mem_some]
    rfl
  · refine hw.denotes fun x => Iff.trans ?_ (hmem x)
    rw [exists_mem_some]
    rfl

theorem denotes_orResult {bitmap1 bitmap2 : Option Root} (layout : Layout) (h1 : Valid bitmap1)
    (h2 : Valid bitmap2) (hfits : OrFits bitmap1 bitmap2) :
    ∃ m, orResult layout bitmap1 bitmap2 = some m ∧
      Denotes m fun x => Holds bitmap1 x ∨ Holds bitmap2 x := by
  obtain ⟨⟨o, b1, b2⟩, hr, hv, hw, hmem⟩ := sbmOr_spec layout h1 h2 hfits
  refine ⟨o.of b1 b2, by rw [orResult, hr]; rfl, ?_⟩
  cases o with
  | first => exact hv.denotes hmem
  | second => exact hw.denotes hmem

/-- In every run whose calls fit, `SBM_and` gives the intersection, and `SBM_or` the union. -/
theorem and_or_denote (h : Reachable ((system layout).restrict OpFits) s) (v w : ℕ) :
    Denotes (andResult (s v) (s w)) (fun x => Holds (s v) x ∧ Holds (s w) x) ∧
      (OpFits s (.or v w) → ∃ m, orResult layout (s v) (s w) = some m ∧
        Denotes m fun x => Holds (s v) x ∨ Holds (s w) x) := by
  have hvalid := valid_of_reachable h
  exact ⟨denotes_andResult (hvalid v) (hvalid w),
    fun hfits => denotes_orResult layout (hvalid v) (hvalid w) hfits⟩

/-- Two bitmaps -/
def twoBitmaps : Bitmaps := setIn (setIn noBitmaps 0 5) 1 7

theorem reachable_twoBitmaps : Reachable ((system smallLayout).restrict OpFits) twoBitmaps := by
  have hfirst : Reachable ((system smallLayout).restrict OpFits) (setIn noBitmaps 0 5) :=
    reachable_noBitmaps.step ⟨step_setIn (by decide) rfl, trivial⟩
  exact hfirst.step ⟨step_setIn (n := 7) (by decide) rfl, trivial⟩

theorem and_or_denote_twoBitmaps :
    Denotes (andResult (twoBitmaps 0) (twoBitmaps 1))
        (fun x => Holds (twoBitmaps 0) x ∧ Holds (twoBitmaps 1) x) ∧
      ∃ m, orResult smallLayout (twoBitmaps 0) (twoBitmaps 1) = some m ∧
        Denotes m fun x => Holds (twoBitmaps 0) x ∨ Holds (twoBitmaps 1) x := by
  obtain ⟨hand, hor⟩ := and_or_denote reachable_twoBitmaps 0 1
  refine ⟨hand, hor ?_⟩
  rintro map1 ⟨⟩ map2 ⟨⟩ - -
  exact ⟨fun _ => ⟨.inl (by decide), .inl (.inl (by decide))⟩, fun hne => absurd rfl hne⟩

/-- A number in the last but four of the slots there may be -/
def largeNumber : Bitmaps := setIn (setIn noBitmaps 0 2147319808) 1 5

/-- `sbm_count` becomes zero, and `SBM_or` does not return. -/
theorem or_not_denote :
    ¬ ∀ (layout : Layout) (s : Bitmaps) (v w : ℕ), Reachable (system layout) s → v ≠ w →
      Denotes (andResult (s v) (s w)) (fun x => Holds (s v) x ∧ Holds (s w) x) ∧
        ∃ m, orResult layout (s v) (s w) = some m ∧
          Denotes m fun x => Holds (s v) x ∨ Holds (s w) x := by
  intro hall
  have hfirst : Reachable (system smallLayout) (setIn noBitmaps 0 2147319808) :=
    reachable_noBitmaps.of_restrict.step (step_setIn (by decide) rfl)
  have hreach : Reachable (system smallLayout) largeNumber :=
    hfirst.step (step_setIn (by decide) rfl)
  obtain ⟨m, hm, -⟩ := (hall smallLayout largeNumber 0 1 hreach (by decide)).2
  have hnone : orResult smallLayout (largeNumber 0) (largeNumber 1) = none := rfl
  rw [hnone] at hm
  cases hm

end Firebird.Bitmap
