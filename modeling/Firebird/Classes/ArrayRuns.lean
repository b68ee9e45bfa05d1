import Firebird.Classes.Contents
import Firebird.Lib.Transition

/-! # Runs of array operations

Arrays of one type, and the operations on them in any order. The list that an array stands for is
read off its bytes.
-/

namespace Firebird.Classes

open Transition (System Reachable)

variable {p : Params}

namespace Array

/-- The elements `[0, count)` -/
def contents (a : Array p) : List (List UCHAR) :=
  (List.range a.count.toNat).map fun i => (a.data.drop (p.size * i)).take p.size

variable {a : Array p} {xs : List (Elem p)}

theorem Holds.contents_eq (h : a.Holds xs) : a.contents = xs.map Subtype.val := by
  have hcount : a.count.toNat = xs.length := by rw [h.count_eq, Int.toNat_natCast]
  refine List.ext_getElem ?_ fun i hi hi' => ?_
  · rw [contents, List.length_map, List.length_range, List.length_map, hcount]
  · have hlt : i < xs.length := by simpa using hi'
    have helement := element_eq h hlt rfl
    have hin : 0 ≤ p.off i ∧ p.off i + p.size ≤ a.data.length := by
      by_contra hout
      rw [element, Block.read, if_neg hout] at helement
      cases helement
    rw [element, Block.read_eq hin, Except.ok.injEq] at helement
    have hoff : (p.off i).toNat = p.size * i := by
      rw [Params.off, ← Nat.cast_mul, Int.toNat_natCast]
    rw [hoff] at helement
    simp only [contents, List.getElem_map, List.getElem_range, helement]

end Array

/-! ## Operations -/

/-- An operation on the array `i`, with the arrays that it reads -/
inductive Op (p : Params) where
  | construct (i : ℕ) (storage : List UCHAR) (initialCapacity : ℤ)
  | insert (i : ℕ) (index : ℤ) (item : Elem p)
  | insertArray (i : ℕ) (index : ℤ) (l : ℕ)
  | add (i : ℕ) (item : Elem p)
  | addItems (i : ℕ) (items : List (Elem p))
  | remove (i : ℕ) (index : ℤ)
  | removeRange (i : ℕ) (start stop : ℤ)
  | shrink (i : ℕ) (newCount : ℤ)
  | grow (i : ℕ) (newCount : ℤ)
  | join (i l : ℕ)
  | assign (i l : ℕ)
  | set (i : ℕ) (index : ℤ) (item : Elem p)
  | pop (i : ℕ)
  | getBuffer (i : ℕ) (capacityL : ℤ)
  | free (i : ℕ)
  | clear (i : ℕ)

namespace Op

/-- The array that is changed -/
def target : Op p → ℕ
  | construct i _ _ | insert i _ _ | insertArray i _ _ | add i _ | addItems i _ | remove i _
  | removeRange i _ _ | shrink i _ | grow i _ | join i _ | assign i _ | set i _ _ | pop i
  | getBuffer i _ | free i | clear i => i

/-- The array after the operation -/
def run (A : Allocator) (s : ℕ → Array p) : Op p → Except Fault (Array p)
  | construct _ storage initialCapacity => Array.constructWith p A storage initialCapacity
  | insert i index item => (s i).insert A index item
  | insertArray i index l => (s i).insertArray A index (s l)
  | add i item => (s i).add A item
  | addItems i items => (s i).addItems A items
  | remove i index => (s i).remove index
  | removeRange i start stop => (s i).removeRange start stop
  | shrink i newCount => .ok ((s i).shrink newCount)
  | grow i newCount => (s i).grow A newCount
  | join i l => (s i).join A (s l)
  | assign i l => (s i).assign A (s l)
  | set i index item => (s i).set index item
  | pop i => (s i).pop >>= fun r => .ok r.2
  | getBuffer i capacityL => (s i).getBuffer A capacityL
  | free i => .ok (s i).free
  | clear i => .ok (s i).clear

/-- The asserted preconditions, and arguments that are other arrays -/
def Asserted (s : ℕ → Array p) : Op p → Prop
  | construct _ storage _ => storage.length = p.size * p.storageSize
  | insert i index _ => 0 ≤ index ∧ index ≤ (s i).count
  | insertArray i index l => (0 ≤ index ∧ index ≤ (s i).count) ∧ i ≠ l
  | remove i index => 0 ≤ index ∧ index < (s i).count
  | removeRange i start stop => start ≤ stop ∧ stop ≤ (s i).count
  | shrink i newCount => newCount ≤ (s i).count
  | grow i newCount => (s i).count ≤ newCount
  | join i l => i ≠ l
  | assign i l => i ≠ l
  | set i index _ => 0 ≤ index ∧ index < (s i).count
  | pop i => 0 < (s i).count
  | add _ _ | addItems _ _ | getBuffer _ _ | free _ | clear _ => True

/-- What is not asserted: the counts are counts, there can be room for them, and an array is
inserted where its elements are single bytes or it has none. -/
def Meets (s : ℕ → Array p) : Op p → Prop
  | construct _ storage initialCapacity => (Array.construct p storage).Fits initialCapacity
  | insert i _ _ => (s i).Fits ((s i).count + 1)
  | insertArray i _ l =>
      (s i).Fits ((s i).count + (s l).count) ∧ (p.size = 1 ∨ (s l).count = 0)
  | add i _ => (s i).Fits ((s i).count + 1)
  | addItems i items => (s i).Fits ((s i).count + items.length)
  | removeRange _ start _ => 0 ≤ start
  | shrink _ newCount => 0 ≤ newCount
  | grow i newCount => (s i).Fits newCount
  | join i l => (s i).Fits ((s i).count + (s l).count)
  | assign i l => (s i).Fits (s l).count
  | getBuffer i capacityL => 0 ≤ capacityL ∧ (s i).Fits capacityL
  | remove _ _ | set _ _ _ | pop _ | free _ | clear _ => True

/-- The operation on lists: what the list `r` after it is, for the lists `c` before it -/
def Effect (c : ℕ → List (List UCHAR)) (r : List (List UCHAR)) : Op p → Prop
  | construct _ _ _ | free _ | clear _ => r = []
  | insert i index item => r = (c i).take index.toNat ++ [item.val] ++ (c i).drop index.toNat
  | insertArray i index l => r = (c i).take index.toNat ++ c l ++ (c i).drop index.toNat
  | add i item => r = c i ++ [item.val]
  | addItems i items => r = c i ++ items.map Subtype.val
  | remove i index => r = (c i).eraseIdx index.toNat
  | removeRange i start stop => r = (c i).take start.toNat ++ (c i).drop stop.toNat
  | shrink i newCount => r = (c i).take newCount.toNat
  | grow i newCount =>
      r = c i ++ List.replicate (newCount.toNat - (c i).length) (List.replicate p.size 0)
  | join i l => r = c i ++ c l
  | assign _ l => r = c l
  | set i index item => r = (c i).set index.toNat item.val
  | pop i => r = (c i).dropLast
  | getBuffer i capacityL =>
      r.length = capacityL.toNat ∧ (c i).take capacityL.toNat = r.take (c i).length

end Op

/-- The runs: an operation that an exception ends changes nothing. -/
def arrays (p : Params) : System (ℕ → Array p) (Allocator × Op p) where
  init s := ∀ i, ∃ storage, storage.length = p.size * p.storageSize ∧ s i = .construct p storage
  step s o s' := o.2.Asserted s ∧
    ((∃ a, o.2.run o.1 s = .ok a ∧ s' = Function.update s o.2.target a) ∨
      o.2.run o.1 s = .error .noMemory ∧ s' = s)

/-- Each array holds a list. -/
def Inv (s : ℕ → Array p) : Prop := ∀ i, ∃ xs, (s i).Holds xs

variable {s s' : ℕ → Array p} {A : Allocator} {op : Op p}

/-- An operation that leaves a list has its effect if that is what it says of the list. -/
theorem Op.Effect.of_holds {c : ℕ → List (List UCHAR)} {x : Except Fault (Array p)}
    {ys : List (Elem p)} (hx : Outcome.Holds (Array.Holds · ys) (· = Fault.noMemory) x)
    (he : op.Effect c (ys.map Subtype.val)) :
    Outcome.Holds (fun a => (∃ xs, a.Holds xs) ∧ op.Effect c a.contents) (· = Fault.noMemory) x := by
  refine hx.mono (fun a ha => ⟨⟨ys, ha⟩, ?_⟩) fun _ h => h
  rw [ha.contents_eq]
  exact he

/-- One operation -/
theorem Inv.run (h : Inv s) (hasserted : op.Asserted s) (hmeets : op.Meets s) :
    Outcome.Holds (fun a => (∃ xs, a.Holds xs) ∧ op.Effect (fun i => (s i).contents) a.contents)
      (· = Fault.noMemory) (op.run A s) := by
  obtain ⟨xs, hxs⟩ := h op.target
  have hcontents := hxs.contents_eq
  have hcount := hxs.count_eq
  cases op with
  | construct i storage initialCapacity =>
      exact Op.Effect.of_holds (Array.constructWith_holds hasserted hmeets) rfl
  | insert i index item =>
      obtain ⟨k, rfl⟩ := Int.eq_ofNat_of_zero_le hasserted.1
      refine Op.Effect.of_holds (Array.insert_holds hxs (i := k) ?_ rfl hmeets) ?_
      · have hle := hasserted.2
        simp only [Op.target] at hcount
        omega
      · simp only [Op.Effect, Op.target] at hcontents ⊢
        simp [hcontents]
  | insertArray i index l =>
      obtain ⟨ys, hys⟩ := h l
      obtain ⟨k, rfl⟩ := Int.eq_ofNat_of_zero_le hasserted.1.1
      refine Op.Effect.of_holds
        (Array.insertArray_holds hxs hys (i := k) ?_ rfl hmeets.1 hmeets.2) ?_
      · have hle := hasserted.1.2
        simp only [Op.target] at hcount
        omega
      · simp only [Op.Effect, Op.target] at hcontents ⊢
        simp [hcontents, hys.contents_eq]
  | add i item =>
      refine Op.Effect.of_holds (Array.add_holds hxs hmeets) ?_
      simp only [Op.Effect, Op.target] at hcontents ⊢
      simp [hcontents]
  | addItems i items =>
      refine Op.Effect.of_holds (Array.addItems_holds hxs hmeets) ?_
      simp only [Op.Effect, Op.target] at hcontents ⊢
      simp [hcontents]
  | remove i index =>
      obtain ⟨k, rfl⟩ := Int.eq_ofNat_of_zero_le hasserted.1
      have hlt := hasserted.2
      simp only [Op.target] at hcount hcontents
      refine Op.Effect.of_holds (Array.remove_holds hxs (i := k) (by omega) rfl) ?_
      simp only [Op.Effect]
      rw [hcontents, Int.toNat_natCast, List.eraseIdx_eq_take_drop_succ]
      simp
  | removeRange i start stop =>
      obtain ⟨k, rfl⟩ := Int.eq_ofNat_of_zero_le hmeets
      obtain ⟨m, rfl⟩ := Int.eq_ofNat_of_zero_le (le_trans hmeets hasserted.1)
      have hle := hasserted.2
      have hkm := hasserted.1
      simp only [Op.target] at hcount hcontents
      refine Op.Effect.of_holds (Array.removeRange_holds hxs (i := k) (j := m) (by omega)
        (by omega) rfl rfl) ?_
      simp only [Op.Effect]
      simp [hcontents]
  | shrink i newCount =>
      obtain ⟨k, rfl⟩ := Int.eq_ofNat_of_zero_le hmeets
      have hle : (k : ℤ) ≤ (s i).count := hasserted
      simp only [Op.target] at hcount hcontents
      refine Op.Effect.of_holds (x := .ok _) (Array.shrink_holds hxs (k := k) (by omega) rfl) ?_
      simp only [Op.Effect]
      simp [hcontents]
  | grow i newCount =>
      have hle : (s i).count ≤ newCount := hasserted
      simp only [Op.target] at hcount hcontents
      refine Op.Effect.of_holds (Array.grow_holds hxs hle hmeets) ?_
      have hnum : (newCount - (s i).count).toNat = newCount.toNat - xs.length := by omega
      simp only [Op.Effect]
      simp [hcontents, hnum, Array.zero]
  | join i l =>
      obtain ⟨ys, hys⟩ := h l
      refine Op.Effect.of_holds (Array.join_holds hxs hys hmeets) ?_
      simp only [Op.Effect, Op.target] at hcontents ⊢
      simp [hcontents, hys.contents_eq]
  | assign i l =>
      obtain ⟨ys, hys⟩ := h l
      refine Op.Effect.of_holds (Array.assign_holds hxs hys hmeets) ?_
      exact hys.contents_eq.symm
  | set i index item =>
      obtain ⟨k, rfl⟩ := Int.eq_ofNat_of_zero_le hasserted.1
      have hlt := hasserted.2
      simp only [Op.target] at hcount hcontents
      refine Op.Effect.of_holds (Array.set_holds hxs (i := k) (by omega) rfl) ?_
      simp only [Op.Effect]
      simp [hcontents]
  | pop i =>
      have hpos : 0 < (s i).count := hasserted
      simp only [Op.target] at hcount hcontents
      have hne : xs ≠ [] := by
        rintro rfl
        rw [hcount] at hpos
        exact Int.lt_irrefl 0 hpos
      have hpop : Outcome.Holds (Array.Holds · xs.dropLast) (· = Fault.noMemory)
          ((Op.pop i).run A s) :=
        (Array.pop_holds hxs hne).bind fun r hr => hr.2
      refine Op.Effect.of_holds hpop ?_
      simp only [Op.Effect]
      simp [hcontents]
  | getBuffer i capacityL =>
      simp only [Op.target] at hcontents
      refine (Array.getBuffer_holds hxs hmeets.1 hmeets.2).mono ?_ fun _ he => he
      rintro a ⟨ys, hlen, htake, hholds⟩
      refine ⟨⟨ys, hholds⟩, ?_, ?_⟩
      · rw [hholds.contents_eq, List.length_map]
        omega
      · dsimp only
        rw [hcontents, hholds.contents_eq, List.length_map, ← List.map_take, ← List.map_take,
          htake]
  | free i => exact Op.Effect.of_holds (x := .ok _) (Array.free_holds hxs) rfl
  | clear i => exact Op.Effect.of_holds (x := .ok _) (Array.clear_holds hxs) rfl

theorem Inv.step (h : Inv s) {o : Allocator × Op p}
    (hstep : ((arrays p).restrict fun s o => o.2.Meets s).step s o s') : Inv s' := by
  obtain ⟨⟨hasserted, ⟨a, hrun, rfl⟩ | ⟨-, rfl⟩⟩, hmeets⟩ := hstep
  · intro i
    by_cases hi : i = o.2.target
    · subst hi
      rw [Function.update_self]
      exact ((h.run hasserted hmeets).of_ok hrun).1
    · rw [Function.update_of_ne hi]
      exact h i
  · exact h

/-- In every run of such operations each array holds a list. -/
theorem Inv.of_reachable (h : Reachable ((arrays p).restrict fun s o => o.2.Meets s) s) :
    Inv s := by
  refine h.invariant (fun s hs i => ?_) fun _ _ _ hs hstep => hs.step hstep
  obtain ⟨storage, hlen, hi⟩ := hs i
  rw [hi]
  exact ⟨[], Array.construct_holds hlen⟩

end Firebird.Classes
