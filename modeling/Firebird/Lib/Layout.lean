import Mathlib.Data.List.Pairwise
import Mathlib.Data.Nat.Notation
import Mathlib.Tactic.Ring

/-! # Fields in a row

Fields are laid out one behind the other, each at the next offset that its alignment allows. When
the offsets are counted modulo some number, the fields stay apart as long as they all end before
it, and only then.
-/

namespace Layout

/-- What is laid out -/
structure Field where
  align : ℕ
  length : ℕ
deriving DecidableEq

/-- The next offset for an alignment. There is none for zero and one. -/
def alignUp (x b : ℕ) : ℕ := if b ≤ 1 then x else (x + b - 1) / b * b

/-- The fields with their offsets, from an offset on, counted modulo `w` -/
def place (w : ℕ) : ℕ → List Field → List (ℕ × Field)
  | _, [] => []
  | x, f :: fs =>
    let o := alignUp x f.align % w
    (o, f) :: place w ((o + f.length) % w) fs

/-- The offset behind the fields, counted modulo `w` -/
def finish (w : ℕ) : ℕ → List Field → ℕ
  | x, [] => x
  | x, f :: fs => finish w ((alignUp x f.align % w + f.length) % w) fs

/-- The offset behind the fields -/
def stop : ℕ → List Field → ℕ
  | x, [] => x
  | x, f :: fs => stop (alignUp x f.align + f.length) fs

theorem place_cons (w x : ℕ) (f : Field) (fs : List Field) : place w x (f :: fs) =
    (alignUp x f.align % w, f) :: place w ((alignUp x f.align % w + f.length) % w) fs := rfl

theorem finish_cons (w x : ℕ) (f : Field) (fs : List Field) :
    finish w x (f :: fs) = finish w ((alignUp x f.align % w + f.length) % w) fs := rfl

theorem stop_cons (x : ℕ) (f : Field) (fs : List Field) :
    stop x (f :: fs) = stop (alignUp x f.align + f.length) fs := rfl

example : place 16 0 [⟨1, 3⟩, ⟨4, 4⟩] = [(0, ⟨1, 3⟩), (4, ⟨4, 4⟩)] := by decide

example : finish 16 0 [⟨1, 3⟩, ⟨4, 13⟩] = 1 := by decide

example : stop 0 [⟨1, 3⟩, ⟨4, 13⟩] = 17 := by decide

/-- A byte of a field -/
def Covers (s : ℕ × Field) (b : ℕ) : Prop := s.1 ≤ b ∧ b < s.1 + s.2.length

/-- Fields that do not meet, each at an offset of its alignment and within the size -/
structure Sound (slots : List (ℕ × Field)) (size : ℕ) : Prop where
  apart : slots.Pairwise fun s t => ∀ b, Covers s b → ¬Covers t b
  aligned : ∀ s ∈ slots, 1 < s.2.align → s.1 % s.2.align = 0
  within : ∀ s ∈ slots, ∀ b, Covers s b → b < size

variable {w x b : ℕ} {f : Field} {fs : List Field}

/-! ## Alignment -/

theorem le_alignUp (x b : ℕ) : x ≤ alignUp x b := by
  unfold alignUp
  split
  · exact Nat.le_refl x
  · next h =>
    have hmod := Nat.div_add_mod' (x + b - 1) b
    have hlt := Nat.mod_lt (x + b - 1) (by omega : b > 0)
    omega

theorem alignUp_mod (x : ℕ) (h : 1 < b) : alignUp x b % b = 0 := by
  rw [alignUp, if_neg (not_le.mpr h), Nat.mul_mod_left]

theorem alignUp_zero (b : ℕ) : alignUp 0 b = 0 := by
  unfold alignUp
  split
  · rfl
  · next h => rw [Nat.zero_add, Nat.div_eq_of_lt (by omega), Nat.zero_mul]

/-- What is aligned already bounds the next offset. -/
theorem alignUp_le (hx : x ≤ w) (hw : 1 < b → w % b = 0) : alignUp x b ≤ w := by
  unfold alignUp
  split
  · exact hx
  · next h =>
    obtain ⟨k, rfl⟩ := Nat.dvd_of_mod_eq_zero (hw (not_le.mp h))
    rw [Nat.mul_comm b k]
    apply Nat.mul_le_mul_right
    apply Nat.le_of_lt_succ
    apply Nat.div_lt_of_lt_mul
    rw [Nat.mul_succ]
    omega

/-! ## Offsets that are not counted modulo anything -/

theorem le_stop (x : ℕ) (fs : List Field) : x ≤ stop x fs := by
  induction fs generalizing x with
  | nil => exact Nat.le_refl x
  | cons f fs ih =>
    have hle := le_alignUp x f.align
    have hstop := ih (alignUp x f.align + f.length)
    rw [stop_cons]
    omega

theorem place_of_lt (h : stop x fs < w) :
    finish w x fs = stop x fs ∧ Sound (place w x fs) (stop x fs) ∧
      ∀ s ∈ place w x fs, ∀ b, Covers s b → x ≤ b := by
  induction fs generalizing x with
  | nil => exact ⟨rfl, ⟨.nil, by simp [place], by simp [place]⟩, by simp [place]⟩
  | cons f fs ih =>
    rw [stop_cons] at h
    have hge := le_stop (alignUp x f.align + f.length) fs
    have hle := le_alignUp x f.align
    have ho : alignUp x f.align % w = alignUp x f.align := Nat.mod_eq_of_lt (by omega)
    have hnext : (alignUp x f.align + f.length) % w = alignUp x f.align + f.length :=
      Nat.mod_eq_of_lt (by omega)
    obtain ⟨hfinish, hsound, hbehind⟩ := ih h
    rw [finish_cons, place_cons, stop_cons, ho, hnext]
    refine ⟨hfinish, ⟨?_, ?_, ?_⟩, ?_⟩
    · rw [List.pairwise_cons]
      refine ⟨?_, hsound.apart⟩
      intro s hs b hb hb'
      have hle' := hbehind s hs b hb'
      have hlt := hb.2
      dsimp only at hlt
      omega
    · rw [List.forall_mem_cons]
      exact ⟨fun h1 => alignUp_mod x h1, hsound.aligned⟩
    · rw [List.forall_mem_cons]
      refine ⟨?_, hsound.within⟩
      intro b hb
      exact hb.2.trans_le hge
    · rw [List.forall_mem_cons]
      constructor
      · intro b hb
        exact hle.trans hb.1
      · intro s hs b hb
        have hle' := hbehind s hs b hb
        omega

/-- The offsets do not depend on what they are counted modulo. -/
theorem place_congr {w' : ℕ} (h : stop x fs < w) (h' : stop x fs < w') :
    place w x fs = place w' x fs := by
  induction fs generalizing x with
  | nil => rfl
  | cons f fs ih =>
    rw [stop_cons] at h h'
    have hge := le_stop (alignUp x f.align + f.length) fs
    rw [place_cons, place_cons, Nat.mod_eq_of_lt (by omega : alignUp x f.align < w),
      Nat.mod_eq_of_lt (by omega : alignUp x f.align < w'),
      Nat.mod_eq_of_lt (by omega : alignUp x f.align + f.length < w),
      Nat.mod_eq_of_lt (by omega : alignUp x f.align + f.length < w'), ih h h']

/-! ## Offsets that wrap -/

theorem place_append (h : stop x fs < w) (gs : List Field) :
    place w x (fs ++ gs) = place w x fs ++ place w (stop x fs) gs ∧
      finish w x (fs ++ gs) = finish w (stop x fs) gs := by
  induction fs generalizing x with
  | nil => exact ⟨rfl, rfl⟩
  | cons f fs ih =>
    rw [stop_cons] at h
    have hge := le_stop (alignUp x f.align + f.length) fs
    have ho : alignUp x f.align % w = alignUp x f.align := Nat.mod_eq_of_lt (by omega)
    have hnext : (alignUp x f.align + f.length) % w = alignUp x f.align + f.length :=
      Nat.mod_eq_of_lt (by omega)
    obtain ⟨hplace, hfinish⟩ := ih h
    constructor
    · rw [List.cons_append, place_cons, place_cons, ho, hnext, hplace, stop_cons]
      rfl
    · rw [List.cons_append, finish_cons, stop_cons, ho, hnext, hfinish]

/-- Fields from offset zero on cover the first byte, or end there. -/
theorem covers_zero (w : ℕ) (fs : List Field) :
    (∃ s ∈ place w 0 fs, Covers s 0) ∨ finish w 0 fs = 0 := by
  induction fs with
  | nil => exact .inr rfl
  | cons f fs ih =>
    rw [place_cons, finish_cons, alignUp_zero, Nat.zero_mod, Nat.zero_add]
    rcases Nat.eq_zero_or_pos f.length with hzero | hpos
    · rw [hzero, Nat.zero_mod]
      rcases ih with ⟨s, hs, hcovers⟩ | hfinish
      · exact .inl ⟨s, List.mem_cons_of_mem _ hs, hcovers⟩
      · exact .inr hfinish
    · exact .inl ⟨(0, f), List.mem_cons_self, Nat.le_refl 0, by simpa using hpos⟩

/-- The first field that does not end before `w` -/
theorem exists_first (hx : x < w) (h : w ≤ stop x fs) :
    ∃ gs f hs, fs = gs ++ f :: hs ∧ stop x gs < w ∧
      w ≤ alignUp (stop x gs) f.align + f.length := by
  induction fs generalizing x with
  | nil => exact absurd hx (not_lt.mpr h)
  | cons f fs ih =>
    by_cases hfirst : w ≤ alignUp x f.align + f.length
    · exact ⟨[], f, fs, rfl, hx, hfirst⟩
    · obtain ⟨gs, g, hs, rfl, hlt, hle⟩ := ih (not_le.mp hfirst) h
      exact ⟨f :: gs, g, hs, rfl, hlt, hle⟩

theorem finish_lt (hw : 0 < w) (hx : x < w) (fs : List Field) : finish w x fs < w := by
  induction fs generalizing x with
  | nil => exact hx
  | cons f fs ih => exact ih (Nat.mod_lt _ hw)

/-- Where the offset wraps, a field ends behind the size, or two fields begin at offset zero. -/
theorem not_sound_of_wrap (hw : 0 < w) (halign : ∀ f ∈ fs, 1 < f.align → w % f.align = 0)
    (h : w ≤ stop 0 fs) : ¬Sound (place w 0 fs) (finish w 0 fs) := by
  obtain ⟨gs, f, hs, rfl, hlt, hle⟩ := exists_first hw h
  obtain ⟨hplace, hfinish⟩ := place_append hlt (f :: hs)
  obtain ⟨hstop, -, -⟩ := place_of_lt hlt
  intro hsound
  rw [hplace] at hsound
  have hf : alignUp (stop 0 gs) f.align ≤ w :=
    alignUp_le hlt.le (halign f (List.mem_append_right _ List.mem_cons_self))
  rcases hf.lt_or_eq with hlt' | heq
  · -- the field has the byte before `w`, and the size is less
    have hmem : (alignUp (stop 0 gs) f.align, f) ∈
        place w 0 gs ++ place w (stop 0 gs) (f :: hs) := by
      rw [place_cons, Nat.mod_eq_of_lt hlt']
      exact List.mem_append_right _ List.mem_cons_self
    have hcovers : Covers (alignUp (stop 0 gs) f.align, f) (w - 1) := by
      unfold Covers
      dsimp only
      omega
    have hlast := hsound.within _ hmem _ hcovers
    have hsize := finish_lt hw hw (gs ++ f :: hs)
    omega
  · -- the field is at zero again, where some field before it is
    have hagain : place w (stop 0 gs) (f :: hs) = place w 0 (f :: hs) ∧
        finish w (stop 0 gs) (f :: hs) = finish w 0 (f :: hs) := by
      rw [place_cons, place_cons, finish_cons, finish_cons, heq, alignUp_zero, Nat.mod_self, Nat.zero_mod]
      exact ⟨rfl, rfl⟩
    have hne : finish w 0 gs ≠ 0 := by
      rw [hstop]
      intro hzero
      rw [hzero, alignUp_zero] at heq
      omega
    obtain ⟨s, hs', hcovers⟩ := (covers_zero w gs).resolve_right hne
    rcases covers_zero w (f :: hs) with ⟨t, ht, hcovers'⟩ | hzero
    · rw [hagain.1] at hsound
      exact (List.pairwise_append.mp hsound.apart).2.2 s hs' t ht 0 hcovers hcovers'
    · have hsize := hsound.within s (List.mem_append_left _ hs') 0 hcovers
      rw [hfinish, hagain.2, hzero] at hsize
      exact Nat.lt_irrefl 0 hsize

/-- Fields are apart, aligned and within the size exactly if they end before the offset wraps. -/
theorem sound_place_iff (hw : 0 < w) (halign : ∀ f ∈ fs, 1 < f.align → w % f.align = 0) :
    Sound (place w 0 fs) (finish w 0 fs) ↔ stop 0 fs < w := by
  constructor
  · intro hsound
    by_contra h
    exact not_sound_of_wrap hw halign (not_lt.mp h) hsound
  · intro h
    obtain ⟨hfinish, hsound, -⟩ := place_of_lt h
    rwa [hfinish]

end Layout
