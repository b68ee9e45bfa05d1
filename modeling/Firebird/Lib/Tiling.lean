import Firebird.Lib.Extent

/-! # Tilings

Extents that lie apart from each other and cover a file from its start to its end. Cutting an
extent, joining two that adjoin and adding one at the end keep a tiling.
-/

namespace Firebird.Extent

variable {a b : Extent} {as bs : List Extent} {n o l m p : ℕ}

/-- In how many of the extents a word is -/
def layers (as : List Extent) (p : ℕ) : ℕ := as.countP fun a => a.offset ≤ p ∧ p < a.stop

@[simp] theorem layers_nil : layers [] p = 0 := rfl

theorem layers_cons :
    layers (a :: as) p = layers as p + if a.offset ≤ p ∧ p < a.stop then 1 else 0 := by
  simp only [layers, List.countP_cons, decide_eq_true_eq]

theorem layers_mk :
    layers (⟨o, l⟩ :: as) p = layers as p + if o ≤ p ∧ p < o + l then 1 else 0 :=
  layers_cons

@[simp] theorem layers_append : layers (as ++ bs) p = layers as p + layers bs p :=
  List.countP_append

theorem layers_perm (h : as.Perm bs) : layers as p = layers bs p := h.countP_eq _

/-- Cutting an extent -/
theorem layers_split : layers [⟨o, l + m⟩] p = layers [⟨o, l⟩] p + layers [⟨o + l, m⟩] p := by
  simp only [layers_mk, layers_nil]
  split_ifs <;> omega

theorem exists_of_layers_pos (h : 0 < layers as p) : ∃ a ∈ as, a.offset ≤ p ∧ p < a.stop := by
  simpa [layers] using h

theorem layers_pos (ha : a ∈ as) (hp : a.offset ≤ p ∧ p < a.stop) : 0 < layers as p :=
  List.countP_pos_iff.mpr ⟨a, ha, decide_eq_true hp⟩

/-- Every word in front of `n` is in one extent, and no other word is in any. -/
def Tiles (as : List Extent) (n : ℕ) : Prop := ∀ p, layers as p = if p < n then 1 else 0

theorem tiles_nil : Tiles [] 0 := fun _ => rfl

theorem Tiles.perm (h : Tiles as n) (hperm : as.Perm bs) : Tiles bs n :=
  fun p => (layers_perm hperm).symm.trans (h p)

theorem Tiles.of_layers (h : Tiles as n) (heq : ∀ p, layers bs p = layers as p) : Tiles bs n :=
  fun p => (heq p).trans (h p)

/-- An extent that is added at the end -/
theorem Tiles.extend (h : Tiles as n) (l : ℕ) : Tiles (⟨n, l⟩ :: as) (n + l) := by
  intro p
  rw [layers_mk, h p]
  split_ifs <;> omega

theorem Tiles.pairwise (h : Tiles as n) : as.Pairwise Apart := by
  have hle : ∀ p, layers as p ≤ 1 := fun p => by
    rw [h p]
    split <;> omega
  clear h
  induction as with
  | nil => exact .nil
  | cons a as ih =>
      refine .cons (fun b hb => ?_) (ih fun p => ?_)
      · rw [apart_iff]
        rintro p ⟨ha, hbp⟩
        -- the word is counted for both
        have hpos := layers_pos (p := p) hb hbp
        have hp := hle p
        rw [layers_cons, if_pos ha] at hp
        omega
      · have hp := hle p
        rw [layers_cons] at hp
        omega

theorem Tiles.stop_le (h : Tiles as n) (ha : a ∈ as) (hpos : 0 < a.length) : a.stop ≤ n := by
  have hlast : a.offset ≤ a.stop - 1 ∧ a.stop - 1 < a.stop := by
    unfold stop
    omega
  have hlayers := layers_pos ha hlast
  rw [h] at hlayers
  split at hlayers
  · omega
  · omega

theorem Tiles.covers (h : Tiles as n) (hp : p < n) : ∃ a ∈ as, a.offset ≤ p ∧ p < a.stop := by
  apply exists_of_layers_pos
  rw [h, if_pos hp]
  exact Nat.one_pos

end Firebird.Extent
