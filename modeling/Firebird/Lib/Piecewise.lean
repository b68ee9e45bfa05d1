import Firebird.Lib.Padded
import Mathlib.Algebra.GroupWithZero.Nat

/-! # Comparing piece by piece

Two lists are cut into pieces, and the pieces are compared in pairs, each as if it were filled up
with pads. The first pair with a difference decides, and what one list has behind the last piece
of the other one is not looked at. For lists that are cut alike that is the comparison of the whole
lists.
-/

namespace Padded

variable {α : Type*} [LinearOrder α] {pad x y : α} {p q r : List α} {a b s t : List (List α)}

/-- The comparison of the pieces in pairs -/
def piecewise (pad : α) : List (List α) → List (List α) → Ordering
  | p :: a, q :: b => (compare pad p q).then (piecewise pad a b)
  | _, _ => .eq

example : piecewise 0 [[1, 2], [3]] [[1, 2, 3]] = .lt := by decide

/-- The pieces have the same lengths, up to a pair behind which the list with the shorter piece is at
its end, while the rest of the other one lies in the pieces of pairs. -/
def CutAlike : List ℕ → List ℕ → Prop
  | m :: a, n :: b =>
    if m < n then a.sum = 0 ∧ (b.drop a.length).sum = 0
    else if n < m then b.sum = 0 ∧ (a.drop b.length).sum = 0
    else CutAlike a b
  | [], b => b.sum = 0
  | a, [] => a.sum = 0

theorem piecewise_cons (pad : α) (p q : List α) (a b : List (List α)) :
    piecewise pad (p :: a) (q :: b) = (compare pad p q).then (piecewise pad a b) := rfl

theorem piecewise_nil_right (pad : α) (a : List (List α)) : piecewise pad a [] = .eq := by
  cases a <;> rfl

theorem piecewise_swap (pad : α) (a b : List (List α)) :
    (piecewise pad a b).swap = piecewise pad b a := by
  induction a generalizing b with
  | nil =>
    rw [piecewise_nil_right]
    rfl
  | cons p a ih =>
    cases b with
    | nil => rfl
    | cons q b => rw [piecewise_cons, Ordering.swap_then, compare_swap, ih, piecewise_cons]

/-! ## Lists that are cut alike -/

theorem compare_of_length (h : p.length = q.length) : compare pad p q = p.compareLex cmp q := by
  rw [compare, h, fill_of_le h.ge, fill_of_le (Nat.le_refl _)]

/-- What is behind the end of the other list is compared with pads. -/
theorem compare_nil_append (p r : List α) :
    compare pad [] (p ++ r) = (compare pad [] p).then (compare pad [] r) := by
  induction p with
  | nil =>
    rw [compare_nil_nil]
    rfl
  | cons x p ih => rw [List.cons_append, compare_nil_cons, compare_nil_cons, ih, Ordering.then_assoc]

theorem compare_append_right (h : p.length ≤ q.length) (r : List α) :
    compare pad p (q ++ r) = (compare pad p q).then (compare pad [] r) := by
  induction p generalizing q with
  | nil => exact compare_nil_append q r
  | cons x p ih =>
    cases q with
    | nil => cases h
    | cons y q =>
      rw [List.cons_append, compare_cons_cons, compare_cons_cons, ih (Nat.le_of_succ_le_succ h),
        Ordering.then_assoc]

/-- Empty pieces, as long as there are any, are compared with pads. -/
theorem piecewise_of_flatten_nil (ha : a.flatten = []) (b : List (List α)) :
    piecewise pad a b = compare pad [] (b.take a.length).flatten := by
  induction a generalizing b with
  | nil => exact compare_nil_nil.symm
  | cons p a ih =>
    rw [List.flatten_cons, List.append_eq_nil_iff] at ha
    cases b with
    | nil => exact compare_nil_nil.symm
    | cons q b =>
      rw [piecewise_cons, ha.1, ih ha.2, List.length_cons, List.take_succ_cons, List.flatten_cons,
        compare_nil_append]

omit [LinearOrder α] in
theorem flatten_nil_iff : a.flatten = [] ↔ (a.map List.length).sum = 0 := by
  rw [← List.length_flatten, List.length_eq_zero_iff]

theorem piecewise_of_shorter (h : p.length < q.length) (ha : a.flatten = [])
    (hb : (b.drop a.length).flatten = []) :
    piecewise pad (p :: a) (q :: b) = compare pad (p :: a).flatten (q :: b).flatten := by
  have hflat : (b.take a.length).flatten = b.flatten := by
    conv_rhs => rw [← List.take_append_drop a.length b, List.flatten_append, hb, List.append_nil]
  rw [piecewise_cons, piecewise_of_flatten_nil ha, hflat, List.flatten_cons, List.flatten_cons, ha,
    List.append_nil, compare_append_right h.le]

theorem piecewise_of_cutAlike (h : CutAlike (a.map List.length) (b.map List.length)) :
    piecewise pad a b = compare pad a.flatten b.flatten := by
  induction a generalizing b with
  | nil =>
    have hb : b.flatten = [] := flatten_nil_iff.mpr h
    rw [hb, List.flatten_nil, compare_nil_nil]
    rfl
  | cons p a ih =>
    cases b with
    | nil =>
      have ha : (p :: a).flatten = [] := flatten_nil_iff.mpr h
      rw [ha, List.flatten_nil, compare_nil_nil]
      rfl
    | cons q b =>
      simp only [List.map_cons] at h
      unfold CutAlike at h
      rcases lt_trichotomy p.length q.length with hlt | heq | hlt
      · rw [if_pos hlt, List.length_map, ← List.map_drop] at h
        exact piecewise_of_shorter hlt (flatten_nil_iff.mpr h.1) (flatten_nil_iff.mpr h.2)
      · rw [if_neg heq.not_lt, if_neg heq.symm.not_lt] at h
        rw [piecewise_cons, List.flatten_cons, List.flatten_cons, compare_append_of_length heq,
          compare_of_length heq, ih h]
      · rw [if_neg hlt.asymm, if_pos hlt, List.length_map, ← List.map_drop] at h
        rw [← piecewise_swap, piecewise_of_shorter hlt (flatten_nil_iff.mpr h.1)
          (flatten_nil_iff.mpr h.2), compare_swap]

/-- Leading pieces of the same lengths that differ -/
theorem piecewise_of_leading (hlen : s.map List.length = t.map List.length) (hne : s ≠ t)
    (a b : List (List α)) :
    piecewise pad (s ++ a) (t ++ b) = compare pad (s ++ a).flatten (t ++ b).flatten := by
  induction s generalizing t with
  | nil =>
    rw [List.map_nil, eq_comm, List.map_eq_nil_iff] at hlen
    exact absurd hlen.symm hne
  | cons p s ih =>
    cases t with
    | nil => cases hlen
    | cons q t =>
      rw [List.map_cons, List.map_cons, List.cons.injEq] at hlen
      rw [List.cons_append, List.cons_append, piecewise_cons, List.flatten_cons, List.flatten_cons,
        compare_append_of_length hlen.1, compare_of_length hlen.1]
      by_cases heq : p = q
      · rw [ih hlen.2 fun hst => hne (by rw [heq, hst])]
      · cases hcmp : p.compareLex cmp q with
        | lt => rfl
        | eq => exact absurd ((Lex.compareLex_eq_eq_iff _ _).mp hcmp) heq
        | gt => rfl

/-! ## Lists that are not -/

/-- Pieces of one element only -/
def constant (x : α) (lengths : List ℕ) : List (List α) := lengths.map (List.replicate · x)

omit [LinearOrder α] in
theorem map_length_constant (x : α) (lengths : List ℕ) :
    (constant x lengths).map List.length = lengths := by
  simp [constant, Function.comp_def]

omit [LinearOrder α] in
theorem flatten_constant (x : α) (lengths : List ℕ) :
    (constant x lengths).flatten = List.replicate lengths.sum x := by
  induction lengths with
  | nil => rfl
  | cons n lengths ih =>
    rw [constant, List.map_cons, List.flatten_cons, List.sum_cons, List.replicate_add, ← ih]
    rfl

theorem compare_nil_of_lt (h : pad < x) {n : ℕ} (hn : n ≠ 0) (r : List α) :
    compare pad [] (List.replicate n x ++ r) = .lt := by
  obtain ⟨n, rfl⟩ := Nat.exists_eq_succ_of_ne_zero hn
  rw [List.replicate_succ, List.cons_append, compare_nil_cons, (cmp_eq_lt_iff _ _).mpr h]
  rfl

/-- The lists with these pieces are compared in another order than the pieces are. -/
def Astray (pad x y : α) (a b : List ℕ) : Prop :=
  ∃ s t : List (List α), s.map List.length = a ∧ t.map List.length = b ∧
    (∀ z ∈ s.flatten ++ t.flatten, z = pad ∨ z = x ∨ z = y) ∧
    piecewise pad s t ≠ compare pad s.flatten t.flatten

theorem Astray.symm {a b : List ℕ} (h : Astray pad x y a b) : Astray pad x y b a := by
  obtain ⟨s, t, hs, ht, hall, hne⟩ := h
  refine ⟨t, s, ht, hs, ?_, ?_⟩
  · intro z hz
    apply hall z
    rw [List.mem_append] at hz ⊢
    exact hz.symm
  · intro heq
    apply hne
    rw [← piecewise_swap, heq, compare_swap]

/-- The shorter piece is not at the end of its list: the pad is compared in place of what goes on. -/
theorem astray_of_more (hx : pad < x) (hy : x < y) {m n : ℕ} {a b : List ℕ} (hlt : m < n)
    (ha : a.sum ≠ 0) : Astray pad x y (m :: a) (n :: b) := by
  have hn : n - m ≠ 0 := by omega
  refine ⟨List.replicate m pad :: constant y a,
    (List.replicate m pad ++ List.replicate (n - m) x) :: constant x b, ?_, ?_, ?_, ?_⟩
  · rw [List.map_cons, map_length_constant, List.length_replicate]
  · rw [List.map_cons, map_length_constant, List.length_append, List.length_replicate,
      List.length_replicate, Nat.add_sub_cancel' hlt.le]
  · simp only [List.flatten_cons, flatten_constant, List.mem_append, List.mem_replicate]
    tauto
  · have hpiece : piecewise pad (List.replicate m pad :: constant y a)
        ((List.replicate m pad ++ List.replicate (n - m) x) :: constant x b) = .lt := by
      have hlt := compare_nil_of_lt hx hn []
      have happ : compare pad (List.replicate m pad ++ [])
          (List.replicate m pad ++ List.replicate (n - m) x) =
            compare pad [] (List.replicate (n - m) x) := compare_append_left _ _ _
      rw [List.append_nil] at hlt happ
      rw [piecewise_cons, happ, hlt]
      rfl
    obtain ⟨i, hi⟩ := Nat.exists_eq_succ_of_ne_zero ha
    obtain ⟨j, hj⟩ := Nat.exists_eq_succ_of_ne_zero hn
    rw [hpiece, List.flatten_cons, List.flatten_cons, List.append_assoc, compare_append_left,
      flatten_constant, flatten_constant, hi, hj, List.replicate_succ, List.replicate_succ,
      List.cons_append, compare_cons_cons, (cmp_eq_gt_iff _ _).mpr hy]
    exact fun h => nomatch h

/-- The longer list goes on behind the pieces of the other one: the rest is not looked at. -/
theorem astray_of_rest (hx : pad < x) {m n : ℕ} {a b : List ℕ} (ha : a.sum = 0)
    (hb : (b.drop a.length).sum ≠ 0) : Astray pad x y (m :: a) (n :: b) := by
  have hlen : (constant pad (b.take a.length)).length = a.length := by
    have hlong : a.length ≤ b.length := by
      by_contra hshort
      rw [List.drop_eq_nil_of_le (by omega)] at hb
      exact hb rfl
    rw [constant, List.length_map, List.length_take_of_le hlong]
  refine ⟨constant pad (m :: a),
    constant pad (n :: b.take a.length) ++ constant x (b.drop a.length), ?_, ?_, ?_, ?_⟩
  · exact map_length_constant _ _
  · rw [List.map_append, map_length_constant, map_length_constant, List.cons_append,
      List.take_append_drop]
  · simp only [List.flatten_append, flatten_constant, List.mem_append, List.mem_replicate]
    tauto
  · have hpads : ∀ i j : ℕ, compare pad (List.replicate i pad) (List.replicate j pad) = .eq := by
      intro i j
      rw [← List.nil_append (List.replicate i pad), compare_append_replicate,
        compare_nil_replicate]
    have hflat : (constant pad a).flatten = [] := by
      rw [flatten_constant, ha]
      rfl
    have hpiece : piecewise pad (constant pad (m :: a))
        (constant pad (n :: b.take a.length) ++ constant x (b.drop a.length)) = .eq := by
      change (compare pad (List.replicate m pad) (List.replicate n pad)).then
        (piecewise pad (constant pad a)
          (constant pad (b.take a.length) ++ constant x (b.drop a.length))) = .eq
      have hlen' : (constant pad a).length = (constant pad (b.take a.length)).length := by
        rw [hlen, constant, List.length_map]
      rw [hpads, piecewise_of_flatten_nil hflat, hlen', List.take_left, flatten_constant,
        compare_nil_replicate]
      rfl
    rw [hpiece, List.flatten_append, flatten_constant, flatten_constant, flatten_constant,
      ← List.nil_append (List.replicate (m :: a).sum pad), compare_append_replicate,
      compare_nil_append, compare_nil_replicate]
    have hlt := compare_nil_of_lt hx hb []
    rw [List.append_nil] at hlt
    rw [hlt]
    exact fun h => nomatch h

/-- Lists that are not cut alike are compared in another order, for some of their elements. -/
theorem astray_of_not_cutAlike (hx : pad < x) (hy : x < y) {a b : List ℕ} (h : ¬CutAlike a b) :
    Astray pad x y a b := by
  have hrest : ∀ b : List ℕ, b.sum ≠ 0 → Astray pad x y [] b := by
    intro b hb
    refine ⟨[], constant x b, rfl, map_length_constant _ _, ?_, ?_⟩
    · simp only [List.flatten_nil, List.nil_append, flatten_constant, List.mem_replicate]
      tauto
    · have hlt := compare_nil_of_lt hx hb []
      rw [List.append_nil] at hlt
      rw [flatten_constant, List.flatten_nil, hlt]
      exact fun h => nomatch h
  have hshort : ∀ (m n : ℕ) (a b : List ℕ), m < n →
      ¬(a.sum = 0 ∧ (b.drop a.length).sum = 0) → Astray pad x y (m :: a) (n :: b) := by
    intro m n a b hlt hnot
    by_cases ha : a.sum = 0
    · exact astray_of_rest hx ha fun hb => hnot ⟨ha, hb⟩
    · exact astray_of_more hx hy hlt ha
  induction a generalizing b with
  | nil => exact hrest b h
  | cons m a ih =>
    cases b with
    | nil => exact (hrest (m :: a) h).symm
    | cons n b =>
      unfold CutAlike at h
      rcases lt_trichotomy m n with hlt | rfl | hlt
      · rw [if_pos hlt] at h
        exact hshort m n a b hlt h
      · rw [if_neg (lt_irrefl m), if_neg (lt_irrefl m)] at h
        obtain ⟨s, t, rfl, rfl, hall, hne⟩ := ih h
        refine ⟨List.replicate m pad :: s, List.replicate m pad :: t, by simp, by simp, ?_, ?_⟩
        · simp only [List.flatten_cons, List.mem_append, List.mem_replicate] at hall ⊢
          rintro z ((⟨-, rfl⟩ | hz) | ⟨-, rfl⟩ | hz)
          · exact .inl rfl
          · exact hall z (.inl hz)
          · exact .inl rfl
          · exact hall z (.inr hz)
        · rwa [piecewise_cons, compare_self, Ordering.eq_then, List.flatten_cons, List.flatten_cons,
            compare_append_left]
      · rw [if_neg hlt.asymm, if_pos hlt] at h
        exact (hshort n m b a hlt h).symm

end Padded
