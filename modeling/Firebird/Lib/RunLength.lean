import Mathlib.Data.List.Basic
import Mathlib.Data.List.Flatten
import Mathlib.Data.List.SplitBy
import Mathlib.Algebra.BigOperators.Group.List.Basic
import Mathlib.Tactic.Linarith

/-! # Greedy run-length segmentation

A list is cut from left to right into literal stretches and repeats: a repeat
starts where three equal entries stand, a stretch is everything before it.
Stretches are chopped into chunks of at most `maxLit` entries, repeats are
limited to `maxRep` entries. The facts that a codec needs are

* `expand_segments`: the segments spell the list,
* `segments_cut`: cutting the list at a segment boundary, or inside a literal
  chunk, cuts the segmentation there,
* `size_segments`: the storage, read off the lengths of the maximal runs.
-/

namespace RunLength

variable {α : Type*} [DecidableEq α]

/-- One piece of a segmented list. -/
inductive Seg (α : Type*) where
  | lit (bs : List α)
  | rep (n : ℕ) (b : α)
deriving DecidableEq, Repr

/-- The entries a segment stands for. -/
def Seg.expand : Seg α → List α
  | .lit bs => bs
  | .rep n b => List.replicate n b

/-- Storage of a segment: a control entry, then the literal entries or the
repeated one. -/
def Seg.size : Seg α → ℕ
  | .lit bs => bs.length + 1
  | .rep _ _ => 2

def expand (ss : List (Seg α)) : List α := ss.flatMap Seg.expand

def size (ss : List (Seg α)) : ℕ := (ss.map Seg.size).sum

omit [DecidableEq α] in
@[simp] theorem expand_nil : expand ([] : List (Seg α)) = [] := rfl

omit [DecidableEq α] in
@[simp] theorem expand_cons (s : Seg α) (ss : List (Seg α)) :
    expand (s :: ss) = s.expand ++ expand ss := rfl

omit [DecidableEq α] in
@[simp] theorem expand_append (ss ts : List (Seg α)) :
    expand (ss ++ ts) = expand ss ++ expand ts := by
  simp [expand]

omit [DecidableEq α] in
@[simp] theorem size_nil : size ([] : List (Seg α)) = 0 := rfl

omit [DecidableEq α] in
@[simp] theorem size_cons (s : Seg α) (ss : List (Seg α)) :
    size (s :: ss) = s.size + size ss := by
  simp [size]

omit [DecidableEq α] in
@[simp] theorem size_append (ss ts : List (Seg α)) : size (ss ++ ts) = size ss + size ts := by
  simp [size]

/-! ## Where the next repeat starts -/

/-- Number of entries before the first three equal ones. -/
def litLen : List α → ℕ
  | a :: b :: c :: l => if a = b ∧ a = c then 0 else litLen (b :: c :: l) + 1
  | l => l.length

example : litLen [1, 2, 2, 2] = 1 := by simp [litLen]

/-- Induction along the scan for the next repeat: a repeat, one entry more, a short rest. -/
theorem litLen_induction {P : List α → Prop}
    (run : ∀ (a : α) (l : List α), P (a :: a :: a :: l))
    (lit : ∀ (a b c : α) (l : List α), ¬(a = b ∧ a = c) → P (b :: c :: l) → P (a :: b :: c :: l))
    (short : ∀ l : List α, l.length < 3 → P l) (l : List α) : P l := by
  induction l using litLen.induct with
  | case1 a b c l h =>
      obtain ⟨rfl, rfl⟩ := h
      exact run a l
  | case2 a b c l h ih => exact lit a b c l h ih
  | case3 l h =>
      refine short l ?_
      match l, h with
      | [], _ => exact Nat.zero_lt_succ _
      | [_], _ => exact Nat.succ_lt_succ (Nat.zero_lt_succ _)
      | [_, _], _ => exact Nat.lt_succ_self _
      | a :: b :: c :: t, h => exact absurd rfl (h a b c t)

theorem litLen_le (l : List α) : litLen l ≤ l.length := by
  induction l using litLen.induct with
  | case1 a b c l h => simp [litLen, if_pos h]
  | case2 a b c l h ih =>
      rw [litLen, if_neg h]
      simpa using ih
  | case3 l h =>
      rw [litLen]
      exact h

/-- A stretch that stops before the end stops at three equal entries. -/
theorem litLen_drop {l : List α} (h : litLen l < l.length) :
    ∃ c t, l.drop (litLen l) = c :: c :: c :: t := by
  induction l using litLen.induct with
  | case1 a b c l h1 =>
      obtain ⟨rfl, rfl⟩ := h1
      exact ⟨a, l, by simp [litLen]⟩
  | case2 a b c l hn ih =>
      rw [litLen, if_neg hn] at h ⊢
      obtain ⟨d, t, hd⟩ := ih (by simpa using h)
      exact ⟨d, t, by simpa using hd⟩
  | case3 l hl =>
      rw [litLen] at h
      · exact absurd h (lt_irrefl _)
      · exact hl

/-- Cutting a list inside its first stretch leaves literals only. -/
theorem litLen_take_of_le {l : List α} {m : ℕ} (h : m ≤ litLen l) : litLen (l.take m) = m := by
  induction l using litLen.induct generalizing m with
  | case1 a b c l h1 =>
      rw [litLen, if_pos h1] at h
      obtain rfl : m = 0 := by omega
      simp [litLen]
  | case2 a b c l hn ih =>
      rw [litLen, if_neg hn] at h
      match m with
      | 0 => simp [litLen]
      | 1 => simp [litLen]
      | 2 => simp [litLen]
      | k + 3 =>
          have hk := ih (m := k + 2) (by omega)
          simp only [List.take_succ_cons] at hk ⊢
          rw [litLen, if_neg hn, hk]
  | case3 l hl =>
      rw [litLen] at h
      · match l, hl with
        | [], _ => simp_all [litLen]
        | [a], _ => rcases m with _ | m <;> simp_all [litLen]
        | [a, b], _ => rcases m with _ | _ | m <;> simp_all [litLen]
        | a :: b :: c :: t, hl => exact absurd rfl (hl a b c t)
      · exact hl

/-- Cutting a list behind the three equal entries keeps its first stretch. -/
theorem litLen_take_of_ge {l : List α} {m : ℕ} (h : litLen l + 3 ≤ m) :
    litLen (l.take m) = litLen l := by
  induction l using litLen.induct generalizing m with
  | case1 a b c l h1 =>
      obtain ⟨m, rfl⟩ : ∃ k, m = k + 3 := ⟨m - 3, by omega⟩
      simp only [List.take_succ_cons]
      rw [litLen, if_pos h1, litLen, if_pos h1]
  | case2 a b c l hn ih =>
      rw [litLen, if_neg hn] at h
      obtain ⟨m, rfl⟩ : ∃ k, m = k + 3 := ⟨m - 3, by omega⟩
      have hm := ih (m := m + 2) (by omega)
      simp only [List.take_succ_cons] at hm ⊢
      rw [litLen, if_neg hn, hm, litLen, if_neg hn]
  | case3 l hl =>
      have hlen : litLen l = l.length := by
        rw [litLen]
        exact hl
      rw [List.take_of_length_le (by omega)]

/-! ## How far a repeat goes -/

/-- Number of leading entries equal to `c`, at most `m` of them. -/
def runLen (c : α) : ℕ → List α → ℕ
  | m + 1, a :: l => if a = c then runLen c m l + 1 else 0
  | _, _ => 0

@[simp] theorem runLen_zero (c : α) (l : List α) : runLen c 0 l = 0 := by
  cases l <;> rfl

@[simp] theorem runLen_nil (c : α) (m : ℕ) : runLen c m [] = 0 := by
  cases m <;> rfl

theorem runLen_cons (c : α) (m : ℕ) (a : α) (l : List α) :
    runLen c (m + 1) (a :: l) = if a = c then runLen c m l + 1 else 0 := rfl

/-- At the limit or at the end of the list there is nothing to count. -/
theorem runLen_of_end {c : α} {m : ℕ} {l : List α}
    (h : ∀ m' a l', m = m' + 1 → l = a :: l' → False) : runLen c m l = 0 := by
  rcases m with _ | m
  · exact runLen_zero c l
  · rcases l with _ | ⟨a, l⟩
    · exact runLen_nil c (m + 1)
    · exact (h m a l rfl rfl).elim

theorem runLen_le (c : α) (m : ℕ) (l : List α) : runLen c m l ≤ m ∧ runLen c m l ≤ l.length := by
  induction m, l using runLen.induct c with
  | case1 m l ih => simp [runLen_cons]; omega
  | case2 m a l h => simp [runLen_cons, h]
  | case3 m l h =>
      rw [runLen_of_end h]
      omega

theorem runLen_min_length (c : α) (m : ℕ) (l : List α) :
    runLen c (min m l.length) l = runLen c m l := by
  induction m, l using runLen.induct c with
  | case1 m l ih => simp [runLen_cons, Nat.succ_min_succ, ih]
  | case2 m a l h => simp [runLen_cons, Nat.succ_min_succ, h]
  | case3 m l h =>
      rcases m with _ | m
      · simp
      · rcases l with _ | ⟨a, l⟩
        · simp
        · exact absurd rfl (h m a l rfl)

theorem take_runLen (c : α) (m : ℕ) (l : List α) :
    l.take (runLen c m l) = List.replicate (runLen c m l) c := by
  induction m, l using runLen.induct c with
  | case1 m l ih => simp [runLen_cons, List.replicate_succ, ih]
  | case2 m a l h => simp [runLen_cons, h]
  | case3 m l h =>
      rw [runLen_of_end h]
      simp

/-- A repeat ends at its limit, at another entry, or at the end of the list. -/
theorem runLen_maximal (c : α) (m : ℕ) (l : List α) :
    runLen c m l = m ∨ (l.drop (runLen c m l)).head? ≠ some c := by
  induction m, l using runLen.induct c with
  | case1 m l ih => simpa [runLen_cons] using ih
  | case2 m a l h => simp [runLen_cons, h]
  | case3 m l h =>
      rcases m with _ | m
      · simp
      · rcases l with _ | ⟨a, l⟩
        · simp
        · exact absurd rfl (h m a l rfl)

theorem runLen_replicate_append (c : α) {m n : ℕ} (t : List α) (hn : n ≤ m)
    (ht : n = m ∨ t.head? ≠ some c) : runLen c m (List.replicate n c ++ t) = n := by
  induction n generalizing m with
  | zero =>
      rcases m with _ | m
      · simp
      · rcases t with _ | ⟨a, t⟩
        · simp
        · have : a ≠ c := by simpa using ht
          simp [runLen_cons, this]
  | succ n ih =>
      rcases m with _ | m
      · omega
      · simp [List.replicate_succ, runLen_cons, ih (by omega : n ≤ m) (by simpa using ht)]

/-! ## The segmentation -/

/-- Limits of a format: a repeat must be able to hold the three equal entries
that start it. -/
structure Limits where
  maxLit : ℕ
  maxRep : ℕ
  lit_pos : 0 < maxLit
  three_le_rep : 3 ≤ maxRep

variable (L : Limits)

/-- The greedy segmentation, one segment at a time. -/
def segments : List α → List (Seg α)
  | [] => []
  | c :: t =>
      if litLen (c :: t) = 0 then
        .rep (runLen c L.maxRep (c :: t)) c :: segments ((c :: t).drop (runLen c L.maxRep (c :: t)))
      else
        .lit ((c :: t).take (min L.maxLit (litLen (c :: t)))) ::
          segments ((c :: t).drop (min L.maxLit (litLen (c :: t))))
termination_by l => l.length
decreasing_by
  · have h3 := L.three_le_rep
    obtain ⟨m, hm⟩ : ∃ m, L.maxRep = m + 1 := ⟨L.maxRep - 1, by omega⟩
    simp only [hm, runLen, if_true, List.length_drop, List.length_cons]
    omega
  · have := L.lit_pos
    simp only [List.length_drop, List.length_cons]
    omega

@[simp] theorem segments_nil : segments L ([] : List α) = [] := by
  rw [segments]

theorem segments_lit {l : List α} (hl : l ≠ []) (h : litLen l ≠ 0) :
    segments L l = .lit (l.take (min L.maxLit (litLen l))) ::
      segments L (l.drop (min L.maxLit (litLen l))) := by
  obtain ⟨c, t, rfl⟩ := List.exists_cons_of_ne_nil hl
  rw [segments, if_neg h]

/-- Where no literal comes first, three equal entries do. -/
theorem eq_of_litLen_eq_zero {l : List α} (hl : l ≠ []) (h : litLen l = 0) :
    ∃ c t, l = c :: c :: c :: t := by
  have hlen := List.length_pos_of_ne_nil hl
  simpa [h] using litLen_drop (l := l) (by omega)

theorem segments_rep (c : α) (t : List α) :
    segments L (c :: c :: c :: t) = .rep (runLen c L.maxRep (c :: c :: c :: t)) c ::
      segments L ((c :: c :: c :: t).drop (runLen c L.maxRep (c :: c :: c :: t))) := by
  rw [segments, if_pos (by simp [litLen])]

theorem three_le_runLen (c : α) (t : List α) : 3 ≤ runLen c L.maxRep (c :: c :: c :: t) := by
  obtain ⟨m, hm⟩ : ∃ m, L.maxRep = m + 3 := ⟨L.maxRep - 3, by have := L.three_le_rep; omega⟩
  simp [hm, runLen_cons]

/-- Induction along the segmentation: the empty list, a literal chunk, a repeat. -/
theorem segments_induction {P : List α → Prop} (nil : P [])
    (lit : ∀ l : List α, l ≠ [] → litLen l ≠ 0 → P (l.drop (min L.maxLit (litLen l))) → P l)
    (rep : ∀ (c : α) (t : List α),
      P ((c :: c :: c :: t).drop (runLen c L.maxRep (c :: c :: c :: t))) → P (c :: c :: c :: t))
    (l : List α) : P l := by
  induction h : l.length using Nat.strong_induction_on generalizing l with
  | _ n ih =>
      subst h
      by_cases hl : l = []
      · exact hl ▸ nil
      have hpos := List.length_pos_of_ne_nil hl
      by_cases hz : litLen l = 0
      · obtain ⟨c, t, rfl⟩ := eq_of_litLen_eq_zero hl hz
        have h3 := three_le_runLen L c t
        refine rep c t (ih _ ?_ _ rfl)
        simp only [List.length_drop, List.length_cons]
        omega
      · have := L.lit_pos
        refine lit l hl hz (ih _ ?_ _ rfl)
        simp only [List.length_drop]
        omega

/-- The segments spell the list. -/
theorem expand_segments (l : List α) : expand (segments L l) = l := by
  induction l using @segments_induction α _ L with
  | nil => simp
  | lit l hl hz ih => rw [segments_lit L hl hz, expand_cons, ih, Seg.expand, List.take_append_drop]
  | rep c t ih =>
      rw [segments_rep, expand_cons, ih, Seg.expand, ← take_runLen, List.take_append_drop]

/-- What the format can store: a chunk is neither empty nor too long, a repeat
holds at least three entries. -/
def Seg.Fits : Seg α → Prop
  | .lit bs => 0 < bs.length ∧ bs.length ≤ L.maxLit
  | .rep n _ => 3 ≤ n ∧ n ≤ L.maxRep

theorem segments_fit (l : List α) : ∀ s ∈ segments L l, s.Fits L := by
  induction l using @segments_induction α _ L with
  | nil => simp
  | lit l hl hz ih =>
      have hpos := List.length_pos_of_ne_nil hl
      have := L.lit_pos
      rw [segments_lit L hl hz]
      refine List.forall_mem_cons.mpr ⟨?_, ih⟩
      simp only [Seg.Fits, List.length_take]
      omega
  | rep c t ih =>
      rw [segments_rep]
      exact List.forall_mem_cons.mpr ⟨⟨three_le_runLen L c t, (runLen_le c _ _).1⟩, ih⟩

/-! ## Cutting a segmented list -/

theorem litLen_drop_of_le {l : List α} {k : ℕ} (h : k ≤ litLen l) :
    litLen (l.drop k) = litLen l - k := by
  induction l using litLen.induct generalizing k with
  | case1 a b c l h1 =>
      rw [litLen, if_pos h1] at h
      obtain rfl : k = 0 := by omega
      simp
  | case2 a b c l hn ih =>
      rcases k with _ | k
      · simp
      · rw [litLen, if_neg hn] at h ⊢
        rw [List.drop_succ_cons, ih (by omega)]
        omega
  | case3 l hl =>
      rw [litLen] at h
      · match l, hl with
        | [], _ => simp [litLen]
        | [a], _ => rcases k with _ | k <;> simp [litLen]
        | [a, b], _ => rcases k with _ | _ | k <;> simp [litLen]
        | a :: b :: c :: t, hl => exact absurd rfl (hl a b c t)
      · exact hl

/-- The literal segment of a nonempty list, nothing for the empty one. -/
def litOf (p : List α) : List (Seg α) := if p = [] then [] else [.lit p]

/-- `p` is what is kept of the segment that the cut falls into: nothing, or the
beginning of a literal chunk. -/
def CutPoint (p : List α) (ts : List (Seg α)) : Prop :=
  p = [] ∨ ∃ s ts', ts = .lit s :: ts' ∧ p <+: s

/-- What a nonempty segmentation starts with. -/
theorem segments_eq_cons {l : List α} {s : Seg α} {ss : List (Seg α)}
    (h : segments L l = s :: ss) :
    (litLen l ≠ 0 ∧ s = .lit (l.take (min L.maxLit (litLen l))) ∧
      ss = segments L (l.drop (min L.maxLit (litLen l)))) ∨
    (∃ c t, l = c :: c :: c :: t ∧ s = .rep (runLen c L.maxRep l) c ∧
      ss = segments L (l.drop (runLen c L.maxRep l))) := by
  have hl : l ≠ [] := by
    rintro rfl
    simp at h
  by_cases hz : litLen l = 0
  · obtain ⟨c, t, rfl⟩ := eq_of_litLen_eq_zero hl hz
    rw [segments_rep, List.cons.injEq] at h
    exact .inr ⟨c, t, rfl, h.1.symm, h.2.symm⟩
  · rw [segments_lit L hl hz, List.cons.injEq] at h
    exact .inl ⟨hz, h.1.symm, h.2.symm⟩

/-- The cut piece of a first literal chunk is itself all literal. -/
theorem cutPoint_segments {l p : List α} (hp : CutPoint p (segments L l)) :
    p <+: l ∧ p.length ≤ min L.maxLit (litLen l) := by
  rcases hp with rfl | ⟨s, ts, h, hps⟩
  · simp
  · rcases segments_eq_cons L h with ⟨-, hs, -⟩ | ⟨c, t, -, hs, -⟩
    · cases hs
      refine ⟨hps.trans (List.take_prefix _ _), hps.length_le.trans ?_⟩
      rw [List.length_take]
      omega
    · exact absurd hs (by simp)

/-- A cut never falls into the three entries that start a repeat. -/
theorem length_cut {l : List α} {ss ts : List (Seg α)} {p : List α}
    (h : segments L l = ss ++ ts) (hp : CutPoint p ts) :
    (expand ss ++ p).length ≤ litLen l ∨ litLen l + 3 ≤ (expand ss ++ p).length := by
  induction ss generalizing l with
  | nil =>
      rw [List.nil_append] at h
      subst h
      have := (cutPoint_segments L hp).2
      simp only [expand_nil, List.nil_append]
      omega
  | cons s ss ih =>
      rcases segments_eq_cons L h with ⟨hz, rfl, hss⟩ | ⟨c, t, hl, rfl, hss⟩
      · have hrec := ih hss.symm
        have hle := litLen_le l
        rw [litLen_drop_of_le (by omega)] at hrec
        simp only [expand_cons, Seg.expand, List.append_assoc, List.length_append,
          List.length_take] at hrec ⊢
        omega
      · have hz : litLen l = 0 := by simp [hl, litLen]
        have h3 := three_le_runLen L c t
        rw [← hl] at h3
        simp only [expand_cons, Seg.expand, List.append_assoc, List.length_append,
          List.length_replicate]
        omega

/-- A cut keeps a prefix of the list. -/
theorem expand_of_cut {l : List α} {ss ts : List (Seg α)} {p : List α}
    (h : segments L l = ss ++ ts) (hp : CutPoint p ts) : expand ss ++ p <+: l := by
  have hl := expand_segments L l
  rw [h, expand_append] at hl
  rw [← hl, List.prefix_append_right_inj]
  rcases hp with rfl | ⟨s, ts', rfl, hps⟩
  · simp
  · exact hps.trans (List.prefix_append _ _)

theorem litLen_prefix {l x : List α} (hx : x <+: l)
    (h : x.length ≤ litLen l ∨ litLen l + 3 ≤ x.length) :
    litLen x = min x.length (litLen l) := by
  rw [List.prefix_iff_eq_take.mp hx]
  have hlen := hx.length_le
  rw [List.length_take, min_eq_left hlen]
  rcases h with h | h
  · rw [litLen_take_of_le h, min_eq_left h]
  · rw [litLen_take_of_ge h]
    omega

/-- Cutting the list cuts the segmentation. -/
theorem segments_cut {l : List α} {ss ts : List (Seg α)} {p : List α}
    (h : segments L l = ss ++ ts) (hp : CutPoint p ts) :
    segments L (expand ss ++ p) = ss ++ litOf p := by
  induction ss generalizing l with
  | nil =>
      have hlit := litLen_prefix (expand_of_cut L h hp) (length_cut L h hp)
      rw [List.nil_append] at h
      subst h
      obtain ⟨-, hple⟩ := cutPoint_segments L hp
      simp only [expand_nil, List.nil_append] at hlit ⊢
      by_cases hpn : p = []
      · simp [hpn, litOf]
      · have hpos := List.length_pos_of_ne_nil hpn
        rw [litOf, if_neg hpn, segments_lit L hpn (by omega)]
        rw [List.take_of_length_le (by omega), List.drop_of_length_le (by omega), segments_nil]
  | cons s ss ih =>
      have hlit := litLen_prefix (expand_of_cut L h hp) (length_cut L h hp)
      rcases segments_eq_cons L h with ⟨hz, rfl, hss⟩ | ⟨c, t, hl, rfl, hss⟩
      · -- a literal chunk: the cut list starts with the same chunk
        have hmax := L.lit_pos
        have hle := litLen_le l
        have hk : (l.take (min L.maxLit (litLen l))).length = min L.maxLit (litLen l) := by
          rw [List.length_take]
          omega
        rw [expand_cons, Seg.expand, List.append_assoc] at hlit ⊢
        have hx : (l.take (min L.maxLit (litLen l)) ++ (expand ss ++ p)).length =
            min L.maxLit (litLen l) + (expand ss ++ p).length := by
          rw [List.length_append, hk]
        have hmin : min L.maxLit (litLen (l.take (min L.maxLit (litLen l)) ++ (expand ss ++ p))) =
            min L.maxLit (litLen l) := by omega
        rw [segments_lit L (List.ne_nil_of_length_pos (by omega)) (by omega), hmin,
          List.take_left' hk, List.drop_left' hk, ih hss.symm, List.cons_append]
      · -- a repeat: what follows it in the cut list cannot make it longer
        have hr := runLen_le c L.maxRep l
        have h3 : 3 ≤ runLen c L.maxRep l := hl ▸ three_le_runLen L c t
        have hpre := expand_of_cut L hss.symm hp
        have hend : runLen c L.maxRep l = L.maxRep ∨ (expand ss ++ p).head? ≠ some c := by
          rcases runLen_maximal c L.maxRep l with hm | hm
          · exact .inl hm
          · right
            obtain ⟨u, hu⟩ := hpre
            rw [← hu] at hm
            cases hy : expand ss ++ p with
            | nil => simp
            | cons d y => simpa [hy] using hm
        obtain ⟨n, hn⟩ : ∃ n, runLen c L.maxRep l = n + 3 := ⟨_, (Nat.sub_add_cancel h3).symm⟩
        have hrun := runLen_replicate_append c (expand ss ++ p) hr.1 hend
        rw [expand_cons, Seg.expand, List.append_assoc]
        have hx : List.replicate (runLen c L.maxRep l) c ++ (expand ss ++ p) =
            c :: c :: c :: (List.replicate n c ++ (expand ss ++ p)) := by
          simp [hn, List.replicate_succ]
        rw [hx, segments_rep, ← hx, hrun, List.drop_left' (List.length_replicate ..), ih hss.symm,
          List.cons_append]

/-! ## Storage, from the lengths of the maximal runs -/

/-- Storage of `n` literal entries: one control entry for every `maxLit` begun. -/
def litSize (n : ℕ) : ℕ := n + (n + (L.maxLit - 1)) / L.maxLit

theorem size_segments_lit (l : List α) :
    size (segments L l) = litSize L (litLen l) + size (segments L (l.drop (litLen l))) := by
  have hz : (L.maxLit - 1) / L.maxLit = 0 := Nat.div_eq_of_lt (by have := L.lit_pos; omega)
  induction l using @segments_induction α _ L with
  | nil => simp [litLen, litSize, hz]
  | lit l hl hn ih =>
      have hmax := L.lit_pos
      have hle := litLen_le l
      rw [litLen_drop_of_le (by omega), List.drop_drop] at ih
      rw [segments_lit L hl hn, size_cons, ih, Seg.size, List.length_take]
      rcases Nat.le_total L.maxLit (litLen l) with h | h
      · have hdiv : (litLen l + (L.maxLit - 1)) / L.maxLit =
            (litLen l - L.maxLit + (L.maxLit - 1)) / L.maxLit + 1 := by
          rw [← Nat.add_div_right _ hmax]
          congr 1
          omega
        rw [min_eq_left h, Nat.add_sub_cancel' h]
        simp only [litSize, hdiv]
        omega
      · have hdiv : (litLen l + (L.maxLit - 1)) / L.maxLit = 1 := by
          rw [Nat.div_eq_iff hmax]
          omega
        rw [min_eq_right h, Nat.sub_self, Nat.add_zero, min_eq_left hle]
        simp only [litSize, hdiv, Nat.zero_add, hz, Nat.add_zero]
  | rep c t ih => simp [litLen, litSize, hz]

/-- Lengths of the maximal runs of equal entries. -/
def runs (l : List α) : List ℕ := (l.splitBy (· == ·)).map List.length

@[simp] theorem runs_nil : runs ([] : List α) = [] := by simp [runs, List.splitBy_nil]

theorem runs_replicate_append (c : α) {n : ℕ} {t : List α} (hn : 0 < n)
    (ht : t.head? ≠ some c) : runs (List.replicate n c ++ t) = n :: runs t := by
  have hne : List.replicate n c ≠ [] := by simp; omega
  have hrep : (List.replicate n c).splitBy (· == ·) = [List.replicate n c] := by
    refine List.splitBy_of_isChain hne ?_
    rw [List.isChain_iff_pairwise, List.pairwise_replicate]
    simp
  rw [runs, List.splitBy_append, List.map_append, hrep]
  · simp [runs]
  · intro x hx y hy
    obtain ⟨-, rfl⟩ := List.mem_replicate.mp (List.mem_of_mem_getLast? hx)
    have hxy : y ≠ x := fun h => ht (h ▸ hy)
    simpa using hxy.symm

/-- Storage of a list whose maximal runs have the lengths `rs`, with `p` literal
entries collected before them. Runs of one or two entries join the literals; a
longer one makes a repeat for every `maxRep` entries, and its last one or two
entries are literals again when no repeat is left for them. -/
def runsSize : ℕ → List ℕ → ℕ
  | p, [] => litSize L p
  | p, r :: rs =>
      if r < 3 then runsSize (p + r) rs
      else litSize L p + 2 * ((r + (L.maxRep - 3)) / L.maxRep) +
        runsSize (if r % L.maxRep < 3 then r % L.maxRep else 0) rs

/-- The leading run of a list, split off. -/
theorem exists_run (c : α) (t : List α) :
    ∃ n u, 0 < n ∧ c :: t = List.replicate n c ++ u ∧ u.head? ≠ some c := by
  induction t with
  | nil => exact ⟨1, [], by simp, by simp, by simp⟩
  | cons a t ih =>
      by_cases h : a = c
      · obtain ⟨n, u, hn, he, hu⟩ := ih
        exact ⟨n + 1, u, by omega, by rw [h, he, List.replicate_succ, List.cons_append], hu⟩
      · exact ⟨1, a :: t, by simp, by simp, by simpa using h⟩

theorem litLen_short_run (c : α) {r : ℕ} {t : List α} (hr : r < 3) (ht : t.head? ≠ some c) :
    litLen (List.replicate r c ++ t) = r + litLen t := by
  cases t with
  | nil =>
      have : r = 0 ∨ r = 1 ∨ r = 2 := by omega
      rcases this with rfl | rfl | rfl <;> simp [List.replicate_succ, litLen]
  | cons a t =>
      have hac : c ≠ a := fun h => ht (by simp [h])
      have : r = 0 ∨ r = 1 ∨ r = 2 := by omega
      rcases this with rfl | rfl | rfl
      · simp
      · cases t with
        | nil => simp [litLen]
        | cons b t => simp [litLen, hac]; omega
      · cases t with
        | nil => simp [List.replicate_succ, litLen, hac]
        | cons b t => simp [List.replicate_succ, litLen, hac]; omega

theorem litSize_zero : litSize L 0 = 0 := by
  rw [litSize, Nat.zero_add, Nat.div_eq_of_lt (by have := L.lit_pos; omega)]

theorem runsSize_short {r : ℕ} (hr : r < 3) (p : ℕ) (rs : List ℕ) :
    runsSize L p (r :: rs) = runsSize L (p + r) rs := by
  rw [runsSize, if_pos hr]

theorem runsSize_long {r : ℕ} (hr : 3 ≤ r) (p : ℕ) (rs : List ℕ) :
    runsSize L p (r :: rs) = litSize L p + 2 * ((r + (L.maxRep - 3)) / L.maxRep) +
      runsSize L (if r % L.maxRep < 3 then r % L.maxRep else 0) rs := by
  rw [runsSize, if_neg (by omega)]

/-- The first repeat of a run, and the run that is left behind it. -/
theorem runsSize_repeat {r : ℕ} (hr : 3 ≤ r) (rs : List ℕ) :
    runsSize L 0 (r :: rs) = 2 + runsSize L 0 ((r - L.maxRep) :: rs) := by
  have h3 := L.three_le_rep
  rw [runsSize_long L hr, litSize_zero]
  rcases Nat.lt_or_ge r L.maxRep with h | h
  · have hq : (r + (L.maxRep - 3)) / L.maxRep = 1 := by
      rw [Nat.div_eq_iff (by omega)]
      omega
    rw [hq, Nat.mod_eq_of_lt h, if_neg (by omega), runsSize_short L (by omega),
      Nat.sub_eq_zero_of_le h.le]
  · obtain ⟨k, rfl⟩ : ∃ k, r = k + L.maxRep := ⟨r - L.maxRep, by omega⟩
    have hq : (k + L.maxRep + (L.maxRep - 3)) / L.maxRep = (k + (L.maxRep - 3)) / L.maxRep + 1 := by
      rw [← Nat.add_div_right _ (by omega)]
      congr 1
      omega
    rw [hq, Nat.add_mod_right, Nat.add_sub_cancel]
    rcases Nat.lt_or_ge k 3 with hk | hk
    · have hz : (k + (L.maxRep - 3)) / L.maxRep = 0 := Nat.div_eq_of_lt (by omega)
      have hm : k % L.maxRep = k := Nat.mod_eq_of_lt (by omega)
      rw [runsSize_short L hk, hz, hm, if_pos hk, Nat.zero_add 1, Nat.zero_add k]
    · rw [runsSize_long L hk, litSize_zero]
      omega

/-- The storage of a list, behind a stretch `s` of literals, is read off the
lengths of its maximal runs. -/
theorem size_segments_append {s l : List α} (h : s.length ≤ litLen (s ++ l)) :
    size (segments L (s ++ l)) = runsSize L s.length (runs l) := by
  induction hn : l.length using Nat.strong_induction_on generalizing s l with
  | _ n ih =>
      subst hn
      cases l with
      | nil =>
          have hle := litLen_le s
          rw [List.append_nil] at h ⊢
          have hs : litLen s = s.length := by omega
          rw [size_segments_lit, hs, List.drop_length]
          simp [runsSize]
      | cons c t =>
          obtain ⟨r, u, hr, he, hu⟩ := exists_run c t
          have hlen : (c :: t).length = r + u.length := by simp [he]
          have hdrop := litLen_drop_of_le h
          rw [List.drop_left] at hdrop
          rw [he] at h hdrop ⊢
          rw [runs_replicate_append c hr hu]
          rcases Nat.lt_or_ge r 3 with hr3 | hr3
          · -- a short run joins the stretch
            have hrun := litLen_short_run c hr3 hu
            have hs : (s ++ List.replicate r c).length = s.length + r := by simp
            have hjoin : (s ++ List.replicate r c).length ≤ litLen (s ++ List.replicate r c ++ u) := by
              rw [List.append_assoc]
              omega
            rw [← List.append_assoc, ih u.length (by omega) hjoin rfl, hs, runsSize_short L hr3]
          · -- a long run ends the stretch and makes a repeat
            obtain ⟨m, rfl⟩ : ∃ m, r = m + 3 := ⟨r - 3, by omega⟩
            have hcons : List.replicate (m + 3) c ++ u =
                c :: c :: c :: (List.replicate m c ++ u) := by
              simp [List.replicate_succ]
            have hzero : litLen (List.replicate (m + 3) c ++ u) = 0 := by
              rw [hcons]
              simp [litLen]
            have hs : litLen (s ++ (List.replicate (m + 3) c ++ u)) = s.length := by omega
            have hrest : size (segments L (List.replicate (m + 3) c ++ u)) =
                runsSize L 0 ((m + 3) :: runs u) := by
              have hM := L.three_le_rep
              have hrec : ∀ v : List α, v.length < (c :: t).length →
                  size (segments L v) = runsSize L 0 (runs v) := by
                intro v hv
                have hv0 : ([] : List α).length ≤ litLen ([] ++ v) := Nat.zero_le _
                exact ih v.length hv hv0 rfl
              rw [runsSize_repeat L hr3, hcons, segments_rep, ← hcons, size_cons, Seg.size]
              rcases Nat.lt_or_ge L.maxRep (m + 3) with hlt | hge
              · -- the limit cuts the run
                have hsplit : List.replicate (m + 3) c ++ u = List.replicate L.maxRep c ++
                    (List.replicate (m + 3 - L.maxRep) c ++ u) := by
                  rw [← List.append_assoc, ← List.replicate_add, Nat.add_sub_cancel' hlt.le]
                have hshort : (List.replicate (m + 3 - L.maxRep) c ++ u).length < (c :: t).length := by
                  rw [hlen, List.length_append, List.length_replicate]
                  omega
                rw [hsplit, runLen_replicate_append c _ le_rfl (.inl rfl),
                  List.drop_left' (List.length_replicate ..), hrec _ hshort,
                  runs_replicate_append c (by omega) hu]
              · rw [runLen_replicate_append c u hge (.inr hu), Nat.sub_eq_zero_of_le hge,
                  List.drop_left' (List.length_replicate ..), runsSize_short L (by omega),
                  hrec u (by omega)]
            rw [size_segments_lit, hs, List.drop_left, hrest, runsSize_long L hr3,
              runsSize_long L hr3, litSize_zero]
            omega

theorem size_segments (l : List α) : size (segments L l) = runsSize L 0 (runs l) := by
  have h : ([] : List α).length ≤ litLen ([] ++ l) := Nat.zero_le _
  exact size_segments_append L h

/-! ## Storage, bounded by the length -/

theorem litSize_add_le (a b : ℕ) : litSize L a + litSize L b ≤ litSize L (a + b) + 1 := by
  have hpos := L.lit_pos
  have hdiv : (a + (L.maxLit - 1)) / L.maxLit + (b + (L.maxLit - 1)) / L.maxLit ≤
      (a + b + (L.maxLit - 1)) / L.maxLit + 1 := by
    calc (a + (L.maxLit - 1)) / L.maxLit + (b + (L.maxLit - 1)) / L.maxLit
        ≤ (a + (L.maxLit - 1) + (b + (L.maxLit - 1))) / L.maxLit := Nat.div_add_div_le_add_div
      _ ≤ (a + b + (L.maxLit - 1) + L.maxLit) / L.maxLit := Nat.div_le_div_right (by omega)
      _ = (a + b + (L.maxLit - 1)) / L.maxLit + 1 := Nat.add_div_right _ hpos
  simp only [litSize]
  omega

theorem litSize_add_ge (a b : ℕ) : litSize L a + b ≤ litSize L (a + b) := by
  have hdiv : (a + (L.maxLit - 1)) / L.maxLit ≤ (a + b + (L.maxLit - 1)) / L.maxLit :=
    Nat.div_le_div_right (by omega)
  simp only [litSize]
  omega

/-- Nothing takes more storage than literals alone. -/
theorem size_segments_le (l : List α) : size (segments L l) ≤ litSize L l.length := by
  induction hn : l.length using Nat.strong_induction_on generalizing l with
  | _ n ih =>
      subst hn
      rw [size_segments_lit]
      have hle := litLen_le l
      rcases Nat.lt_or_ge (litLen l) l.length with hlt | hge
      · obtain ⟨c, t, hrest⟩ := litLen_drop hlt
        have hlen : (l.drop (litLen l)).length = l.length - litLen l := List.length_drop
        have hrun := three_le_runLen L c t
        have hrunle := runLen_le c L.maxRep (l.drop (litLen l))
        rw [← hrest] at hrun
        rw [hrest, segments_rep, ← hrest, size_cons, Seg.size]
        have hrec := ih _ (by rw [List.length_drop]; omega)
          ((l.drop (litLen l)).drop (runLen c L.maxRep (l.drop (litLen l)))) rfl
        rw [List.length_drop, hlen] at hrec
        generalize runLen c L.maxRep (l.drop (litLen l)) = r at *
        have h1 := litSize_add_le L (litLen l) (l.length - litLen l - r)
        have h2 := litSize_add_ge L (litLen l + (l.length - litLen l - r)) r
        have h3 : litLen l + (l.length - litLen l - r) + r = l.length := by omega
        rw [h3] at h2
        omega
      · have heq : litLen l = l.length := by omega
        rw [heq, List.drop_length, segments, size_nil]
        omega

end RunLength
