import Mathlib.Data.List.Basic
import Mathlib.Data.List.GetD
import Mathlib.Data.List.Induction
import Mathlib.Data.List.Nodup
import Mathlib.Data.List.Perm.Basic
import Mathlib.Logic.Function.Basic

/-! # The pages of a blob (`jrd/blb.cpp`)

A blob of level 1 has a vector of its data pages. When the vector is full, the blob gets level 2: the
vector has the pointer pages, and each of these the numbers of data pages, with zeros behind the
last. `delete_blob` walks what it finds there.
-/

namespace Firebird.Blb

/-- The size of the pages (at least `MIN_PAGE_SIZE`), on which the other sizes depend -/
structure PageSize where
  size : ℕ
  le_size : 1024 ≤ size

/-- `blb_max_pages`: the clump is what a data page with one record holds besides its header, the
entry of the record, and the header of the blob. -/
def PageSize.maxPages (z : PageSize) : ℕ := (z.size - 28 - 4 - 32) / 4

/-- `blb_pointers`, the page numbers behind `BLP_SIZE` -/
def PageSize.pointers (z : PageSize) : ℕ := (z.size - 28) / 4

/-- The blob (`blb_level`, `blb_pages`, `blb_sequence`), the long words behind the header of each
page of the file, and how many pages have been allocated -/
structure Blob where
  level : ℕ
  pages : List ℕ
  sequence : ℕ
  words : ℕ → ℕ → ℕ
  allocated : ℕ

/-- `vector->resize (n)`, with zeros for the new elements -/
def resize (v : List ℕ) (n : ℕ) : List ℕ := v.take n ++ List.replicate (n - v.length) 0

section

variable (z : PageSize) (alloc : ℕ → ℕ)

/-- `DPM_allocate`: the next page, which is all zeros -/
def Blob.allocate (s : Blob) : ℕ × Blob :=
  let page := alloc s.allocated
  (page, { s with
    words := Function.update s.words page fun _ => 0
    allocated := s.allocated + 1 })

/-- `insert_page` where the vector has overflowed: its numbers move to a pointer page. -/
def Blob.transform (s : Blob) : Blob :=
  let (page, s) := s.allocate alloc
  { s with
    level := 2
    words := Function.update s.words page fun j => s.pages.getD j 0
    pages := (resize s.pages 1).set 0 page }

/-- `insert_page`: the pointer page of the blob's sequence, created if need be -/
def Blob.pointerPage (s : Blob) : ℕ × Blob :=
  let l := s.sequence / z.pointers
  if l < s.pages.length then (s.pages.getD l 0, s)
  else
    let (page, s) := s.allocate alloc
    (page, { s with pages := (resize s.pages (l + 1)).set l page })

/-- `insert_page`: the number goes to its slot of the pointer page. -/
def Blob.putNumber (s : Blob) (number : ℕ) : Blob :=
  let (page, s) := s.pointerPage z alloc
  { s with
    words := Function.update s.words page
      (Function.update (s.words page) (s.sequence % z.pointers) number)
    sequence := s.sequence + 1 }

/-- `insert_page` of a data page with the given words, and `blb_sequence++` behind it -/
def Blob.insertPage (s : Blob) (data : ℕ → ℕ) : Blob :=
  let (number, s) := s.allocate alloc
  let s := { s with words := Function.update s.words number data }
  if s.level = 1 ∧ s.sequence < z.maxPages then
    let vector := if s.sequence ≥ s.pages.length then resize s.pages (s.sequence + 1) else s.pages
    { s with pages := vector.set s.sequence number, sequence := s.sequence + 1 }
  else (if s.level = 1 then s.transform alloc else s).putNumber z alloc number

/-- A blob when it gets level 1 -/
def Blob.medium (words : ℕ → ℕ → ℕ) : Blob := ⟨1, [], 0, words, 0⟩

/-- The pages that `delete_blob` releases, each with the page that is to be written before it -/
def Blob.delete (s : Blob) (priorPage : ℕ) : List (ℕ × ℕ) :=
  if s.level = 0 then []
  else if s.level = 1 then
    (s.pages.filter (· ≠ 0)).map fun page => (page, priorPage)
  else
    (s.pages.filter (· ≠ 0)).flatMap fun page => (page, priorPage) ::
      (((List.range z.pointers).map (s.words page)).filter (· ≠ 0)).map fun data => (data, page)

end

/-! ### What the pages hold -/

theorem PageSize.maxPages_le (z : PageSize) : z.maxPages ≤ z.pointers := by
  have h := z.le_size
  rw [maxPages, pointers]
  omega

theorem PageSize.pointers_pos (z : PageSize) : 0 < z.pointers := by
  have h := z.le_size
  rw [pointers]
  omega

/-- The pointer pages have the numbers of the data pages in order, with zeros behind them. -/
def Points (c : ℕ) (words : ℕ → ℕ → ℕ) (pages data : List ℕ) : Prop :=
  ∀ i, i < pages.length → ∀ j, j < c → words (pages.getD i 0) j = data.getD (i * c + j) 0

section

variable {z : PageSize} {alloc : ℕ → ℕ} {s : Blob} {data : List ℕ} {words : ℕ → ℕ → ℕ}

/-- The blob has these data pages, in order, and besides them its pointer pages; these are all that
have been allocated. -/
structure Inv (z : PageSize) (alloc : ℕ → ℕ) (s : Blob) (data : List ℕ) : Prop where
  length : data.length = s.sequence
  level : s.level = 1 ∨ s.level = 2
  medium : s.level = 1 → s.pages = data ∧ s.sequence ≤ z.maxPages ∧
    data.Perm ((List.range s.allocated).map alloc)
  large : s.level = 2 → Points z.pointers s.words s.pages data ∧
    s.sequence ≤ s.pages.length * z.pointers ∧
      (data ++ s.pages).Perm ((List.range s.allocated).map alloc)

theorem inv_medium (words : ℕ → ℕ → ℕ) : Inv z alloc (Blob.medium words) [] where
  length := rfl
  level := .inl rfl
  medium _ := ⟨rfl, Nat.zero_le _, .nil⟩
  large h := absurd (show 1 = 2 from h) (by decide)

theorem resize_append {v : List ℕ} (x : ℕ) :
    (resize v (v.length + 1)).set v.length x = v ++ [x] := by
  rw [resize, List.take_of_length_le (Nat.le_succ _), Nat.add_sub_cancel_left, List.replicate_one,
    List.set_append_right _ _ (Nat.le_refl _), Nat.sub_self, List.set_cons_zero]

theorem not_mem_of_perm {l : List ℕ} {n : ℕ} (halloc : Function.Injective alloc)
    (h : l.Perm ((List.range n).map alloc)) {k : ℕ} (hk : n ≤ k) : alloc k ∉ l := by
  intro hmem
  obtain ⟨i, hi, heq⟩ := List.mem_map.mp (h.mem_iff.mp hmem)
  have := List.mem_range.mp hi
  rw [halloc heq] at this
  omega

/-- A page that is not among the pointer pages can be written. -/
theorem Points.update_page {pages : List ℕ} {c page : ℕ} (h : Points c words pages data)
    (hpage : page ∉ pages) (image : ℕ → ℕ) :
    Points c (Function.update words page image) pages data := by
  intro i hi j hj
  have hmem : pages.getD i 0 ∈ pages := by
    rw [List.getD_eq_getElem _ _ hi]
    exact List.getElem_mem hi
  have hne : pages.getD i 0 ≠ page := by
    rintro heq
    exact hpage (heq ▸ hmem)
  rw [Function.update_of_ne hne]
  exact h i hi j hj

/-- A new pointer page -/
theorem Points.append {pages : List ℕ} {c page : ℕ} (h : Points c words pages data)
    (hlength : data.length = pages.length * c) (hpage : words page = fun _ => 0) :
    Points c words (pages ++ [page]) data := by
  intro i hi j hj
  rw [List.length_append, List.length_singleton] at hi
  rcases Nat.lt_or_ge i pages.length with hlt | hge
  · rw [List.getD_append _ _ _ _ hlt]
    exact h i hlt j hj
  · obtain rfl : i = pages.length := by omega
    rw [List.getD_append_right _ _ _ _ (Nat.le_refl _), Nat.sub_self, List.getD_cons_zero, hpage,
      List.getD_eq_default]
    omega

/-- The number of a new data page goes to its slot. -/
theorem Points.insert {pages : List ℕ} {c : ℕ} (number : ℕ) (hc : 0 < c)
    (h : Points c words pages data) (hnodup : pages.Nodup) (hl : data.length / c < pages.length) :
    Points c (Function.update words (pages.getD (data.length / c) 0)
      (Function.update (words (pages.getD (data.length / c) 0)) (data.length % c) number)) pages
        (data ++ [number]) := by
  intro i hi j hj
  have hdiv := Nat.div_add_mod data.length c
  have hmod := Nat.mod_lt data.length hc
  by_cases hil : i = data.length / c
  · subst hil
    rw [Function.update_self]
    by_cases hjm : j = data.length % c
    · subst hjm
      rw [Function.update_self, Nat.mul_comm, hdiv, List.getD_append_right _ _ _ _ (Nat.le_refl _),
        Nat.sub_self, List.getD_cons_zero]
    · rw [Function.update_of_ne hjm, h _ hi j hj]
      rcases Nat.lt_or_gt_of_ne hjm with hlt | hgt
      · rw [List.getD_append]
        rw [Nat.mul_comm]
        omega
      · rw [List.getD_eq_default, List.getD_eq_default]
        · rw [List.length_append, List.length_singleton, Nat.mul_comm]
          omega
        · rw [Nat.mul_comm]
          omega
  · have hne : pages.getD i 0 ≠ pages.getD (data.length / c) 0 := by
      rw [List.getD_eq_getElem _ _ hi, List.getD_eq_getElem _ _ hl]
      exact fun heq => hil ((hnodup.getElem_inj_iff).mp heq)
    rw [Function.update_of_ne hne, h i hi j hj]
    rcases Nat.lt_or_ge i (data.length / c) with hlt | hge
    · have hmul := Nat.mul_le_mul_right c hlt
      rw [Nat.succ_mul] at hmul
      rw [Nat.mul_comm] at hdiv
      rw [List.getD_append]
      omega
    · have hgt : data.length / c + 1 ≤ i := by omega
      have hmul := Nat.mul_le_mul_right c hgt
      rw [Nat.succ_mul] at hmul
      rw [Nat.mul_comm] at hdiv
      rw [List.getD_eq_default, List.getD_eq_default]
      · rw [List.length_append, List.length_singleton]
        omega
      · omega

/-- A data page goes to its slot of the right pointer page. -/
theorem inv_putNumber {number : ℕ} (halloc : Function.Injective alloc) (hlevel : s.level = 2)
    (hpoints : Points z.pointers s.words s.pages data) (hlength : data.length = s.sequence)
    (hle : s.sequence ≤ s.pages.length * z.pointers)
    (hperm : (number :: (data ++ s.pages)).Perm ((List.range s.allocated).map alloc)) :
    Inv z alloc (s.putNumber z alloc number) (data ++ [number]) := by
  have hc := z.pointers_pos
  have hall : ((List.range s.allocated).map alloc).Nodup := List.nodup_range.map halloc
  have hnodup := hperm.nodup_iff.mpr hall
  rw [List.nodup_cons, List.nodup_append] at hnodup
  obtain ⟨-, -, hpages, -⟩ := hnodup
  have hdiv := Nat.div_add_mod s.sequence z.pointers
  have hmod := Nat.mod_lt s.sequence hc
  rw [Nat.mul_comm] at hdiv
  rw [Blob.putNumber]
  rcases Nat.lt_or_ge (s.sequence / z.pointers) s.pages.length with hl | hl
  · -- the page is there
    have heq : s.pointerPage z alloc = (s.pages.getD (s.sequence / z.pointers) 0, s) := by
      rw [Blob.pointerPage]
      exact if_pos hl
    have hmul := Nat.mul_le_mul_right z.pointers hl
    rw [Nat.succ_mul] at hmul
    rw [heq]
    refine ⟨?_, .inr hlevel, fun hno => absurd (hlevel.symm.trans hno) (by decide),
      fun _ => ⟨?_, ?_, ?_⟩⟩
    · rw [List.length_append, List.length_singleton, hlength]
    · dsimp only
      rw [← hlength] at hl ⊢
      exact hpoints.insert number hc hpages hl
    · dsimp only
      omega
    · rw [List.append_assoc]
      exact List.perm_middle.trans hperm
  · -- a page is created
    have hmul := Nat.mul_le_mul_right z.pointers hl
    have hseq : s.sequence = s.pages.length * z.pointers := by omega
    have hl' : s.sequence / z.pointers = s.pages.length := by
      rw [hseq]
      exact Nat.mul_div_cancel _ hc
    have heq : s.pointerPage z alloc = (alloc s.allocated, { s with
        words := Function.update s.words (alloc s.allocated) fun _ => 0
        allocated := s.allocated + 1
        pages := s.pages ++ [alloc s.allocated] }) := by
      rw [Blob.pointerPage]
      dsimp only
      rw [if_neg (Nat.not_lt.mpr hl), hl']
      exact congrArg _ (by rw [Blob.allocate]; dsimp only; rw [resize_append])
    have hnew : alloc s.allocated ∉ s.pages := fun hmem =>
      not_mem_of_perm halloc hperm (Nat.le_refl _)
        (List.mem_cons_of_mem _ (List.mem_append_right _ hmem))
    rw [heq]
    refine ⟨?_, .inr hlevel, fun hno => absurd (hlevel.symm.trans hno) (by decide),
      fun _ => ⟨?_, ?_, ?_⟩⟩
    · rw [List.length_append, List.length_singleton, hlength]
    · have hpoints' := (hpoints.update_page hnew fun _ => 0).append
        (hlength.trans hseq) (Function.update_self ..)
      have hpages' : (s.pages ++ [alloc s.allocated]).Nodup := by
        rw [List.nodup_append]
        refine ⟨hpages, List.nodup_singleton _, fun x hx y hy => ?_⟩
        rw [List.mem_singleton] at hy
        rintro rfl
        exact hnew (hy ▸ hx)
      have hlt : data.length / z.pointers < (s.pages ++ [alloc s.allocated]).length := by
        rw [hlength, hl', List.length_append, List.length_singleton]
        exact Nat.lt_succ_self _
      have hins := hpoints'.insert number hc hpages' hlt
      rw [hlength, hl', List.getD_append_right _ _ _ _ (Nat.le_refl _), Nat.sub_self,
        List.getD_cons_zero] at hins
      exact hins
    · dsimp only
      rw [List.length_append, List.length_singleton, Nat.succ_mul]
      omega
    · rw [List.range_succ, List.map_append, ← List.append_assoc]
      refine List.Perm.append ?_ (.refl _)
      rw [List.append_assoc]
      exact List.perm_middle.trans hperm

theorem resize_one (v : List ℕ) (x : ℕ) : (resize v 1).set 0 x = [x] := by
  cases v with
  | nil => rfl
  | cons y v => rw [resize, List.length_cons, Nat.sub_eq_zero_of_le (Nat.le_add_left 1 _)]; rfl

/-- Each page inserted keeps what the pages hold. -/
theorem inv_insertPage (halloc : Function.Injective alloc) (image : ℕ → ℕ)
    (h : Inv z alloc s data) :
    Inv z alloc (s.insertPage z alloc image) (data ++ [alloc s.allocated]) := by
  have hrange : ∀ {l : List ℕ}, l.Perm ((List.range s.allocated).map alloc) →
      (alloc s.allocated :: l).Perm ((List.range (s.allocated + 1)).map alloc) := by
    intro l hl
    rw [List.range_succ, List.map_append]
    exact (hl.cons _).trans (List.perm_append_singleton _ _).symm
  rw [Blob.insertPage, Blob.allocate]
  dsimp only
  by_cases hroom : s.level = 1 ∧ s.sequence < z.maxPages
  · obtain ⟨hpages, -, hperm⟩ := h.medium hroom.1
    rw [if_pos hroom, hpages, ← h.length, if_pos (Nat.le_refl _), resize_append]
    refine ⟨List.length_append, .inl hroom.1, fun _ => ⟨rfl, ?_, ?_⟩,
      fun hno => absurd (hroom.1.symm.trans hno) (by decide)⟩
    · have := hroom.2
      rw [← h.length] at this
      exact this
    · exact (List.perm_append_singleton _ _).trans (hrange hperm)
  · rw [if_neg hroom]
    by_cases hlevel : s.level = 1
    · -- the numbers so far move to the first pointer page
      obtain ⟨hpages, hmax, hperm⟩ := h.medium hlevel
      have hle := z.maxPages_le
      rw [if_pos hlevel, Blob.transform, Blob.allocate]
      dsimp only
      rw [resize_one, hpages]
      refine inv_putNumber halloc rfl ?_ h.length ?_ ?_
      · intro i hi j hj
        obtain rfl : i = 0 := by
          rw [List.length_singleton] at hi
          omega
        dsimp only
        rw [List.getD_cons_zero, Function.update_self, Nat.zero_mul, Nat.zero_add]
      · rw [List.length_singleton, Nat.one_mul]
        exact Nat.le_trans hmax hle
      · dsimp only
        rw [List.range_succ, List.map_append, ← List.cons_append]
        exact (hrange hperm).append (.refl _)
    · obtain ⟨hpoints, hle, hperm⟩ := h.large (h.level.resolve_left hlevel)
      have hnew : alloc s.allocated ∉ s.pages := fun hmem =>
        not_mem_of_perm halloc hperm (Nat.le_refl _) (List.mem_append_right _ hmem)
      rw [if_neg hlevel]
      exact inv_putNumber halloc (h.level.resolve_left hlevel)
        ((hpoints.update_page hnew _).update_page hnew _) h.length hle (hrange hperm)

/-! ### What is released -/

theorem filter_getD {l : List ℕ} (h0 : 0 ∉ l) (c : ℕ) :
    ((List.range c).map fun j => l.getD j 0).filter (· ≠ 0) = l.take c := by
  induction c with
  | zero => rfl
  | succ c ih =>
    rw [List.range_succ, List.map_append, List.filter_append, ih, List.map_singleton]
    rcases Nat.lt_or_ge c l.length with hc | hc
    · have hne : l[c] ≠ 0 := fun heq => h0 (heq ▸ List.getElem_mem hc)
      rw [List.getD_eq_getElem _ _ hc, List.take_succ_eq_append_getElem hc,
        List.filter_singleton]
      simp [hne]
    · rw [List.getD_eq_default _ _ hc, List.take_of_length_le hc, List.take_of_length_le (by omega)]
      simp

/-- The parts of a list one after the other -/
theorem flatMap_parts (l : List ℕ) (c n : ℕ) :
    (List.range n).flatMap (fun i => (l.drop (i * c)).take c) = l.take (n * c) := by
  induction n with
  | zero => rw [Nat.zero_mul]; rfl
  | succ n ih =>
    rw [List.range_succ, List.flatMap_append, ih, List.flatMap_singleton, Nat.succ_mul,
      List.take_add]

/-- `delete_blob` releases the data pages and the pointer pages, once each. -/
theorem delete_perm (h0 : ∀ n, alloc n ≠ 0) (h : Inv z alloc s data) (priorPage : ℕ) :
    ((s.delete z priorPage).map Prod.fst).Perm ((List.range s.allocated).map alloc) := by
  have hzero : ∀ {l : List ℕ}, l.Perm ((List.range s.allocated).map alloc) → 0 ∉ l := by
    intro l hl hmem
    obtain ⟨i, -, heq⟩ := List.mem_map.mp (hl.mem_iff.mp hmem)
    exact h0 i heq
  have hfilter : ∀ {l : List ℕ}, 0 ∉ l → l.filter (· ≠ 0) = l := by
    intro l hl
    rw [List.filter_eq_self]
    intro x hx
    exact decide_eq_true fun heq => hl (heq ▸ hx)
  rcases h.level with hlevel | hlevel
  · obtain ⟨hpages, -, hperm⟩ := h.medium hlevel
    rw [Blob.delete, if_neg (by omega), if_pos hlevel, hpages, hfilter (hzero hperm), List.map_map]
    exact (List.map_id data).symm ▸ hperm
  · obtain ⟨hpoints, hle, hperm⟩ := h.large hlevel
    have hz := hzero hperm
    rw [List.mem_append, not_or] at hz
    have hpart : ∀ i, i < s.pages.length →
        ((List.range z.pointers).map (s.words (s.pages.getD i 0))).filter (· ≠ 0) =
          (data.drop (i * z.pointers)).take z.pointers := by
      intro i hi
      rw [← filter_getD (fun hmem => hz.1 (List.mem_of_mem_drop hmem))]
      congr 1
      refine List.map_congr_left fun j hj => ?_
      rw [hpoints i hi j (List.mem_range.mp hj), List.getD_eq_getElem?_getD,
        List.getD_eq_getElem?_getD, List.getElem?_drop]
    have hpages : s.pages = (List.range s.pages.length).map fun i => s.pages.getD i 0 := by
      refine List.ext_getElem (by simp) fun i hi _ => ?_
      rw [List.getElem_map, List.getElem_range, List.getD_eq_getElem _ _ hi]
    have hparts : (s.delete z priorPage).map Prod.fst = (List.range s.pages.length).flatMap
        fun i => s.pages.getD i 0 :: (data.drop (i * z.pointers)).take z.pointers := by
      rw [Blob.delete, if_neg (by omega), if_neg (by omega), hfilter hz.2, List.map_flatMap]
      nth_rewrite 1 [hpages]
      rw [List.flatMap_map]
      refine List.flatMap_congr fun i hi => ?_
      rw [List.map_cons, List.map_map, hpart i (List.mem_range.mp hi)]
      exact congrArg _ (List.map_id _)
    rw [hparts]
    refine (List.map_append_flatMap_perm (List.range s.pages.length) _ _).symm.trans ?_
    rw [flatMap_parts, ← hpages, List.take_of_length_le (h.length ▸ hle)]
    exact List.perm_append_comm.trans hperm

/-- The blob after the pages with these words have been inserted -/
theorem inv_pages (halloc : Function.Injective alloc) (words : ℕ → ℕ → ℕ)
    (images : List (ℕ → ℕ)) :
    ∃ data, Inv z alloc (images.foldl (Blob.insertPage z alloc) (Blob.medium words)) data := by
  induction images using List.reverseRecOn with
  | nil => exact ⟨[], inv_medium words⟩
  | append_singleton images image ih =>
    obtain ⟨data, hdata⟩ := ih
    rw [List.foldl_append]
    exact ⟨_, inv_insertPage halloc image hdata⟩

end

end Firebird.Blb
