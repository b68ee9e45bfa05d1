import Firebird.Jrd.DirtyTree
import Mathlib.Logic.Relation

/-! # The walk over the dirty pages (`btc_flush`)

The walk keeps the next buffer and the largest page seen while pages are written and removed. A
page is missed when the next buffer is a page already seen, and a page that is still due has been
hung below a seen page to the right of it.
-/

namespace Firebird.Btc

open LinkedTree

universe u

variable {ι : Type u}

/-- What `btc_flush` is called with, and the bit `BCB_keep_pages` -/
structure Pass where
  transactionMask : BitVec 32
  sysOnly : Bool
  keepPages : Bool

/-- The variables of the walk -/
structure Walk (ι : Type u) where
  cache : Cache ι
  next : Option ι
  nextPage : ℤ
  maxSeen : ℤ

section Definitions

variable [Fintype ι] [DecidableEq ι] (b : Buffers ι) (f : Pass)

/-- `write_page` of a page that is written without an error -/
def writePage (c : Cache ι) (bdb : ι) : Except Stop (Cache ι) :=
  let c := { c with
    written := bdb :: c.written
    transactions := Function.update c.transactions bdb 0 }
  (if f.keepPages = false ∧ (c.links.parent bdb ≠ none ∨ c.links.root = some bdb) then
    remove c bdb else .ok c).map fun c => { c with
      dirty := Function.update c.dirty bdb false
      mustWrite := Function.update c.mustWrite bdb false
      systemDirty := Function.update c.systemDirty bdb false }

/-- A page that is not dirty is not written. -/
def writeDirty (c : Cache ι) (bdb : ι) : Except Stop (Cache ι) :=
  if c.dirty bdb then writePage f c bdb else .ok c

/-- `write_buffer`: the pages that precedence puts first, in the order of the writes, then the
page -/
def writeBuffer (c : Cache ι) (first : List ι) (bdb : ι) : Except Stop (Cache ι) :=
  (first ++ [bdb]).foldlM (writeDirty f) c

/-- The test whether this transaction can have dirtied the page -/
def Test (c : Cache ι) (bdb : ι) : Prop :=
  f.transactionMask &&& c.transactions bdb ≠ 0 ∨ c.systemDirty bdb ∨
    (f.transactionMask = 0 ∧ f.sysOnly = false) ∨ c.transactions bdb = 0

instance (c : Cache ι) (bdb : ι) : Decidable (Test f c bdb) :=
  inferInstanceAs (Decidable (_ ∨ _ ∨ _ ∨ _))

/-- Pick starting place at leftmost node. `next_page` is not set where there is none. -/
def start (c : Cache ι) : Except Stop (Walk ι) :=
  let c := { c with written := [] }
  match c.links.root with
  | none => .ok ⟨c, none, 0, minPageNumber⟩
  | some root =>
      match c.links.leftmost (Fintype.card ι) root with
      | none => .error .endless
      | some next => .ok ⟨c, some next, b.page next, minPageNumber⟩

/-- The loop that repositions -/
def reposition (s : Links ι) (maxSeen : ℤ) : ℕ → ι → Except Stop ι
  | 0, _ => .error .endless
  | turns + 1, bdb =>
      match if maxSeen < b.page bdb then s.left bdb
        else if maxSeen > b.page bdb then s.right bdb else none with
      | some child => reposition s maxSeen turns child
      | none => .ok bdb

/-- If we're lost, reposition. -/
def current (w : Walk ι) (next : ι) : Except Stop (Option ι) :=
  let s := w.cache.links
  if b.page next ≠ w.nextPage ∨ (s.parent next = none ∧ s.root ≠ some next) then
    match s.root with
    | none => .ok none
    | some root => (reposition b s w.maxSeen (Fintype.card ι) root).map some
  else .ok (some next)

/-- Decide where to go next: right, then down to the left, or up. -/
def chooseNext (s : Links ι) (maxSeen : ℤ) (bdb : ι) : Except Stop (Option ι) :=
  match s.right bdb with
  | none => .ok (s.parent bdb)
  | some right =>
      if maxSeen < b.page right then
        match s.leftmost (Fintype.card ι) right with
        | none => .error .endless
        | some next => .ok (some next)
      else .ok (s.parent bdb)

/-- What is done with a page not seen before -/
def visit (c : Cache ι) (first : List ι) (bdb : ι) : Except Stop (Cache ι) :=
  if c.dirty bdb = false then remove c bdb
  else if b.length bdb ≠ 0 then .ok c
  else if Test f c bdb then writeBuffer f c first bdb
  else .ok c

/-- A turn of the walk. The pages `first` are written before the page if it is written. -/
def turn (w : Walk ι) (first : List ι) (next : ι) : Except Stop (Walk ι) :=
  (current b w next).bind fun
    | none => .ok { w with next := none }
    | some bdb => (chooseNext b w.cache.links w.maxSeen bdb).bind fun next =>
        let nextPage := next.elim w.nextPage b.page
        if w.maxSeen ≥ b.page bdb then .ok { w with next, nextPage }
        else (visit b f w.cache first bdb).map fun cache =>
          { cache, next, nextPage, maxSeen := b.page bdb }

/-- The walk after a number of turns -/
def flush (c : Cache ι) (first : ℕ → List ι) : ℕ → Except Stop (Walk ι)
  | 0 => start b c
  | n + 1 => (flush c first n).bind fun w =>
      match w.next with
      | none => .ok w
      | some next => turn b f w (first n) next

end Definitions

/-- The buffer is in the tree. -/
def InTree (s : Links ι) (bdb : ι) : Prop := s.parent bdb ≠ none ∨ s.root = some bdb

instance [DecidableEq ι] (s : Links ι) (bdb : ι) : Decidable (InTree s bdb) :=
  inferInstanceAs (Decidable (_ ∨ _))

/-- The page is to be written: it is in the tree, is dirty, has no journal records and passes the
test. -/
def Due (b : Buffers ι) (f : Pass) (c : Cache ι) (bdb : ι) : Prop :=
  InTree c.links bdb ∧ c.dirty bdb ∧ b.length bdb = 0 ∧ Test f c bdb

instance [DecidableEq ι] (b : Buffers ι) (f : Pass) (c : Cache ι) (bdb : ι) :
    Decidable (Due b f c bdb) :=
  inferInstanceAs (Decidable (_ ∧ _ ∧ _ ∧ _))

/-- `y` is in the subtree of `x`. -/
def Below (s : Links ι) (x y : ι) : Prop :=
  Relation.ReflTransGen (fun x y => s.left x = some y ∨ s.right x = some y) x y

/-- If the next page and its right child have been seen, no page to the right of it that has not
been seen is due. -/
def OnTrack (b : Buffers ι) (f : Pass) (w : Walk ι) : Prop :=
  ∀ p right y, w.next = some p → w.cache.links.right p = some right → b.page p ≤ w.maxSeen →
    b.page right ≤ w.maxSeen → Below w.cache.links right y → Due b f w.cache y →
      b.page y ≤ w.maxSeen

open BinaryTree (nil node)

section Next

variable {b : Buffers ι} {s : Links ι} {t : BinaryTree ι}

/-- Where the walk can go on without a loss: no page of `D` is before `p`, and if `p` has been seen,
the pages whose left subtree it is in have not been seen; nor has one come between it and a seen
page after it. -/
structure Placed (b : Buffers ι) (t : BinaryTree ι) (D : ι → Prop) (k : ℤ) (p : ι) : Prop where
  le : ∀ x, D x → b.page p ≤ b.page x
  lefts : b.page p ≤ k → ∀ a, InLeft t p a → k < b.page a
  between : b.page p ≤ k → ∀ y a, b.page p < b.page y → b.page y ≤ k → k < b.page a →
    InLeft t y a → InLeft t p a

/-- A page not seen -/
theorem Placed.of_lt {D : ι → Prop} {k : ℤ} {p : ι} (hle : ∀ x, D x → b.page p ≤ b.page x)
    (hk : k < b.page p) : Placed b t D k p :=
  ⟨hle, fun hno => absurd hk (not_lt.mpr hno), fun hno => absurd hk (not_lt.mpr hno)⟩

theorem below_of_mem {p par : Option ι} {r y : ι} (h : Linked s p par t) (hp : p = some r)
    (hy : y ∈ inorder t) : Below s r y := by
  induction t generalizing p par r with
  | nil => exact (List.not_mem_nil hy).elim
  | node x l r' ihl ihr =>
    obtain ⟨rfl, -, hl, hr⟩ := h
    obtain rfl := Option.some.inj hp
    rw [inorder_node, List.mem_append, List.mem_cons] at hy
    rcases hy with hy | rfl | hy
    · cases hc : s.left x with
      | none =>
        rw [hc] at hl
        rw [hl.eq_nil] at hy
        exact (List.not_mem_nil hy).elim
      | some c => exact .head (.inl hc) (ihl hl hc hy)
    · exact .refl
    · cases hc : s.right x with
      | none =>
        rw [hc] at hr
        rw [hr.eq_nil] at hy
        exact (List.not_mem_nil hy).elim
      | some c => exact .head (.inr hc) (ihr hr hc hy)

/-- The pages of `D` come after the place of `p` when none is to the right of it. -/
theorem mem_after {D : ι → Prop} {k : ℤ} {p : ι} {up : Path ι} {l r : BinaryTree ι}
    (h : Holds b s (up.zip (node p l r))) (hk : b.page p ≤ k)
    (hD : ∀ x, D x → x ∈ inorder (up.zip (node p l r)) ∧ k < b.page x)
    (hright : ∀ x ∈ inorder r, ¬D x) {x : ι} (hx : D x) : x ∈ up.after := by
  obtain ⟨hbefore, -, -⟩ := h.ordered.place
  obtain ⟨hmem, hkx⟩ := hD x hx
  rw [Path.mem_zip, inorder_node, List.mem_append, List.mem_cons] at hmem
  rcases hmem with hxb | (hxl | rfl | hxr) | hxa
  · exact absurd (hbefore x (.inl hxb)) (by omega)
  · exact absurd (hbefore x (.inr hxl)) (by omega)
  · exact absurd hkx (not_lt.mpr hk)
  · exact (hright x hxr hx).elim
  · exact hxa

/-- Up from a page when nothing is left to the right of it -/
theorem placed_parent {D : ι → Prop} {k : ℤ} {p q : ι} {up : Path ι} {l r : BinaryTree ι}
    (h : Holds b s (up.zip (node p l r))) (hk : b.page p ≤ k)
    (hplaced : Placed b (up.zip (node p l r)) D k p)
    (hD : ∀ x, D x → x ∈ inorder (up.zip (node p l r)) ∧ k < b.page x)
    (hright : ∀ x ∈ inorder r, ¬D x) (hq : s.parent p = some q) :
    q ∈ inorder (up.zip (node p l r)) ∧ Placed b (up.zip (node p l r)) D k q ∧
      (k < b.page q ∨ b.page q < b.page p) := by
  have hnd := h.ordered.nodup
  obtain ⟨hz, -, hlr, hout⟩ := Path.nodup_zip hnd
  obtain ⟨hbefore, hafter, -⟩ := h.ordered.place
  obtain ⟨_, _, hup, rfl, hpar, -, -⟩ := Path.isTree_zip.mp h.tree
  have hself : ∀ a, InLeft (up.zip (node p l r)) p a ↔ a ∈ up.lefts :=
    fun a => Path.inLeft_zip_self _ hnd
  rw [← hpar, hq] at hup
  cases up with
  | top => exact (Option.some_ne_none q hup.2).elim
  | left x r' up =>
    obtain rfl := Option.some.inj hup.1
    have hkq : k < b.page q :=
      hplaced.lefts hk q ((hself q).mpr List.mem_cons_self)
    have hmem : q ∈ (Path.left q r' up).after := List.mem_append_left _ List.mem_cons_self
    refine ⟨(Path.mem_zip _).mpr (.inr (.inr hmem)), Placed.of_lt (fun x hx => ?_) hkq, .inl hkq⟩
    have hxa := mem_after h hk hD hright hx
    have hord : Ordered b.page (up.zip (node q (node p l r) r')) := h.ordered
    rw [Path.after, List.cons_append, List.mem_cons, List.mem_append] at hxa
    rcases hxa with rfl | hxa
    · exact le_refl _
    · exact (hord.place.2.1 x hxa).le
  | right x l' up =>
    obtain rfl := Option.some.inj hup.1
    have hmem : q ∈ (Path.right q l' up).before :=
      List.mem_append_right _ (List.mem_append_right _ List.mem_cons_self)
    have hlt : b.page q < b.page p := hbefore q (.inl hmem)
    have hq' : ∀ a, InLeft ((Path.right q l' up).zip (node p l r)) q a ↔ a ∈ up.lefts :=
      fun a => up.inLeft_zip_self hnd
    refine ⟨(Path.mem_zip _).mpr (.inl hmem), ⟨fun x hx => ?_, fun _ a ha => ?_, ?_⟩, .inr hlt⟩
    · have := (hD x hx).2
      omega
    · exact hplaced.lefts hk a ((hself a).mpr ((hq' a).mp ha))
    · intro _ y a hqy hyk hka hya
      refine (hq' a).mpr ((hself a).mp ?_)
      have hymem := hya.mem.1
      have hord : Ordered b.page (up.zip (node q l' (node p l r))) := h.ordered
      rw [Path.mem_zip, inorder_node, List.mem_append, List.mem_cons, Path.before,
        List.mem_append, List.mem_append, List.mem_singleton] at hymem
      rcases hymem with (hy | hy | rfl) | (hyl | rfl | hy) | hy
      · exact absurd (hord.place.1 y (.inl hy)) (by omega)
      · exact absurd (hord.place.1 y (.inr hy)) (by omega)
      · exact absurd hqy (lt_irrefl _)
      · -- between the parent and the page there is only the left subtree of the page
        rcases Path.inLeft_zip_left hnd hyl hya with rfl | ha | ha
        · exact absurd hka (not_lt.mpr hk)
        · exact absurd (hbefore a (.inr ha)) (by omega)
        · exact (hself a).mpr ha
      · exact hya
      · exact hplaced.between hk y a (hafter y (.inl hy)) hyk hka hya
      · exact hplaced.between hk y a (hafter y (.inr hy)) hyk hka hya

variable [Fintype ι]

/-- From a page seen, the choice leads to the next page of `D`, or up. -/
theorem chooseNext_spec {D : ι → Prop} {k : ℤ} {p : ι} (h : Holds b s t) (hp : p ∈ inorder t)
    (hk : b.page p ≤ k) (hplaced : Placed b t D k p)
    (hclear : ∀ r, s.right p = some r → b.page r ≤ k → ∀ y, Below s r y → D y → b.page y ≤ k)
    (hD : ∀ x, D x → x ∈ inorder t ∧ k < b.page x) :
    ∃ next, chooseNext b s k p = .ok next ∧ (next = none → ∀ x, ¬D x) ∧
      ∀ n, next = some n → n ∈ inorder t ∧ Placed b t D k n ∧
        (k < b.page n ∨ b.page n < b.page p) := by
  obtain ⟨up, l, r, rfl, -, -, hr⟩ := h.exists_place hp
  have hnd := h.ordered.nodup
  obtain ⟨hz, -, hlr, hout⟩ := Path.nodup_zip hnd
  obtain ⟨hbefore, hafter, hra⟩ := h.ordered.place
  -- up, when the right subtree is done
  have hparent : (∀ x ∈ inorder r, ¬D x) → (s.parent p = none → ∀ x, ¬D x) ∧
      ∀ n, s.parent p = some n → n ∈ inorder (up.zip (node p l r)) ∧
        Placed b (up.zip (node p l r)) D k n ∧ (k < b.page n ∨ b.page n < b.page p) := by
    intro hright
    refine ⟨fun hnone x hx => ?_, fun n hn => placed_parent h hk hplaced hD hright hn⟩
    obtain ⟨_, _, hup, -, hpar, -, -⟩ := Path.isTree_zip.mp h.tree
    have hxa := mem_after h hk hD hright hx
    rw [← hpar, hnone] at hup
    cases up with
    | top => exact List.not_mem_nil hxa
    | left y r' up => exact Option.some_ne_none y hup.1.symm
    | right y l' up => exact Option.some_ne_none y hup.1.symm
  rw [chooseNext]
  cases hright : s.right p with
  | none =>
    rw [hright] at hr
    refine ⟨_, rfl, hparent fun x hx => ?_⟩
    rw [hr.eq_nil] at hx
    exact (List.not_mem_nil hx).elim
  | some r' =>
    dsimp only
    rw [hright] at hr
    split_ifs with hkr
    · -- right, then down to the left
      have hlen := h.length_le
      rw [Path.inorder_zip, inorder_node] at hlen
      simp only [List.length_append, List.length_cons] at hlen
      have hleft := hr.leftmost (Fintype.card ι) (by omega)
      obtain ⟨a, c, rfl⟩ := hr.exists_node
      obtain ⟨n, hn⟩ := Option.isSome_iff_exists.mp
        (List.isSome_head?.mpr (inorder_ne_nil r' a c))
      rw [hleft, hn]
      have hnr : n ∈ inorder (node r' a c) := List.mem_of_head? hn
      have hnmem : n ∈ inorder (up.zip (node p l (node r' a c))) :=
        (Path.mem_zip _).mpr (.inr (.inl (List.mem_append_right _ (List.mem_cons_of_mem _ hnr))))
      have hord : Ordered b.page (Path.top.zip (node r' a c)) := h.ordered.subtrees.2
      have hfirst : ∀ x ∈ inorder (node r' a c), b.page n ≤ b.page x :=
        fun x hx => h.ordered.subtrees.2.head_le hn hx
      have hkn : k < b.page n := by
        by_contra hnk
        rw [not_lt] at hnk
        -- else `n` would be in the left subtree of `r'`, and so would `p`
        have hna : n ∈ inorder a := by
          have hnr' := hnr
          rw [inorder_node, List.mem_append, List.mem_cons] at hnr'
          rcases hnr' with hna | rfl | hnc
          · exact hna
          · exact absurd hkr (not_lt.mpr hnk)
          · exact absurd (hord.place.2.1 n (.inl hnc)) (by omega)
        have hin : InLeft (up.zip (node p l (node r' a c))) n r' :=
          (Path.inLeft_zip up _ n r').mpr (.inl (.inr (.inr (.inl ⟨rfl, hna⟩))))
        have hpn := hafter n (.inl hnr)
        have hp' := hplaced.between hk n r' hpn hnk hkr hin
        have hafter' := Path.mem_after_of_mem_lefts ((Path.inLeft_zip_self _ hnd).mp hp')
        exact (hout r' (.inr hafter')).2.2 (List.mem_append_right _ List.mem_cons_self)
      refine ⟨_, rfl, fun hno => (Option.some_ne_none n hno).elim, ?_⟩
      intro m hm
      obtain rfl := Option.some.inj hm
      refine ⟨hnmem, Placed.of_lt (fun x hx => ?_) hkn, .inl hkn⟩
      obtain ⟨hmem, hkx⟩ := hD x hx
      rw [Path.mem_zip, inorder_node, List.mem_append, List.mem_cons] at hmem
      rcases hmem with hxb | (hxl | rfl | hxr) | hxa
      · exact absurd (hbefore x (.inl hxb)) (by omega)
      · exact absurd (hbefore x (.inr hxl)) (by omega)
      · exact absurd hkx (not_lt.mpr hk)
      · exact hfirst x hxr
      · exact (hra n hnr x hxa).le
    · refine ⟨_, rfl, hparent fun x hx hDx => ?_⟩
      have hxk := hclear r' hright (not_lt.mp hkr) x (below_of_mem hr rfl hx) hDx
      exact absurd (hD x hDx).2 (not_lt.mpr hxk)

omit [Fintype ι] in
/-- The search that repositions ends at a page from which the walk can go on. -/
theorem reposition_spec {D : ι → Prop} {k : ℤ} (h : Holds b s t)
    (hD : ∀ x, D x → x ∈ inorder t ∧ k < b.page x) (up : Path ι) {x : ι} {l r : BinaryTree ι}
    {turns : ℕ} (ht : t = up.zip (node x l r)) (hbefore : ∀ y ∈ up.before, b.page y < k)
    (hafter : ∀ y ∈ up.after, k < b.page y)
    (hturns : (inorder (node x l r)).length ≤ turns) :
    ∃ p, reposition b s k turns x = .ok p ∧ p ∈ inorder t ∧ Placed b t D k p ∧
      (b.page p ≤ k → ∀ r, s.right p = some r → k < b.page r) := by
  induction turns generalizing up x l r with
  | zero => exact absurd (List.length_eq_zero_iff.mp (Nat.le_zero.mp hturns)) (inorder_ne_nil x l r)
  | succ turns ih =>
    rw [inorder_node, List.length_append, List.length_cons] at hturns
    have htree := h.tree
    have hord := h.ordered
    rw [ht] at htree hord
    obtain ⟨q, par, hup, rfl, rfl, hl, hr⟩ := Path.isTree_zip.mp htree
    obtain ⟨hlx, hxr, -⟩ := hord.place
    have hx : x ∈ inorder t := by
      rw [ht]
      exact (Path.mem_zip _).mpr (.inr (.inl (List.mem_append_right _ List.mem_cons_self)))
    have hself : ∀ a, InLeft t x a → k < b.page a := by
      intro a ha
      rw [ht] at ha
      exact hafter a (Path.mem_after_of_mem_lefts ((Path.inLeft_zip_self _ hord.nodup).mp ha))
    rw [reposition]
    rcases lt_trichotomy k (b.page x) with hkx | hkx | hkx
    · rw [if_pos hkx]
      cases hleft : s.left x with
      | some y =>
        rw [hleft] at hl
        obtain ⟨a, c, rfl⟩ := hl.exists_node
        refine ih (.left x r up) ht hbefore (fun z hz => ?_) (by omega)
        rw [Path.after, List.cons_append, List.mem_cons, List.mem_append] at hz
        rcases hz with rfl | hz | hz
        · exact hkx
        · exact hkx.trans (hxr z (.inl hz))
        · exact hafter z hz
      | none =>
        rw [hleft] at hl
        refine ⟨x, rfl, hx, Placed.of_lt (fun y hy => ?_) hkx, fun hno => absurd hkx (by omega)⟩
        obtain ⟨hmem, hky⟩ := hD y hy
        rw [ht, hl.eq_nil, Path.mem_zip, inorder_node, inorder_nil, List.nil_append,
          List.mem_cons] at hmem
        rcases hmem with hyb | (rfl | hyr) | hya
        · exact absurd (hbefore y hyb) (by omega)
        · exact le_refl _
        · exact (hxr y (.inl hyr)).le
        · exact (hxr y (.inr hya)).le
    · rw [if_neg (by omega), if_neg (by omega)]
      refine ⟨x, rfl, hx, ⟨fun y hy => ?_, fun _ => hself, fun _ y a hxy hyk => ?_⟩, ?_⟩
      · have := (hD y hy).2
        omega
      · exact absurd hxy (by omega)
      · intro _ r' hr'
        have := hxr r' (.inl (hr.mem_of_eq hr'))
        omega
    · rw [if_neg (by omega), if_pos hkx]
      cases hright : s.right x with
      | some y =>
        rw [hright] at hr
        obtain ⟨a, c, rfl⟩ := hr.exists_node
        refine ih (.right x l up) ht (fun z hz => ?_) hafter (by omega)
        rw [Path.before, List.mem_append, List.mem_append, List.mem_singleton] at hz
        rcases hz with hz | hz | rfl
        · exact hbefore z hz
        · exact (hlx z (.inr hz)).trans hkx
        · exact hkx
      | none =>
        rw [hright] at hr
        refine ⟨x, rfl, hx, ⟨fun y hy => ?_, fun _ => hself, fun _ y a hxy hyk _ hya => ?_⟩, ?_⟩
        · have := (hD y hy).2
          omega
        · have hmem := hya.mem.1
          rw [ht, hr.eq_nil, Path.mem_zip, inorder_node, inorder_nil, List.mem_append,
            List.mem_singleton] at hmem
          rcases hmem with hyb | (hyl | rfl) | hyA
          · exact absurd (hlx y (.inl hyb)) (by omega)
          · exact absurd (hlx y (.inr hyl)) (by omega)
          · exact absurd hxy (lt_irrefl _)
          · exact absurd (hafter y hyA) (by omega)
        · intro _ r' hr'
          exact (Option.some_ne_none r' (hr'.symm.trans hright)).elim

end Next

section Writes

variable {b : Buffers ι} {f : Pass} {c c' : Cache ι} {t t' : BinaryTree ι}

/-- What writing and removing pages does: the pages left are in the same left subtrees, and a page
that was due is still due or has been written. -/
structure Fewer (b : Buffers ι) (f : Pass) (c : Cache ι) (t : BinaryTree ι) (c' : Cache ι)
    (t' : BinaryTree ι) : Prop where
  holds : Holds b c'.links t'
  mem : ∀ x ∈ inorder t', x ∈ inorder t
  inLeft : ∀ x a, x ∈ inorder t' → a ∈ inorder t' → (InLeft t' x a ↔ InLeft t x a)
  due : ∀ x, Due b f c' x → Due b f c x
  kept : ∀ x, Due b f c x → Due b f c' x ∨ x ∈ c'.written
  written : ∀ x ∈ c.written, x ∈ c'.written
  dirty : ∀ x, c.dirty x = false → c'.dirty x = false

theorem Fewer.refl (h : Holds b c.links t) : Fewer b f c t c t :=
  ⟨h, fun _ hx => hx, fun _ _ _ _ => Iff.rfl, fun _ hx => hx, fun _ hx => .inl hx,
    fun _ hx => hx, fun _ hx => hx⟩

theorem Fewer.trans {c'' : Cache ι} {t'' : BinaryTree ι} (h : Fewer b f c t c' t')
    (h' : Fewer b f c' t' c'' t'') : Fewer b f c t c'' t'' where
  holds := h'.holds
  mem x hx := h.mem x (h'.mem x hx)
  inLeft x a hx ha := (h'.inLeft x a hx ha).trans (h.inLeft x a (h'.mem x hx) (h'.mem a ha))
  due x hx := h.due x (h'.due x hx)
  kept x hx := (h.kept x hx).elim (h'.kept x) fun hx => .inr (h'.written x hx)
  written x hx := h'.written x (h.written x hx)
  dirty x hx := h'.dirty x (h.dirty x hx)

variable [Fintype ι] [DecidableEq ι]

/-- `btc_remove` of a page of the tree -/
theorem remove_effect {x : ι} (h : Holds b c.links t) (hx : x ∈ inorder t) :
    ∃ links t', remove c x = .ok { c with links := links } ∧ Holds b links t' ∧
      (∀ y, y ∈ inorder t' ↔ y ∈ inorder t ∧ y ≠ x) ∧
        ∀ y a, y ≠ x → a ≠ x → (InLeft t' y a ↔ InLeft t y a) := by
  obtain ⟨up, l, r, rfl, -⟩ := h.exists_place hx
  obtain ⟨links, hremove, hlinks⟩ := remove_of_mem h
  obtain ⟨hz, -, -, hout⟩ := Path.nodup_zip h.ordered.nodup
  refine ⟨links, _, hremove, hlinks, fun y => ?_, fun y a hy ha => Path.inLeft_zip_hang hy ha⟩
  rw [Path.mem_zip, Path.mem_zip, inorder_hang, inorder_node, List.mem_append, List.mem_append,
    List.mem_cons]
  have hy := hout y
  constructor
  · rintro (hyb | (hyl | hyr) | hya)
    · exact ⟨.inl hyb, (hy (.inl hyb)).1⟩
    · exact ⟨.inr (.inl (.inl hyl)), fun heq => hz.1 (heq ▸ hyl)⟩
    · exact ⟨.inr (.inl (.inr (.inr hyr))), fun heq => hz.2 (heq ▸ hyr)⟩
    · exact ⟨.inr (.inr hya), (hy (.inr hya)).1⟩
  · tauto

/-- A page that is not dirty leaves the tree. -/
theorem remove_clean {x : ι} (h : Holds b c.links t) (hx : x ∈ inorder t)
    (hclean : c.dirty x = false) : ∃ c' t', remove c x = .ok c' ∧ Fewer b f c t c' t' := by
  obtain ⟨links, t', hremove, hlinks, hmem, hin⟩ := remove_effect h hx
  refine ⟨_, t', hremove, hlinks, fun y hy => ((hmem y).mp hy).1, fun y a hy ha =>
    hin y a ((hmem y).mp hy).2 ((hmem a).mp ha).2, ?_, ?_, fun _ hy => hy, fun _ hy => hy⟩
  · rintro y ⟨htree, hdirty, hlength, htest⟩
    exact ⟨h.mem_iff.mp ((hmem y).mp (hlinks.mem_iff.mpr htree)).1, hdirty, hlength, htest⟩
  · rintro y ⟨htree, hdirty, hlength, htest⟩
    have hne : y ≠ x := by
      rintro rfl
      exact Bool.false_ne_true (hclean.symm.trans hdirty)
    exact .inl ⟨hlinks.mem_iff.mp ((hmem y).mpr ⟨h.mem_iff.mpr htree, hne⟩), hdirty, hlength, htest⟩

/-- The buffers after the page `x` has been written, with other links -/
def marked (c : Cache ι) (links : Links ι) (x : ι) : Cache ι where
  links := links
  dirty := Function.update c.dirty x false
  mustWrite := Function.update c.mustWrite x false
  systemDirty := Function.update c.systemDirty x false
  transactions := Function.update c.transactions x 0
  written := x :: c.written

omit [Fintype ι] in
theorem fewer_marked {x : ι} {links : Links ι} (h : Holds b c.links t) (h' : Holds b links t')
    (hmem : ∀ y, y ∈ inorder t' → y ∈ inorder t)
    (hother : ∀ y, y ≠ x → (y ∈ inorder t' ↔ y ∈ inorder t))
    (hin : ∀ y a, y ∈ inorder t' → a ∈ inorder t' → (InLeft t' y a ↔ InLeft t y a)) :
    Fewer b f c t (marked c links x) t' := by
  have hdue : ∀ y, y ≠ x → (Due b f (marked c links x) y ↔ Due b f c y) := by
    intro y hy
    have htree : InTree links y ↔ InTree c.links y :=
      h'.mem_iff.symm.trans ((hother y hy).trans h.mem_iff)
    have htest : Test f (marked c links x) y ↔ Test f c y := by
      simp only [Test, marked, Function.update_of_ne hy]
    exact and_congr htree (and_congr (by simp only [marked, Function.update_of_ne hy])
      (and_congr_right' htest))
  have hself : ¬Due b f (marked c links x) x := fun hdue =>
    Bool.false_ne_true ((Function.update_self ..).symm.trans hdue.2.1)
  refine ⟨h', hmem, hin, fun y hy => ?_, fun y hy => ?_, fun y hy => List.mem_cons_of_mem x hy,
    fun y hy => ?_⟩
  · by_cases hyx : y = x
    · subst hyx
      exact (hself hy).elim
    · exact (hdue y hyx).mp hy
  · by_cases hyx : y = x
    · subst hyx
      exact .inr List.mem_cons_self
    · exact .inl ((hdue y hyx).mpr hy)
  · by_cases hyx : y = x
    · subst hyx
      exact Function.update_self ..
    · exact (Function.update_of_ne hyx ..).trans hy

/-- A page written is not due any more; the others stay as they are. -/
theorem writePage_spec (x : ι) (h : Holds b c.links t) :
    ∃ c' t', writePage f c x = .ok c' ∧ Fewer b f c t c' t' ∧ c'.dirty x = false := by
  rw [writePage]
  dsimp only
  split_ifs with htree
  · have hx := h.mem_iff.mpr htree.2
    obtain ⟨links, t', hremove, hlinks, hmem, hin⟩ := remove_effect
      (c := { c with
        written := x :: c.written
        transactions := Function.update c.transactions x 0 }) h hx
    rw [hremove]
    refine ⟨_, t', rfl, fewer_marked h hlinks (fun y hy => ((hmem y).mp hy).1)
      (fun y hy => ⟨fun hyt => ((hmem y).mp hyt).1, fun hyt => (hmem y).mpr ⟨hyt, hy⟩⟩)
      fun y a hy ha => hin y a ((hmem y).mp hy).2 ((hmem a).mp ha).2, Function.update_self ..⟩
  · exact ⟨_, t, rfl, fewer_marked h h (fun _ hy => hy) (fun _ _ => Iff.rfl)
      fun _ _ _ _ => Iff.rfl, Function.update_self ..⟩

theorem writeDirty_spec (x : ι) (h : Holds b c.links t) :
    ∃ c' t', writeDirty f c x = .ok c' ∧ Fewer b f c t c' t' ∧ c'.dirty x = false := by
  rw [writeDirty]
  split_ifs with hdirty
  · exact writePage_spec x h
  · exact ⟨c, t, rfl, Fewer.refl h, eq_false_of_ne_true hdirty⟩

/-- `write_buffer` writes the page, and perhaps others. -/
theorem writeBuffer_spec (first : List ι) (x : ι) (h : Holds b c.links t) :
    ∃ c' t', writeBuffer f c first x = .ok c' ∧ Fewer b f c t c' t' ∧ c'.dirty x = false := by
  rw [writeBuffer]
  induction first generalizing c t with
  | nil =>
    obtain ⟨c', t', hwrite, hfewer, hclean⟩ := writeDirty_spec (f := f) x h
    exact ⟨c', t', by rw [List.nil_append, List.foldlM_cons, hwrite]; rfl, hfewer, hclean⟩
  | cons y first ih =>
    obtain ⟨c₁, t₁, hwrite, hfewer, -⟩ := writeDirty_spec (f := f) y h
    obtain ⟨c', t', hrest, hfewer', hclean⟩ := ih hfewer.holds
    refine ⟨c', t', ?_, hfewer.trans hfewer', hclean⟩
    rw [List.cons_append, List.foldlM_cons, hwrite]
    exact hrest

/-- A page that has been visited is not due any more. -/
theorem visit_spec (first : List ι) {x : ι} (h : Holds b c.links t) (hx : x ∈ inorder t) :
    ∃ c' t', visit b f c first x = .ok c' ∧ Fewer b f c t c' t' ∧ ¬Due b f c' x := by
  rw [visit]
  split_ifs with hclean hlength htest
  · obtain ⟨c', t', hremove, hfewer⟩ := remove_clean (f := f) h hx hclean
    refine ⟨c', t', hremove, hfewer, fun hdue => ?_⟩
    exact Bool.false_ne_true ((hfewer.dirty x hclean).symm.trans hdue.2.1)
  · exact ⟨c, t, rfl, Fewer.refl h, fun hdue => hlength hdue.2.2.1⟩
  · obtain ⟨c', t', hwrite, hfewer, hclean'⟩ := writeBuffer_spec (f := f) first x h
    exact ⟨c', t', hwrite, hfewer, fun hdue => Bool.false_ne_true (hclean'.symm.trans hdue.2.1)⟩
  · exact ⟨c, t, rfl, Fewer.refl h, fun hdue => htest hdue.2.2.2⟩

end Writes

section Turns

variable {b : Buffers ι} {f : Pass} {w : Walk ι} {t : BinaryTree ι}

/-- What holds at every turn: the pages that are due have not been seen, and the walk can go on from
the next page without a loss, if it is still in the tree. -/
structure Inv (b : Buffers ι) (f : Pass) (w : Walk ι) (t : BinaryTree ι) : Prop where
  holds : Holds b w.cache.links t
  nextPage : ∀ p, w.next = some p → w.nextPage = b.page p
  unseen : ∀ x, Due b f w.cache x → w.maxSeen < b.page x
  placed : ∀ p, w.next = some p → p ∈ inorder t → Placed b t (Due b f w.cache) w.maxSeen p
  done : w.next = none → ∀ x, ¬Due b f w.cache x

theorem Inv.due_mem (h : Inv b f w t) {x : ι} (hx : Due b f w.cache x) :
    x ∈ inorder t ∧ w.maxSeen < b.page x :=
  ⟨h.holds.mem_iff.mpr hx.1, h.unseen x hx⟩

/-- The pages left when others have gone -/
theorem Placed.fewer {c c' : Cache ι} {t' : BinaryTree ι} {D D' : ι → Prop} {k : ℤ} {p : ι}
    (h : Placed b t D k p) (hfewer : Fewer b f c t c' t') (hp : p ∈ inorder t')
    (hD : ∀ x, D' x → D x) : Placed b t' D' k p where
  le x hx := h.le x (hD x hx)
  lefts hk a ha := h.lefts hk a ((hfewer.inLeft p a hp ha.mem.2).mp ha)
  between hk y a hpy hyk hka hya :=
    (hfewer.inLeft p a hp hya.mem.2).mpr (h.between hk y a hpy hyk hka
      ((hfewer.inLeft y a hya.mem.1 hya.mem.2).mp hya))

variable [Fintype ι] [DecidableEq ι]

/-- The pages of the tree that have not been seen -/
def unseen (b : Buffers ι) (t : BinaryTree ι) (k : ℤ) : Finset ι :=
  (inorder t).toFinset.filter fun x => k < b.page x

/-- The pages of the tree before `p` -/
def preceding (b : Buffers ι) (t : BinaryTree ι) (p : ι) : Finset ι :=
  (inorder t).toFinset.filter fun x => b.page x < b.page p

/-- The turns until a page not seen is next: a walk that is lost repositions, then it climbs. -/
def climb (b : Buffers ι) (t : BinaryTree ι) (k : ℤ) : Option ι → ℕ
  | none => 0
  | some p =>
      if p ∈ inorder t then if k < b.page p then 0 else (preceding b t p).card + 1
      else Fintype.card ι + 2

/-- What decreases at every turn -/
def rank (b : Buffers ι) (w : Walk ι) (t : BinaryTree ι) : ℕ :=
  (unseen b t w.maxSeen).card * (Fintype.card ι + 3) + climb b t w.maxSeen w.next

theorem climb_le (k : ℤ) (next : Option ι) : climb b t k next ≤ Fintype.card ι + 2 := by
  cases next with
  | none => exact Nat.zero_le _
  | some p =>
    have hcard := Finset.card_le_univ (preceding b t p)
    rw [climb]
    split_ifs <;> omega

/-- The page of this turn: the next one, or one found after the walk got lost -/
theorem current_spec {next : ι} (h : Inv b f w t) (hon : OnTrack b f w)
    (hnext : w.next = some next) :
    ∃ cur, current b w next = .ok cur ∧ (cur = none → t = nil ∧ next ∉ inorder t) ∧
      ∀ p, cur = some p → p ∈ inorder t ∧ Placed b t (Due b f w.cache) w.maxSeen p ∧
        (b.page p ≤ w.maxSeen → ∀ r, w.cache.links.right p = some r → b.page r ≤ w.maxSeen →
          ∀ y, Below w.cache.links r y → Due b f w.cache y → b.page y ≤ w.maxSeen) ∧
        (p = next ∨ next ∉ inorder t) := by
  rw [current]
  by_cases hmem : next ∈ inorder t
  · rw [if_neg]
    · refine ⟨_, rfl, fun hno => (Option.some_ne_none next hno).elim, ?_⟩
      intro p hp
      obtain rfl := Option.some.inj hp
      exact ⟨hmem, h.placed next hnext hmem, fun hk r hr hrk y hy hdue =>
        hon next r y hnext hr hk hrk hy hdue, .inl rfl⟩
    · rintro (hpage | ⟨hpar, hroot⟩)
      · exact hpage (h.nextPage next hnext).symm
      · exact (h.holds.mem_iff.mp hmem).elim (fun hno => hno hpar) hroot
  · rw [if_pos]
    · have htree := h.holds.tree
      rw [Links.IsTree] at htree
      cases hroot : w.cache.links.root with
      | none =>
        rw [hroot] at htree
        exact ⟨_, rfl, fun _ => ⟨htree.eq_nil, hmem⟩, fun p hp => (Option.some_ne_none p hp.symm).elim⟩
      | some root =>
        rw [hroot] at htree
        have hlen := h.holds.length_le
        obtain ⟨l, r, heq⟩ := htree.exists_node
        obtain ⟨p, hp, hpt, hplaced, hright⟩ := reposition_spec h.holds (fun x => h.due_mem)
          .top heq (fun y hy => (List.not_mem_nil hy).elim)
          (fun y hy => (List.not_mem_nil hy).elim) (heq ▸ hlen)
        refine ⟨some p, by dsimp only; rw [hp]; rfl, fun hno => (Option.some_ne_none p hno).elim, ?_⟩
        intro p' hp'
        obtain rfl := Option.some.inj hp'
        exact ⟨hpt, hplaced, fun hk r hr hrk => absurd (hright hk r hr) (not_lt.mpr hrk), .inr hmem⟩
    · exact .inr ⟨h.holds.parent_none next hmem, fun hroot =>
        hmem (h.holds.mem_iff.mpr (.inr hroot))⟩

omit [DecidableEq ι] in
/-- A page not seen is left for the right subtree in any case. -/
theorem chooseNext_unseen {s : Links ι} {k : ℤ} {p : ι} (h : Holds b s t) (hp : p ∈ inorder t)
    (hk : k < b.page p) : chooseNext b s k p = chooseNext b s (b.page p) p := by
  obtain ⟨up, l, r, rfl, -, -, hr⟩ := h.exists_place hp
  rw [chooseNext, chooseNext]
  cases hright : s.right p with
  | none => rfl
  | some r' =>
    rw [hright] at hr
    have hlt := h.ordered.place.2.1 r' (.inl (hr.mem_of_eq rfl))
    dsimp only
    rw [if_pos (hk.trans hlt), if_pos hlt]

theorem climb_lt {k : ℤ} {p n : ι} (hp : p ∈ inorder t) (hk : b.page p ≤ k)
    (hn : n ∈ inorder t) (h : k < b.page n ∨ b.page n < b.page p) :
    climb b t k (some n) < climb b t k (some p) := by
  rw [climb, climb, if_pos hn, if_pos hp, if_neg (not_lt.mpr hk)]
  split_ifs with hkn
  · exact Nat.succ_pos _
  · have hlt := h.resolve_left hkn
    refine Nat.succ_lt_succ (Finset.card_lt_card ((Finset.ssubset_iff_of_subset ?_).mpr ⟨n, ?_, ?_⟩))
    · intro x hx
      rw [preceding, Finset.mem_filter] at hx ⊢
      exact ⟨hx.1, hx.2.trans hlt⟩
    · rw [preceding, Finset.mem_filter, List.mem_toFinset]
      exact ⟨hn, hlt⟩
    · rw [preceding, Finset.mem_filter]
      exact fun hno => lt_irrefl _ hno.2

omit [Fintype ι] in
theorem unseen_lt {c c' : Cache ι} {t' : BinaryTree ι} {k : ℤ} {p : ι}
    (hfewer : Fewer b f c t c' t') (hp : p ∈ inorder t) (hk : k < b.page p) :
    (unseen b t' (b.page p)).card < (unseen b t k).card := by
  refine Finset.card_lt_card ((Finset.ssubset_iff_of_subset ?_).mpr ⟨p, ?_, ?_⟩)
  · intro x hx
    rw [unseen, Finset.mem_filter, List.mem_toFinset] at hx ⊢
    exact ⟨hfewer.mem x hx.1, hk.trans hx.2⟩
  · rw [unseen, Finset.mem_filter, List.mem_toFinset]
    exact ⟨hp, hk⟩
  · rw [unseen, Finset.mem_filter]
    exact fun hno => lt_irrefl _ hno.2

/-- Every turn keeps the invariant, loses no page that is due, and comes closer to the end. -/
theorem turn_spec {next : ι} (h : Inv b f w t) (hon : OnTrack b f w) (hnext : w.next = some next)
    (first : List ι) :
    ∃ w' t', turn b f w first next = .ok w' ∧ Inv b f w' t' ∧
      (∀ x, Due b f w.cache x → Due b f w'.cache x ∨ x ∈ w'.cache.written) ∧
      (∀ x ∈ w.cache.written, x ∈ w'.cache.written) ∧ rank b w' t' < rank b w t := by
  obtain ⟨cur, hcur, hnone, hsome⟩ := current_spec h hon hnext
  rw [turn, hcur, Outcome.ok_bind]
  cases cur with
  | none =>
    obtain ⟨rfl, hmem⟩ := hnone rfl
    refine ⟨_, nil, rfl, ⟨h.holds, fun p hp => (Option.some_ne_none p hp.symm).elim, h.unseen,
      fun p hp => (Option.some_ne_none p hp.symm).elim, fun _ x hx => ?_⟩, fun x hx => .inl hx,
      fun x hx => hx, ?_⟩
    · exact List.not_mem_nil (h.due_mem hx).1
    · rw [rank, rank, hnext, climb, climb, if_neg hmem]
      exact Nat.add_lt_add_left (Nat.succ_pos _) _
  | some p =>
    obtain ⟨hp, hplaced, hclear, hpnext⟩ := hsome p rfl
    dsimp only
    by_cases hk : b.page p ≤ w.maxSeen
    · -- a page seen: only the next page is chosen
      obtain ⟨n, hchoose, hdone, hn⟩ := chooseNext_spec h.holds hp hk hplaced (hclear hk)
        fun x => h.due_mem
      rw [hchoose, Outcome.ok_bind, if_pos hk]
      refine ⟨_, t, rfl, ⟨h.holds, fun m hm => ?_, h.unseen, fun m hm _ => (hn m hm).2.1, hdone⟩,
        fun x hx => .inl hx, fun x hx => hx, ?_⟩
      · obtain rfl : n = some m := hm
        rfl
      · -- the climb comes closer to its end
        refine Nat.add_lt_add_left ?_ _
        rw [hnext]
        dsimp only
        rcases hpnext with rfl | hlost
        · cases n with
          | none =>
            rw [climb, climb, if_pos hp, if_neg (not_lt.mpr hk)]
            exact Nat.succ_pos _
          | some m => exact climb_lt hp hk (hn m rfl).1 (hn m rfl).2.2
        · rw [climb, if_neg hlost]
          cases n with
          | none => exact Nat.succ_pos _
          | some m =>
            have hcard := Finset.card_le_univ (preceding b t m)
            rw [climb, if_pos (hn m rfl).1]
            split_ifs <;> omega
    · -- a page not seen: the walk goes on with what is left afterwards
      rw [not_le] at hk
      have hD : ∀ x, Due b f w.cache x ∧ b.page p < b.page x → x ∈ inorder t ∧ b.page p < b.page x :=
        fun x hx => ⟨(h.due_mem hx.1).1, hx.2⟩
      have hplaced' : Placed b t (fun x => Due b f w.cache x ∧ b.page p < b.page x) (b.page p) p :=
        ⟨fun x hx => hx.2.le, fun _ a ha => h.holds.ordered.inLeft ha,
          fun _ y a hpy hyp => absurd hpy (not_lt.mpr hyp)⟩
      have hright : ∀ r, w.cache.links.right p = some r → b.page p < b.page r := by
        intro r hr
        obtain ⟨up, l, r', rfl, -, -, hr'⟩ := h.holds.exists_place hp
        exact h.holds.ordered.place.2.1 r (.inl (hr'.mem_of_eq hr))
      obtain ⟨n, hchoose, hdone, hn⟩ := chooseNext_spec h.holds hp (le_refl _) hplaced'
        (fun r hr hrp => absurd (hright r hr) (not_lt.mpr hrp)) hD
      obtain ⟨c', t', hvisit, hfewer, hnot⟩ := visit_spec (f := f) first h.holds hp
      have hdue : ∀ x, Due b f c' x → Due b f w.cache x ∧ b.page p < b.page x := by
        intro x hx
        have hx' := hfewer.due x hx
        refine ⟨hx', lt_of_le_of_ne (hplaced.le x hx') fun heq => hnot ?_⟩
        rw [h.holds.ordered.eq_of_key_eq hp (h.due_mem hx').1 heq]
        exact hx
      rw [chooseNext_unseen h.holds hp hk, hchoose, Outcome.ok_bind, if_neg (not_le.mpr hk), hvisit]
      refine ⟨_, t', rfl, ⟨hfewer.holds, fun m hm => ?_, fun x hx => (hdue x hx).2,
        fun m hm hmt => (hn m hm).2.1.fewer hfewer hmt hdue,
        fun hno x hx => hdone hno x (hdue x hx)⟩, hfewer.kept, hfewer.written, ?_⟩
      · obtain rfl : n = some m := hm
        rfl
      · have hunseen := unseen_lt hfewer hp hk
        have hclimb := climb_le (b := b) (t := t') (b.page p) n
        have hmul := Nat.mul_le_mul_right (Fintype.card ι + 3) hunseen
        rw [Nat.succ_mul] at hmul
        rw [rank, rank]
        dsimp only
        omega

omit [DecidableEq ι] in
/-- The walk starts at the first page. -/
theorem start_spec {c : Cache ι} (h : WellLinked b c.links) :
    ∃ w t, start b c = .ok w ∧ Inv b f w t ∧ ∀ x, Due b f c x → Due b f w.cache x := by
  obtain ⟨t, ht⟩ := h
  have htree := ht.tree
  rw [Links.IsTree] at htree
  rw [start]
  dsimp only
  cases hroot : c.links.root with
  | none =>
    rw [hroot] at htree
    obtain rfl := htree.eq_nil
    refine ⟨_, nil, rfl, ⟨ht, fun p hp => (Option.some_ne_none p hp.symm).elim, fun x _ => b.lt_page x,
      fun p hp => (Option.some_ne_none p hp.symm).elim, fun _ x hx => ?_⟩, fun x hx => hx⟩
    exact List.not_mem_nil (ht.mem_iff.mpr hx.1)
  | some root =>
    rw [hroot] at htree
    have hleft := htree.leftmost _ ht.length_le
    obtain ⟨l, r, heq⟩ := htree.exists_node
    obtain ⟨n, hn⟩ : ∃ n, (inorder t).head? = some n := by
      rw [heq]
      exact Option.isSome_iff_exists.mp (List.isSome_head?.mpr (inorder_ne_nil root l r))
    dsimp only
    rw [hleft, hn]
    refine ⟨_, t, rfl, ⟨ht, fun p hp => ?_, fun x _ => b.lt_page x, fun p hp _ => ?_,
      fun hno => (Option.some_ne_none n hno).elim⟩, fun x hx => hx⟩
    · obtain rfl := Option.some.inj hp
      rfl
    · obtain rfl := Option.some.inj hp
      exact Placed.of_lt (fun x hx => ht.ordered.head_le hn (ht.mem_iff.mpr hx.1)) (b.lt_page n)

/-- From every turn on, the walk ends, and what was due or had been written has been written. -/
theorem flush_from {c : Cache ι} {first : ℕ → List ι}
    (hon : ∀ n w, flush b f c first n = .ok w → OnTrack b f w) (n : ℕ)
    (hw : flush b f c first n = .ok w) (h : Inv b f w t) :
    ∃ m w', flush b f c first m = .ok w' ∧ w'.next = none ∧
      ∀ x, Due b f w.cache x ∨ x ∈ w.cache.written → x ∈ w'.cache.written := by
  induction hrank : rank b w t using Nat.strong_induction_on generalizing n w t with
  | _ k ih =>
    cases hnext : w.next with
    | none =>
      exact ⟨n, w, hw, hnext, fun x hx => hx.resolve_left (h.done hnext x)⟩
    | some next =>
      obtain ⟨w₁, t₁, hturn, hinv, hkept, hwritten, hlt⟩ :=
        turn_spec h (hon n w hw) hnext (first n)
      have hw₁ : flush b f c first (n + 1) = .ok w₁ := by
        rw [flush, hw, Outcome.ok_bind, hnext]
        exact hturn
      obtain ⟨m, w', hm, hend, hall⟩ := ih _ (hrank ▸ hlt) (n + 1) hw₁ hinv rfl
      refine ⟨m, w', hm, hend, fun x hx => hall x ?_⟩
      exact hx.elim (hkept x) fun hx => .inr (hwritten x hx)

end Turns

/-- Every sequence of insertions and removals keeps the search tree and its parent links. A pass over
a tree ends; if every turn is on track, each page that was due has been written. -/
theorem flush_misses_nothing [Fintype ι] [DecidableEq ι] (b : Buffers ι) (f : Pass) :
    (∀ ops : List (Op ι), Outcome.Holds (fun c => WellLinked b c.links)
      (fun e => e = .bugcheck 211) (ops.foldlM (Op.exec b) empty)) ∧
    ∀ (c : Cache ι) (first : ℕ → List ι), WellLinked b c.links →
      (∀ n w, flush b f c first n = .ok w → OnTrack b f w) →
        ∃ n w, flush b f c first n = .ok w ∧ w.next = none ∧
          ∀ x, Due b f c x → x ∈ w.cache.written := by
  constructor
  · intro ops
    exact wellLinked_run (wellLinked_empty b) ops
  · intro c first h hon
    obtain ⟨w, t, hw, hinv, hdue⟩ := start_spec (f := f) h
    obtain ⟨n, w', hn, hend, hall⟩ := flush_from hon 0 hw hinv
    exact ⟨n, w', hn, hend, fun x hx => hall x (.inl (hdue x hx))⟩

/-- A walk whose next page has not been seen is on track. -/
theorem onTrack_of_lt {b : Buffers ι} {f : Pass} {w : Walk ι}
    (h : ∀ p, w.next = some p → w.maxSeen < b.page p) : OnTrack b f w := by
  intro p right y hp _ hpk
  exact absurd (h p hp) (not_lt.mpr hpk)

/-- A pass that has ended stays as it is. -/
theorem flush_done [Fintype ι] [DecidableEq ι] {b : Buffers ι} {f : Pass} {c : Cache ι}
    {first : ℕ → List ι} {n : ℕ} {w : Walk ι} (hw : flush b f c first n = .ok w)
    (hnext : w.next = none) (k : ℕ) : flush b f c first (n + k) = .ok w := by
  induction k with
  | zero => exact hw
  | succ k ih => rw [← Nat.add_assoc, flush, ih, Outcome.ok_bind, hnext]

/-! ### A page that is missed -/

theorem crossed_lt_page :
    ∀ x : Fin 5, minPageNumber < [50, 10, 60, 20, 15].getD x.val 0 := by
  decide

/-- The pages 50, 10, 60, 20 and 15 -/
def crossed : Buffers (Fin 5) where
  page := fun x => [50, 10, 60, 20, 15].getD x.val 0
  length := fun _ => 0
  lt_page := crossed_lt_page

/-- The pages are put in the tree; the transaction 0 has changed 50, 60 and 20, another one 10 and
15. -/
def crossing : List (Op (Fin 5)) :=
  (List.finRange 5).map Op.insert ++ [Op.flags (fun _ => true) (fun _ => false) (fun _ => false)
    fun x => [1, 2, 1, 1, 2].getD x.val 0]

/-- In a pass for all transactions, without precedence, five times a page not seen is next, then
none. -/
def Ahead (c : Cache (Fin 5)) : Prop :=
  (∀ n < 5, (flush crossed ⟨0, false, false⟩ c (fun _ => []) n).map
    (fun w => w.next.any fun p => decide (w.maxSeen < crossed.page p)) = .ok true) ∧
  (flush crossed ⟨0, false, false⟩ c (fun _ => []) 5).map (fun w => w.next) = .ok none

instance (c : Cache (Fin 5)) : Decidable (Ahead c) := inferInstanceAs (Decidable (_ ∧ _))

/-- The pass writes all pages. -/
theorem flush_misses_nothing_crossed : ∃ c, crossing.foldlM (Op.exec crossed) empty = .ok c ∧
    ∃ n w, flush crossed ⟨0, false, false⟩ c (fun _ => []) n = .ok w ∧ w.next = none ∧
      ∀ x, Due crossed ⟨0, false, false⟩ c x → x ∈ w.cache.written := by
  have hrun : ((crossing.foldlM (Op.exec crossed) empty).bind fun c =>
      Except.ok (decide (Ahead c))) = .ok true := by
    decide
  obtain ⟨c, hc, hrun⟩ := Outcome.of_bind_eq_ok hrun
  obtain ⟨hsmall, hend⟩ := of_decide_eq_true (Except.ok.inj hrun)
  have hlinked := (flush_misses_nothing crossed ⟨0, false, false⟩).1 crossing
  refine ⟨c, hc, (flush_misses_nothing crossed ⟨0, false, false⟩).2 c _ (hlinked.of_ok hc) ?_⟩
  intro n w hw
  refine onTrack_of_lt fun p hp => ?_
  rcases Nat.lt_or_ge n 5 with hn | hn
  · have hany := hsmall n hn
    rw [hw] at hany
    have hany' : (w.next.any fun p => decide (w.maxSeen < crossed.page p)) = true :=
      Except.ok.inj hany
    rw [hp] at hany'
    exact of_decide_eq_true hany'
  · cases h5 : flush crossed ⟨0, false, false⟩ c (fun _ => []) 5 with
    | error e =>
      rw [h5] at hend
      cases hend
    | ok w₅ =>
      rw [h5] at hend
      have hnone : w₅.next = none := Except.ok.inj hend
      have hdone := flush_done h5 hnone (n - 5)
      rw [Nat.add_sub_cancel' hn, hw] at hdone
      rw [Except.ok.inj hdone, hnone] at hp
      exact (Option.some_ne_none p hp.symm).elim

/-- Page 50 is written before page 20. -/
def crossedFirst (n : ℕ) : List (Fin 5) := if n = 2 then [Fin.ofNat 5 0] else []

/-- When page 50 goes, page 60 hangs below page 15, to the right of the seen page 10, from which the
walk goes up and ends. -/
theorem flush_misses_page : ∃ c, crossing.foldlM (Op.exec crossed) empty = .ok c ∧
    ¬∃ n w, flush crossed ⟨1, false, false⟩ c crossedFirst n = .ok w ∧ w.next = none ∧
      ∀ x, Due crossed ⟨1, false, false⟩ c x → x ∈ w.cache.written := by
  have hrun : ((crossing.foldlM (Op.exec crossed) empty).bind fun c =>
      (flush crossed ⟨1, false, false⟩ c crossedFirst 4).bind fun w => Except.ok (decide
        (w.next = none ∧ Due crossed ⟨1, false, false⟩ c (Fin.ofNat 5 2) ∧
          Fin.ofNat 5 2 ∉ w.cache.written))) = .ok true := by
    decide
  obtain ⟨c, hc, hrun⟩ := Outcome.of_bind_eq_ok hrun
  obtain ⟨w, hw, hrun⟩ := Outcome.of_bind_eq_ok hrun
  obtain ⟨hnext, hdue, hnot⟩ := of_decide_eq_true (Except.ok.inj hrun)
  refine ⟨c, hc, ?_⟩
  rintro ⟨n, w', hw', hnext', hall⟩
  have h := flush_done hw hnext n
  rw [Nat.add_comm, flush_done hw' hnext' 4] at h
  rw [Except.ok.inj h] at hall
  exact hnot (hall _ hdue)

end Firebird.Btc
