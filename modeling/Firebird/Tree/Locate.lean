import Mathlib.Data.List.Flatten
import Mathlib.Data.List.Pairwise
import Mathlib.Order.Basic
import Mathlib.Tactic.IntervalCases
import Firebird.Tree.Failure
import Firebird.Tree.Remove

/-! # Where `locate` goes

The way down leads to the leaf page where a key belongs: all items on the pages before it are less,
and all items on the pages behind it are greater. From there the item wanted is at the position
found, one before it, or on one of the two pages next to the leaf page.
-/

namespace Firebird.BePlus

/-- `Cmp::greaterThan` is the order of the keys. -/
def Params.Ordered {V K : Type} [LT K] (P : Params V K) : Prop :=
  ∀ a b, P.greaterThan a b = true ↔ b < a

/-- The keys that a search looks for -/
def LocType.Wants {K : Type} [LT K] [LE K] (lt : LocType) (key k : K) : Prop :=
  match lt with
  | .equal => k = key
  | .less => k < key
  | .great => key < k
  | .greatEqual => key ≤ k
  | .lessEqual => k ≤ key

/-- The key `k` is not farther away than `k'` on the side where a search looks. -/
def LocType.Nearer {K : Type} [LE K] (lt : LocType) (k k' : K) : Prop :=
  match lt with
  | .less | .lessEqual => k' ≤ k
  | .equal | .great | .greatEqual => k ≤ k'

namespace Tree

variable {V K σ : Type} {P : Params V K} {A : Ledger σ} {t : Tree V} {s : σ} {p : Addr} {d lev : ℕ}

/-! ## Searches on a page -/

/-- The loop of `find` ends where the entries stop being less than the key. -/
theorem findLoop_spec {greater : ℕ → Bool} {k low high count : ℕ} (hk : high ≤ low + k)
    (hle : low ≤ high) (hcount : high ≤ count)
    (hmono : ∀ i j, i ≤ j → j < count → greater j = true → greater i = true)
    (hlow : ∀ i < low, greater i = true) (hhigh : ∀ i, high ≤ i → i < count → greater i = false) :
    findLoop greater k low high ≤ count ∧ (∀ i < findLoop greater k low high, greater i = true) ∧
      ∀ i, findLoop greater k low high ≤ i → i < count → greater i = false := by
  induction k generalizing low high with
  | zero =>
      obtain rfl : low = high := by omega
      exact ⟨hcount, hlow, hhigh⟩
  | succ k ih =>
      rw [findLoop]
      split
      · rename_i hlt
        have htemp : low ≤ (high + low) / 2 ∧ (high + low) / 2 < high := by omega
        dsimp only
        split
        · rename_i hgreater
          refine ih (by omega) htemp.2 hcount (fun i hi => ?_) hhigh
          exact hmono i _ (Nat.le_of_lt_succ hi) (by omega) hgreater
        · rename_i hgreater
          refine ih (by omega) htemp.1 (by omega) hlow fun i hi hic => ?_
          by_contra hne
          exact hgreater (hmono _ i hi hic (by simpa using hne))
      · obtain rfl : low = high := by omega
        exact ⟨hcount, hlow, hhigh⟩

/-- What `find` finds on a page with increasing keys -/
theorem find_spec [LinearOrder K] (hP : P.Ordered) (key : K) {count : ℕ} {keyAt : ℕ → K}
    (hkeys : ∀ i j, i < j → j < count → keyAt i < keyAt j) :
    ∃ pos ≤ count, (∀ i < pos, keyAt i < key) ∧ (∀ i, pos ≤ i → i < count → key ≤ keyAt i) ∧
      find P key count keyAt = (decide (pos < count ∧ keyAt pos = key), pos) := by
  have hmono : ∀ i j, i ≤ j → j < count → P.greaterThan key (keyAt j) = true →
      P.greaterThan key (keyAt i) = true := by
    intro i j hij hj hgreater
    rw [hP] at hgreater ⊢
    rcases Nat.eq_or_lt_of_le hij with rfl | hlt
    · exact hgreater
    · exact lt_trans (hkeys i j hlt hj) hgreater
  obtain ⟨hle, hless, hrest⟩ := findLoop_spec (Nat.le_of_eq (Nat.zero_add count).symm)
    (Nat.zero_le count) (Nat.le_refl count) hmono nofun
    fun i hi hic => absurd hic (Nat.not_lt.mpr hi)
  refine ⟨_, hle, fun i hi => (hP _ _).mp (hless i hi), fun i hi hic => ?_, ?_⟩
  · rw [← not_lt, ← hP, hrest i hi hic]
    exact Bool.false_ne_true
  · rw [find]
    refine Prod.ext ?_ rfl
    rw [Bool.eq_iff_iff, decide_eq_true_iff, Bool.and_eq_true, decide_eq_true_iff,
      Bool.not_eq_true', ← Bool.not_eq_true, hP, not_lt]
    constructor
    · rintro ⟨hne, hkey⟩
      have hlt := Nat.lt_of_le_of_ne hle hne
      have hge := hrest _ (Nat.le_refl _) hlt
      rw [← Bool.not_eq_true, hP, not_lt] at hge
      exact ⟨hlt, le_antisymm hkey hge⟩
    · rintro ⟨hlt, hkey⟩
      exact ⟨Nat.ne_of_lt hlt, le_of_eq hkey⟩

/-! ## The pages below a page -/

/-- The leaf pages below a page, from the first one to the last -/
def leaves (t : Tree V) : ℕ → Addr → List Addr
  | 0, p => [p]
  | lev + 1, p => (t.node p).data.flatMap (t.leaves lev)

/-- The items on leaf pages -/
def itemsOf (t : Tree V) (pages : List Addr) : List V := pages.flatMap fun p => (t.leaf p).data

theorem itemsOf_append (l m : List Addr) : t.itemsOf (l ++ m) = t.itemsOf l ++ t.itemsOf m :=
  List.flatMap_append

theorem itemsOf_flatMap (l : List Addr) (f : Addr → List Addr) :
    t.itemsOf (l.flatMap f) = l.flatMap fun q => t.itemsOf (f q) := List.flatMap_assoc

theorem row_add (d lev : ℕ) : t.row (d + lev) = (t.row d).flatMap (t.leaves lev) := by
  induction lev generalizing d with
  | zero => exact (List.flatMap_singleton' _).symm
  | succ lev ih =>
      rw [show d + (lev + 1) = d + 1 + lev by omega, ih, row, List.flatMap_assoc]
      rfl

/-- The leaf pages of a tree are those below the root. -/
theorem leaves_root : t.leaves t.level t.root = t.row t.level := by
  have hrow := row_add (t := t) 0 t.level
  rw [Nat.zero_add] at hrow
  rw [hrow, row, List.flatMap_singleton]

theorem leaves_sublist (hlev : d + lev = t.level) (hp : p ∈ t.row d) :
    (t.leaves lev p).Sublist (t.row t.level) := by
  rw [← hlev, row_add]
  exact List.sublist_flatten_of_mem (List.mem_map_of_mem hp)

/-- The pages below start with the first leaf page. -/
theorem Valid.leaves_eq_cons (h : Valid P A t s) (hlev : d + lev = t.level) (hp : p ∈ t.row d) :
    ∃ rest, t.leaves lev p = t.firstLeaf lev p :: rest := by
  induction lev generalizing d p with
  | zero => exact ⟨[], rfl⟩
  | succ lev ih =>
      have hd : d < t.level := by omega
      obtain ⟨q, qs, hdata⟩ := List.exists_cons_of_ne_nil (h.node_count d hd p hp).1
      have hq : q ∈ t.row (d + 1) := mem_row_succ.mpr ⟨p, hp, by rw [hdata]; exact List.mem_cons_self⟩
      obtain ⟨rest, hrest⟩ := ih (by omega) hq
      refine ⟨rest ++ qs.flatMap (t.leaves lev), ?_⟩
      rw [leaves, firstLeaf, hdata, List.flatMap_cons, hrest]
      rfl

/-! ## The way down -/

/-- The first key below a page is what `generate` makes of it. -/
theorem Valid.generate_eq [Inhabited V] (h : Valid P A t s) (hlev : d + 1 + lev = t.level)
    (hp : p ∈ t.row d) {q : Addr} (hq : q ∈ (t.node p).data) :
    ∃ x rest, t.itemsOf (t.leaves lev q) = x :: rest ∧ t.generate P p q = P.keyOf x := by
  have hd : d < t.level := by omega
  have hrow : q ∈ t.row (d + 1) := mem_row_succ.mpr ⟨p, hp, hq⟩
  obtain ⟨pages, hpages⟩ := h.leaves_eq_cons hlev hrow
  have hfirst : t.firstLeaf lev q ∈ t.row t.level := by
    refine (leaves_sublist hlev hrow).subset ?_
    rw [hpages]
    exact List.mem_cons_self
  obtain ⟨x, xs, hdata⟩ := List.exists_cons_of_ne_nil ((h.leaf_count _ hfirst).2 (by omega))
  have hlevel : (t.node p).level = lev := by
    have := h.level_eq d hd p hp
    omega
  refine ⟨x, xs ++ t.itemsOf pages, ?_, ?_⟩
  · rw [hpages, itemsOf, List.flatMap_cons, hdata]
    rfl
  · rw [generate, hlevel, hdata]
    rfl

section Down

variable [LinearOrder K]

/-- The items below a page are in order. -/
def Increasing (P : Params V K) (l : List V) : Prop :=
  l.Pairwise fun x y => P.keyOf x < P.keyOf y

theorem Valid.increasing (h : Valid P A t s) (hP : P.Ordered) : Increasing P t.items :=
  h.sorted.imp fun hxy => (hP _ _).mp hxy

/-- The leaf page and the items before it and behind it -/
structure Reached (P : Params V K) (t : Tree V) (key : K) (pages : List Addr) (leaf : Addr)
    (before behind : List Addr) : Prop where
  pages_eq : pages = before ++ leaf :: behind
  less : ∀ x ∈ t.itemsOf before, P.keyOf x < key
  greater : ∀ x ∈ t.itemsOf behind, key < P.keyOf x

/-- The page that is taken: it is the first one or starts with a key that is not greater, and the
pages behind it start with greater keys. -/
theorem find_child (hP : P.Ordered) (key : K) {count : ℕ} {keyAt : ℕ → K} (hcount : 0 < count)
    (hkeys : ∀ i j, i < j → j < count → keyAt i < keyAt j) {c : ℕ}
    (hc : c = if (find P key count keyAt).1 then (find P key count keyAt).2
      else (find P key count keyAt).2 - 1) :
    c < count ∧ (0 < c → keyAt c ≤ key) ∧ ∀ j, c < j → j < count → key < keyAt j := by
  obtain ⟨pos, hle, hless, hge, hfind⟩ := find_spec hP key hkeys
  rw [hfind] at hc
  dsimp only at hc
  by_cases hfound : pos < count ∧ keyAt pos = key
  · rw [if_pos (decide_eq_true hfound)] at hc
    subst hc
    exact ⟨hfound.1, fun _ => hfound.2.le, fun j hj hjc => hfound.2 ▸ hkeys _ j hj hjc⟩
  · rw [if_neg (by simpa using hfound)] at hc
    refine ⟨by omega, fun hpos => (hless c (by omega)).le, fun j hj hjc => ?_⟩
    have hpos : key < keyAt pos := by
      have hlt : pos < count := by omega
      exact lt_of_le_of_ne (hge pos (Nat.le_refl pos) hlt) fun heq => hfound ⟨hlt, heq.symm⟩
    rcases Nat.eq_or_lt_of_le (show pos ≤ j by omega) with rfl | hlt
    · exact hpos
    · exact lt_trans hpos (hkeys pos j hlt hjc)

theorem Valid.descend_reached [Inhabited V] (h : Valid P A t s) (hP : P.Ordered) (key : K)
    (hlev : d + lev = t.level) (hp : p ∈ t.row d) :
    ∃ before behind, Reached P t key (t.leaves lev p) (t.descend P key lev p) before behind := by
  induction lev generalizing d p with
  | zero => exact ⟨[], [], rfl, nofun, nofun⟩
  | succ lev ih =>
      have hd : d < t.level := by omega
      have hnext : d + 1 + lev = t.level := by omega
      have hsorted : ((t.node p).data.flatMap fun q => t.itemsOf (t.leaves lev q)).Pairwise
          fun x y => P.keyOf x < P.keyOf y := by
        rw [← itemsOf_flatMap]
        exact (h.increasing hP).sublist ((leaves_sublist hlev hp).flatMap _)
      obtain ⟨hinside, hacross⟩ := List.pairwise_flatMap.mp hsorted
      have hfirst : ∀ i, ∀ hi : i < (t.node p).data.length, ∃ x rest,
          t.itemsOf (t.leaves lev (t.node p).data[i]) = x :: rest ∧
            t.generate P p (t.node p).data[i]! = P.keyOf x := by
        intro i hi
        rw [getElem!_pos _ i hi]
        exact h.generate_eq hnext hp (List.getElem_mem hi)
      have hbefore : ∀ i j, ∀ hij : i < j, ∀ hj : j < (t.node p).data.length,
          ∀ x ∈ t.itemsOf (t.leaves lev (t.node p).data[i]),
            P.keyOf x < t.generate P p (t.node p).data[j]! := by
        intro i j hij hj x hx
        obtain ⟨y, rest, hy, heq⟩ := hfirst j hj
        rw [heq]
        refine List.pairwise_iff_getElem.mp hacross i j (by omega) hj hij x hx y ?_
        rw [hy]
        exact List.mem_cons_self
      have hkeys : ∀ i j, i < j → j < (t.node p).data.length →
          t.generate P p (t.node p).data[i]! < t.generate P p (t.node p).data[j]! := by
        intro i j hij hj
        obtain ⟨x, rest, hx, heq⟩ := hfirst i (Nat.lt_trans hij hj)
        rw [heq]
        refine hbefore i j hij hj x ?_
        rw [hx]
        exact List.mem_cons_self
      obtain ⟨hc, hle, hgt⟩ := find_child (c := if (t.findNode P p key).1 then
        (t.findNode P p key).2 else (t.findNode P p key).2 - 1) hP key
        (List.length_pos_of_ne_nil (h.node_count d hd p hp).1) hkeys rfl
      rw [descend]
      generalize (if (t.findNode P p key).1 then (t.findNode P p key).2
        else (t.findNode P p key).2 - 1) = c at hc hle hgt ⊢
      rw [getElem!_pos _ c hc] at hle ⊢
      have hq : (t.node p).data[c] ∈ t.row (d + 1) := mem_row_succ.mpr ⟨p, hp, List.getElem_mem hc⟩
      obtain ⟨before, behind, hreached⟩ := ih hnext hq
      refine ⟨((t.node p).data.take c).flatMap (t.leaves lev) ++ before,
        behind ++ ((t.node p).data.drop (c + 1)).flatMap (t.leaves lev), ?_, ?_, ?_⟩
      · -- the pages below in order
        have hdata := (List.take_append_drop c (t.node p).data).symm
        rw [List.drop_eq_getElem_cons hc] at hdata
        have hpages := congrArg (List.flatMap (t.leaves lev)) hdata
        rw [List.flatMap_append, List.flatMap_cons, hreached.pages_eq] at hpages
        rw [leaves, hpages]
        simp only [List.append_assoc, List.cons_append]
      · intro x hx
        rw [itemsOf_append, List.mem_append] at hx
        rcases hx with hx | hx
        · rw [itemsOf_flatMap] at hx
          obtain ⟨q, hq, hxq⟩ := List.mem_flatMap.mp hx
          obtain ⟨i, hi, rfl⟩ := List.getElem_of_mem hq
          rw [List.length_take, Nat.lt_min] at hi
          rw [List.getElem_take] at hxq
          have hlt := hbefore i c hi.1 hc x hxq
          rw [getElem!_pos _ c hc] at hlt
          exact hlt.trans_le (hle (by omega))
        · exact hreached.less x hx
      · intro x hx
        rw [itemsOf_append, List.mem_append] at hx
        rcases hx with hx | hx
        · exact hreached.greater x hx
        · rw [itemsOf_flatMap] at hx
          obtain ⟨q, hq, hxq⟩ := List.mem_flatMap.mp hx
          obtain ⟨i, hi, rfl⟩ := List.getElem_of_mem hq
          rw [List.length_drop] at hi
          rw [List.getElem_drop] at hxq
          have hj : c + 1 + i < (t.node p).data.length := by omega
          refine (hgt (c + 1 + i) (by omega) hj).trans_le ?_
          obtain ⟨y, rest, hy, heq⟩ := hfirst (c + 1 + i) hj
          rw [heq]
          have hinc := hinside _ (List.getElem_mem hj)
          rw [hy] at hxq hinc
          rcases List.mem_cons.mp hxq with rfl | hrest
          · exact le_rfl
          · exact (List.rel_of_pairwise_cons hinc hrest).le

end Down

/-! ## Positions -/

section Positions

variable {leaf : Addr} {pos : ℕ} {l m rest : List V} {x : V}

/-- The position is between these items. -/
def Between (t : Tree V) (leaf : Addr) (pos : ℕ) (l m : List V) : Prop :=
  ∃ before behind, t.row t.level = before ++ leaf :: behind ∧ pos ≤ (t.leaf leaf).data.length ∧
    l = t.itemsOf before ++ (t.leaf leaf).data.take pos ∧
      m = (t.leaf leaf).data.drop pos ++ t.itemsOf behind

/-- The position is that of an item. -/
def At (t : Tree V) (c : Cursor) (x : V) : Prop :=
  ∃ p ∈ t.row t.level, c.curr = some p ∧ (t.leaf p).data[c.curPos]? = some x

theorem At.current_eq [Inhabited V] {c : Cursor} (h : t.At c x) : t.current c = x := by
  obtain ⟨p, -, hp, hx⟩ := h
  rw [current, hp]
  exact List.getElem!_of_getElem? hx

theorem Between.mem (h : t.Between leaf pos l m) : leaf ∈ t.row t.level := by
  obtain ⟨before, behind, hrow, -⟩ := h
  rw [hrow]
  exact List.mem_append_right _ List.mem_cons_self

theorem Between.items_eq (h : t.Between leaf pos l m) : t.items = l ++ m := by
  obtain ⟨before, behind, hrow, -, rfl, rfl⟩ := h
  have hdata := List.take_append_drop pos (t.leaf leaf).data
  calc t.items
      _ = t.itemsOf (before ++ leaf :: behind) := by rw [← hrow]; rfl
      _ = t.itemsOf before ++ ((t.leaf leaf).data ++ t.itemsOf behind) := itemsOf_append _ _
      _ = _ := by
        nth_rewrite 1 [← hdata]
        simp only [List.append_assoc]

/-- One item further on -/
theorem Between.succ (h : t.Between leaf pos l m) (hx : (t.leaf leaf).data[pos]? = some x) :
    ∃ rest, m = x :: rest ∧ t.Between leaf (pos + 1) (l ++ [x]) rest := by
  obtain ⟨before, behind, hrow, hpos, rfl, rfl⟩ := h
  obtain ⟨hlt, hget⟩ := List.getElem?_eq_some_iff.mp hx
  refine ⟨(t.leaf leaf).data.drop (pos + 1) ++ t.itemsOf behind, ?_, before, behind, hrow, hlt, ?_, rfl⟩
  · rw [List.drop_eq_getElem_cons hlt, hget]
    rfl
  · rw [List.append_assoc, ← hget, List.take_append_getElem hlt]

/-- A leaf page that is not the only one has items. -/
theorem Valid.data_ne_nil (h : Valid P A t s) {p q : Addr} (hp : p ∈ t.row t.level)
    (hq : q ∈ t.row t.level) (hne : p ≠ q) : (t.leaf p).data ≠ [] := by
  refine (h.leaf_count p hp).2 (Nat.pos_of_ne_zero fun hlevel => hne ?_)
  rw [hlevel, row, List.mem_singleton] at hp hq
  rw [hp, hq]

theorem Valid.row_nodup (h : Valid P A t s) : (t.row t.level).Nodup :=
  h.nodup.sublist (List.sublist_flatten_of_mem
    (List.mem_map_of_mem (List.mem_range.mpr (Nat.lt_succ_self _))))

theorem Valid.links (h : Valid P A t s) {before behind : List Addr}
    (hrow : t.row t.level = before ++ leaf :: behind) :
    (t.leaf leaf).next = behind.head? ∧ (t.leaf leaf).prev = before.getLast? := by
  have hi : before.length < (t.row t.level).length := by
    rw [hrow, List.length_append, List.length_cons]
    omega
  have hget : (t.row t.level)[before.length] = leaf := by
    simp only [hrow, List.getElem_append_right (Nat.le_refl _), Nat.sub_self,
      List.getElem_cons_zero]
  obtain ⟨hnext, hprev⟩ := h.linked t.level (Nat.le_refl _) before.length hi
  rw [hget, nextAt, if_pos rfl] at hnext
  rw [hget, prevAt, if_pos rfl] at hprev
  refine ⟨?_, ?_⟩
  · rw [hnext, hrow, List.getElem?_append_right (Nat.le_succ _), List.head?_eq_getElem?,
      Nat.succ_sub (Nat.le_refl _), Nat.sub_self, List.getElem?_cons_succ]
  · rw [hprev, List.getLast?_eq_getElem?]
    split
    · rename_i hzero
      rw [List.length_eq_zero_iff.mp hzero]
      rfl
    · rw [hrow, List.getElem?_append_left (by omega)]

/-- `skipEnd` goes to the first item behind the position. -/
theorem Valid.skipEnd_between (h : Valid P A t s) (hb : t.Between leaf pos l m) :
    ((t.skipEnd ⟨some leaf, pos⟩).curr.isSome ↔ m ≠ []) ∧
      ∀ x rest, m = x :: rest → t.At (t.skipEnd ⟨some leaf, pos⟩) x := by
  have hleaf := hb.mem
  obtain ⟨before, behind, hrow, hpos, -, rfl⟩ := hb
  rw [skipEnd]
  dsimp only
  split
  · -- behind the last item of the page
    rename_i hend
    rw [(h.links hrow).1, List.drop_eq_nil_of_le hend, List.nil_append]
    cases behind with
    | nil => exact ⟨iff_of_false nofun fun hne => hne rfl, nofun⟩
    | cons q qs =>
        have hq : q ∈ t.row t.level := by
          rw [hrow]
          exact List.mem_append_right _ (List.mem_cons_of_mem _ List.mem_cons_self)
        have hne : q ≠ leaf := by
          rintro rfl
          have hnodup := h.row_nodup
          rw [hrow] at hnodup
          exact (List.nodup_cons.mp (List.nodup_append.mp hnodup).2.1).1 List.mem_cons_self
        obtain ⟨y, ys, hdata⟩ := List.exists_cons_of_ne_nil (h.data_ne_nil hq hleaf hne)
        have hitems : t.itemsOf (q :: qs) = y :: (ys ++ t.itemsOf qs) := by
          rw [itemsOf, List.flatMap_cons, hdata]
          rfl
        rw [hitems]
        refine ⟨iff_of_true rfl (List.cons_ne_nil _ _), fun x rest hx => ?_⟩
        obtain ⟨rfl, -⟩ := List.cons.inj hx
        exact ⟨q, hq, rfl, by rw [hdata]; rfl⟩
  · rename_i hlt
    rw [Nat.not_le] at hlt
    rw [List.drop_eq_getElem_cons hlt]
    refine ⟨iff_of_true rfl (List.cons_ne_nil _ _), fun x rest hx => ?_⟩
    obtain ⟨rfl, -⟩ := List.cons.inj hx
    exact ⟨leaf, hleaf, rfl, List.getElem?_eq_getElem hlt⟩

/-- `getPrev` goes to the last item before the position. -/
theorem Valid.getPrev_between (h : Valid P A t s) (hb : t.Between leaf pos l m) :
    ((t.getPrev ⟨some leaf, pos⟩).1 = true ↔ l ≠ []) ∧
      ∀ rest x, l = rest ++ [x] → t.At (t.getPrev ⟨some leaf, pos⟩).2 x := by
  have hleaf := hb.mem
  obtain ⟨before, behind, hrow, hpos, rfl, -⟩ := hb
  rw [getPrev]
  dsimp only
  split
  · rename_i hzero
    have hlt : pos - 1 < (t.leaf leaf).data.length := by omega
    have htake : (t.leaf leaf).data.take pos =
        (t.leaf leaf).data.take (pos - 1) ++ [(t.leaf leaf).data[pos - 1]] := by
      rw [List.take_append_getElem hlt, Nat.sub_add_cancel (Nat.pos_of_ne_zero hzero)]
    rw [htake, ← List.append_assoc]
    refine ⟨iff_of_true rfl (List.append_ne_nil_of_right_ne_nil _ (List.cons_ne_nil _ _)),
      fun rest x hx => ?_⟩
    obtain ⟨-, hx⟩ := List.append_inj' hx rfl
    obtain ⟨rfl, -⟩ := List.cons.inj hx
    exact ⟨leaf, hleaf, rfl, List.getElem?_eq_getElem hlt⟩
  · -- before the first item of the page
    rename_i hzero
    obtain rfl : pos = 0 := by omega
    rw [List.take_zero, List.append_nil, Option.bind_some, (h.links hrow).2]
    rcases List.eq_nil_or_concat before with rfl | ⟨qs, q, rfl⟩
    · exact ⟨iff_of_false nofun fun hne => hne rfl, fun rest x hx =>
        absurd hx.symm (List.append_ne_nil_of_right_ne_nil _ (List.cons_ne_nil _ _))⟩
    · rw [List.concat_eq_append] at hrow ⊢
      have hq : q ∈ t.row t.level := by
        rw [hrow]
        exact List.mem_append_left _ (List.mem_append_right _ List.mem_cons_self)
      have hne : q ≠ leaf := by
        rintro rfl
        have hnodup := h.row_nodup
        rw [hrow] at hnodup
        exact (List.nodup_append.mp hnodup).2.2 q (List.mem_append_right _ List.mem_cons_self) q
          List.mem_cons_self rfl
      obtain hnil | ⟨ys, y, hdata⟩ := List.eq_nil_or_concat (t.leaf q).data
      · exact absurd hnil (h.data_ne_nil hq hleaf hne)
      · rw [List.concat_eq_append] at hdata
        have hitems : t.itemsOf (qs ++ [q]) = t.itemsOf qs ++ ys ++ [y] := by
          rw [itemsOf_append, itemsOf, itemsOf, List.flatMap_singleton, hdata, List.append_assoc]
        rw [hitems, List.getLast?_concat]
        refine ⟨iff_of_true rfl (List.append_ne_nil_of_right_ne_nil _ (List.cons_ne_nil _ _)),
          fun rest x hx => ?_⟩
        obtain ⟨-, hx⟩ := List.append_inj' hx rfl
        obtain ⟨rfl, -⟩ := List.cons.inj hx
        refine ⟨q, hq, rfl, ?_⟩
        show (t.leaf q).data[(t.leaf q).data.length - 1]? = some y
        rw [hdata, List.length_append, List.length_singleton, Nat.add_sub_cancel]
        exact List.getElem?_concat_length

end Positions

/-! ## Main result -/

section Main

variable [LinearOrder K]

variable [Inhabited V] {key : K} {lt : LocType} {r : Bool × Cursor} {l m : List V}

/-- The nearest item of the kind that is looked for is found, if there is one. -/
structure Finds (P : Params V K) (t : Tree V) (lt : LocType) (key : K) (r : Bool × Cursor) : Prop where
  found_iff : r.1 = true ↔ ∃ x ∈ t.items, lt.Wants key (P.keyOf x)
  nearest : r.1 = true → ∃ x, t.current r.2 = x ∧ t.At r.2 x ∧ lt.Wants key (P.keyOf x) ∧
    ∀ y ∈ t.items, lt.Wants key (P.keyOf y) → lt.Nearer (P.keyOf x) (P.keyOf y)

/-- The first one of the items behind a position -/
theorem Valid.finds_behind (h : Valid P A t s) (hP : P.Ordered) (hitems : t.items = l ++ m)
    (hl : ∀ x ∈ l, ¬lt.Wants key (P.keyOf x)) (hm : ∀ x ∈ m, lt.Wants key (P.keyOf x))
    (hnear : ∀ k k' : K, k ≤ k' → lt.Nearer k k') (hfound : r.1 = true ↔ m ≠ [])
    (hat : ∀ x rest, m = x :: rest → t.At r.2 x) : Finds P t lt key r := by
  have hsorted := h.increasing hP
  rw [Increasing, hitems] at hsorted
  refine ⟨hfound.trans ⟨fun hne => ?_, ?_⟩, fun hr => ?_⟩
  · obtain ⟨x, rest, rfl⟩ := List.exists_cons_of_ne_nil hne
    refine ⟨x, ?_, hm x List.mem_cons_self⟩
    rw [hitems]
    exact List.mem_append_right _ List.mem_cons_self
  · rintro ⟨x, hx, hwants⟩ rfl
    rw [hitems, List.append_nil] at hx
    exact hl x hx hwants
  · obtain ⟨x, rest, rfl⟩ := List.exists_cons_of_ne_nil (hfound.mp hr)
    have hx := hat x rest rfl
    refine ⟨x, hx.current_eq, hx, hm x List.mem_cons_self, fun y hy hwants => hnear _ _ ?_⟩
    rw [hitems, List.mem_append] at hy
    rcases hy.resolve_left fun hyl => hl y hyl hwants with _ | ⟨_, hrest⟩
    · exact le_rfl
    · exact (List.rel_of_pairwise_cons (List.pairwise_append.mp hsorted).2.1 hrest).le

/-- The last one of the items before a position -/
theorem Valid.finds_before (h : Valid P A t s) (hP : P.Ordered) (hitems : t.items = l ++ m)
    (hl : ∀ x ∈ l, lt.Wants key (P.keyOf x)) (hm : ∀ x ∈ m, ¬lt.Wants key (P.keyOf x))
    (hnear : ∀ k k' : K, k' ≤ k → lt.Nearer k k') (hfound : r.1 = true ↔ l ≠ [])
    (hat : ∀ rest x, l = rest ++ [x] → t.At r.2 x) : Finds P t lt key r := by
  have hsorted := h.increasing hP
  rw [Increasing, hitems] at hsorted
  refine ⟨hfound.trans ⟨fun hne => ?_, ?_⟩, fun hr => ?_⟩
  · obtain ⟨x, hx⟩ := List.exists_mem_of_ne_nil l hne
    refine ⟨x, ?_, hl x hx⟩
    rw [hitems]
    exact List.mem_append_left _ hx
  · rintro ⟨x, hx, hwants⟩ rfl
    rw [hitems, List.nil_append] at hx
    exact hm x hx hwants
  · obtain hnil | ⟨rest, x, rfl⟩ := List.eq_nil_or_concat l
    · exact absurd hnil (hfound.mp hr)
    · rw [List.concat_eq_append] at hl hsorted hitems hat
      have hx := hat rest x rfl
      refine ⟨x, hx.current_eq, hx, hl x (List.mem_append_right _ List.mem_cons_self),
        fun y hy hwants => hnear _ _ ?_⟩
      rw [hitems, List.mem_append] at hy
      have hyl := hy.resolve_right fun hym => hm y hym hwants
      rcases List.mem_append.mp hyl with hrest | hlast
      · have hbefore := (List.pairwise_append.mp (List.pairwise_append.mp hsorted).1).2.2
        exact (hbefore y hrest x List.mem_cons_self).le
      · rw [List.mem_singleton.mp hlast]

/-- Where `find` stops on the leaf page that the way down leads to -/
theorem Valid.findItem_between (h : Valid P A t s) (hP : P.Ordered) (key : K) {leaf : Addr}
    (hleaf : t.descend P key t.level t.root = leaf) :
    ∃ l m, t.Between leaf (t.findItem P leaf key).2 l m ∧ (∀ x ∈ l, P.keyOf x < key) ∧
      (∀ x ∈ m, key ≤ P.keyOf x) ∧
      if (t.findItem P leaf key).1 then
        ∃ x, (t.leaf leaf).data[(t.findItem P leaf key).2]? = some x ∧ P.keyOf x = key
      else ∀ x ∈ m, key < P.keyOf x := by
  obtain ⟨before, behind, hreached⟩ :=
    h.descend_reached hP key (Nat.zero_add t.level) (List.mem_singleton_self t.root)
  rw [leaves_root, hleaf] at hreached
  have hsorted : ((t.leaf leaf).data).Pairwise fun x y => P.keyOf x < P.keyOf y := by
    refine (h.increasing hP).sublist ?_
    rw [items, hreached.pages_eq]
    exact List.sublist_flatten_of_mem (List.mem_map_of_mem (List.mem_append_right _ List.mem_cons_self))
  have hkeys : ∀ i j, i < j → j < (t.leaf leaf).data.length →
      P.keyOf (t.leaf leaf).data[i]! < P.keyOf (t.leaf leaf).data[j]! := by
    intro i j hij hj
    have hi := Nat.lt_trans hij hj
    rw [getElem!_pos (t.leaf leaf).data i hi, getElem!_pos (t.leaf leaf).data j hj]
    exact List.pairwise_iff_getElem.mp hsorted i j hi hj hij
  obtain ⟨pos, hpos, hless, hge, hfind⟩ := find_spec hP key hkeys
  have hitem : t.findItem P leaf key = _ := hfind
  rw [hitem]
  dsimp only
  have hdrop : ∀ x ∈ (t.leaf leaf).data.drop pos, ∃ i, pos ≤ i ∧ ∃ hi : i < (t.leaf leaf).data.length,
      (t.leaf leaf).data[i] = x := by
    intro x hx
    obtain ⟨i, hi, rfl⟩ := List.getElem_of_mem hx
    rw [List.length_drop] at hi
    exact ⟨pos + i, Nat.le_add_right _ _, by omega, List.getElem_drop.symm⟩
  refine ⟨_, _, ⟨before, behind, hreached.pages_eq, hpos, rfl, rfl⟩, fun x hx => ?_, fun x hx => ?_, ?_⟩
  · rcases List.mem_append.mp hx with hx | hx
    · exact hreached.less x hx
    · obtain ⟨i, hi, rfl⟩ := List.getElem_of_mem hx
      rw [List.length_take, Nat.lt_min] at hi
      rw [List.getElem_take, ← getElem!_pos _ i hi.2]
      exact hless i hi.1
  · rcases List.mem_append.mp hx with hx | hx
    · obtain ⟨i, hi, hlt, rfl⟩ := hdrop x hx
      rw [← getElem!_pos _ i hlt]
      exact hge i hi hlt
    · exact (hreached.greater x hx).le
  · by_cases hfound : pos < (t.leaf leaf).data.length ∧ P.keyOf (t.leaf leaf).data[pos]! = key
    · rw [if_pos (decide_eq_true hfound)]
      refine ⟨_, List.getElem?_eq_getElem hfound.1, ?_⟩
      rw [← getElem!_pos _ pos hfound.1]
      exact hfound.2
    · rw [if_neg (by simpa using hfound)]
      intro x hx
      rcases List.mem_append.mp hx with hx | hx
      · obtain ⟨i, hi, hlt, rfl⟩ := hdrop x hx
        have hposlt : pos < (t.leaf leaf).data.length := Nat.lt_of_le_of_lt hi hlt
        have hfirst : key < P.keyOf (t.leaf leaf).data[pos]! :=
          lt_of_le_of_ne (hge pos (Nat.le_refl _) hposlt) fun heq => hfound ⟨hposlt, heq.symm⟩
        rw [← getElem!_pos _ i hlt]
        rcases Nat.eq_or_lt_of_le hi with rfl | hlt'
        · exact hfirst
        · exact hfirst.trans (hkeys pos i hlt' hlt)
      · exact hreached.greater x hx

/-- `locate` finds the nearest item on the side that it is asked for, and fails only if there is
none. -/
theorem locate_finds (h : Valid P A t s) (hP : P.Ordered) (lt : LocType) (key : K) :
    Finds P t lt key (t.locate P lt key) := by
  obtain ⟨leaf, hleaf⟩ : ∃ leaf, t.descend P key t.level t.root = leaf := ⟨_, rfl⟩
  obtain ⟨l, m, hb, hless, hge, hfound⟩ := h.findItem_between hP key hleaf
  obtain ⟨⟨found, pos⟩, hitem⟩ : ∃ r, t.findItem P leaf key = r := ⟨_, rfl⟩
  rw [hitem] at hb hfound
  dsimp only at hb hfound
  have hitems := hb.items_eq
  have hsorted := h.increasing hP
  rw [Increasing, hitems] at hsorted
  obtain ⟨hsome, hfirst⟩ := h.skipEnd_between hb
  obtain ⟨hprev, hlast⟩ := h.getPrev_between hb
  cases found with
  | true =>
      rw [if_pos rfl] at hfound
      obtain ⟨x, hx, hkey⟩ := hfound
      obtain ⟨rest, rfl, hsucc⟩ := hb.succ hx
      have hrest : ∀ y ∈ rest, key < P.keyOf y := fun y hy =>
        hkey ▸ List.rel_of_pairwise_cons (List.pairwise_append.mp hsorted).2.1 hy
      have hitems' := hsucc.items_eq
      have hle : ∀ y ∈ l ++ [x], P.keyOf y ≤ key := by
        intro y hy
        rcases List.mem_append.mp hy with hy | hy
        · exact (hless y hy).le
        · rw [List.mem_singleton.mp hy, hkey]
      have hself : t.At ⟨some leaf, pos⟩ x := ⟨leaf, hb.mem, rfl, hx⟩
      cases lt with
      | equal =>
          rw [locate, hleaf, hitem]
          refine ⟨iff_of_true rfl ⟨x, ?_, hkey⟩, fun _ => ⟨x, hself.current_eq, hself, hkey, ?_⟩⟩
          · rw [hitems]
            exact List.mem_append_right _ List.mem_cons_self
          · rintro y - hy
            exact (hkey.trans hy.symm).le
      | less =>
          rw [locate, hleaf, hitem]
          exact h.finds_before hP hitems hless (fun y hy => not_lt.mpr (hge y hy)) (fun _ _ => id)
            hprev hlast
      | great =>
          rw [locate, hleaf, hitem]
          obtain ⟨hsome', hfirst'⟩ := h.skipEnd_between hsucc
          exact h.finds_behind hP hitems' (fun y hy => not_lt.mpr (hle y hy)) hrest (fun _ _ => id)
            hsome' hfirst'
      | greatEqual =>
          rw [locate, hleaf, hitem]
          refine h.finds_behind hP hitems (fun y hy => not_le.mpr (hless y hy)) hge (fun _ _ => id)
            ?_ hfirst
          exact iff_of_true rfl (List.cons_ne_nil x rest)
      | lessEqual =>
          rw [locate, hleaf, hitem]
          refine h.finds_before hP hitems' hle (fun y hy => not_le.mpr (hrest y hy)) (fun _ _ => id)
            ?_ fun init y hy => ?_
          · exact iff_of_true rfl (List.append_ne_nil_of_right_ne_nil _ (List.cons_ne_nil _ _))
          · obtain ⟨-, hy⟩ := List.append_inj' hy rfl
            obtain ⟨rfl, -⟩ := List.cons.inj hy
            exact hself
  | false =>
      rw [if_neg Bool.false_ne_true] at hfound
      cases lt with
      | equal =>
          rw [locate, hleaf, hitem]
          refine ⟨iff_of_false Bool.false_ne_true ?_, fun hr => absurd hr Bool.false_ne_true⟩
          rintro ⟨y, hy, hkey⟩
          rw [hitems, List.mem_append] at hy
          rcases hy with hy | hy
          · exact absurd hkey (hless y hy).ne
          · exact absurd hkey (hfound y hy).ne'
      | less =>
          rw [locate, hleaf, hitem]
          exact h.finds_before hP hitems hless (fun y hy => not_lt.mpr (hge y hy)) (fun _ _ => id)
            hprev hlast
      | great =>
          rw [locate, hleaf, hitem]
          exact h.finds_behind hP hitems (fun y hy => not_lt.mpr (hless y hy).le) hfound
            (fun _ _ => id) hsome hfirst
      | greatEqual =>
          rw [locate, hleaf, hitem]
          exact h.finds_behind hP hitems (fun y hy => not_le.mpr (hless y hy)) hge (fun _ _ => id)
            hsome hfirst
      | lessEqual =>
          rw [locate, hleaf, hitem]
          exact h.finds_before hP hitems (fun y hy => (hless y hy).le)
            (fun y hy => not_le.mpr (hfound y hy)) (fun _ _ => id) hprev hlast

end Main

/-! ## Between two leaf pages -/

/-- A root page above the leaf pages 0 and 1 -/
def twoLeafs : Tree ℕ where
  leaf p :=
    if p = 0 then { data := [1, 3], parent := some 2, next := some 1, prev := none }
    else { data := [5, 7], parent := some 2, next := none, prev := some 0 }
  node _ := { data := [0, 1], level := 0, parent := none, next := none, prev := none }
  root := 2
  level := 1

/-- All pages are in use. -/
def noneSpare : Spare where
  owns _ := true
  spareLeafs := []
  spareNodes := []

theorem byValue_ordered : byValue.Ordered := fun _ _ => decide_eq_true_iff

theorem valid_twoLeafs : Valid byValue spareAllocator twoLeafs noneSpare where
  owned := fun _ _ _ _ => rfl
  nodup := by decide
  level_eq := by
    intro d hd p hp
    obtain rfl := Nat.lt_one_iff.mp hd
    rfl
  node_count := by
    intro d hd p hp
    exact ⟨List.cons_ne_nil 0 [1], (by decide : (2 : ℕ) ≤ 100)⟩
  leaf_count := by
    intro p hp
    rcases List.mem_pair.mp hp with rfl | rfl
    · exact ⟨by decide, fun _ => List.cons_ne_nil 1 [3]⟩
    · exact ⟨by decide, fun _ => List.cons_ne_nil 5 [7]⟩
  parent_root := rfl
  parent_eq := by
    intro d hd p hp q hq
    obtain rfl := Nat.lt_one_iff.mp hd
    obtain rfl := List.mem_singleton.mp hp
    rcases List.mem_pair.mp hq with rfl | rfl
    · rfl
    · rfl
  linked := by
    intro d hd i hi
    rcases Nat.le_one_iff_eq_zero_or_eq_one.mp hd with rfl | rfl
    · obtain rfl := Nat.lt_one_iff.mp hi
      exact ⟨rfl, rfl⟩
    · have hi' : i < 2 := hi
      interval_cases i
      · exact ⟨rfl, rfl⟩
      · exact ⟨rfl, rfl⟩
  sorted := by decide

/-- A key that belongs between the two pages -/
theorem locate_finds_twoLeafs :
    Finds byValue twoLeafs .greatEqual 4 (true, ⟨some 1, 0⟩) ∧
      Finds byValue twoLeafs .lessEqual 4 (true, ⟨some 0, 1⟩) :=
  ⟨locate_finds valid_twoLeafs byValue_ordered .greatEqual 4,
    locate_finds valid_twoLeafs byValue_ordered .lessEqual 4⟩

end Tree

end Firebird.BePlus
