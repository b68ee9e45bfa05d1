import Mathlib.Data.Fintype.EquivFin
import Mathlib.Data.List.Pairwise
import Mathlib.Data.Tree.Basic
import Mathlib.Logic.Function.Basic

/-! # Binary trees with parent links

Each node has links to its two children and to its parent. `Linked s p par t`: from `p`, the links
are those of the tree `t`, whose parent is `par`. A path leads from the root to a place of a tree;
what changes below the place leaves the path alone.
-/

namespace LinkedTree

open BinaryTree (nil node)

universe u

variable {α : Type u}

/-! ### Trees -/

/-- The values in order -/
def inorder : BinaryTree α → List α
  | nil => []
  | node x l r => inorder l ++ x :: inorder r

@[simp] theorem inorder_nil : inorder (nil : BinaryTree α) = [] := rfl

@[simp] theorem inorder_node (x : α) (l r : BinaryTree α) :
    inorder (node x l r) = inorder l ++ x :: inorder r := rfl

theorem inorder_ne_nil (x : α) (l r : BinaryTree α) : inorder (node x l r) ≠ [] :=
  List.append_ne_nil_of_right_ne_nil _ (List.cons_ne_nil x _)

/-- The tree `l` with `r` to the right of its last value -/
def hang : BinaryTree α → BinaryTree α → BinaryTree α
  | nil, r => r
  | node x a b, r => node x a (hang b r)

@[simp] theorem nil_hang (r : BinaryTree α) : hang nil r = r := rfl

@[simp] theorem node_hang (x : α) (a b r : BinaryTree α) :
    hang (node x a b) r = node x a (hang b r) := rfl

@[simp] theorem inorder_hang (l r : BinaryTree α) : inorder (hang l r) = inorder l ++ inorder r := by
  induction l with
  | nil => rfl
  | node x a b _ ih => rw [node_hang, inorder_node, ih, inorder_node, List.append_assoc,
      List.cons_append]

/-- `x` is in the left subtree of `a`. -/
def InLeft : BinaryTree α → α → α → Prop
  | nil, _, _ => False
  | node v l r, x, a => (a = v ∧ x ∈ inorder l) ∨ InLeft l x a ∨ InLeft r x a

@[simp] theorem inLeft_nil (x a : α) : InLeft nil x a ↔ False := Iff.rfl

@[simp] theorem inLeft_node (v : α) (l r : BinaryTree α) (x a : α) :
    InLeft (node v l r) x a ↔ (a = v ∧ x ∈ inorder l) ∨ InLeft l x a ∨ InLeft r x a := Iff.rfl

theorem InLeft.mem {t : BinaryTree α} {x a : α} (h : InLeft t x a) :
    x ∈ inorder t ∧ a ∈ inorder t := by
  induction t with
  | nil => exact h.elim
  | node v l r ihl ihr =>
    rw [inorder_node, List.mem_append, List.mem_append, List.mem_cons, List.mem_cons]
    rcases h with ⟨rfl, hx⟩ | h | h
    · exact ⟨.inl hx, .inr (.inl rfl)⟩
    · exact ⟨.inl (ihl h).1, .inl (ihl h).2⟩
    · exact ⟨.inr (.inr (ihr h).1), .inr (.inr (ihr h).2)⟩

theorem inLeft_hang (l r : BinaryTree α) (x a : α) :
    InLeft (hang l r) x a ↔ InLeft l x a ∨ InLeft r x a := by
  induction l with
  | nil => exact (iff_of_eq (false_or _)).symm
  | node v b c _ ih => rw [node_hang, inLeft_node, ih, inLeft_node, or_assoc, or_assoc]

/-! ### Paths -/

/-- A path from a place of a tree up to the root: at each node on it, the value and the other
subtree -/
inductive Path (α : Type u) : Type u
  | top : Path α
  | left (x : α) (r : BinaryTree α) (up : Path α) : Path α
  | right (x : α) (l : BinaryTree α) (up : Path α) : Path α

namespace Path

/-- The tree with `t` at the place -/
def zip : Path α → BinaryTree α → BinaryTree α
  | top, t => t
  | left x r up, t => up.zip (node x t r)
  | right x l up, t => up.zip (node x l t)

/-- What is before the place, in order -/
def before : Path α → List α
  | top => []
  | left _ _ up => up.before
  | right x l up => up.before ++ (inorder l ++ [x])

/-- What is after the place, in order -/
def after : Path α → List α
  | top => []
  | left x r up => x :: inorder r ++ up.after
  | right _ _ up => up.after

/-- The nodes whose left subtree the place is in -/
def lefts : Path α → List α
  | top => []
  | left x _ up => x :: up.lefts
  | right _ _ up => up.lefts

theorem before_left (x : α) (r : BinaryTree α) (up : Path α) :
    (left x r up).before = up.before := rfl

theorem before_right (x : α) (l : BinaryTree α) (up : Path α) :
    (right x l up).before = up.before ++ (inorder l ++ [x]) := rfl

theorem after_left (x : α) (r : BinaryTree α) (up : Path α) :
    (left x r up).after = x :: inorder r ++ up.after := rfl

theorem after_right (x : α) (l : BinaryTree α) (up : Path α) :
    (right x l up).after = up.after := rfl

theorem lefts_left (x : α) (r : BinaryTree α) (up : Path α) :
    (left x r up).lefts = x :: up.lefts := rfl

theorem lefts_right (x : α) (l : BinaryTree α) (up : Path α) :
    (right x l up).lefts = up.lefts := rfl

theorem inorder_zip (up : Path α) (t : BinaryTree α) :
    inorder (up.zip t) = up.before ++ (inorder t ++ up.after) := by
  induction up generalizing t with
  | top => exact (List.append_nil _).symm
  | left x r up ih =>
    rw [zip, ih, inorder_node, before_left, after_left, List.append_assoc]
  | right x l up ih =>
    rw [zip, ih, inorder_node, before_right, after_right, List.append_assoc, List.append_assoc,
      List.append_assoc]
    rfl

theorem mem_zip (up : Path α) {t : BinaryTree α} {x : α} :
    x ∈ inorder (up.zip t) ↔ x ∈ up.before ∨ x ∈ inorder t ∨ x ∈ up.after := by
  rw [inorder_zip, List.mem_append, List.mem_append]

/-- The node at a place, its two subtrees, and the values outside are apart. -/
theorem nodup_zip {up : Path α} {z : α} {l r : BinaryTree α}
    (h : (inorder (up.zip (node z l r))).Nodup) :
    (z ∉ inorder l ∧ z ∉ inorder r) ∧ ((inorder l).Nodup ∧ (inorder r).Nodup) ∧
      (∀ y ∈ inorder l, y ∉ inorder r) ∧
        ∀ y, y ∈ up.before ∨ y ∈ up.after → y ≠ z ∧ y ∉ inorder l ∧ y ∉ inorder r := by
  simp only [inorder_zip, inorder_node, List.nodup_append, List.nodup_cons, List.mem_append,
    List.mem_cons] at h
  obtain ⟨-, ⟨⟨hl, ⟨hzr, hr⟩, hlr⟩, -, hin⟩, hbefore⟩ := h
  refine ⟨⟨fun hz => hlr z hz z (.inl rfl) rfl, hzr⟩, ⟨hl, hr⟩,
    fun y hy hy' => hlr y hy y (.inr hy') rfl, ?_⟩
  intro y hy
  refine ⟨?_, ?_, ?_⟩
  · rintro rfl
    exact hy.elim (fun hy => hbefore y hy y (.inl (.inr (.inl rfl))) rfl)
      fun hy => hin y (.inr (.inl rfl)) y hy rfl
  · intro hyl
    exact hy.elim (fun hy => hbefore y hy y (.inl (.inl hyl)) rfl)
      fun hy => hin y (.inl hyl) y hy rfl
  · intro hyr
    exact hy.elim (fun hy => hbefore y hy y (.inl (.inr (.inr hyr))) rfl)
      fun hy => hin y (.inr (.inr hyr)) y hy rfl

theorem zip_hang_sublist (up : Path α) (z : α) (l r : BinaryTree α) :
    (inorder (up.zip (hang l r))).Sublist (inorder (up.zip (node z l r))) := by
  rw [inorder_zip, inorder_zip, inorder_hang, inorder_node]
  exact (((List.Sublist.refl _).append (List.sublist_cons_self z _)).append
    (List.Sublist.refl _)).append_left _

/-- Every value of a tree is at some place. -/
theorem exists_zip {t : BinaryTree α} {x : α} (h : x ∈ inorder t) (above : Path α) :
    ∃ (up : Path α) (l r : BinaryTree α), above.zip t = up.zip (node x l r) := by
  induction t generalizing above with
  | nil => exact (List.not_mem_nil h).elim
  | node v l r ihl ihr =>
    rw [inorder_node, List.mem_append, List.mem_cons] at h
    rcases h with h | rfl | h
    · exact ihl h (.left v r above)
    · exact ⟨above, l, r, rfl⟩
    · exact ihr h (.right v l above)

/-- `x` is outside the place, and in the left subtree of `a`. -/
def InLeft : Path α → α → α → Prop
  | top, _, _ => False
  | left v r up, x, a =>
      LinkedTree.InLeft r x a ∨ ((x = v ∨ x ∈ inorder r) ∧ a ∈ up.lefts) ∨ up.InLeft x a
  | right v l up, x, a =>
      (a = v ∧ x ∈ inorder l) ∨ LinkedTree.InLeft l x a ∨
        ((x = v ∨ x ∈ inorder l) ∧ a ∈ up.lefts) ∨ up.InLeft x a

theorem InLeft.mem {up : Path α} {x a : α} (h : up.InLeft x a) :
    x ∈ up.before ∨ x ∈ up.after := by
  induction up with
  | top => exact h.elim
  | left v r up ih =>
    rw [before_left, after_left, List.cons_append, List.mem_cons, List.mem_append]
    rcases h with h | ⟨h | h, _⟩ | h
    · exact .inr (.inr (.inl h.mem.1))
    · exact .inr (.inl h)
    · exact .inr (.inr (.inl h))
    · exact (ih h).imp_right fun h => .inr (.inr h)
  | right v l up ih =>
    rw [before_right, after_right, List.mem_append, List.mem_append, List.mem_singleton]
    rcases h with ⟨_, h⟩ | h | ⟨h | h, _⟩ | h
    · exact .inl (.inr (.inl h))
    · exact .inl (.inr (.inl h.mem.1))
    · exact .inl (.inr (.inr h))
    · exact .inl (.inr (.inl h))
    · exact (ih h).imp_left .inl

theorem inLeft_zip (up : Path α) (t : BinaryTree α) (x a : α) :
    LinkedTree.InLeft (up.zip t) x a ↔
      LinkedTree.InLeft t x a ∨ (x ∈ inorder t ∧ a ∈ up.lefts) ∨ up.InLeft x a := by
  induction up generalizing t with
  | top =>
    rw [zip, lefts, InLeft]
    simp
  | left v r up ih =>
    rw [zip, ih, inLeft_node, inorder_node, List.mem_append, List.mem_cons, lefts_left, InLeft,
      List.mem_cons]
    tauto
  | right v l up ih =>
    rw [zip, ih, inLeft_node, inorder_node, List.mem_append, List.mem_cons, lefts_right, InLeft]
    tauto

theorem mem_after_of_mem_lefts {up : Path α} {a : α} (h : a ∈ up.lefts) : a ∈ up.after := by
  induction up with
  | top => exact h
  | left x r up ih =>
    rw [lefts_left, List.mem_cons] at h
    rw [after_left, List.cons_append, List.mem_cons, List.mem_append]
    exact h.imp_right fun h => .inr (ih h)
  | right x l up ih => exact ih h

/-- The node at a place is in the left subtrees that the place is in. -/
theorem inLeft_zip_self (up : Path α) {z a : α} {l r : BinaryTree α}
    (h : (inorder (up.zip (node z l r))).Nodup) :
    LinkedTree.InLeft (up.zip (node z l r)) z a ↔ a ∈ up.lefts := by
  obtain ⟨hz, -, -, hout⟩ := nodup_zip h
  rw [inLeft_zip]
  constructor
  · rintro (hin | ⟨-, ha⟩ | hup)
    · rcases hin with ⟨-, hin⟩ | hin | hin
      · exact (hz.1 hin).elim
      · exact (hz.1 hin.mem.1).elim
      · exact (hz.2 hin.mem.1).elim
    · exact ha
    · exact ((hout z hup.mem).1 rfl).elim
  · intro ha
    exact .inr (.inl ⟨List.mem_append_right _ List.mem_cons_self, ha⟩)

/-- A value in the left subtree at a place -/
theorem inLeft_zip_left {up : Path α} {z y a : α} {l r : BinaryTree α}
    (h : (inorder (up.zip (node z l r))).Nodup) (hy : y ∈ inorder l)
    (hya : LinkedTree.InLeft (up.zip (node z l r)) y a) :
    a = z ∨ a ∈ inorder l ∨ a ∈ up.lefts := by
  obtain ⟨hz, -, hlr, hout⟩ := nodup_zip h
  rcases (inLeft_zip up _ y a).mp hya with hin | ⟨-, ha⟩ | hup
  · rcases hin with ⟨ha, -⟩ | hin | hin
    · exact .inl ha
    · exact .inr (.inl hin.mem.2)
    · exact (hlr y hy hin.mem.1).elim
  · exact .inr (.inr ha)
  · exact ((hout y hup.mem).2.1 hy).elim

/-- The other values have the same left subtrees when a value goes. -/
theorem inLeft_zip_hang {up : Path α} {z : α} {l r : BinaryTree α} {x a : α} (hx : x ≠ z)
    (ha : a ≠ z) : LinkedTree.InLeft (up.zip (hang l r)) x a ↔
      LinkedTree.InLeft (up.zip (node z l r)) x a := by
  rw [inLeft_zip, inLeft_zip, inLeft_hang, inLeft_node, inorder_hang, inorder_node, List.mem_append,
    List.mem_append, List.mem_cons]
  tauto

end Path

/-! ### Links -/

/-- The link to the root, and the links of all nodes -/
structure Links (α : Type u) where
  root : Option α
  left : α → Option α
  right : α → Option α
  parent : α → Option α

/-- From `p` the links are those of the tree `t`, whose parent is `par`. -/
def Linked (s : Links α) : Option α → Option α → BinaryTree α → Prop
  | p, _, nil => p = none
  | p, par, node x l r =>
      p = some x ∧ s.parent x = par ∧ Linked s (s.left x) (some x) l ∧
        Linked s (s.right x) (some x) r

section

variable {s s' : Links α} {p q par : Option α} {t l r : BinaryTree α} {x : α}

@[simp] theorem linked_nil : Linked s p par nil ↔ p = none := Iff.rfl

@[simp] theorem linked_node : Linked s p par (node x l r) ↔
    p = some x ∧ s.parent x = par ∧ Linked s (s.left x) (some x) l ∧
      Linked s (s.right x) (some x) r := Iff.rfl

/-- An empty link leads to the empty tree. -/
theorem Linked.eq_nil (h : Linked s none par t) : t = nil := by
  cases t with
  | nil => rfl
  | node x l r => exact (Option.some_ne_none x h.1.symm).elim

theorem Linked.exists_node (h : Linked s (some x) par t) : ∃ l r, t = node x l r := by
  cases t with
  | nil => exact (Option.some_ne_none x h).elim
  | node y l r =>
    obtain rfl := Option.some.inj h.1
    exact ⟨l, r, rfl⟩

theorem Linked.mem_of_eq (h : Linked s p par t) (hp : p = some x) : x ∈ inorder t := by
  subst hp
  obtain ⟨l, r, rfl⟩ := h.exists_node
  exact List.mem_append_right _ List.mem_cons_self

/-- The links elsewhere do not matter. -/
theorem Linked.frame (h : Linked s p par t) (hl : ∀ y ∈ inorder t, s'.left y = s.left y)
    (hr : ∀ y ∈ inorder t, s'.right y = s.right y)
    (hp : ∀ y ∈ inorder t, s'.parent y = s.parent y) : Linked s' p par t := by
  induction t generalizing p par with
  | nil => exact h
  | node x l r ihl ihr =>
    obtain ⟨rfl, rfl, h1, h2⟩ := h
    simp only [inorder_node, List.mem_append, List.mem_cons] at hl hr hp
    refine ⟨rfl, hp x (.inr (.inl rfl)), ?_, ?_⟩
    · rw [hl x (.inr (.inl rfl))]
      exact ihl h1 (fun y hy => hl y (.inl hy)) (fun y hy => hr y (.inl hy))
        fun y hy => hp y (.inl hy)
    · rw [hr x (.inr (.inl rfl))]
      exact ihr h2 (fun y hy => hl y (.inr (.inr hy))) (fun y hy => hr y (.inr (.inr hy)))
        fun y hy => hp y (.inr (.inr hy))

/-- A tree with another parent -/
theorem Linked.reparent {par' : Option α} (h : Linked s p par t) (hnd : (inorder t).Nodup)
    (hl : ∀ y ∈ inorder t, s'.left y = s.left y) (hr : ∀ y ∈ inorder t, s'.right y = s.right y)
    (hp : ∀ y ∈ inorder t, p ≠ some y → s'.parent y = s.parent y)
    (hpar : ∀ y, p = some y → s'.parent y = par') : Linked s' p par' t := by
  cases t with
  | nil => exact h
  | node x l r =>
    obtain ⟨rfl, rfl, h1, h2⟩ := h
    rw [inorder_node, List.nodup_middle, List.nodup_cons, List.mem_append] at hnd
    simp only [inorder_node, List.mem_append, List.mem_cons] at hl hr hp
    have hother : ∀ y, (y ∈ inorder l ∨ y ∈ inorder r) → some x ≠ some y := by
      intro y hy heq
      obtain rfl := Option.some.inj heq
      exact hnd.1 hy
    refine ⟨rfl, hpar x rfl, ?_, ?_⟩
    · rw [hl x (.inr (.inl rfl))]
      exact h1.frame (fun y hy => hl y (.inl hy)) (fun y hy => hr y (.inl hy))
        fun y hy => hp y (.inl hy) (hother y (.inl hy))
    · rw [hr x (.inr (.inl rfl))]
      exact h2.frame (fun y hy => hl y (.inr (.inr hy))) (fun y hy => hr y (.inr (.inr hy)))
        fun y hy => hp y (.inr (.inr hy)) (hother y (.inr hy))

/-- The tree `r` below the last node of the tree `l` -/
theorem Linked.hang {last : α} (h : Linked s p par l) (hnd : (inorder l).Nodup)
    (hlast : (inorder l).getLast? = some last)
    (hl : ∀ y ∈ inorder l, s'.left y = s.left y)
    (hr : ∀ y ∈ inorder l, y ≠ last → s'.right y = s.right y) (hq : s'.right last = q)
    (hp : ∀ y ∈ inorder l, s'.parent y = s.parent y) (hunder : Linked s' q (some last) r) :
    Linked s' p par (hang l r) := by
  induction l generalizing p par with
  | nil => exact (Option.some_ne_none last hlast.symm).elim
  | node x a b _ ih =>
    obtain ⟨rfl, rfl, h1, h2⟩ := h
    rw [inorder_node, List.nodup_append, List.nodup_cons] at hnd
    obtain ⟨_, ⟨hxb, hndb⟩, hdis⟩ := hnd
    simp only [inorder_node, List.mem_append, List.mem_cons] at hl hr hp
    have hx : x ∈ inorder a ∨ x = x ∨ x ∈ inorder b := .inr (.inl rfl)
    have hright : ∀ y ∈ inorder a, y ≠ last → s'.right y = s.right y :=
      fun y hy => hr y (.inl hy)
    have hlast' : (x :: inorder b).getLast? = some last := by
      rw [inorder_node, List.getLast?_append_cons] at hlast
      exact hlast
    have hmem : last ∈ x :: inorder b := List.mem_of_getLast? hlast'
    have hleft : Linked s' (s'.left x) (some x) a := by
      rw [hl x hx]
      refine h1.frame (fun y hy => hl y (.inl hy)) (fun y hy => ?_) fun y hy => hp y (.inl hy)
      exact hr y (.inl hy) (hdis y hy last hmem)
    refine ⟨rfl, hp x hx, hleft, ?_⟩
    cases b with
    | nil =>
      obtain rfl : x = last := Option.some.inj hlast'
      rw [hq]
      exact hunder
    | node y c d =>
      have hlast'' : (inorder (node y c d)).getLast? = some last := by
        rw [← hlast']
        exact (List.getLast?_cons_of_ne_nil (inorder_ne_nil y c d)).symm
      have hne : x ≠ last := by
        rintro rfl
        exact hxb (List.mem_of_getLast? hlast'')
      rw [hr x hx hne]
      exact ih h2 hndb hlast'' (fun y hy => hl y (.inr (.inr hy)))
        (fun y hy => hr y (.inr (.inr hy))) fun y hy => hp y (.inr (.inr hy))

/-- Around a place the links are those of the path: the link to the place is `q`, its parent
`par`. -/
def Path.Linked (s : Links α) : Path α → Option α → Option α → Prop
  | top, q, par => s.root = q ∧ par = none
  | left x r up, q, par => par = some x ∧ s.left x = q ∧
      LinkedTree.Linked s (s.right x) (some x) r ∧ up.Linked s (some x) (s.parent x)
  | right x l up, q, par => par = some x ∧ s.right x = q ∧
      LinkedTree.Linked s (s.left x) (some x) l ∧ up.Linked s (some x) (s.parent x)

/-- The links are those of the tree `t`. -/
def Links.IsTree (s : Links α) (t : BinaryTree α) : Prop := Linked s s.root none t

theorem Path.isTree_zip {up : Path α} :
    s.IsTree (up.zip t) ↔ ∃ q par, up.Linked s q par ∧ LinkedTree.Linked s q par t := by
  induction up generalizing t with
  | top =>
    constructor
    · intro h
      exact ⟨_, _, ⟨rfl, rfl⟩, h⟩
    · rintro ⟨_, _, ⟨rfl, rfl⟩, h⟩
      exact h
  | left x r up ih =>
    rw [zip, ih]
    constructor
    · rintro ⟨_, _, hup, rfl, rfl, hl, hr⟩
      exact ⟨_, _, ⟨rfl, rfl, hr, hup⟩, hl⟩
    · rintro ⟨_, _, ⟨rfl, rfl, hr, hup⟩, hl⟩
      exact ⟨_, _, hup, rfl, rfl, hl, hr⟩
  | right x l up ih =>
    rw [zip, ih]
    constructor
    · rintro ⟨_, _, hup, rfl, rfl, hl, hr⟩
      exact ⟨_, _, ⟨rfl, rfl, hl, hup⟩, hr⟩
    · rintro ⟨_, _, ⟨rfl, rfl, hl, hup⟩, hr⟩
      exact ⟨_, _, hup, rfl, rfl, hl, hr⟩

/-- The links of the nodes on a path and beside it -/
theorem Path.Linked.frame {up : Path α} (h : up.Linked s q par) (hroot : s'.root = s.root)
    (hl : ∀ y, y ∈ up.before ∨ y ∈ up.after → s'.left y = s.left y)
    (hr : ∀ y, y ∈ up.before ∨ y ∈ up.after → s'.right y = s.right y)
    (hp : ∀ y, y ∈ up.before ∨ y ∈ up.after → s'.parent y = s.parent y) : up.Linked s' q par := by
  induction up generalizing q par with
  | top => exact ⟨hroot.trans h.1, h.2⟩
  | left x r up ih =>
    obtain ⟨rfl, rfl, hr', hup⟩ := h
    have hx : x ∈ (left x r up).before ∨ x ∈ (left x r up).after :=
      .inr (List.mem_append_left _ List.mem_cons_self)
    have hin : ∀ y ∈ inorder r, y ∈ (left x r up).before ∨ y ∈ (left x r up).after :=
      fun y hy => .inr (List.mem_append_left _ (List.mem_cons_of_mem _ hy))
    have hout : ∀ y, y ∈ up.before ∨ y ∈ up.after →
        y ∈ (left x r up).before ∨ y ∈ (left x r up).after :=
      fun y hy => hy.imp_right fun hy => List.mem_append_right _ hy
    refine ⟨rfl, hl x hx, ?_, ?_⟩
    · rw [hr x hx]
      exact hr'.frame (fun y hy => hl y (hin y hy)) (fun y hy => hr y (hin y hy))
        fun y hy => hp y (hin y hy)
    · rw [hp x hx]
      exact ih hup (fun y hy => hl y (hout y hy)) (fun y hy => hr y (hout y hy))
        fun y hy => hp y (hout y hy)
  | right x l up ih =>
    obtain ⟨rfl, rfl, hl', hup⟩ := h
    have hx : x ∈ (right x l up).before ∨ x ∈ (right x l up).after :=
      .inl (List.mem_append_right _ (List.mem_append_right _ List.mem_cons_self))
    have hin : ∀ y ∈ inorder l, y ∈ (right x l up).before ∨ y ∈ (right x l up).after :=
      fun y hy => .inl (List.mem_append_right _ (List.mem_append_left _ hy))
    have hout : ∀ y, y ∈ up.before ∨ y ∈ up.after →
        y ∈ (right x l up).before ∨ y ∈ (right x l up).after :=
      fun y hy => hy.imp_left fun hy => List.mem_append_left _ hy
    refine ⟨rfl, hr x hx, ?_, ?_⟩
    · rw [hl x hx]
      exact hl'.frame (fun y hy => hl y (hin y hy)) (fun y hy => hr y (hin y hy))
        fun y hy => hp y (hin y hy)
    · rw [hp x hx]
      exact ih hup (fun y hy => hl y (hout y hy)) (fun y hy => hr y (hout y hy))
        fun y hy => hp y (hout y hy)

/-- The children of a node of a tree are in it. -/
theorem Linked.mem_of_child {y z : α} (h : Linked s p par t) (hy : y ∈ inorder t)
    (hz : s.left y = some z ∨ s.right y = some z) : z ∈ inorder t := by
  induction t generalizing p par with
  | nil => exact (List.not_mem_nil hy).elim
  | node x l r ihl ihr =>
    rw [inorder_node, List.mem_append, List.mem_cons] at hy ⊢
    rcases hy with hy | rfl | hy
    · exact .inl (ihl h.2.2.1 hy)
    · exact hz.elim (fun hz => .inl (h.2.2.1.mem_of_eq hz)) fun hz =>
        .inr (.inr (h.2.2.2.mem_of_eq hz))
    · exact .inr (.inr (ihr h.2.2.2 hy))

/-- The parent of a child is the node. -/
theorem Linked.parent_of_child {y z : α} (h : Linked s p par t) (hy : y ∈ inorder t)
    (hz : s.left y = some z ∨ s.right y = some z) : s.parent z = some y := by
  have hroot : ∀ {q par : Option α} {t : BinaryTree α}, Linked s q par t → q = some z →
      s.parent z = par := by
    intro q par t ht hq
    subst hq
    obtain ⟨l, r, rfl⟩ := ht.exists_node
    exact ht.2.1
  induction t generalizing p par with
  | nil => exact (List.not_mem_nil hy).elim
  | node x l r ihl ihr =>
    rw [inorder_node, List.mem_append, List.mem_cons] at hy
    rcases hy with hy | rfl | hy
    · exact ihl h.2.2.1 hy
    · exact hz.elim (hroot h.2.2.1) (hroot h.2.2.2)
    · exact ihr h.2.2.2 hy

/-- The children of a node outside a place are outside, or one is at the place. -/
theorem Path.Linked.mem_of_child {up : Path α} {y z : α} (h : up.Linked s q par)
    (hy : y ∈ up.before ∨ y ∈ up.after) (hz : s.left y = some z ∨ s.right y = some z) :
    q = some z ∨ z ∈ up.before ∨ z ∈ up.after := by
  induction up generalizing q par with
  | top => exact (hy.elim List.not_mem_nil List.not_mem_nil).elim
  | left x r up ih =>
    obtain ⟨_, rfl, hr, hup⟩ := h
    simp only [Path.before_left, Path.after_left, List.cons_append, List.mem_cons,
      List.mem_append] at hy ⊢
    have hother : y ∈ up.before ∨ y ∈ up.after → some x = some z ∨ z ∈ up.before ∨ z ∈ up.after :=
      ih hup
    have hin : y ∈ inorder r → z ∈ inorder r := fun hy => hr.mem_of_child hy hz
    have hself : y = x → s.left x = some z ∨ z ∈ inorder r := by
      rintro rfl
      exact hz.imp_right hr.mem_of_eq
    simp only [Option.some.injEq, eq_comm (a := x)] at hother
    tauto
  | right x l up ih =>
    obtain ⟨_, rfl, hl, hup⟩ := h
    simp only [Path.before_right, Path.after_right, List.mem_append, List.mem_singleton] at hy ⊢
    have hother : y ∈ up.before ∨ y ∈ up.after → some x = some z ∨ z ∈ up.before ∨ z ∈ up.after :=
      ih hup
    have hin : y ∈ inorder l → z ∈ inorder l := fun hy => hl.mem_of_child hy hz
    have hself : y = x → z ∈ inorder l ∨ s.right x = some z := by
      rintro rfl
      exact hz.imp_left hl.mem_of_eq
    simp only [Option.some.injEq, eq_comm (a := x)] at hother
    tauto

/-- The link to the place leads elsewhere. -/
theorem Path.Linked.replace {up : Path α} {z : α} {c : Option α}
    (h : up.Linked s (some z) par) (hz : ¬(z ∈ up.before ∨ z ∈ up.after))
    (hroot : par = none → s'.root = c) (hroot' : par ≠ none → s'.root = s.root)
    (hl : ∀ y, y ∈ up.before ∨ y ∈ up.after → s.left y ≠ some z → s'.left y = s.left y)
    (hlc : ∀ y, s.left y = some z → s'.left y = c)
    (hr : ∀ y, y ∈ up.before ∨ y ∈ up.after → s.right y ≠ some z → s'.right y = s.right y)
    (hrc : ∀ y, s.right y = some z → s'.right y = c)
    (hp : ∀ y, y ∈ up.before ∨ y ∈ up.after → s'.parent y = s.parent y) :
    up.Linked s' c par := by
  cases up with
  | top =>
    obtain ⟨_, rfl⟩ := h
    exact ⟨hroot rfl, rfl⟩
  | left x r up =>
    obtain ⟨rfl, hx, hr', hup⟩ := h
    have hmem : ∀ y, y ∈ (left x r up).before ∨ y ∈ (left x r up).after ↔
        y = x ∨ y ∈ inorder r ∨ y ∈ up.before ∨ y ∈ up.after := by
      intro y
      simp only [Path.before_left, Path.after_left, List.cons_append, List.mem_cons, List.mem_append]
      tauto
    simp only [hmem] at hz hl hr hp
    have hin : ∀ y ∈ inorder r, s.left y ≠ some z ∧ s.right y ≠ some z := fun y hy =>
      ⟨fun h => hz (.inr (.inl (hr'.mem_of_child hy (.inl h)))),
        fun h => hz (.inr (.inl (hr'.mem_of_child hy (.inr h))))⟩
    have hout : ∀ y, y ∈ up.before ∨ y ∈ up.after → s.left y ≠ some z ∧ s.right y ≠ some z := by
      intro y hy
      have hno : ¬(s.left y = some z ∨ s.right y = some z) := by
        intro h
        rcases hup.mem_of_child hy h with h | h
        · exact hz (.inl (Option.some.inj h).symm)
        · exact hz (.inr (.inr h))
      exact not_or.mp hno
    have hright : s.right x ≠ some z := fun h => hz (.inr (.inl (hr'.mem_of_eq h)))
    refine ⟨rfl, hlc x hx, ?_, ?_⟩
    · rw [hr x (.inl rfl) hright]
      exact hr'.frame (fun y hy => hl y (.inr (.inl hy)) (hin y hy).1)
        (fun y hy => hr y (.inr (.inl hy)) (hin y hy).2) fun y hy => hp y (.inr (.inl hy))
    · rw [hp x (.inl rfl)]
      exact hup.frame (hroot' (Option.some_ne_none x))
        (fun y hy => hl y (.inr (.inr hy)) (hout y hy).1)
        (fun y hy => hr y (.inr (.inr hy)) (hout y hy).2) fun y hy => hp y (.inr (.inr hy))
  | right x l up =>
    obtain ⟨rfl, hx, hl', hup⟩ := h
    have hmem : ∀ y, y ∈ (right x l up).before ∨ y ∈ (right x l up).after ↔
        y = x ∨ y ∈ inorder l ∨ y ∈ up.before ∨ y ∈ up.after := by
      intro y
      simp only [Path.before_right, Path.after_right, List.mem_append, List.mem_singleton]
      tauto
    simp only [hmem] at hz hl hr hp
    have hin : ∀ y ∈ inorder l, s.left y ≠ some z ∧ s.right y ≠ some z := fun y hy =>
      ⟨fun h => hz (.inr (.inl (hl'.mem_of_child hy (.inl h)))),
        fun h => hz (.inr (.inl (hl'.mem_of_child hy (.inr h))))⟩
    have hout : ∀ y, y ∈ up.before ∨ y ∈ up.after → s.left y ≠ some z ∧ s.right y ≠ some z := by
      intro y hy
      have hno : ¬(s.left y = some z ∨ s.right y = some z) := by
        intro h
        rcases hup.mem_of_child hy h with h | h
        · exact hz (.inl (Option.some.inj h).symm)
        · exact hz (.inr (.inr h))
      exact not_or.mp hno
    have hleft : s.left x ≠ some z := fun h => hz (.inr (.inl (hl'.mem_of_eq h)))
    refine ⟨rfl, hrc x hx, ?_, ?_⟩
    · rw [hl x (.inl rfl) hleft]
      exact hl'.frame (fun y hy => hl y (.inr (.inl hy)) (hin y hy).1)
        (fun y hy => hr y (.inr (.inl hy)) (hin y hy).2) fun y hy => hp y (.inr (.inl hy))
    · rw [hp x (.inl rfl)]
      exact hup.frame (hroot' (Option.some_ne_none x))
        (fun y hy => hl y (.inr (.inr hy)) (hout y hy).1)
        (fun y hy => hr y (.inr (.inr hy)) (hout y hy).2) fun y hy => hp y (.inr (.inr hy))

/-- Another link at the last step of the path -/
theorem Path.Linked.set_left {up : Path α} {q' : Option α} (h : (left x r up).Linked s q par)
    (hroot : s'.root = s.root) (hx : s'.left x = q')
    (hl : ∀ y, y ≠ x → s'.left y = s.left y) (hr : s'.right = s.right)
    (hp : ∀ y, y ∈ (left x r up).before ∨ y ∈ (left x r up).after → s'.parent y = s.parent y)
    (hxr : x ∉ inorder r) (hxup : ¬(x ∈ up.before ∨ x ∈ up.after)) :
    (left x r up).Linked s' q' par := by
  obtain ⟨rfl, -, hr', hup⟩ := h
  simp only [Path.before_left, Path.after_left, List.cons_append, List.mem_cons,
    List.mem_append] at hp
  refine ⟨rfl, hx, ?_, ?_⟩
  · rw [hr]
    refine hr'.frame (fun y hy => hl y ?_) (fun y _ => congrFun hr y)
      fun y hy => hp y (.inr (.inr (.inl hy)))
    rintro rfl
    exact hxr hy
  · rw [hp x (.inr (.inl rfl))]
    refine hup.frame hroot (fun y hy => hl y ?_) (fun y _ => congrFun hr y)
      fun y hy => hp y (hy.imp_right fun hy => .inr (.inr hy))
    rintro rfl
    exact hxup hy

theorem Path.Linked.set_right {up : Path α} {q' : Option α} (h : (right x l up).Linked s q par)
    (hroot : s'.root = s.root) (hx : s'.right x = q')
    (hr : ∀ y, y ≠ x → s'.right y = s.right y) (hl : s'.left = s.left)
    (hp : ∀ y, y ∈ (right x l up).before ∨ y ∈ (right x l up).after → s'.parent y = s.parent y)
    (hxl : x ∉ inorder l) (hxup : ¬(x ∈ up.before ∨ x ∈ up.after)) :
    (right x l up).Linked s' q' par := by
  obtain ⟨rfl, -, hl', hup⟩ := h
  simp only [Path.before_right, Path.after_right, List.mem_append, List.mem_singleton] at hp
  refine ⟨rfl, hx, ?_, ?_⟩
  · rw [hl]
    refine hl'.frame (fun y _ => congrFun hl y) (fun y hy => hr y ?_)
      fun y hy => hp y (.inl (.inr (.inl hy)))
    rintro rfl
    exact hxl hy
  · rw [hp x (.inl (.inr (.inr rfl)))]
    refine hup.frame hroot (fun y _ => congrFun hl y) (fun y hy => hr y ?_)
      fun y hy => hp y (hy.imp_left .inl)
    rintro rfl
    exact hxup hy

/-! ### Loops along the links -/

/-- The last node along the left links. The loop ends within the given number of turns. -/
def Links.leftmost (s : Links α) : ℕ → α → Option α
  | 0, _ => none
  | turns + 1, x =>
      match s.left x with
      | none => some x
      | some y => s.leftmost turns y

/-- The last node along the right links -/
def Links.rightmost (s : Links α) : ℕ → α → Option α
  | 0, _ => none
  | turns + 1, x =>
      match s.right x with
      | none => some x
      | some y => s.rightmost turns y

theorem Linked.leftmost (h : Linked s (some x) par t) (turns : ℕ)
    (hturns : (inorder t).length ≤ turns) : s.leftmost turns x = (inorder t).head? := by
  induction t generalizing x par turns with
  | nil => exact (Option.some_ne_none x h).elim
  | node y l r ih _ =>
    obtain ⟨hy, rfl, hl, _⟩ := h
    obtain rfl := Option.some.inj hy
    rw [inorder_node, List.length_append, List.length_cons] at hturns
    obtain ⟨turns, rfl⟩ : ∃ n, turns = n + 1 := ⟨turns - 1, by omega⟩
    rw [Links.leftmost]
    cases hx : s.left x with
    | none =>
      rw [hx] at hl
      rw [hl.eq_nil]
      rfl
    | some z =>
      rw [hx] at hl
      obtain ⟨a, b, rfl⟩ := hl.exists_node
      rw [inorder_node (l := node z a b), List.head?_append_of_ne_nil _ (inorder_ne_nil z a b)]
      exact ih hl turns (by omega)

theorem Linked.rightmost (h : Linked s (some x) par t) (turns : ℕ)
    (hturns : (inorder t).length ≤ turns) : s.rightmost turns x = (inorder t).getLast? := by
  induction t generalizing x par turns with
  | nil => exact (Option.some_ne_none x h).elim
  | node y l r _ ih =>
    obtain ⟨hy, rfl, _, hr⟩ := h
    obtain rfl := Option.some.inj hy
    rw [inorder_node, List.length_append, List.length_cons] at hturns
    obtain ⟨turns, rfl⟩ : ∃ n, turns = n + 1 := ⟨turns - 1, by omega⟩
    rw [Links.rightmost, inorder_node, List.getLast?_append_cons]
    cases hx : s.right x with
    | none =>
      rw [hx] at hr
      rw [hr.eq_nil]
      rfl
    | some z =>
      rw [hx] at hr
      obtain ⟨a, b, rfl⟩ := hr.exists_node
      rw [List.getLast?_cons_of_ne_nil (inorder_ne_nil z a b)]
      exact ih hr turns (by omega)

end

/-! ### Search trees -/

section

variable {κ : Type*} [LinearOrder κ] (key : α → κ)

/-- The keys are in strictly ascending order. -/
def Ordered (t : BinaryTree α) : Prop := (inorder t).Pairwise fun x y => key x < key y

variable {key}

theorem Ordered.inLeft {t : BinaryTree α} (h : Ordered key t) {x a : α} (hxa : InLeft t x a) :
    key x < key a := by
  induction t with
  | nil => exact hxa.elim
  | node v l r ihl ihr =>
    rw [Ordered, inorder_node, List.pairwise_append, List.pairwise_cons] at h
    rcases hxa with ⟨rfl, hx⟩ | hxa | hxa
    · exact h.2.2 x hx a List.mem_cons_self
    · exact ihl h.1 hxa
    · exact ihr h.2.1.2 hxa

/-- At a place the keys before it are less and those after it greater. -/
theorem Ordered.place {up : Path α} {z : α} {l r : BinaryTree α}
    (h : Ordered key (up.zip (node z l r))) :
    (∀ y, y ∈ up.before ∨ y ∈ inorder l → key y < key z) ∧
      (∀ y, y ∈ inorder r ∨ y ∈ up.after → key z < key y) ∧
        ∀ y ∈ inorder r, ∀ w ∈ up.after, key y < key w := by
  rw [Ordered, Path.inorder_zip, inorder_node] at h
  simp only [List.pairwise_append, List.pairwise_cons, List.mem_append, List.mem_cons] at h
  obtain ⟨-, ⟨⟨-, ⟨hzr, -⟩, hlz⟩, -, hin⟩, hb⟩ := h
  refine ⟨?_, ?_, fun y hy w hw => hin y (.inr (.inr hy)) w hw⟩
  · rintro y (hy | hy)
    · exact hb y hy z (.inl (.inr (.inl rfl)))
    · exact hlz y hy z (.inl rfl)
  · rintro y (hy | hy)
    · exact hzr y hy
    · exact hin z (.inr (.inl rfl)) y hy

theorem Ordered.eq_of_key_eq {t : BinaryTree α} (h : Ordered key t) {x y : α}
    (hx : x ∈ inorder t) (hy : y ∈ inorder t) (hxy : key x = key y) : x = y := by
  by_contra hne
  have hor := List.Pairwise.forall_of_forall_of_flip (R := fun x y => x = y ∨ key x ≠ key y)
    (fun _ _ => .inl rfl) (h.imp fun hlt => .inr (ne_of_lt hlt))
    (h.imp fun hlt => .inr (ne_of_gt hlt)) hx hy
  exact hor.elim hne fun hno => hno hxy

theorem Ordered.subtrees {up : Path α} {z : α} {l r : BinaryTree α}
    (h : Ordered key (up.zip (node z l r))) : Ordered key l ∧ Ordered key r := by
  rw [Ordered, Path.inorder_zip, inorder_node] at h
  simp only [List.pairwise_append, List.pairwise_cons] at h
  exact ⟨h.2.1.1.1, h.2.1.1.2.1.2⟩

/-- The first value has the least key. -/
theorem Ordered.head_le {t : BinaryTree α} (h : Ordered key t) {x y : α}
    (hx : (inorder t).head? = some x) (hy : y ∈ inorder t) : key x ≤ key y := by
  rw [Ordered] at h
  cases hlist : inorder t with
  | nil =>
    rw [hlist] at hy
    exact (List.not_mem_nil hy).elim
  | cons z l =>
    rw [hlist] at h hx hy
    obtain rfl := Option.some.inj hx
    rcases List.mem_cons.mp hy with rfl | hy
    · exact le_refl _
    · exact ((List.pairwise_cons.mp h).1 y hy).le

theorem Ordered.nodup {t : BinaryTree α} (h : Ordered key t) : (inorder t).Nodup :=
  List.Pairwise.imp (fun {_ _} hlt heq => (congrArg key heq).not_lt hlt) h

end

end LinkedTree
