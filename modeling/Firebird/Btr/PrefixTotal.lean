import Mathlib.Tactic.Ring
import Firebird.Btr.Split
import Firebird.Btr.Merge

/-! # The sum of all prefixes on a page (`btr_prefix_total`)

A page that is split keeps the node at the midpoint as its marker, but not the prefix of that node
in the total. A deletion whose next node shares more takes nothing off the total, though that node
comes out with the prefix of the deleted one.
-/

namespace Firebird.Btr

/-- The total is the sum of the prefixes of all nodes. -/
def Bucket.Accounted (b : Bucket) : Prop := ∃ ns, b.Lays ns ∧ b.prefixTotal = prefixSum ns

theorem Bucket.Lays.accounted_iff {b : Bucket} {ns : List Node} (h : b.Lays ns) :
    b.Accounted ↔ b.prefixTotal = prefixSum ns := by
  constructor
  · rintro ⟨ns', h', hsum⟩
    rw [h.unique h', hsum]
  · exact fun hsum => ⟨ns, h, hsum⟩

section

variable {b : Bucket} {ins : Insertion} {es before after : List Node} {n m t : Node}
  {place : Place} {delta pageSize : ℕ}

/-! ## Insertion -/

theorem Slides.accounted (h : Slides b es t ins place before n after delta)
    (hb : b.Formatted es t) (hacc : b.Accounted) : (b.slide ins place delta).Accounted := by
  have hkey := ins.key_le
  have hsum := hb.lays.accounted_iff.mp hacc
  rw [h.split] at hsum
  refine (h.lays hb).accounted_iff.mpr ?_
  rw [Bucket.prefixTotal_slide hb.lays h.toPut, hsum,
    prefixSum_into (h.pfx_le.trans hkey) (h.same_le.1.trans hkey)]

/-- The page that is left does not count its marker, the other one counts all its nodes. -/
theorem accounted_splits {pre suf : List Node} {s : Node} (hb : b.Lays (pre ++ s :: suf))
    (hacc : b.Accounted) (hs : s.Short) (key : Memory UCHAR) (window split : ℕ) :
    ((b.leftPage (btrNodes + size pre) (prefixSum (pre ++ [s])) split).Accounted ↔
      s.btnPrefix = 0) ∧
    (b.splitPage (btrNodes + size pre) (btrNodes + size (pre ++ [s])) key
      (s.btnPrefix.val + s.btnData.length) (prefixSum (pre ++ [s])) window).Accounted := by
  have hsum := hb.accounted_iff.mp hacc
  constructor
  · rw [(Bucket.lays_leftPage hb _ _).accounted_iff, Bucket.prefixTotal_leftPage hb]
    simp only [prefixSum_append, prefixSum_cons, prefixSum_nil, Bucket.marker]
    constructor
    · intro heq
      exact Fin.ext (by change s.btnPrefix.val = 0; omega)
    · intro hzero
      rw [hzero]
      simp
  · rw [(Bucket.lays_splitPage hb hs key _ _).accounted_iff]
    change b.prefixTotal - prefixSum (pre ++ [s]) = _
    rw [hsum]
    simp only [prefixSum_append, prefixSum_cons, prefixSum_nil, Bucket.full]
    simp

/-! ## Deletion -/

/-- A deletion counts if and only if the next node shares no more than the deleted one. -/
theorem accounted_deleteNode (hb : b.Lays (before ++ n :: m :: after))
    (hc : Chained [] (before ++ n :: m :: after)) (hacc : b.Accounted) :
    (b.deleteNode (btrNodes + size before)).Accounted ↔ ¬n.btnPrefix.val < m.btnPrefix.val := by
  obtain ⟨hfit, hle⟩ := hc.next
  have hsum := hb.accounted_iff.mp hacc
  rw [(hb.deleteNode hfit hle).accounted_iff, Bucket.prefixTotal_deleteNode hb, hsum]
  simp only [prefixSum_append, prefixSum_cons]
  have hmin : ((n.absorb m hfit).btnPrefix.val : ℤ) = min n.btnPrefix.val m.btnPrefix.val :=
    congrArg Nat.cast (Node.val_min n m)
  rw [hmin]
  split
  · omega
  · omega

end

/-! ## Merging -/

section

variable {left gc left' : Bucket} {es es' : List Node} {t t' : Node} {pageSize rightPage : ℕ}
  {key : Memory UCHAR}

/-- A merge counts what it should, as the first node of a page has no prefix. -/
theorem accounted_merge (hw : WellFormed es t) (hl : left.Lays (es ++ [t]))
    (hw' : WellFormed es' t') (hg : gc.Lays (es' ++ [t'])) (hacc : left.Accounted)
    (hacc' : gc.Accounted) (h : left.merge gc pageSize rightPage key = some (some left')) :
    left'.Accounted := by
  obtain ⟨n, rest, hfirst⟩ := List.exists_cons_of_ne_nil
    (List.append_ne_nil_of_right_ne_nil es' (List.cons_ne_nil t' []))
  rw [hfirst] at hg
  have hsum := hl.accounted_iff.mp hacc
  have hsum' := hg.accounted_iff.mp hacc'
  have hzero : n.btnPrefix.val = 0 := by
    have hchained := hw'.chained
    rw [hfirst] at hchained
    exact Nat.le_zero.mp hchained.1
  obtain ⟨pfx, hpfx, hlays, htotal⟩ :=
    Bucket.merge_eq hl hw.entry hw.isEnd.negative hg h
  refine hlays.accounted_iff.mpr ?_
  rw [htotal, hsum, hsum', Bucket.prefixSum_join (hpfx.trans n.length_le), prefixSum_append,
    prefixSum_cons, prefixSum_cons, prefixSum_nil, hzero]
  push_cast
  ring

end

/-! ## All operations -/

/-- An operation on the pages of an index -/
inductive Operation where
  | insertNode (b : Bucket) (ins : Insertion) (window split : ℕ) (newKey : Memory UCHAR)
  | deleteNode (b : Bucket) (node : ℕ)
  | garbageCollect (parent : Bucket) (parentNode : ℕ) (left gc : Bucket) (right : Option Bucket)
      (leftPage rightPage : ℕ) (lastKey : Memory UCHAR)

/-- The pages that an insertion rewrites -/
def Outcome.pages : Outcome → List Bucket
  | .wrongBucket => []
  | .fits b _ => [b]
  | .splits left right _ => [left, right]

/-- Where a page with the new node is split -/
def Insertion.splitPoint (ins : Insertion) (pfx : ℕ) (before : List Node) (n : Node)
    (pageSize : ℕ) : ℕ :=
  if EndOfPage ins pfx before n pageSize then btrNodes + size before
  else (pageSize - btrNodes) / 2

namespace Operation

/-- The pages that it works on -/
def pages : Operation → List Bucket
  | insertNode b _ _ _ _ => [b]
  | deleteNode b _ => [b]
  | garbageCollect parent _ left gc right _ _ _ => parent :: left :: gc :: right.toList

/-- The pages as it leaves them -/
def rewrites (pageSize : ℕ) : Operation → Option (List Bucket)
  | insertNode b ins window split newKey =>
      (b.insertNode ins pageSize window split newKey).map Outcome.pages
  | deleteNode b node => some [b.deleteNode node]
  | garbageCollect parent parentNode left gc right leftPage rightPage lastKey =>
      Bucket.garbageCollect parent parentNode left gc right pageSize leftPage rightPage lastKey

/-- The pages are in the format, and the nodes are entries on them. -/
inductive Valid : Operation → Prop
  | insertNode {b : Bucket} {es : List Node} {t : Node} (h : b.Formatted es t) (ins : Insertion)
      (window split : ℕ) (newKey : Memory UCHAR) : Valid (.insertNode b ins window split newKey)
  | deleteNode {b : Bucket} {before after : List Node} {n t : Node}
      (hw : WellFormed (before ++ n :: after) t) (h : b.Lays (before ++ n :: after ++ [t])) :
      Valid (.deleteNode b (btrNodes + size before))
  | garbageCollect {parent left gc : Bucket} {before after es es' : List Node} {n t t' t'' : Node}
      (hw : WellFormed (before ++ n :: after) t) (h : parent.Lays (before ++ n :: after ++ [t]))
      (hw' : WellFormed es t') (h' : left.Lays (es ++ [t']))
      {fs : List Node} (hw'' : WellFormed fs t'') (h'' : gc.Lays (fs ++ [t'']))
      (right : Option Bucket) (leftPage rightPage : ℕ) (lastKey : Memory UCHAR) :
      Valid (.garbageCollect parent (btrNodes + size before) left gc right leftPage rightPage
        lastKey)

/-- The node behind shares no more than the node. -/
def Falls (b : Bucket) (node : ℕ) : Prop :=
  ¬btnPrefix b.page node < btnPrefix b.page (nextNode b.page node)

/-- The condition under which the totals are right: the node that a page is split at has no prefix,
and the node behind a deleted one shares no more than that. -/
def Counts (pageSize : ℕ) : Operation → Prop
  | insertNode b ins _ _ _ => ∀ es t place before n after, b.Formatted es t →
      b.place ins = some (some place) → Put (es ++ [t]) ins place before n after →
        place.pfx + ins.same n ≤ 6 + ins.key.length →
          btrNodes + size (ins.into place.pfx before n after) ≤ pageSize ∨
          ∀ s suf, splitFrom (ins.splitPoint place.pfx before n pageSize) btrNodes
            (ins.into place.pfx before n after) = s :: suf → s.btnPrefix = 0
  | deleteNode b node => Falls b node
  | garbageCollect parent parentNode left gc right _ rightPage lastKey => parentNode = btrNodes ∨
      left.merge gc pageSize (if right.isSome then rightPage else 0) lastKey = some none ∨
        Falls parent parentNode

theorem falls_iff {b : Bucket} {before after : List Node} {n m : Node}
    (hb : b.Lays (before ++ n :: m :: after)) :
    Falls b (btrNodes + size before) ↔ ¬n.btnPrefix.val < m.btnPrefix.val := by
  have hsplit : before ++ n :: m :: after = before ++ [n] ++ m :: after := by
    rw [List.append_assoc, List.singleton_append]
  rw [Falls, Bucket.nextNode_concat hb, btnPrefix_eq hb.node, btnPrefix_eq (hsplit ▸ hb).node]

theorem deleteNode_counts {b : Bucket} {before after : List Node} {n t : Node}
    (hw : WellFormed (before ++ n :: after) t) (hb : b.Lays (before ++ n :: after ++ [t]))
    (hacc : b.Accounted) :
    (b.deleteNode (btrNodes + size before)).Accounted ↔ Falls b (btrNodes + size before) := by
  have hc := hw.chained
  obtain ⟨m, rest, hnext⟩ : ∃ m rest, before ++ n :: after ++ [t] = before ++ n :: m :: rest := by
    cases after with
    | nil => exact ⟨t, [], by rw [List.append_assoc, List.singleton_append]⟩
    | cons m after =>
        exact ⟨m, after ++ [t], by rw [List.append_assoc, List.cons_append, List.cons_append]⟩
  rw [hnext] at hb hc
  rw [accounted_deleteNode hb hc hacc, falls_iff hb]

end Operation

section

variable {b : Bucket} {ins : Insertion} {es before after : List Node} {n t : Node} {place : Place}
  {delta pageSize : ℕ}

/-- The pages of a split -/
theorem Slides.splits_counts (h : Slides b es t ins place before n after delta)
    (hb : b.Formatted es t) (hacc : b.Accounted) (hpage : 1024 ≤ pageSize)
    (hsplits : pageSize < btrNodes + size (ins.into place.pfx before n after))
    (window split : ℕ) (newKey : Memory UCHAR) :
    ∃ s suf left right dups, splitFrom (ins.splitPoint place.pfx before n pageSize) btrNodes
        (ins.into place.pfx before n after) = s :: suf ∧
      b.insertNode ins pageSize window split newKey = some (.splits left right dups) ∧
      (left.Accounted ↔ s.btnPrefix = 0) ∧ right.Accounted := by
  obtain ⟨pre, s, suf, key, hcut, hins⟩ :=
    h.insertNode_splits hb hpage hsplits window split newKey
  have hlays := h.lays hb
  have hslide := h.accounted hb hacc
  have hs : s.Short := h.short hb.chained s (hcut.split ▸ List.mem_append_right _ List.mem_cons_self)
  rw [hcut.split] at hlays
  obtain ⟨hleft, hright⟩ := accounted_splits hlays hslide hs key window split
  refine ⟨s, suf, _, _, _, ?_, hins, hleft, hright⟩
  rw [h.midpoint_eq hb] at hcut
  rw [hcut.split]
  exact splitFrom_eq hcut.lt hcut.le

theorem insertNode_counts (hb : b.Formatted es t) (hacc : b.Accounted) (hpage : 1024 ≤ pageSize)
    (window split : ℕ) (newKey : Memory UCHAR) :
    (∀ r, b.insertNode ins pageSize window split newKey = some r →
      ∀ b' ∈ r.pages, b'.Accounted) ↔
    (Operation.insertNode b ins window split newKey).Counts pageSize := by
  constructor
  · intro hall es' t' place before n after hb' hplace hput hwrap
    obtain ⟨delta, hdelta⟩ := hput.exists_delta hb'.lays hwrap
    have hslides : Slides b es' t' ins place before n after delta := ⟨hput, hplace, hdelta⟩
    by_cases hsplits : pageSize < btrNodes + size (ins.into place.pfx before n after)
    · obtain ⟨s, suf, left, right, dups, hfrom, hins, hleft, -⟩ :=
        hslides.splits_counts hb' hacc hpage hsplits window split newKey
      refine .inr fun s' suf' hfrom' => ?_
      obtain ⟨rfl, rfl⟩ := List.cons.inj (hfrom.symm.trans hfrom')
      exact hleft.mp (hall _ hins left List.mem_cons_self)
    · exact .inl (Nat.le_of_not_lt hsplits)
  · intro hcounts r hins b' hb'
    obtain ⟨found, hplace, hput⟩ := Bucket.place_put hb ins
    rcases found with - | place
    · rw [insertNode_wrongBucket hplace] at hins
      cases hins
      cases hb'
    · obtain ⟨before, n, after, hput⟩ := hput place rfl
      cases hdelta : b.delta ins place with
      | none =>
          rw [insertNode_of_delta hplace hdelta] at hins
          cases hins
      | some delta =>
          have hslides : Slides b es t ins place before n after delta := ⟨hput, hplace, hdelta⟩
          have hgrown := hput.delta_eq hb.lays hdelta
          by_cases hsplits : pageSize < btrNodes + size (ins.into place.pfx before n after)
          · obtain ⟨s, suf, left, right, dups, hfrom, hins', hleft, hright⟩ :=
              hslides.splits_counts hb hacc hpage hsplits window split newKey
            obtain rfl := Option.some.inj (hins'.symm.trans hins)
            rcases hcounts es t place before n after hb hplace hput (by omega) with hle | hzero
            · exact absurd hsplits (Nat.not_lt_of_le hle)
            · rcases List.mem_cons.mp hb' with rfl | hb'
              · exact hleft.mpr (hzero s suf hfrom)
              · obtain rfl := List.mem_singleton.mp hb'
                exact hright
          · rw [hslides.insertNode_fits hb (Nat.le_of_not_lt hsplits)] at hins
            cases hins
            obtain rfl := List.mem_singleton.mp hb'
            exact hslides.accounted hb hacc

end

theorem garbageCollect_counts {parent left gc : Bucket} {before after es fs : List Node}
    {n t t' t'' : Node} {right : Option Bucket} {pageSize leftPage rightPage : ℕ}
    {lastKey : Memory UCHAR} (hw : WellFormed (before ++ n :: after) t)
    (hb : parent.Lays (before ++ n :: after ++ [t])) (hw' : WellFormed es t')
    (hl : left.Lays (es ++ [t'])) (hw'' : WellFormed fs t'') (hg : gc.Lays (fs ++ [t'']))
    (hparent : parent.Accounted) (hleft : left.Accounted) (hgc : gc.Accounted)
    (hright : ∀ r ∈ right.toList, r.Accounted) :
    (∀ bs, Bucket.garbageCollect parent (btrNodes + size before) left gc right pageSize leftPage
      rightPage lastKey = some bs → ∀ b ∈ bs, b.Accounted) ↔
    (Operation.garbageCollect parent (btrNodes + size before) left gc right leftPage rightPage
      lastKey).Counts pageSize := by
  have hcount := Operation.deleteNode_counts hw hb hparent
  obtain ⟨r, hmerge⟩ := Bucket.merge_isSome hl hw'.entry hw'.isEnd.negative gc pageSize
    (if right.isSome then rightPage else 0) lastKey
  rw [Operation.Counts, Bucket.garbageCollect, hmerge]
  by_cases hfirst : btrNodes + size before = btrNodes
  · rw [if_pos hfirst]
    refine iff_of_true ?_ (.inl hfirst)
    rintro bs ⟨⟩
    exact nofun
  · rw [if_neg hfirst, or_iff_right hfirst]
    rcases r with - | left'
    · refine iff_of_true ?_ (.inl rfl)
      rintro bs ⟨⟩
      exact nofun
    · rw [or_iff_right (by exact nofun)]
      constructor
      · intro hall
        exact hcount.mp (hall _ rfl _ List.mem_cons_self)
      · rintro hfalls bs ⟨⟩ b hbs
        rcases List.mem_cons.mp hbs with rfl | hbs
        · exact hcount.mpr hfalls
        · rcases List.mem_append.mp hbs with hbs | hbs
          · -- only the pointer to the left is changed
            obtain ⟨r, hr, rfl⟩ := List.mem_map.mp hbs
            obtain ⟨ns, hns, hsum⟩ := hright r hr
            exact ⟨ns, ⟨hns.nodes, hns.length⟩, hsum⟩
          · obtain rfl := List.mem_singleton.mp hbs
            exact accounted_merge hw' hl hw'' hg hleft hgc hmerge

/-- After an operation the totals of all pages that it rewrites are right if and only if it meets
the condition. -/
theorem accounting_iff {op : Operation} {pageSize : ℕ} (hpage : 1024 ≤ pageSize) (hv : op.Valid)
    (hacc : ∀ b ∈ op.pages, b.Accounted) :
    (∀ bs, op.rewrites pageSize = some bs → ∀ b ∈ bs, b.Accounted) ↔ op.Counts pageSize := by
  cases hv with
  | insertNode hb ins window split newKey =>
      rw [← insertNode_counts hb (hacc _ List.mem_cons_self) hpage window split newKey]
      constructor
      · intro hall r hins b' hb'
        refine hall r.pages ?_ b' hb'
        rw [Operation.rewrites, hins]
        rfl
      · intro hall bs hbs b' hb'
        obtain ⟨r, hins, rfl⟩ := Option.map_eq_some_iff.mp hbs
        exact hall r hins b' hb'
  | @deleteNode b before after n t hw hb =>
      have hcount := Operation.deleteNode_counts hw hb (hacc b List.mem_cons_self)
      constructor
      · intro hall
        exact hcount.mp (hall _ rfl _ List.mem_cons_self)
      · rintro hfalls bs ⟨⟩ b' hb'
        obtain rfl := List.mem_singleton.mp hb'
        exact hcount.mpr hfalls
  | garbageCollect hw hb hw' hl hw'' hg right leftPage rightPage lastKey =>
      refine garbageCollect_counts hw hb hw' hl hw'' hg (hacc _ List.mem_cons_self)
        (hacc _ (List.mem_cons_of_mem _ List.mem_cons_self))
        (hacc _ (List.mem_cons_of_mem _ (List.mem_cons_of_mem _ List.mem_cons_self)))
        fun r hr => hacc r ?_
      exact List.mem_cons_of_mem _ (List.mem_cons_of_mem _ (List.mem_cons_of_mem _ hr))

theorem threeKeysLeaf_accounted : threeKeysLeaf.Accounted :=
  ⟨_, threeKeysLeaf_formatted.lays, rfl⟩

/-- The last key goes. -/
theorem accounting_lastKey : ∃ bs,
    (Operation.deleteNode threeKeysLeaf 48).rewrites 1024 = some bs ∧ ∀ b ∈ bs, b.Accounted := by
  have hsplit : threeKeys = [⟨0, ⟨1, 0, 0, 0⟩, [5], by decide⟩,
      ⟨1, ⟨2, 0, 0, 0⟩, [7], by decide⟩] ++ ⟨2, ⟨3, 0, 0, 0⟩, [9], by decide⟩ :: [] := rfl
  have hw := threeKeysLeaf_formatted.toWellFormed
  have hb := threeKeysLeaf_formatted.lays
  rw [hsplit] at hw hb
  refine ⟨_, rfl, (accounting_iff (Nat.le_refl 1024) (.deleteNode hw hb) ?_).mpr ?_ _ rfl⟩
  · intro b hmem
    obtain rfl := List.mem_singleton.mp hmem
    exact threeKeysLeaf_accounted
  · exact (Operation.falls_iff hb).mpr (by decide)

/-- The second of the keys `5`, `5 7` and `5 7 9` goes. The third one then shares one byte, not
two, but the total stays at 3. -/
theorem accounting_secondKey : threeKeysLeaf.Formatted threeKeys levelEnd ∧
    threeKeysLeaf.Accounted ∧ ¬(threeKeysLeaf.deleteNode 41).Accounted := by
  have hsplit : threeKeys ++ [levelEnd] = [⟨0, ⟨1, 0, 0, 0⟩, [5], by decide⟩] ++
      ⟨1, ⟨2, 0, 0, 0⟩, [7], by decide⟩ :: ⟨2, ⟨3, 0, 0, 0⟩, [9], by decide⟩ :: [levelEnd] := rfl
  refine ⟨threeKeysLeaf_formatted, threeKeysLeaf_accounted, fun hacc => ?_⟩
  have hb := threeKeysLeaf_formatted.lays
  have hc := threeKeysLeaf_formatted.chained
  rw [hsplit] at hb hc
  exact absurd ((accounted_deleteNode hb hc threeKeysLeaf_accounted).mp hacc) (by decide)

end Firebird.Btr
