import Firebird.Btr.Ascending

/-! # Splits that fit

The page that is left ends in front of the midpoint or with the node there. The page that is
split off has that node with its full key and all that is behind it, which is more than a page of
1024 bytes can take when the node shares much of its key and the new node is long.
-/

namespace Firebird.Btr

/-- The nodes from the one on that reaches the midpoint -/
def splitFrom (mid : ℕ) : ℕ → List Node → List Node
  | _, [] => []
  | p, n :: ns => if p + n.size < mid then splitFrom mid (p + n.size) ns else n :: ns

/-- The length of a page with these nodes, the first one with its full key -/
def splitSize : List Node → ℕ
  | [] => 0
  | s :: suf => btrNodes + (6 + (s.btnPrefix.val + s.btnData.length)) + size suf

theorem splitFrom_eq {mid p : ℕ} {pre suf : List Node} {s : Node} (hlt : p + size pre < mid)
    (hle : mid ≤ p + size (pre ++ [s])) : splitFrom mid p (pre ++ s :: suf) = s :: suf := by
  induction pre generalizing p with
  | nil =>
      rw [List.nil_append, size_cons, size_nil, Nat.add_zero] at hle
      rw [List.nil_append, splitFrom, if_neg (Nat.not_lt_of_le hle)]
  | cons n pre ih =>
      rw [size_cons, ← Nat.add_assoc] at hlt
      rw [List.cons_append, size_cons, ← Nat.add_assoc] at hle
      rw [List.cons_append, splitFrom, if_pos (Nat.lt_of_le_of_lt (Nat.le_add_right _ _) hlt)]
      exact ih hlt hle

/-! ## Nodes with their full keys -/

theorem Chained.short {prev : List UCHAR} {ns : List Node} (h : Chained prev ns) :
    ∀ n ∈ ns, n.Short := by
  induction ns generalizing prev with
  | nil => exact nofun
  | cons n ns ih =>
      obtain ⟨hle, hlen, hrest⟩ := h
      rw [Node.length_key hle] at hlen
      intro m hm
      rcases List.mem_cons.mp hm with rfl | hm
      · exact hlen
      · exact ih hrest m hm

section

variable {b : Bucket} {ins : Insertion} {es before after : List Node} {n t : Node} {place : Place}
  {delta pageSize : ℕ}

theorem Put.short (h : Put (es ++ [t]) ins place before n after) (hc : Chained [] (es ++ [t])) :
    ∀ m ∈ ins.into place.pfx before n after, m.Short := by
  have hall := hc.short
  rw [h.split] at hall
  have hkey := ins.key_le
  have hpfx := h.pfx_le
  obtain ⟨hle, hle'⟩ := h.same_le
  intro m hm
  rcases List.mem_append.mp hm with hm | hm
  · exact hall m (List.mem_append_left _ hm)
  · rcases List.mem_cons.mp hm with rfl | hm
    · rw [Node.Short, Insertion.node, val_uchar (hpfx.trans hkey), List.length_drop]
      omega
    · rcases List.mem_cons.mp hm with rfl | hm
      · have hn := hall n (List.mem_append_right _ List.mem_cons_self)
        rw [Node.Short] at hn
        rw [Node.Short, Node.rebuild, val_uchar (hle.trans hkey), List.length_drop]
        omega
      · exact hall m (List.mem_append_right _ (List.mem_cons_of_mem _ hm))

/-! ## The lengths of the two pages -/

theorem Slides.splits_eq (h : Slides b es t ins place before n after delta)
    (hb : b.Formatted es t) (hpage : 1024 ≤ pageSize)
    (hsplits : pageSize < btrNodes + size (ins.into place.pfx before n after))
    (window split : ℕ) (newKey : Memory UCHAR) :
    ∃ pre s suf key left right, Bucket.Cut (ins.into place.pfx before n after)
        ((b.slide ins place delta).midpoint place pageSize) newKey [] pre s suf key ∧
      b.insertNode ins pageSize window split newKey =
        some (.splits left right (ins.found n after)) ∧
      left.length = btrNodes + size (pre ++ [s]) ∧ right.length = splitSize (s :: suf) := by
  obtain ⟨pre, s, suf, key, hcut, hins⟩ := h.insertNode_splits hb hpage hsplits window split
    newKey
  have hlays := h.lays hb
  rw [hcut.split] at hlays
  have hs : s.Short := h.short hb.chained s (hcut.split ▸ List.mem_append_right _ List.mem_cons_self)
  refine ⟨pre, s, suf, key, _, _, hcut, hins, ?_, ?_⟩
  · rw [(Bucket.lays_leftPage hlays _ _).length, size_append, size_append, size_cons, size_cons]
    rfl
  · rw [(Bucket.lays_splitPage hlays hs key _ _).length, size_cons, Node.size, Bucket.full,
      Memory.length_load, splitSize, ← Nat.add_assoc]

/-- The new node is put at the end of the page, and does not reach beyond it. -/
def EndOfPage (ins : Insertion) (pfx : ℕ) (before : List Node) (n : Node) (pageSize : ℕ) : Prop :=
  n.btnNumber.Negative ∧ btrNodes + size (before ++ [ins.node pfx]) ≤ pageSize

instance (pfx : ℕ) : Decidable (EndOfPage ins pfx before n pageSize) :=
  inferInstanceAs (Decidable (_ ∧ _))

theorem Slides.midpoint_eq (h : Slides b es t ins place before n after delta)
    (hb : b.Formatted es t) :
    (b.slide ins place delta).midpoint place pageSize =
      if EndOfPage ins place.pfx before n pageSize then btrNodes + size before
      else (pageSize - btrNodes) / 2 := by
  have hnext : nextNode (b.slide ins place delta).page place.node =
      btrNodes + size (before ++ [ins.node place.pfx]) := by
    rw [h.node]
    exact Bucket.nextNode_concat (h.lays hb)
  rw [Bucket.midpoint, hnext, h.oldNumber, h.node]
  rfl

/-- At the end of the page the last entry goes to the new page, together with the new node and
the marker. -/
theorem Slides.endOfPage_cut (h : Slides b es t ins place before n after delta)
    (hb : b.Formatted es t) (hend : EndOfPage ins place.pfx before n pageSize)
    {newKey key : Memory UCHAR} {pre suf : List Node} {s : Node}
    (hcut : Bucket.Cut (ins.into place.pfx before n after) (btrNodes + size before) newKey [] pre s
      suf key) :
    before = pre ++ [s] ∧ suf = [ins.node place.pfx, n.rebuild (ins.same n)] := by
  have hafter : after = [] := by
    rcases Bucket.split_last h.split with ⟨hnil, -, -⟩ | ⟨after', -, hes⟩
    · exact hnil
    · exact absurd hend.1 (hb.entry n (hes ▸ List.mem_append_right _ List.mem_cons_self))
  have hsplit := hcut.split
  rw [Insertion.into, hafter] at hsplit
  have hlt := hcut.lt
  have hle := hcut.le
  rcases List.append_eq_append_iff.mp hsplit with ⟨a, rfl, -⟩ | ⟨a, rfl, ha⟩
  · rw [size_append] at hlt
    omega
  · cases a with
    | nil =>
        rw [List.append_nil] at hlt
        omega
    | cons m a =>
        obtain ⟨rfl, rfl⟩ := List.cons.inj ha
        cases a with
        | nil => exact ⟨rfl, rfl⟩
        | cons m a =>
            rw [size_append, size_append, size_cons, size_cons, size_cons, size_nil, Node.size,
              Node.size] at hle
            omega

/-- The page that is left has room for the end marker. -/
theorem Slides.left_le (h : Slides b es t ins place before n after delta)
    (hb : b.Formatted es t) (hpage : 1024 ≤ pageSize)
    {newKey key : Memory UCHAR} {pre suf : List Node} {s : Node}
    (hcut : Bucket.Cut (ins.into place.pfx before n after)
      ((b.slide ins place delta).midpoint place pageSize) newKey [] pre s suf key) :
    btrNodes + size (pre ++ [s]) ≤ pageSize := by
  rw [h.midpoint_eq hb] at hcut
  split at hcut
  · rename_i hend
    obtain ⟨rfl, -⟩ := h.endOfPage_cut hb hend hcut
    have hle := hend.2
    rw [size_append] at hle
    omega
  · have hlt := hcut.lt
    have hdata := s.length_le
    rw [btrNodes] at hlt
    rw [size_concat, Node.size, btrNodes]
    omega

/-- What is behind the midpoint fits on a page. -/
def RoomBehind (ins : Insertion) (pfx : ℕ) (before : List Node) (n : Node) (after : List Node)
    (pageSize : ℕ) : Prop :=
  splitSize (splitFrom ((pageSize - btrNodes) / 2) btrNodes (ins.into pfx before n after)) ≤
    pageSize

/-- The insertion point leaves room: the bucket does not split, or it does and the page is large,
or only the new node goes to the new page, or what is behind the midpoint fits. -/
def Room (ins : Insertion) (pfx : ℕ) (before : List Node) (n : Node) (after : List Node)
    (pageSize : ℕ) : Prop :=
  2048 ≤ pageSize ∨ btrNodes + size (ins.into pfx before n after) ≤ pageSize ∨
    EndOfPage ins pfx before n pageSize ∨ RoomBehind ins pfx before n after pageSize

/-- The length of the page that is split off -/
theorem Slides.right_le_iff (h : Slides b es t ins place before n after delta)
    (hb : b.Formatted es t) (hlen : b.length ≤ pageSize) (hpage : 1024 ≤ pageSize)
    (hsplits : pageSize < btrNodes + size (ins.into place.pfx before n after))
    {newKey key : Memory UCHAR} {pre suf : List Node} {s : Node}
    (hcut : Bucket.Cut (ins.into place.pfx before n after)
      ((b.slide ins place delta).midpoint place pageSize) newKey [] pre s suf key) :
    splitSize (s :: suf) ≤ pageSize ↔ Room ins place.pfx before n after pageSize := by
  have hs : s.Short := h.short hb.chained s (hcut.split ▸ List.mem_append_right _ List.mem_cons_self)
  rw [Node.Short] at hs
  have hgrown := h.toPut.delta_eq hb.lays h.delta_eq
  have hkey := ins.key_le
  have hlength := h.length_eq hb
  have hslide : (b.slide ins place delta).length = b.length + delta := rfl
  rw [h.midpoint_eq hb] at hcut
  split at hcut
  · rename_i hend
    obtain ⟨rfl, rfl⟩ := h.endOfPage_cut hb hend hcut
    have hnew := (ins.node place.pfx).length_le
    have hold := (n.rebuild (ins.same n)).length_le
    refine iff_of_true ?_ (.inr (.inr (.inl hend)))
    rw [splitSize, size_cons, size_cons, size_nil, Node.size, Node.size, btrNodes]
    omega
  · rename_i hend
    have hfrom : splitFrom ((pageSize - btrNodes) / 2) btrNodes (ins.into place.pfx before n after) =
        s :: suf := by
      rw [hcut.split]
      exact splitFrom_eq hcut.lt hcut.le
    constructor
    · intro hle
      refine .inr (.inr (.inr ?_))
      rw [RoomBehind, hfrom]
      exact hle
    · rintro (hlarge | hfits | hend' | hroom)
      · -- the key is restructured, and half a page stays
        have hle := hcut.le
        rw [hlength, hcut.split] at hslide
        simp only [size_append, size_cons, size_nil, Node.size, btrNodes] at hle hslide
        rw [splitSize, btrNodes]
        omega
      · omega
      · exact absurd hend' hend
      · rw [RoomBehind, hfrom] at hroom
        exact hroom

end

/-- Whatever comes of the insertion, nothing is written past a page, and two pages have room for
what they get. -/
def SplitFits (b : Bucket) (ins : Insertion) (pageSize : ℕ) : Prop :=
  ∀ window split newKey, ∃ r, b.insertNode ins pageSize window split newKey = some r ∧
    ∀ left right dups, r = .splits left right dups →
      left.length ≤ pageSize ∧ right.length ≤ pageSize

/-- Both pages of a split fit if and only if the length that is added does not wrap around, and
there is room behind the midpoint. On pages of 2048 bytes or more there always is. -/
theorem split_fits_iff {b : Bucket} {ins : Insertion} {es : List Node} {t : Node} {pageSize : ℕ}
    (hb : b.Formatted es t) (hlen : b.length ≤ pageSize) (hpage : 1024 ≤ pageSize) :
    SplitFits b ins pageSize ↔ ∀ place before n after, b.place ins = some (some place) →
      Put (es ++ [t]) ins place before n after →
        place.pfx + ins.same n ≤ 6 + ins.key.length ∧
          Room ins place.pfx before n after pageSize := by
  constructor
  · intro hfits place before n after hplace hput
    obtain ⟨r, hins, hall⟩ := hfits 0 0 fun _ => 0
    cases hdelta : b.delta ins place with
    | none =>
        rw [insertNode_of_delta hplace hdelta] at hins
        cases hins
    | some delta =>
        have hslides : Slides b es t ins place before n after delta := ⟨hput, hplace, hdelta⟩
        have hgrown := hput.delta_eq hb.lays hdelta
        refine ⟨by omega, ?_⟩
        by_cases hsplits : pageSize < btrNodes + size (ins.into place.pfx before n after)
        · obtain ⟨pre, s, suf, key, left, right, hcut, hins', -, hright⟩ :=
            hslides.splits_eq hb hpage hsplits 0 0 fun _ => 0
          rw [hins'] at hins
          have hle := (hall left right _ (Option.some.inj hins).symm).2
          rw [hright] at hle
          exact (hslides.right_le_iff hb hlen hpage hsplits hcut).mp hle
        · exact .inr (.inl (Nat.le_of_not_lt hsplits))
  · intro hroom window split newKey
    obtain ⟨r, hplace, hput⟩ := Bucket.place_put hb ins
    rcases r with - | place
    · exact ⟨.wrongBucket, insertNode_wrongBucket hplace, nofun⟩
    · obtain ⟨before, n, after, hput⟩ := hput place rfl
      obtain ⟨hwrap, hroom⟩ := hroom place before n after hplace hput
      obtain ⟨delta, hdelta⟩ := hput.exists_delta hb.lays hwrap
      have hslides : Slides b es t ins place before n after delta := ⟨hput, hplace, hdelta⟩
      by_cases hsplits : pageSize < btrNodes + size (ins.into place.pfx before n after)
      · obtain ⟨pre, s, suf, key, left, right, hcut, hins, hleft, hright⟩ :=
          hslides.splits_eq hb hpage hsplits window split newKey
        refine ⟨_, hins, ?_⟩
        rintro left' right' dups ⟨⟩
        rw [hleft, hright]
        exact ⟨hslides.left_le hb hpage hcut,
          (hslides.right_le_iff hb hlen hpage hsplits hcut).mpr hroom⟩
      · exact ⟨_, hslides.insertNode_fits hb (Nat.le_of_not_lt hsplits), nofun⟩

/-- On a page of 2048 bytes there is room. -/
theorem split_fits_fiveEight : SplitFits threeKeysLeaf fiveEight 2048 := by
  refine (split_fits_iff threeKeysLeaf_formatted (by decide) (by decide)).mpr ?_
  intro place before n after hplace hput
  have hat : threeKeysLeaf.place fiveEight = some (some ⟨55, 1, endLevel, 0, 0⟩) := by decide
  obtain rfl := Option.some.inj (Option.some.inj (hplace.symm.trans hat))
  have hsame := hput.same_le.1
  have hkey : fiveEight.key.length = 2 := rfl
  refine ⟨?_, .inl (Nat.le_refl _)⟩
  change 1 + fiveEight.same n ≤ _
  omega

/-- A node with the same byte over and over -/
def runNode (pfx c : UCHAR) (len : ℕ) (h : len ≤ 255) : Node where
  btnPrefix := pfx
  btnNumber := ⟨c, 0, 0, 0⟩
  btnData := .replicate len c
  length_le := by
    rw [List.length_replicate]
    exact h

/-- Five keys, the third of which shares 245 of its 255 bytes -/
def longKeys : List Node :=
  [runNode 0 1 255 (by decide), runNode 61 2 190 (by decide), runNode 245 3 10 (by decide),
    runNode 1 4 254 (by decide), runNode 5 5 244 (by decide)]

/-- They take 1023 bytes. -/
def longKeysLeaf : Bucket := .format ⟨1, 0, 0, false⟩ 0 0 (longKeys ++ [levelEnd])

/-- A key of 255 bytes behind all of them -/
def highKey : Insertion where
  number := ⟨9, 0, 0, 0⟩
  sibling := ⟨0, 0, 0, 0⟩
  key := .replicate 255 6
  unique := false
  descending := false
  key_le := le_of_eq List.length_replicate

set_option maxRecDepth 4000 in
theorem longKeysLeaf_formatted : longKeysLeaf.Formatted longKeys levelEnd :=
  ⟨by decide, Bucket.lays_format .., fun h => absurd rfl h⟩

set_option maxRecDepth 4000 in
/-- The new node goes to the end. -/
theorem longKeys_place : ∃ place delta, Slides longKeysLeaf longKeys levelEnd highKey place longKeys
    levelEnd [] delta ∧ place.pfx = 0 := by
  have hs : Searchable highKey.key longKeys levelEnd :=
    ⟨by decide, by decide, fun h => absurd h (by decide)⟩
  rcases Bucket.place_searchable longKeysLeaf_formatted hs rfl rfl with ⟨-, hbucket, -⟩ |
    ⟨place, before, n, after, hplace, hput, hpassed, hbehind⟩
  · exact absurd hbucket (by decide)
  · rcases Bucket.split_last hput.split with ⟨rfl, rfl, rfl⟩ | ⟨after', rfl, hes⟩
    · have hpfx : place.pfx = 0 := hpassed.pfx.trans (by decide)
      obtain ⟨delta, hdelta⟩ := hput.exists_delta longKeysLeaf_formatted.lays (by
        have hsame := hput.same_le.1
        omega)
      exact ⟨place, delta, ⟨hput, hplace, hdelta⟩, hpfx⟩
    · -- all keys are before the new one
      have hall : ∀ e ∈ entries [] longKeys, e.1 < highKey.key := by decide
      have hmem := mem_entries before n after'
      rw [← hes] at hmem
      have hle := (ascending_append [] before (n :: after')).mp (hes ▸ hs.ascending)
      have hentry := longKeysLeaf_formatted.entry n
        (hes ▸ List.mem_append_right _ List.mem_cons_self)
      exact absurd (hall _ hmem)
        (not_lt_of_ge (hbehind (fun heq => hentry (heq ▸ by decide)) hle.2.1))

set_option maxRecDepth 4000 in
/-- The third key comes to the front of the page that is split off, and this takes 1072 bytes. -/
theorem split_overflows : longKeysLeaf.Formatted longKeys levelEnd ∧ longKeysLeaf.length = 1023 ∧
    ∃ left right dups, longKeysLeaf.insertNode highKey 1024 1 2 (fun _ => 0) =
      some (.splits left right dups) ∧ right.length = 1072 := by
  obtain ⟨place, delta, hslides, hpfx⟩ := longKeys_place
  have hb := longKeysLeaf_formatted
  have hsplits : 1024 < btrNodes + size (highKey.into place.pfx longKeys levelEnd []) := by
    rw [hpfx]
    decide
  obtain ⟨pre, s, suf, key, left, right, hcut, hins, -, hright⟩ :=
    hslides.splits_eq hb (Nat.le_refl 1024) hsplits 1 2 fun _ => 0
  refine ⟨hb, by decide, left, right, _, hins, ?_⟩
  have hend : ¬EndOfPage highKey 0 longKeys levelEnd 1024 := by decide
  rw [hslides.midpoint_eq hb, hpfx, if_neg hend] at hcut
  have hfrom : splitFrom ((1024 - btrNodes) / 2) btrNodes (highKey.into 0 longKeys levelEnd []) =
      s :: suf := by
    rw [hcut.split]
    exact splitFrom_eq hcut.lt hcut.le
  rw [hright, ← hfrom]
  decide

end Firebird.Btr
