import Mathlib.Tactic.Ring
import Firebird.Btr.Find

/-! # Insertion into a bucket (`insert_node` in `jrd/btr.cpp`)

The new node is put before the node that the search stops at. What the key has in common with
that one moves from its data to its prefix, and all from there on is moved up.
-/

namespace Firebird.Btr

/-- `IIB`, with the flags of its index -/
structure Insertion where
  number : Quad
  sibling : Quad
  key : List UCHAR
  unique : Bool
  descending : Bool
  key_le : key.length ≤ 255

/-- Where a node goes: the node that it is put before, and what becomes of that one -/
structure Place where
  node : ℕ
  pfx : ℕ
  oldNumber : Quad
  oldPrefix : ℕ
  oldLength : ℕ
deriving DecidableEq

/-- Insert the new node, with this data, and rebuild the head of the next one. -/
def write (page : Memory UCHAR) (node pfx : ℕ) (number : Quad) (data : List UCHAR)
    (pfx' length' : ℕ) (number' : Quad) : Memory UCHAR :=
  let page := putLength (putNumber (putPrefix page node pfx) node number) node data.length
  let page := page.store (node + 6) data
  let next := node + 6 + data.length
  putNumber (putLength (putPrefix page next pfx') next length') next number'

namespace Bucket

variable (b : Bucket) (ins : Insertion)

/-- `while (old_number != insertion->iib_sibling)`: the node that it ends with, or `some none`
for the end of the bucket -/
def skipChain : ℕ → ℕ → Option (Option ℕ)
  | 0, _ => none
  | fuel + 1, node =>
      let node := nextNode b.page node
      let oldNumber := btnNumber b.page node
      if btnLength b.page node ≠ 0 then some (some node)
      else if oldNumber = endBucket then some none
      else if oldNumber = endLevel ∨ oldNumber = ins.sibling then some (some node)
      else skipChain fuel node

/-- The loop through the equivalent nodes -/
def placeLoop : ℕ → ℕ → ℕ → Option (Option Place)
  | 0, _, _ => none
  | fuel + 1, node, pfx =>
      let oldNumber := btnNumber b.page node
      let oldPrefix := btnPrefix b.page node
      let oldLength := btnLength b.page node
      -- `key->key_length - old_prefix` must not wrap
      if ins.key.length < oldPrefix then none
      else
        let same := common (ins.key.drop oldPrefix) (btnData b.page node)
        let place := ⟨node, pfx, oldNumber, oldPrefix + same, oldLength - same⟩
        if oldPrefix + same ≠ ins.key.length ∨ oldPrefix + same ≠ oldLength + oldPrefix then
          some (some place)
        else if oldNumber = endBucket then some none
        else if oldNumber = endLevel ∨ b.header.level = 0 ∨ oldNumber = ins.sibling then
          some (some place)
        else
          match b.skipChain ins b.length node with
          | none => none
          | some none => some none
          | some (some node) => placeLoop fuel node (oldPrefix + same)

/-- The place for a node: `some none` when this is not the right bucket -/
def place : Option (Option Place) :=
  match b.findLeaf ins.key ins.descending false with
  | none => none
  | some none => some none
  | some (some (node, pfx)) => b.placeLoop ins b.length node pfx

/-- Slide up, insert the new node, and rebuild the next one. -/
def slide (place : Place) (delta : ℕ) : Bucket :=
  let page := Memory.moveUp (b.length - place.node) b.page b.length (b.length + delta)
  let total := b.prefixTotal + ((place.pfx : ℤ) - btnPrefix page place.node) + place.oldPrefix
  let page := write page place.node place.pfx ins.number (ins.key.drop place.pfx) place.oldPrefix
    place.oldLength place.oldNumber
  { b with page := page, length := b.length + delta, prefixTotal := total }

/-- The duplicates of a unique key in this bucket, and the node behind them -/
def duplicates : ℕ → ℕ → Option (List Quad × ℕ)
  | 0, _ => none
  | fuel + 1, node =>
      if btnLength b.page node = 0 ∧ btnPrefix b.page node = ins.key.length then
        let oldNumber := btnNumber b.page node
        if oldNumber.Negative then some ([], node)
        else (duplicates fuel (node + 6)).map fun r => (oldNumber :: r.1, r.2)
      else some ([], node)

/-- If the index is unique, look for duplicates in this bucket. -/
def lookForDuplicates (node : ℕ) : Option (List Quad × ℕ) :=
  if ins.unique then b.duplicates ins b.length node else some ([], node)

/-- Copy the bucket up to the midpoint, restructuring the full key: the last node copied, the
node behind it, the key with its length, and the sum of the prefixes -/
def splitLoop (midpoint : ℕ) : ℕ → ℕ → ℕ → Memory UCHAR → ℕ → ℤ →
    Option (ℕ × ℕ × Memory UCHAR × ℕ × ℤ)
  | 0, _, _, _, _, _ => none
  | fuel + 1, p, node, newKey, keyLength, total =>
      if p < midpoint then
        splitLoop midpoint fuel (nextNode b.page p) p
          (newKey.store (btnPrefix b.page p) (btnData b.page p))
          (btnPrefix b.page p + btnLength b.page p) (total + btnPrefix b.page p)
      else some (node, p, newKey, keyLength, total)

/-- The page that is split off -/
def splitPage (node next : ℕ) (newKey : Memory UCHAR) (keyLength : ℕ) (total : ℤ) (window : ℕ) :
    Bucket :=
  let page := putPrefix (fun _ => 0) btrNodes 0
  let page := putNumber page btrNodes (btnNumber b.page node)
  let page := putLength page btrNodes keyLength
  let data := newKey.load 0 (btnLength page btrNodes)
  let page := page.store (btrNodes + 6) data
  let p := btrNodes + 6 + data.length
  -- MOVE_FAST (q, p, l)
  let l := b.length - next
  { header := b.header, dontGc := false, sibling := b.sibling, leftSibling := window
    prefixTotal := b.prefixTotal - total
    length := p + l
    page := page.store p (b.page.load next l) }

/-- The page that is left. The flag against garbage collection is set in the overflow area once
that has been copied back, so it does not get to the page. -/
def leftPage (node : ℕ) (total : ℤ) (split : ℕ) : Bucket :=
  let page := putNumber b.page node endBucket
  { b with
    sibling := split, prefixTotal := total - btnPrefix page node
    length := nextNode page node, page := page }

/-- Where the bucket is split -/
def midpoint (place : Place) (pageSize : ℕ) : ℕ :=
  -- at the end of the page only the new node goes to the new page
  if place.oldNumber.Negative ∧ nextNode b.page place.node ≤ pageSize then place.node
  else (pageSize - btrNodes) / 2

end Bucket

/-- What comes of an insertion -/
inductive Outcome where
  | wrongBucket
  | fits (bucket : Bucket) (duplicates : List Quad)
  | splits (left right : Bucket) (duplicates : List Quad)

namespace Bucket

variable (b : Bucket) (ins : Insertion)

/-- The length that is added to the bucket, when it does not wrap around -/
def delta (place : Place) : Option ℕ :=
  let grown := 6 + ins.key.length + btnPrefix b.page place.node
  if grown < place.pfx + place.oldPrefix then none else some (grown - (place.pfx + place.oldPrefix))

/-- `insert_node` for a page `window`, with the page `split` as the next one free. Without a
result some store is outside the pages. -/
def insertNode (pageSize window split : ℕ) (newKey : Memory UCHAR) : Option Outcome :=
  match b.place ins with
  | none => none
  | some none => some .wrongBucket
  | some (some place) => do
      let delta ← b.delta ins place
      let bucket := b.slide ins place delta
      let (dups, node) ← bucket.lookForDuplicates ins (nextNode bucket.page place.node)
      if bucket.length ≤ pageSize then return .fits bucket dups
      let (node, p, newKey, keyLength, total) ←
        bucket.splitLoop (bucket.midpoint place pageSize) bucket.length btrNodes node newKey 0 0
      return .splits (bucket.leftPage node total split)
        (bucket.splitPage node p newKey keyLength total window) dups

end Bucket

/-! ## The place -/

/-- What the key has in common with the data of a node -/
def Insertion.same (ins : Insertion) (n : Node) : ℕ :=
  common (ins.key.drop n.btnPrefix.val) n.btnData

/-- The place is before a node of the bucket. -/
structure Put (ns : List Node) (ins : Insertion) (place : Place) (before : List Node) (n : Node)
    (after : List Node) : Prop where
  split : ns = before ++ n :: after
  node : place.node = btrNodes + size before
  pfx_le : place.pfx ≤ ins.key.length
  prefix_le : n.btnPrefix.val ≤ place.pfx
  oldNumber : place.oldNumber = n.btnNumber
  oldPrefix : place.oldPrefix = n.btnPrefix.val + ins.same n
  oldLength : place.oldLength = n.btnData.length - ins.same n

namespace Bucket

variable {b : Bucket} {ins : Insertion} {es before after : List Node} {n t : Node}
  {fuel node pfx : ℕ}

/-- A node of a bucket is the marker, or an entry. -/
theorem split_last (h : es ++ [t] = before ++ n :: after) :
    (after = [] ∧ n = t ∧ es = before) ∨ ∃ after', after = after' ++ [t] ∧
      es = before ++ n :: after' := by
  rcases List.eq_nil_or_concat after with rfl | ⟨after', t', rfl⟩
  · obtain ⟨hes, heq⟩ := List.append_inj' h rfl
    exact .inl ⟨rfl, (List.singleton_inj.mp heq).symm, hes⟩
  · rw [List.concat_eq_append, ← List.cons_append, ← List.append_assoc] at h
    obtain ⟨hes, heq⟩ := List.append_inj' h rfl
    rw [List.concat_eq_append, ← List.singleton_inj.mp heq]
    exact .inr ⟨after', rfl, hes⟩

/-- Behind a node that is not the marker there is another one. -/
theorem exists_next (h : es ++ [t] = before ++ n :: after) (ht : t.IsEnd) (hn : ¬n.IsEnd) :
    ∃ m after', after = m :: after' := by
  cases after with
  | nil =>
      rcases split_last h with ⟨-, rfl, -⟩ | ⟨after', hafter, -⟩
      · exact absurd ht hn
      · exact absurd hafter.symm (List.append_ne_nil_of_right_ne_nil _ (List.cons_ne_nil _ _))
  | cons m after => exact ⟨m, after, rfl⟩

/-- The search along a chain ends with a node behind the one it begins with. -/
theorem skipChain_at (ins : Insertion) (h : b.Lays (es ++ [t])) (ht : t.IsEnd)
    (hc : Chained [] (es ++ [t]))
    (hsplit : es ++ [t] = before ++ n :: after) (hn : ¬n.IsEnd)
    (hnode : node = btrNodes + size before) (hfuel : after.length ≤ fuel) {k : ℕ}
    (hkey : (n.key (lastKey [] before)).length ≤ k) :
    ∃ r, b.skipChain ins fuel node = some r ∧ ∀ node', r = some node' →
      ∃ before' n' after', es ++ [t] = before' ++ n' :: after' ∧
        node' = btrNodes + size before' ∧ n'.btnPrefix.val ≤ k ∧ after'.length < after.length := by
  induction fuel generalizing node before n after with
  | zero =>
      obtain ⟨m, after, rfl⟩ := exists_next hsplit ht hn
      exact absurd hfuel (Nat.not_succ_le_zero _)
  | succ fuel ih =>
      obtain ⟨m, after, rfl⟩ := exists_next hsplit ht hn
      have hsplit' : es ++ [t] = before ++ [n] ++ m :: after := by
        rw [hsplit, List.append_assoc, List.singleton_append]
      have hnext : nextNode b.page node = btrNodes + size (before ++ [n]) := by
        rw [hnode, nextNode_eq (hsplit ▸ h).node, size_append, size_cons, size_nil, Nat.add_zero,
          Nat.add_assoc]
      have hm := (hsplit' ▸ h).node
      have hinitial : m.btnPrefix.val ≤ k := by
        rw [hsplit'] at hc
        have hle := ((chained_append _ _ _).mp hc).2.1
        rw [lastKey_concat] at hle
        exact hle.trans hkey
      have hhere : ∀ node', some (btrNodes + size (before ++ [n])) = some node' →
          ∃ before' n' after', es ++ [t] = before' ++ n' :: after' ∧
            node' = btrNodes + size before' ∧ n'.btnPrefix.val ≤ k ∧
              after'.length < (m :: after).length := by
        rintro node' ⟨⟩
        exact ⟨_, m, after, hsplit', rfl, hinitial, Nat.lt_succ_self _⟩
      rw [skipChain]
      simp only [hnext, btnNumber_eq hm, btnLength_eq hm]
      split
      · exact ⟨_, rfl, hhere⟩
      · rename_i hlength
        split
        · exact ⟨none, rfl, nofun⟩
        · rename_i hbucket
          split
          · exact ⟨_, rfl, hhere⟩
          · rename_i hlevel
            have hend : ¬m.IsEnd := not_or.mpr ⟨fun heq => hlevel (.inl heq), hbucket⟩
            -- without data the key is no longer than what is shared
            have hkey : (m.key (lastKey [] (before ++ [n]))).length ≤ k := by
              rw [Node.key, List.length_append, List.length_take, not_not.mp hlength, Nat.add_zero]
              exact (Nat.min_le_left _ _).trans hinitial
            obtain ⟨r, hr, hfound⟩ := ih hsplit' hend rfl (Nat.le_of_succ_le_succ hfuel) hkey
            refine ⟨r, hr, fun node' hnode' => ?_⟩
            obtain ⟨before', n', after', hsplit'', hat, hle, hlt⟩ := hfound node' hnode'
            exact ⟨before', n', after', hsplit'', hat, hle, Nat.lt_succ_of_lt hlt⟩

/-- The loop through the equivalent nodes ends. -/
theorem placeLoop_put (h : b.Lays (es ++ [t])) (ht : t.IsEnd) (hc : Chained [] (es ++ [t]))
    (hat : At (es ++ [t]) ins.key node pfx before n after) (hfuel : after.length < fuel)
    (hlength : es.length < b.length) :
    ∃ r, b.placeLoop ins fuel node pfx = some r ∧ ∀ place, r = some place →
      ∃ before n after, Put (es ++ [t]) ins place before n after := by
  induction fuel generalizing node pfx before n after with
  | zero => exact absurd hfuel (Nat.not_lt_zero _)
  | succ fuel ih =>
      have hn := (hat.split ▸ h).node
      rw [← hat.node] at hn
      have hle := hat.prefix_le.trans hat.le
      have hhere : ∀ place, some (⟨node, pfx, n.btnNumber, n.btnPrefix.val + ins.same n,
          n.btnData.length - ins.same n⟩ : Place) = some place →
          ∃ before n after, Put (es ++ [t]) ins place before n after := by
        rintro place ⟨⟩
        exact ⟨before, n, after, hat.split, hat.node, hat.le, hat.prefix_le, rfl, rfl, rfl⟩
      rw [placeLoop]
      simp only [btnNumber_eq hn, btnPrefix_eq hn, btnLength_eq hn, btnData_eq hn,
        if_neg (Nat.not_lt_of_le hle)]
      split
      · exact ⟨_, rfl, hhere⟩
      · rename_i hsame
        split
        · exact ⟨none, rfl, nofun⟩
        · rename_i hbucket
          split
          · exact ⟨_, rfl, hhere⟩
          · rename_i hgo
            obtain ⟨hkey, hnode⟩ := not_or.mp hsame
            rw [not_not] at hkey hnode
            have hend : ¬n.IsEnd := not_or.mpr ⟨fun heq => hgo (.inl heq), hbucket⟩
            have hafter : after.length ≤ b.length := by
              have hcount := congrArg List.length hat.split
              simp only [List.length_append, List.length_cons, List.length_nil] at hcount
              omega
            have hprev : (n.key (lastKey [] before)).length ≤ ins.key.length := by
              rw [hat.split] at hc
              rw [Node.length_key ((chained_append _ _ _).mp hc).2.1]
              omega
            obtain ⟨r, hr, hfound⟩ := skipChain_at ins h ht hc hat.split hend hat.node hafter
              hprev
            rw [hr]
            rcases r with - | node'
            · exact ⟨none, rfl, nofun⟩
            · obtain ⟨before', n', after', hsplit', hnode', hle', hlt⟩ := hfound node' rfl
              exact ih ⟨hsplit', hnode', le_of_eq hkey, hkey ▸ hle'⟩
                (Nat.lt_of_lt_of_le hlt (Nat.le_of_lt_succ hfuel))

/-- The place is before a node of the bucket. -/
theorem place_put (h : b.Formatted es t) (ins : Insertion) :
    ∃ r, b.place ins = some r ∧ ∀ place, r = some place →
      ∃ before n after, Put (es ++ [t]) ins place before n after := by
  obtain ⟨r, hfind, hat⟩ := findLeaf_at h ins.key ins.descending false
  rw [Bucket.place, hfind]
  rcases r with - | ⟨node, pfx⟩
  · exact ⟨none, rfl, nofun⟩
  · obtain ⟨before, n, after, hat, -⟩ := hat node pfx rfl
    have hlength := h.lays.length_lt
    have hcount := congrArg List.length hat.split
    simp only [List.length_append, List.length_cons, List.length_nil] at hcount
    exact placeLoop_put h.lays h.isEnd h.chained hat (by omega) (by omega)

end Bucket

/-! ## Sliding -/

/-- The new node -/
def Insertion.node (ins : Insertion) (pfx : ℕ) : Node where
  btnPrefix := uchar pfx
  btnNumber := ins.number
  btnData := ins.key.drop pfx
  length_le := by
    have hle := ins.key_le
    rw [List.length_drop]
    omega

/-- A node that has more in common with the one before it, now -/
def Node.rebuild (n : Node) (same : ℕ) : Node where
  btnPrefix := uchar (n.btnPrefix.val + same)
  btnNumber := n.btnNumber
  btnData := n.btnData.drop same
  length_le := n.length_drop_le same

/-- The nodes with the new one before `n` -/
def Insertion.into (ins : Insertion) (pfx : ℕ) (before : List Node) (n : Node)
    (after : List Node) : List Node :=
  before ++ ins.node pfx :: n.rebuild (ins.same n) :: after

namespace Put

variable {ns before after : List Node} {ins : Insertion} {place : Place} {n : Node} {b : Bucket}
  {delta : ℕ}

theorem same_le (h : Put ns ins place before n after) :
    n.btnPrefix.val + ins.same n ≤ ins.key.length ∧ ins.same n ≤ n.btnData.length := by
  have hleft := common_le_left (ins.key.drop n.btnPrefix.val) n.btnData
  have hle := h.prefix_le.trans h.pfx_le
  rw [List.length_drop] at hleft
  constructor
  · rw [Insertion.same]
    omega
  · exact common_le_right _ _

/-- The bucket grows by the new node less what is in common. -/
theorem delta_eq (h : Put ns ins place before n after) (hb : b.Lays ns)
    (hd : b.delta ins place = some delta) :
    delta + ins.same n + place.pfx = 6 + ins.key.length := by
  have hn := (h.split ▸ hb).node
  rw [← h.node] at hn
  rw [Bucket.delta, h.oldPrefix, btnPrefix_eq hn] at hd
  split at hd
  · cases hd
  · rename_i hle
    cases hd
    omega

theorem exists_delta (h : Put ns ins place before n after) (hb : b.Lays ns)
    (hle : place.pfx + ins.same n ≤ 6 + ins.key.length) :
    ∃ delta, b.delta ins place = some delta := by
  have hn := (h.split ▸ hb).node
  rw [← h.node] at hn
  rw [Bucket.delta, h.oldPrefix, btnPrefix_eq hn, if_neg (by omega)]
  exact ⟨_, rfl⟩

end Put

section

variable (page : Memory UCHAR) (node pfx : ℕ) (number : Quad) (data : List UCHAR)
  (pfx' length' : ℕ) (number' : Quad)

theorem holds_write : (write page node pfx number data pfx' length' number').Holds node
    (head (uchar pfx) (uchar data.length) number ++ data ++
      head (uchar pfx') (uchar length') number') := by
  unfold write
  dsimp only
  have hhead := holds_putLength
    (holds_putNumber (holds_putPrefix (holds_head page node) pfx) number) data.length
  generalize putLength (putNumber (putPrefix page node pfx) node number) node data.length = page₁
    at hhead ⊢
  have hboth : (page₁.store (node + 6) data).Holds node
      (head (uchar pfx) (uchar data.length) number ++ data) :=
    Memory.holds_append.mpr ⟨hhead.store_of_disjoint (.inl (Nat.le_refl _)),
      Memory.holds_store page₁ (node + 6) data⟩
  generalize page₁.store (node + 6) data = page₂ at hboth ⊢
  have hat : node + (head (uchar pfx) (uchar data.length) number ++ data).length =
      node + 6 + data.length := by
    rw [List.length_append, length_head, Nat.add_assoc]
  refine Memory.holds_append.mpr ⟨?_, ?_⟩
  · refine holds_putNumber_of_disjoint (holds_putLength_of_disjoint
      (holds_putPrefix_of_disjoint hboth (.inl ?_) pfx') (.inl ?_) length') (.inl ?_) number'
    all_goals exact le_of_eq hat
  · rw [hat]
    exact holds_putNumber (holds_putLength (holds_putPrefix (holds_head page₂ _) pfx') length') _

theorem holds_write_of_disjoint {x : ℕ} {ws : List UCHAR} (h : page.Holds x ws)
    (hout : x + ws.length ≤ node ∨ node + 6 + data.length + 6 ≤ x) :
    (write page node pfx number data pfx' length' number').Holds x ws := by
  refine holds_putNumber_of_disjoint (holds_putLength_of_disjoint (holds_putPrefix_of_disjoint
    (Memory.Holds.store_of_disjoint (holds_putLength_of_disjoint (holds_putNumber_of_disjoint
      (holds_putPrefix_of_disjoint h ?_ _) ?_ _) ?_ _) ?_) ?_ _) ?_ _) ?_ _
  all_goals omega

end

namespace Bucket

variable {b : Bucket} {ins : Insertion} {place : Place} {ns before after : List Node} {n : Node}
  {delta : ℕ}

/-- The nodes of the bucket with the new one -/
theorem Lays.slide (hb : b.Lays ns) (h : Put ns ins place before n after)
    (hd : b.delta ins place = some delta) :
    (b.slide ins place delta).Lays (ins.into place.pfx before n after) := by
  have hdelta := h.delta_eq hb hd
  obtain ⟨hle, hle'⟩ := h.same_le
  have hpfx := h.pfx_le
  have hkey := ins.key_le
  obtain ⟨s, hs⟩ : ∃ s, s = ins.same n := ⟨_, rfl⟩
  obtain ⟨a, ha⟩ : ∃ a, a = place.node := ⟨_, rfl⟩
  have hdata : (ins.key.drop place.pfx).length = ins.key.length - place.pfx := List.length_drop
  have hlength := hb.length
  rw [h.split, size_append, size_cons, Node.size] at hlength
  have hnode := h.node
  -- what stands where before the slide, and what is kept of it
  have hbefore := (h.split ▸ hb).take
  have hbehind : b.page.Holds (a + 6 + s) (n.btnData.drop s ++ after.flatMap Node.bytes) := by
    have hdrop := (h.split ▸ hb).drop
    rw [← h.node, ← ha, List.flatMap_cons, Node.bytes_eq, List.append_assoc,
      Memory.holds_append] at hdrop
    have hdrop := hdrop.2
    rw [length_head, ← List.take_append_drop s n.btnData, List.append_assoc,
      Memory.holds_append, List.length_take_of_le (hs ▸ hle')] at hdrop
    exact hdrop.2
  obtain ⟨next, hnext⟩ : ∃ next, next = a + 6 + (ins.key.drop place.pfx).length := ⟨_, rfl⟩
  have hrest : (n.btnData.drop s ++ after.flatMap Node.bytes).length =
      n.btnData.length - s + size after := by
    rw [List.length_append, length_flatMap_bytes, List.length_drop]
  have hbefore := hbefore.moveUp_below (l := b.length - a) (p := b.length) (q := b.length + delta)
    (by omega) (by omega) (by rw [length_flatMap_bytes]; omega)
  have hbehind := hbehind.moveUp (l := b.length - a) (p := b.length) (q := b.length + delta)
    (by omega) (by omega) (by omega) (by omega)
  rw [show a + 6 + s + (b.length + delta - b.length) = next + 6 by omega] at hbehind
  rw [Bucket.slide, ← ha, h.oldPrefix, h.oldLength, h.oldNumber]
  generalize Memory.moveUp (b.length - a) b.page b.length (b.length + delta) = page at *
  refine ⟨?_, ?_⟩
  · have hbytes : (ins.into place.pfx before n after).flatMap Node.bytes =
        before.flatMap Node.bytes ++ (head (uchar place.pfx)
          (uchar (ins.key.drop place.pfx).length) ins.number ++ ins.key.drop place.pfx ++
            head (uchar (n.btnPrefix.val + ins.same n))
              (uchar (n.btnData.length - ins.same n)) n.btnNumber) ++
            (n.btnData.drop s ++ after.flatMap Node.bytes) := by
      rw [Insertion.into, List.flatMap_append, List.flatMap_cons, List.flatMap_cons, Node.bytes_eq,
        Node.bytes_eq, Insertion.node, Node.rebuild, List.length_drop (l := n.btnData), hs]
      simp only [List.append_assoc]
    have hwritten := holds_write page a place.pfx ins.number (ins.key.drop place.pfx)
      (n.btnPrefix.val + ins.same n) (n.btnData.length - ins.same n) n.btnNumber
    have hat : btrNodes + (before.flatMap Node.bytes).length = a := by
      rw [length_flatMap_bytes, ha, hnode]
    rw [hbytes, List.append_assoc, Memory.holds_append, Memory.holds_append, hat]
    refine ⟨holds_write_of_disjoint _ _ _ _ _ _ _ _ hbefore (.inl (le_of_eq hat)), hwritten,
      ?_⟩
    have hend : a + (head (uchar place.pfx) (uchar (ins.key.drop place.pfx).length) ins.number ++
        ins.key.drop place.pfx ++ head (uchar (n.btnPrefix.val + ins.same n))
          (uchar (n.btnData.length - ins.same n)) n.btnNumber).length = next + 6 := by
      simp only [List.length_append, length_head, hnext]
      omega
    rw [hend]
    exact holds_write_of_disjoint _ _ _ _ _ _ _ _ hbehind (.inr (by omega))
  · change b.length + delta = _
    have hnew : (ins.node place.pfx).size = 6 + (ins.key.length - place.pfx) := by
      rw [Node.size, Insertion.node, hdata]
    have hold : (n.rebuild (ins.same n)).size = 6 + (n.btnData.length - ins.same n) := by
      rw [Node.size, Node.rebuild, List.length_drop]
    rw [hlength, Insertion.into, size_append, size_cons, size_cons, hnew, hold]
    omega

/-- The total grows by what the two nodes share with the ones before them. -/
theorem prefixTotal_slide (hb : b.Lays ns) (h : Put ns ins place before n after) :
    (b.slide ins place delta).prefixTotal = b.prefixTotal + place.pfx + ins.same n := by
  have hn := (h.split ▸ hb).node
  rw [← h.node] at hn
  have hlength := hb.length
  rw [h.split, size_append, size_cons, Node.size] at hlength
  have hnode := h.node
  have hkept : Memory.moveUp (b.length - place.node) b.page b.length (b.length + delta)
      place.node = b.page place.node := by
    rw [Memory.moveUp_apply (Nat.sub_le _ _) (Nat.le_add_right _ _)]
    split
    · rename_i hin
      rw [show place.node - (b.length + delta - b.length) = place.node by omega]
    · rfl
  have hinitial : btnPrefix (Memory.moveUp (b.length - place.node) b.page b.length
      (b.length + delta)) place.node = n.btnPrefix.val := by
    rw [btnPrefix, hkept]
    exact btnPrefix_eq hn
  change b.prefixTotal + ((place.pfx : ℤ) - btnPrefix _ place.node) + place.oldPrefix = _
  rw [hinitial, h.oldPrefix]
  push_cast
  ring

end Bucket

theorem prefixSum_into {ins : Insertion} {before after : List Node} {n : Node} {pfx : ℕ}
    (hpfx : pfx ≤ 255) (hsame : n.btnPrefix.val + ins.same n ≤ 255) :
    prefixSum (ins.into pfx before n after) =
      prefixSum (before ++ n :: after) + pfx + ins.same n := by
  have hnew : ((ins.node pfx).btnPrefix.val : ℤ) = pfx := congrArg Nat.cast (val_uchar hpfx)
  have hold : ((n.rebuild (ins.same n)).btnPrefix.val : ℤ) = n.btnPrefix.val + ins.same n := by
    rw [← Nat.cast_add]
    exact congrArg Nat.cast (val_uchar hsame)
  rw [Insertion.into, prefixSum_append, prefixSum_append, prefixSum_cons, prefixSum_cons,
    prefixSum_cons, hnew, hold]
  ring

/-! ## Duplicates -/

/-- The numbers of the nodes at the front that have a key of this length all from the node
before, up to the marker -/
def equalRun (k : ℕ) : List Node → List Quad
  | [] => []
  | n :: ns =>
      if n.btnData = [] ∧ n.btnPrefix.val = k ∧ ¬n.btnNumber.Negative then
        n.btnNumber :: equalRun k ns
      else []

namespace Bucket

variable {b : Bucket} {ins : Insertion} {pre ms : List Node} {t : Node} {fuel : ℕ}

theorem duplicates_eq (hb : b.Lays (pre ++ (ms ++ [t]))) (ht : t.btnNumber.Negative)
    (hfuel : ms.length < fuel) :
    ∃ node, b.duplicates ins fuel (btrNodes + size pre) =
      some (equalRun ins.key.length (ms ++ [t]), node) := by
  induction ms generalizing pre fuel with
  | nil =>
      obtain ⟨fuel, rfl⟩ := Nat.exists_eq_add_of_le' (Nat.zero_lt_of_lt hfuel)
      have hnode := hb.node
      have hnil : equalRun ins.key.length [t] = [] := by
        rw [equalRun, if_neg fun h => h.2.2 ht]
      rw [duplicates, btnNumber_eq hnode, List.nil_append, hnil]
      split
      · exact ⟨_, if_pos ht⟩
      · exact ⟨_, rfl⟩
  | cons m ms ih =>
      obtain ⟨fuel, rfl⟩ := Nat.exists_eq_add_of_le' (Nat.zero_lt_of_lt hfuel)
      have hnode := hb.node
      rw [duplicates, btnLength_eq hnode, btnPrefix_eq hnode, btnNumber_eq hnode, List.cons_append,
        equalRun]
      dsimp only
      by_cases hsame : m.btnData.length = 0 ∧ m.btnPrefix.val = ins.key.length
      · rw [if_pos hsame]
        by_cases hneg : m.btnNumber.Negative
        · rw [if_pos hneg, if_neg (fun h => h.2.2 hneg)]
          exact ⟨_, rfl⟩
        · have hsplit : pre ++ (m :: ms ++ [t]) = pre ++ [m] ++ (ms ++ [t]) :=
            List.append_cons pre m (ms ++ [t])
          have hnext : btrNodes + size pre + 6 = btrNodes + size (pre ++ [m]) := by
            rw [size_concat, Node.size, hsame.1]
            omega
          rw [hsplit] at hb
          obtain ⟨node, hnode⟩ := ih hb (Nat.lt_of_succ_lt_succ hfuel)
          rw [if_neg hneg, if_pos ⟨List.length_eq_zero_iff.mp hsame.1, hsame.2, hneg⟩, hnext, hnode]
          exact ⟨node, rfl⟩
      · rw [if_neg hsame, if_neg fun h => hsame ⟨by rw [h.1, List.length_nil], h.2.1⟩]
        exact ⟨_, rfl⟩

end Bucket

/-! ## Splitting -/

/-- A node that fits on the page with its full key -/
def Node.Short (n : Node) : Prop := n.btnPrefix.val + n.btnData.length ≤ 255

namespace Bucket

variable {b : Bucket} {ns pre suf : List Node} {n s : Node} {mid fuel node : ℕ}

theorem nextNode_concat (hb : b.Lays (pre ++ n :: suf)) :
    nextNode b.page (btrNodes + size pre) = btrNodes + size (pre ++ [n]) := by
  rw [nextNode_eq hb.node, size_append, size_cons, size_nil, Nat.add_zero, Nat.add_assoc]

/-- The full key is restructured from the key of the node before. -/
theorem holds_key {prev : List UCHAR} {key : Memory UCHAR} (hn : n.btnPrefix.val ≤ prev.length)
    (h : key.Holds 0 prev) : (key.store n.btnPrefix.val n.btnData).Holds 0 (n.key prev) := by
  rw [← List.take_append_drop n.btnPrefix.val prev, Memory.holds_append] at h
  have htake := List.length_take_of_le hn
  refine Memory.holds_append.mpr ⟨h.1.store_of_disjoint (.inl ?_), ?_⟩
  · rw [htake, Nat.zero_add]
  · rw [htake, Nat.zero_add]
    exact Memory.holds_store _ _ _

/-- What copying ends with -/
structure Cut (ns : List Node) (mid : ℕ) (key₀ : Memory UCHAR) (pre₀ pre : List Node) (s : Node)
    (suf : List Node) (key : Memory UCHAR) : Prop where
  split : ns = pre ++ s :: suf
  lt : btrNodes + size pre < mid
  le : mid ≤ btrNodes + size (pre ++ [s])
  key : Chained [] ns → key₀.Holds 0 (lastKey [] pre₀) → key.Holds 0 (lastKey [] (pre ++ [s]))

/-- One node is copied. -/
theorem splitLoop_step (hb : b.Lays (pre ++ n :: suf)) (hlt : btrNodes + size pre < mid)
    (fuel : ℕ) (key : Memory UCHAR) (keyLength : ℕ) :
    b.splitLoop mid (fuel + 1) (btrNodes + size pre) node key keyLength (prefixSum pre) =
      b.splitLoop mid fuel (btrNodes + size (pre ++ [n])) (btrNodes + size pre)
        (key.store n.btnPrefix.val n.btnData) (n.btnPrefix.val + n.btnData.length)
        (prefixSum (pre ++ [n])) := by
  rw [splitLoop, if_pos hlt, nextNode_concat hb, btnPrefix_eq hb.node, btnLength_eq hb.node,
    btnData_eq hb.node, prefixSum_append, prefixSum_cons, prefixSum_nil, add_zero]

theorem splitLoop_key {key : Memory UCHAR} (hc : Chained [] (pre ++ n :: suf))
    (hk : key.Holds 0 (lastKey [] pre)) :
    (key.store n.btnPrefix.val n.btnData).Holds 0 (lastKey [] (pre ++ [n])) := by
  rw [lastKey_concat]
  exact holds_key ((chained_append _ _ _).mp hc).2.1 hk

/-- Copying ends with the node that reaches the midpoint. -/
theorem splitLoop_eq (pre : List Node) (node : ℕ) (hb : b.Lays (pre ++ n :: suf))
    (hlt : btrNodes + size pre < mid)
    (hmid : mid ≤ btrNodes + size (pre ++ n :: suf)) (hfuel : suf.length + 1 < fuel)
    (key : Memory UCHAR) (keyLength : ℕ) :
    ∃ pre' s suf' key', Cut (pre ++ n :: suf) mid key pre pre' s suf' key' ∧
      b.splitLoop mid fuel (btrNodes + size pre) node key keyLength (prefixSum pre) =
        some (btrNodes + size pre', btrNodes + size (pre' ++ [s]), key',
          s.btnPrefix.val + s.btnData.length, prefixSum (pre' ++ [s])) := by
  induction suf generalizing pre n fuel node key keyLength with
  | nil =>
      obtain ⟨fuel, rfl⟩ := Nat.exists_eq_add_of_le hfuel
      refine ⟨pre, n, [], key.store n.btnPrefix.val n.btnData,
        ⟨rfl, hlt, hmid, splitLoop_key⟩, ?_⟩
      rw [List.length_nil, Nat.add_comm, splitLoop_step hb hlt, splitLoop,
        if_neg (Nat.not_lt_of_le hmid)]
  | cons m suf ih =>
      obtain ⟨fuel, rfl⟩ := Nat.exists_eq_add_of_le' (Nat.zero_lt_of_lt hfuel)
      have hfuel := Nat.lt_of_succ_lt_succ hfuel
      rw [splitLoop_step hb hlt]
      by_cases hnext : btrNodes + size (pre ++ [n]) < mid
      · have hsplit : pre ++ n :: m :: suf = pre ++ [n] ++ m :: suf :=
          List.append_cons pre n (m :: suf)
        rw [hsplit] at hb hmid
        obtain ⟨pre', s, suf', key', hcut, hloop⟩ := ih _ _ hb hnext hmid hfuel
          (key.store n.btnPrefix.val n.btnData) (n.btnPrefix.val + n.btnData.length)
        rw [hsplit]
        exact ⟨pre', s, suf', key', ⟨hcut.split, hcut.lt, hcut.le,
          fun hc hk => hcut.key hc (splitLoop_key (hsplit ▸ hc) hk)⟩, hloop⟩
      · obtain ⟨fuel, rfl⟩ := Nat.exists_eq_add_of_le' (Nat.zero_lt_of_lt hfuel)
        refine ⟨pre, n, m :: suf, key.store n.btnPrefix.val n.btnData,
          ⟨rfl, hlt, Nat.le_of_not_lt hnext, splitLoop_key⟩, ?_⟩
        rw [splitLoop, if_neg hnext]

/-- The first node of the page that is split off: the full key -/
def full (s : Node) (key : Memory UCHAR) (h : s.Short) : Node where
  btnPrefix := 0
  btnNumber := s.btnNumber
  btnData := key.load 0 (s.btnPrefix.val + s.btnData.length)
  length_le := by
    rw [Memory.length_load]
    exact h

/-- The marker that the split node becomes -/
def marker (s : Node) : Node := { s with btnNumber := endBucket }

theorem lays_splitPage (hb : b.Lays (pre ++ s :: suf)) (hs : s.Short) (key : Memory UCHAR)
    (total : ℤ) (window : ℕ) :
    (b.splitPage (btrNodes + size pre) (btrNodes + size (pre ++ [s])) key
      (s.btnPrefix.val + s.btnData.length) total window).Lays (full s key hs :: suf) := by
  have hsplit : pre ++ s :: suf = pre ++ [s] ++ suf :=
    List.append_cons pre s suf
  have hlength := hb.length
  rw [hsplit, size_append] at hlength
  have hl : b.length - (btrNodes + size (pre ++ [s])) = size suf := by omega
  have hrest := (hsplit ▸ hb).drop.load_of_length (length_flatMap_bytes suf)
  have hhead := holds_putLength (holds_putNumber (holds_putPrefix
    (holds_head (fun _ => 0) btrNodes) 0) s.btnNumber) (s.btnPrefix.val + s.btnData.length)
  have hlen : btnLength (putLength (putNumber (putPrefix (fun _ => 0) btrNodes 0) btrNodes
      s.btnNumber) btrNodes (s.btnPrefix.val + s.btnData.length)) btrNodes =
        s.btnPrefix.val + s.btnData.length := by
    rw [btnLength, (holds_head_iff.mp hhead).2.1, val_uchar hs]
  rw [splitPage]
  simp only [btnNumber_eq hb.node, hlen, Memory.length_load, hl, hrest]
  generalize putLength (putNumber (putPrefix (fun _ => 0) btrNodes 0) btrNodes
      s.btnNumber) btrNodes (s.btnPrefix.val + s.btnData.length) = page at hhead ⊢
  have hfull : (full s key hs).bytes = head (uchar 0) (uchar (s.btnPrefix.val + s.btnData.length))
      s.btnNumber ++ key.load 0 (s.btnPrefix.val + s.btnData.length) := by
    rw [Node.bytes_eq, full, Memory.length_load]
    rfl
  refine ⟨?_, ?_⟩
  · rw [List.flatMap_cons, hfull]
    refine Memory.holds_append.mpr ⟨Memory.Holds.store_of_disjoint (Memory.holds_append.mpr
      ⟨hhead.store_of_disjoint (.inl (Nat.le_refl _)), Memory.holds_store _ _ _⟩) (.inl ?_), ?_⟩
    · rw [List.length_append, length_head, Memory.length_load, Nat.add_assoc]
    · have hadd : ∀ k, btrNodes + (6 + k) = btrNodes + 6 + k := fun k => (Nat.add_assoc _ _ _).symm
      rw [List.length_append, length_head, Memory.length_load, hadd]
      exact Memory.holds_store _ _ _
  · change btrNodes + 6 + (s.btnPrefix.val + s.btnData.length) + size suf = _
    rw [size_cons, Node.size, full, Memory.length_load]
    omega

theorem lays_leftPage (hb : b.Lays (pre ++ s :: suf)) (total : ℤ) (split : ℕ) :
    (b.leftPage (btrNodes + size pre) total split).Lays (pre ++ [marker s]) := by
  have hhead := holds_putNumber (Memory.holds_append.mp hb.node).1 endBucket
  have hdata := holds_putNumber_of_disjoint (Iff.mp holds_bytes_iff hb.node).2.2.2
    (.inr (Nat.le_refl _)) endBucket
  have hs : (putNumber b.page (btrNodes + size pre) endBucket).Holds (btrNodes + size pre)
      (marker s).bytes := Memory.holds_append.mpr ⟨hhead, hdata⟩
  refine ⟨?_, ?_⟩
  · rw [List.flatMap_append, List.flatMap_cons, List.flatMap_nil, List.append_nil]
    refine Memory.holds_append.mpr ⟨holds_putNumber_of_disjoint hb.take (.inl ?_) _, ?_⟩
    · rw [length_flatMap_bytes]
    · rw [length_flatMap_bytes]
      exact hs
  · change nextNode _ _ = _
    rw [nextNode_eq hs, size_append, size_cons, size_nil, Nat.add_zero, Nat.add_assoc]

theorem prefixTotal_leftPage (hb : b.Lays (pre ++ s :: suf)) (total : ℤ) (split : ℕ) :
    (b.leftPage (btrNodes + size pre) total split).prefixTotal = total - s.btnPrefix.val := by
  have hhead := holds_putNumber (Memory.holds_append.mp hb.node).1 endBucket
  change total - (btnPrefix _ _ : ℤ) = _
  rw [btnPrefix, (holds_head_iff.mp hhead).1]

end Bucket

/-! ## What an insertion comes to -/

section

variable {b : Bucket} {ins : Insertion} {pageSize window split : ℕ} {newKey : Memory UCHAR}
  {r : Outcome}

variable {es before after : List Node} {n t : Node} {place : Place} {delta : ℕ}

/-- An insertion that has its place, and does not wrap around -/
structure Slides (b : Bucket) (es : List Node) (t : Node) (ins : Insertion) (place : Place)
    (before : List Node) (n : Node) (after : List Node) (delta : ℕ) : Prop
    extends Put (es ++ [t]) ins place before n after where
  place_eq : b.place ins = some (some place)
  delta_eq : b.delta ins place = some delta

/-- The duplicates behind the new node -/
def Insertion.found (ins : Insertion) (n : Node) (after : List Node) : List Quad :=
  if ins.unique then equalRun ins.key.length (n.rebuild (ins.same n) :: after) else []

namespace Slides

theorem lays (h : Slides b es t ins place before n after delta) (hb : b.Formatted es t) :
    (b.slide ins place delta).Lays (ins.into place.pfx before n after) :=
  hb.lays.slide h.toPut h.delta_eq

theorem length_eq (h : Slides b es t ins place before n after delta) (hb : b.Formatted es t) :
    (b.slide ins place delta).length = btrNodes + size (ins.into place.pfx before n after) :=
  (h.lays hb).length

theorem found_eq (h : Slides b es t ins place before n after delta) (hb : b.Formatted es t) :
    ∃ node, (b.slide ins place delta).lookForDuplicates ins
      (nextNode (b.slide ins place delta).page place.node) =
        some (ins.found n after, node) := by
  have hlays := h.lays hb
  have hnext : nextNode (b.slide ins place delta).page place.node =
      btrNodes + size (before ++ [ins.node place.pfx]) := by
    rw [h.node]
    exact Bucket.nextNode_concat hlays
  have hassoc : ins.into place.pfx before n after =
      before ++ [ins.node place.pfx] ++ (n.rebuild (ins.same n) :: after) := by
    rw [Insertion.into, List.append_assoc, List.singleton_append]
  rw [Bucket.lookForDuplicates, Insertion.found, hnext]
  split
  · obtain ⟨ms, t', hsplit, ht'⟩ : ∃ ms t', n.rebuild (ins.same n) :: after = ms ++ [t'] ∧
        t'.IsEnd := by
      rcases Bucket.split_last h.split with ⟨rfl, rfl, -⟩ | ⟨after', rfl, -⟩
      · exact ⟨[], n.rebuild (ins.same n), rfl, hb.isEnd⟩
      · exact ⟨n.rebuild (ins.same n) :: after', t, by rw [List.cons_append], hb.isEnd⟩
    have hcount := length_le_size ms
    have hlength := h.length_eq hb
    rw [hassoc, hsplit] at hlays hlength
    simp only [size_append] at hlength
    rw [hsplit]
    exact Bucket.duplicates_eq hlays ht'.negative (by rw [hlength, btrNodes]; omega)
  · exact ⟨_, rfl⟩

end Slides

/-- Not in this bucket -/
theorem insertNode_wrongBucket (h : b.place ins = some none) :
    b.insertNode ins pageSize window split newKey = some .wrongBucket := by
  rw [Bucket.insertNode, h]

theorem insertNode_of_delta (hplace : b.place ins = some (some place))
    (hdelta : b.delta ins place = none) :
    b.insertNode ins pageSize window split newKey = none := by
  rw [Bucket.insertNode, hplace]
  simp only [hdelta, Option.bind_eq_bind, Option.bind_none]

/-- The bucket still fits on a page. -/
theorem Slides.insertNode_fits (h : Slides b es t ins place before n after delta)
    (hb : b.Formatted es t)
    (hfits : btrNodes + size (ins.into place.pfx before n after) ≤ pageSize) :
    b.insertNode ins pageSize window split newKey =
      some (.fits (b.slide ins place delta) (ins.found n after)) := by
  obtain ⟨node, hfound⟩ := h.found_eq hb
  rw [← h.length_eq hb] at hfits
  rw [Bucket.insertNode, h.place_eq]
  simp only [h.delta_eq, hfound, Option.bind_eq_bind, Option.bind_some, if_pos hfits]
  rfl

theorem Slides.eq_of_fits (h : Slides b es t ins place before n after delta)
    (hb : b.Formatted es t) {b' : Bucket} {dups : List Quad}
    (hins : b.insertNode ins pageSize window split newKey = some (.fits b' dups)) :
    btrNodes + size (ins.into place.pfx before n after) ≤ pageSize ∧
      b' = b.slide ins place delta ∧ dups = ins.found n after := by
  by_cases hfits : btrNodes + size (ins.into place.pfx before n after) ≤ pageSize
  · rw [h.insertNode_fits hb hfits] at hins
    cases hins
    exact ⟨hfits, rfl, rfl⟩
  · obtain ⟨node, hfound⟩ := h.found_eq hb
    rw [← h.length_eq hb] at hfits
    rw [Bucket.insertNode, h.place_eq] at hins
    simp only [h.delta_eq, hfound, Option.bind_eq_bind, Option.bind_some, if_neg hfits] at hins
    obtain ⟨r, -, hr⟩ := Option.bind_eq_some_iff.mp hins
    cases hr

/-- The midpoint is behind the first node, and not behind the last one. -/
theorem Slides.midpoint_bounds (h : Slides b es t ins place before n after delta)
    (hb : b.Formatted es t) (hpage : 1024 ≤ pageSize)
    (hsplits : pageSize < btrNodes + size (ins.into place.pfx before n after)) :
    btrNodes < (b.slide ins place delta).midpoint place pageSize ∧
      (b.slide ins place delta).midpoint place pageSize ≤
        btrNodes + size (ins.into place.pfx before n after) := by
  rw [Bucket.midpoint]
  split
  · rename_i hend
    have hneg : n.btnNumber.Negative := h.oldNumber ▸ hend.1
    rw [Insertion.into, size_append, size_cons, size_cons] at hsplits ⊢
    rw [h.node]
    refine ⟨?_, by omega⟩
    -- a page with one marker alone does not split
    rcases Bucket.split_last h.split with ⟨rfl, rfl, -⟩ | ⟨after', rfl, hes⟩
    · have hnew := (ins.node place.pfx).length_le
      have hold := (n.rebuild (ins.same n)).length_le
      rw [Node.size, Node.size, size_nil, btrNodes] at hsplits
      omega
    · exact absurd hneg (hb.entry n (hes ▸ List.mem_append_right _ List.mem_cons_self))
  · rw [btrNodes] at hsplits ⊢
    omega

/-- The bucket is split at the node that reaches the midpoint. -/
theorem Slides.insertNode_splits (h : Slides b es t ins place before n after delta)
    (hb : b.Formatted es t) (hpage : 1024 ≤ pageSize)
    (hsplits : pageSize < btrNodes + size (ins.into place.pfx before n after))
    (window split : ℕ) (newKey : Memory UCHAR) :
    ∃ pre s suf key, Bucket.Cut (ins.into place.pfx before n after)
        ((b.slide ins place delta).midpoint place pageSize) newKey [] pre s suf key ∧
      b.insertNode ins pageSize window split newKey =
        some (.splits ((b.slide ins place delta).leftPage (btrNodes + size pre)
            (prefixSum (pre ++ [s])) split)
          ((b.slide ins place delta).splitPage (btrNodes + size pre)
            (btrNodes + size (pre ++ [s])) key (s.btnPrefix.val + s.btnData.length)
            (prefixSum (pre ++ [s])) window) (ins.found n after)) := by
  obtain ⟨node, hfound⟩ := h.found_eq hb
  obtain ⟨hlt, hle⟩ := h.midpoint_bounds hb hpage hsplits
  have hlays := h.lays hb
  have hlength := h.length_eq hb
  obtain ⟨first, rest, hfirst⟩ : ∃ first rest, ins.into place.pfx before n after =
      first :: rest := List.exists_cons_of_ne_nil
    (List.append_ne_nil_of_right_ne_nil _ (List.cons_ne_nil _ _))
  have hcount := length_le_size rest
  rw [hfirst] at hlays hle hlength
  have hfuel : rest.length + 1 < (b.slide ins place delta).length := by
    rw [hlength, size_cons, btrNodes]
    omega
  obtain ⟨pre, s, suf, key, hcut, hloop⟩ := Bucket.splitLoop_eq [] node hlays hlt hle
    hfuel newKey 0
  refine ⟨pre, s, suf, key, ?_, ?_⟩
  · rw [hfirst]
    exact hcut
  · rw [Bucket.insertNode, h.place_eq]
    rw [← h.length_eq hb] at hsplits
    simp only [h.delta_eq, hfound, Option.bind_eq_bind, Option.bind_some,
      if_neg (Nat.not_le_of_lt hsplits)]
    rw [size_nil, Nat.add_zero, prefixSum_nil] at hloop
    rw [hloop]
    rfl

end

end Firebird.Btr
