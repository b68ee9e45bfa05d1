import Firebird.Btr.Node

/-! # The insertion point in a bucket (`BTR_find_leaf` in `jrd/btr.cpp`)

The nodes are passed one after the other, with the length of what the key has in common with
the last one. The data of a node is compared only when its prefix is that long.
-/

namespace Firebird.Btr

/-- The comparison in an ascending index: `none` for `goto done`, else how far `p` goes. -/
def compareAscending : List UCHAR → List UCHAR → Option ℕ
  | [], _ => none
  | _ :: _, [] => some 0
  | p :: ps, q :: qs =>
      if q < p then some 0
      else if p < q then none
      else (compareAscending ps qs).map (· + 1)

/-- The comparison in a descending index -/
def compareDescending (retrieval : Bool) : List UCHAR → List UCHAR → Option ℕ
  | _, [] => none
  | [], _ :: _ => if retrieval then none else some 0
  | p :: ps, q :: qs =>
      if q < p then some 0
      else if p < q then none
      else (compareDescending retrieval ps qs).map (· + 1)

/-- How far `p` goes at a node whose prefix is the running prefix -/
def compareNode (descending retrieval : Bool) (key data : List UCHAR) : Option ℕ :=
  if descending then compareDescending retrieval key data
  else if data = [] then some 0
  else compareAscending key data

namespace Bucket

variable (b : Bucket) (key : List UCHAR) (descending retrieval : Bool)

/-- The loop of `BTR_find_leaf`: `some none` when the key does not belong in this bucket, else
the node and the running prefix. The outer `none` stands for a loop that has not ended. -/
def findLeafLoop : ℕ → ℕ → ℕ → Option (Option (ℕ × ℕ))
  | 0, _, _ => none
  | fuel + 1, node, pfx =>
      let number := btnNumber b.page node
      if number = endLevel ∨ btnPrefix b.page node < pfx then some (some (node, pfx))
      else if btnPrefix b.page node = pfx then
        match compareNode descending retrieval (key.drop pfx) (btnData b.page node) with
        | none => some (some (node, pfx))
        | some k =>
            if number = endBucket then some none
            else findLeafLoop fuel (nextNode b.page node) (pfx + k)
      else if number = endBucket then some none
      else findLeafLoop fuel (nextNode b.page node) pfx

/-- `BTR_find_leaf`, without a place for the value of the node -/
def findLeaf : Option (Option (ℕ × ℕ)) :=
  -- the dummy node on the front of a non-leaf bucket
  let node :=
    if b.header.level ≠ 0 ∧ descending = true ∧ btnLength b.page btrNodes = 0 then
      nextNode b.page btrNodes
    else btrNodes
  b.findLeafLoop key descending retrieval b.length node 0

end Bucket

/-! ## Where it stops -/

/-- `p` goes over bytes that are the same. -/
def Matches (ps qs : List UCHAR) (k : ℕ) : Prop :=
  k ≤ ps.length ∧ k ≤ qs.length ∧ ps.take k = qs.take k

theorem Matches.zero (ps qs : List UCHAR) : Matches ps qs 0 :=
  ⟨Nat.zero_le _, Nat.zero_le _, rfl⟩

theorem Matches.cons {p : UCHAR} {ps qs : List UCHAR} {k : ℕ} (h : Matches ps qs k) :
    Matches (p :: ps) (p :: qs) (k + 1) := by
  obtain ⟨hp, hq, htake⟩ := h
  refine ⟨Nat.succ_le_succ hp, Nat.succ_le_succ hq, ?_⟩
  rw [List.take_succ_cons, List.take_succ_cons, htake]

theorem compareAscending_matches {ps qs : List UCHAR} {k : ℕ}
    (h : compareAscending ps qs = some k) : Matches ps qs k := by
  induction ps generalizing qs k with
  | nil => cases h
  | cons p ps ih =>
      cases qs with
      | nil =>
          cases h
          exact .zero _ _
      | cons q qs =>
          rw [compareAscending] at h
          split at h
          · cases h
            exact .zero _ _
          · rename_i hle
            split at h
            · cases h
            · rename_i hge
              obtain rfl : p = q := le_antisymm (not_lt.mp hle) (not_lt.mp hge)
              obtain ⟨k', hk', rfl⟩ := Option.map_eq_some_iff.mp h
              exact (ih hk').cons

theorem compareDescending_matches {retrieval : Bool} {ps qs : List UCHAR} {k : ℕ}
    (h : compareDescending retrieval ps qs = some k) : Matches ps qs k := by
  induction ps generalizing qs k with
  | nil =>
      cases qs with
      | nil => cases h
      | cons q qs =>
          rw [compareDescending] at h
          split at h
          · cases h
          · cases h
            exact .zero _ _
  | cons p ps ih =>
      cases qs with
      | nil => cases h
      | cons q qs =>
          rw [compareDescending] at h
          split at h
          · cases h
            exact .zero _ _
          · rename_i hle
            split at h
            · cases h
            · rename_i hge
              obtain rfl : p = q := le_antisymm (not_lt.mp hle) (not_lt.mp hge)
              obtain ⟨k', hk', rfl⟩ := Option.map_eq_some_iff.mp h
              exact (ih hk').cons

theorem compareNode_matches {descending retrieval : Bool} {key data : List UCHAR} {k : ℕ}
    (h : compareNode descending retrieval key data = some k) : Matches key data k := by
  rw [compareNode] at h
  split at h
  · exact compareDescending_matches h
  · split at h
    · cases h
      exact .zero _ _
    · exact compareAscending_matches h

/-- The running prefix is shared by the key and the last node passed. -/
structure Shared (key : List UCHAR) (pre : List Node) (pfx : ℕ) : Prop where
  le : pfx ≤ key.length
  le_last : pfx ≤ (lastKey [] pre).length
  take : key.take pfx = (lastKey [] pre).take pfx

theorem lastKey_concat (prev : List UCHAR) (ns : List Node) (n : Node) :
    lastKey prev (ns ++ [n]) = n.key (lastKey prev ns) := by
  rw [lastKey_append, lastKey, lastKey]

section

variable {key : List UCHAR} {pre : List Node} {pfx k : ℕ} {n : Node}

theorem Shared.zero (key : List UCHAR) (pre : List Node) : Shared key pre 0 :=
  ⟨Nat.zero_le _, Nat.zero_le _, rfl⟩

/-- A node with a longer prefix shares no less. -/
theorem Shared.of_gt (h : Shared key pre pfx) (hn : n.btnPrefix.val ≤ (lastKey [] pre).length)
    (hgt : pfx < n.btnPrefix.val) : Shared key (pre ++ [n]) pfx := by
  have htake := List.length_take_of_le hn
  refine ⟨h.le, ?_, ?_⟩
  · rw [lastKey_concat, Node.key, List.length_append, htake]
    omega
  · rw [lastKey_concat, Node.key, List.take_append_of_le_length (by omega), List.take_take,
      Nat.min_eq_left (le_of_lt hgt)]
    exact h.take

theorem Shared.of_eq (h : Shared key pre pfx) (hpfx : n.btnPrefix.val = pfx)
    (hk : Matches (key.drop pfx) n.btnData k) : Shared key (pre ++ [n]) (pfx + k) := by
  obtain ⟨hkey, hdata, htake⟩ := hk
  have hlen := List.length_take_of_le h.le_last
  rw [List.length_drop] at hkey
  have hle := h.le
  refine ⟨by omega, ?_, ?_⟩
  · rw [lastKey_concat, Node.key, hpfx, List.length_append, hlen]
    omega
  · rw [lastKey_concat, Node.key, hpfx, List.take_append, hlen, Nat.add_sub_cancel_left,
      List.take_of_length_le (by omega : (List.take pfx (lastKey [] pre)).length ≤ pfx + k),
      ← htake, ← h.take, List.take_add]

end

/-- A node of a bucket, the nodes before it, and a length of the key -/
structure At (ns : List Node) (key : List UCHAR) (node pfx : ℕ) (before : List Node) (n : Node)
    (after : List Node) : Prop where
  split : ns = before ++ n :: after
  node : node = btrNodes + size before
  le : pfx ≤ key.length
  prefix_le : n.btnPrefix.val ≤ pfx

namespace Bucket

variable {b : Bucket} {key : List UCHAR} {descending retrieval : Bool} {pre es : List Node}
  {n t : Node} {fuel node pfx : ℕ}

/-- At one node the search stops, or the node is passed. -/
theorem findLeafLoop_next (fuel : ℕ) (hnode : b.page.Holds node n.bytes) (h : Shared key pre pfx)
    (hn : n.btnPrefix.val ≤ (lastKey [] pre).length)
    (hend : n.btnNumber = endLevel → n.btnPrefix = 0) :
    (b.findLeafLoop key descending retrieval (fuel + 1) node pfx = some (some (node, pfx)) ∧
      n.btnPrefix.val ≤ pfx) ∨
    ∃ pfx', Shared key (pre ++ [n]) pfx' ∧ n.btnNumber ≠ endLevel ∧
      b.findLeafLoop key descending retrieval (fuel + 1) node pfx =
        if n.btnNumber = endBucket then some none
        else b.findLeafLoop key descending retrieval fuel (node + n.size) pfx' := by
  rw [findLeafLoop, btnNumber_eq hnode, btnPrefix_eq hnode, btnData_eq hnode, nextNode_eq hnode]
  by_cases hlevel : n.btnNumber = endLevel
  · refine .inl ⟨if_pos (.inl hlevel), ?_⟩
    rw [hend hlevel]
    exact Nat.zero_le pfx
  · rcases Nat.lt_trichotomy n.btnPrefix.val pfx with hlt | heq | hgt
    · exact .inl ⟨if_pos (.inr hlt), le_of_lt hlt⟩
    · simp only [if_neg (not_or.mpr ⟨hlevel, not_lt_of_ge (le_of_eq heq.symm)⟩), if_pos heq]
      cases hcompare : compareNode descending retrieval (key.drop pfx) n.btnData with
      | none => exact .inl ⟨rfl, le_of_eq heq⟩
      | some k => exact .inr ⟨pfx + k, h.of_eq heq (compareNode_matches hcompare), hlevel, rfl⟩
    · refine .inr ⟨pfx, h.of_gt hn hgt, hlevel, ?_⟩
      simp only [if_neg (not_or.mpr ⟨hlevel, not_lt_of_gt hgt⟩), if_neg (ne_of_gt hgt)]

theorem findLeafLoop_at (pre : List Node) (h : b.Lays (pre ++ (es ++ [t])))
    (hw : WellFormed (pre ++ es) t) (hs : Shared key pre pfx) (hfuel : es.length < fuel) :
    ∃ r, b.findLeafLoop key descending retrieval fuel (btrNodes + size pre) pfx = some r ∧
      ∀ node pfx', r = some (node, pfx') →
        ∃ before n after, At (pre ++ (es ++ [t])) key node pfx' before n after ∧
          Shared key before pfx' := by
  have hchained := hw.chained
  rw [List.append_assoc] at hchained
  induction es generalizing pre fuel pfx with
  | nil =>
      obtain ⟨fuel, rfl⟩ := Nat.exists_eq_add_of_le' (Nat.zero_lt_of_lt hfuel)
      have hn := ((chained_append _ _ _).mp hchained).2.1
      rcases findLeafLoop_next fuel h.node hs hn (fun ht => (hw.endLevel ht).1) with
        ⟨heq, hle⟩ | ⟨pfx', hs', hne, heq⟩
      · refine ⟨_, heq, ?_⟩
        rintro node pfx' ⟨⟩
        exact ⟨pre, t, [], ⟨rfl, rfl, hs.le, hle⟩, hs⟩
      · rw [if_pos (hw.isEnd.resolve_left hne)] at heq
        exact ⟨none, heq, nofun⟩
  | cons n es ih =>
      obtain ⟨fuel, rfl⟩ := Nat.exists_eq_add_of_le' (Nat.zero_lt_of_lt hfuel)
      have hn := ((chained_append _ _ _).mp hchained).2.1
      have hentry := hw.entry n (List.mem_append_right _ List.mem_cons_self)
      have hne : n.btnNumber ≠ endLevel := fun heq => hentry (heq ▸ by decide)
      have hne' : n.btnNumber ≠ endBucket := fun heq => hentry (heq ▸ by decide)
      rcases findLeafLoop_next fuel h.node hs hn (fun heq => absurd heq hne) with
        ⟨heq, hle⟩ | ⟨pfx', hs', -, heq⟩
      · refine ⟨_, heq, ?_⟩
        rintro node pfx' ⟨⟩
        exact ⟨pre, n, es ++ [t], ⟨rfl, rfl, hs.le, hle⟩, hs⟩
      · have hsplit : pre ++ (n :: es ++ [t]) = pre ++ [n] ++ (es ++ [t]) :=
          List.append_cons pre n (es ++ [t])
        have hassoc : pre ++ n :: es = pre ++ [n] ++ es := List.append_cons pre n es
        have hnext : btrNodes + size pre + n.size = btrNodes + size (pre ++ [n]) := by
          rw [size_concat, Nat.add_assoc]
        rw [if_neg hne', hnext] at heq
        rw [heq, hsplit]
        rw [hsplit] at h hchained
        rw [hassoc] at hw
        exact ih _ h hw hs' (Nat.lt_of_succ_lt_succ hfuel) hchained

/-- The insertion point is a node of the bucket. -/
theorem findLeaf_at (h : b.Formatted es t) (key : List UCHAR) (descending retrieval : Bool) :
    ∃ r, b.findLeaf key descending retrieval = some r ∧
      ∀ node pfx, r = some (node, pfx) →
        ∃ before n after, At (es ++ [t]) key node pfx before n after ∧ Shared key before pfx := by
  have hfuel := h.lays.length_lt
  rw [findLeaf]
  split
  · rename_i hdummy
    obtain ⟨n, es, rfl⟩ := List.exists_cons_of_ne_nil (h.nonempty hdummy.1)
    have hlays : b.Lays ([] ++ n :: (es ++ [t])) := h.lays
    have hnode : b.page.Holds btrNodes n.bytes := hlays.node
    have hstart : nextNode b.page btrNodes = btrNodes + size [n] := by
      rw [nextNode_eq hnode, size_cons, size_nil, Nat.add_zero]
    rw [hstart]
    exact findLeafLoop_at [n] h.lays h.toWellFormed (.zero _ _) (Nat.lt_of_succ_lt hfuel)
  · exact findLeafLoop_at [] h.lays h.toWellFormed (.zero _ _) hfuel

end Bucket

/-! ## Ascending buckets in order -/

/-- The keys do not decrease. -/
def Ascending (prev : List UCHAR) : List Node → Prop
  | [] => True
  | n :: ns => prev ≤ n.key prev ∧ Ascending (n.key prev) ns

instance Ascending.decidable : (prev : List UCHAR) → (ns : List Node) →
    Decidable (Ascending prev ns)
  | _, [] => isTrue trivial
  | prev, n :: ns =>
      have := decidable (n.key prev) ns
      inferInstanceAs (Decidable (_ ∧ _))

theorem ascending_append (prev : List UCHAR) (ns ns' : List Node) :
    Ascending prev (ns ++ ns') ↔ Ascending prev ns ∧ Ascending (lastKey prev ns) ns' := by
  induction ns generalizing prev with
  | nil => exact (iff_of_eq (true_and _)).symm
  | cons n ns ih => rw [List.cons_append, Ascending, Ascending, ih, lastKey, and_assoc]

theorem entry_le_lastKey {prev : List UCHAR} {ns : List Node} (h : Ascending prev ns) :
    prev ≤ lastKey prev ns ∧ ∀ e ∈ entries prev ns, e.1 ≤ lastKey prev ns := by
  induction ns generalizing prev with
  | nil => exact ⟨le_refl _, nofun⟩
  | cons n ns ih =>
      obtain ⟨hle, hall⟩ := ih h.2
      refine ⟨h.1.trans hle, fun e he => ?_⟩
      rcases List.mem_cons.mp he with rfl | he
      · exact hle
      · exact hall e he

theorem le_of_mem_entries {prev : List UCHAR} {ns : List Node} (h : Ascending prev ns) :
    ∀ e ∈ entries prev ns, prev ≤ e.1 := by
  induction ns generalizing prev with
  | nil => exact nofun
  | cons n ns ih =>
      intro e he
      rcases List.mem_cons.mp he with rfl | he
      · exact h.1
      · exact h.1.trans (ih h.2 e he)

/-- The comparison tells whether the key is behind the node, and how much it has in common
with it if so. -/
theorem compareAscending_spec (ps qs : List UCHAR) :
    match compareAscending ps qs with
    | none => ps ≤ qs
    | some k => qs < ps ∧ common qs ps = k := by
  induction ps generalizing qs with
  | nil =>
      rw [compareAscending]
      exact nil_le qs
  | cons p ps ih =>
      cases qs with
      | nil => exact ⟨List.nil_lt_cons p ps, rfl⟩
      | cons q qs =>
          rw [compareAscending]
          rcases lt_trichotomy q p with hlt | rfl | hgt
          · rw [if_pos hlt]
            exact ⟨List.cons_lt_cons_iff.mpr (.inl hlt), common_cons_of_ne (ne_of_lt hlt) _ _⟩
          · rw [if_neg (lt_irrefl q), if_neg (lt_irrefl q)]
            have ih := ih qs
            cases hcompare : compareAscending ps qs with
            | none =>
                rw [hcompare] at ih
                exact List.cons_le_cons q ih
            | some k =>
                rw [hcompare] at ih
                exact ⟨List.cons_lt_cons_iff.mpr (.inr ⟨rfl, ih.1⟩),
                  (common_cons_self q qs ps).trans (congrArg (· + 1) ih.2)⟩
          · rw [if_neg (not_lt_of_gt hgt), if_pos hgt]
            exact le_of_lt (List.cons_lt_cons_iff.mpr (.inl hgt))

/-- What the loop knows of the nodes it has passed: the last one is before the key and has the
running prefix in common with it. -/
structure Passed (key : List UCHAR) (pre : List Node) (pfx : ℕ) : Prop where
  pfx : pfx = common (lastKey [] pre) key
  lt : pre ≠ [] → lastKey [] pre < key

section

variable {key : List UCHAR} {pre : List Node} {pfx : ℕ} {n : Node}

/-- A node that has less in common with the one before than the key has is behind the key. -/
theorem Passed.of_lt (h : Passed key pre pfx)
    (hn : n.btnPrefix.val = common (lastKey [] pre) (n.key (lastKey [] pre)))
    (hle : lastKey [] pre ≤ n.key (lastKey [] pre)) (hlt : n.btnPrefix.val < pfx) :
    key ≤ n.key (lastKey [] pre) := by
  have hpre : pre ≠ [] := by
    rintro rfl
    rw [h.pfx, lastKey, common_nil_left] at hlt
    exact Nat.not_lt_zero _ hlt
  rw [hn, h.pfx] at hlt
  exact le_of_lt (lt_of_common_lt (h.lt hpre) hle hlt)

/-- A node that has more in common with the one before is before the key, too. -/
theorem Passed.of_gt (h : Passed key pre pfx)
    (hn : n.btnPrefix.val = common (lastKey [] pre) (n.key (lastKey [] pre)))
    (hgt : pfx < n.btnPrefix.val) :
    n.key (lastKey [] pre) < key ∧ common (n.key (lastKey [] pre)) key = pfx := by
  have hpre : pre ≠ [] := by
    rintro rfl
    rw [hn, lastKey, common_nil_left] at hgt
    exact Nat.not_lt_zero _ hgt
  rw [hn, h.pfx] at hgt
  rw [h.pfx]
  exact lt_of_lt_common (h.lt hpre) hgt

/-- Otherwise the data decides. -/
theorem Passed.of_eq (h : Passed key pre pfx) (hpfx : n.btnPrefix.val = pfx)
    (hkey : key ≠ [] ∨ n.key (lastKey [] pre) ≠ []) :
    match compareNode false false (key.drop pfx) n.btnData with
    | none => key ≤ n.key (lastKey [] pre)
    | some k => n.key (lastKey [] pre) < key ∧ common (n.key (lastKey [] pre)) key = pfx + k := by
  have hshared : (lastKey [] pre).take pfx = key.take pfx := take_eq_take (le_of_eq h.pfx)
  have hlen : pfx ≤ key.length := by
    rw [h.pfx]
    exact common_le_right _ _
  have hk : n.key (lastKey [] pre) = key.take pfx ++ n.btnData := by
    rw [Node.key, hpfx, hshared]
  have htake : (key.take pfx).length = pfx := List.length_take_of_le hlen
  have hcommon : common (n.key (lastKey [] pre)) key = pfx + common n.btnData (key.drop pfx) := by
    calc common (n.key (lastKey [] pre)) key
        = common (key.take pfx ++ n.btnData) (key.take pfx ++ key.drop pfx) := by
          rw [hk, List.take_append_drop]
      _ = pfx + common n.btnData (key.drop pfx) := by rw [common_append_append, htake]
  have hdrop : (n.key (lastKey [] pre)).drop pfx = n.btnData := by
    rw [hk, List.drop_left' htake]
  have hlt : n.btnData < key.drop pfx ↔ n.key (lastKey [] pre) < key := by
    rw [← hdrop]
    exact drop_lt_drop_iff (hcommon ▸ Nat.le_add_right _ _)
  rw [compareNode, if_neg Bool.false_ne_true]
  split
  · rename_i hnone
    split at hnone
    · cases hnone
    · have hspec := compareAscending_spec (key.drop pfx) n.btnData
      rw [hnone] at hspec
      exact not_lt.mp fun h => absurd (hlt.mpr h) (not_lt_of_ge hspec)
  · rename_i k hsome
    split at hsome
    · -- the key of a node without data is the one before, unless it is the first
      rename_i hdata
      cases hsome
      refine ⟨hlt.mp ?_, by rw [hcommon, hdata, common_nil_left]⟩
      rw [hdata]
      by_cases hpre : pre = []
      · have hzero : pfx = 0 := by rw [h.pfx, hpre, lastKey, common_nil_left]
        have hne : key ≠ [] := by
          refine hkey.resolve_right fun hne => hne ?_
          rw [hk, hdata, hzero, List.take_zero, List.nil_append]
        rw [hzero, List.drop_zero]
        exact lt_of_le_of_ne (nil_le key) hne.symm
      · refine lt_of_le_of_ne (nil_le _) fun hnil => ?_
        have hall : key.take pfx = key :=
          List.take_of_length_le (List.drop_eq_nil_iff.mp hnil.symm)
        have hle := take_le (lastKey [] pre) pfx
        rw [hshared, hall] at hle
        exact absurd (h.lt hpre) (not_lt_of_ge hle)
    · have hspec := compareAscending_spec (key.drop pfx) n.btnData
      rw [hsome] at hspec
      exact ⟨hlt.mp hspec.1, by rw [hcommon, hspec.2]⟩

theorem Passed.concat {pfx' : ℕ} (hlt : n.key (lastKey [] pre) < key)
    (hcommon : common (n.key (lastKey [] pre)) key = pfx') : Passed key (pre ++ [n]) pfx' := by
  refine ⟨?_, fun _ => ?_⟩
  · rw [lastKey_concat, hcommon]
  · rw [lastKey_concat]
    exact hlt

end

/-- A node at which the search for the key stops -/
structure Stops (ns : List Node) (key : List UCHAR) (node pfx : ℕ) (before : List Node) (n : Node)
    (after : List Node) : Prop extends At ns key node pfx before n after where
  passed : Passed key before pfx
  behind : n.btnNumber ≠ endLevel → lastKey [] before ≤ n.key (lastKey [] before) →
    key ≤ n.key (lastKey [] before)

/-- The nodes of a bucket that a search goes through -/
structure Searchable (key : List UCHAR) (es : List Node) (t : Node) : Prop where
  compressed : Compressed [] (es ++ [t])
  ascending : Ascending [] es
  nonempty : key = [] → ∀ e ∈ entries [] (es ++ [t]), e.1 = [] → e.2 = endLevel

theorem mem_entries (before : List Node) (n : Node) (after : List Node) :
    (n.key (lastKey [] before), n.btnNumber) ∈ entries [] (before ++ n :: after) := by
  rw [entries_append, entries]
  exact List.mem_append_right _ List.mem_cons_self

namespace Bucket

variable {b : Bucket} {key : List UCHAR} {pre es : List Node} {n t : Node} {fuel node pfx : ℕ}

/-- At one node the search stops, or the node is passed. -/
theorem findLeafLoop_step (fuel : ℕ) (hnode : b.page.Holds node n.bytes) (h : Passed key pre pfx)
    (hn : n.btnPrefix.val = common (lastKey [] pre) (n.key (lastKey [] pre)))
    (hend : n.btnNumber = endLevel → n.btnPrefix = 0)
    (hkey : n.btnNumber ≠ endLevel → key ≠ [] ∨ n.key (lastKey [] pre) ≠ []) :
    (b.findLeafLoop key false false (fuel + 1) node pfx = some (some (node, pfx)) ∧
      n.btnPrefix.val ≤ pfx ∧
      (n.btnNumber ≠ endLevel → lastKey [] pre ≤ n.key (lastKey [] pre) →
        key ≤ n.key (lastKey [] pre))) ∨
    ∃ pfx', Passed key (pre ++ [n]) pfx' ∧ n.btnNumber ≠ endLevel ∧
      b.findLeafLoop key false false (fuel + 1) node pfx =
        if n.btnNumber = endBucket then some none
        else b.findLeafLoop key false false fuel (node + n.size) pfx' := by
  rw [findLeafLoop, btnNumber_eq hnode, btnPrefix_eq hnode, btnData_eq hnode, nextNode_eq hnode]
  by_cases hlevel : n.btnNumber = endLevel
  · refine .inl ⟨if_pos (.inl hlevel), ?_, fun hne => absurd hlevel hne⟩
    rw [hend hlevel]
    exact Nat.zero_le pfx
  · rcases Nat.lt_trichotomy n.btnPrefix.val pfx with hlt | heq | hgt
    · exact .inl ⟨if_pos (.inr hlt), le_of_lt hlt, fun _ hle => h.of_lt hn hle hlt⟩
    · have hspec := h.of_eq heq (hkey hlevel)
      simp only [if_neg (not_or.mpr ⟨hlevel, not_lt_of_ge (le_of_eq heq.symm)⟩), if_pos heq]
      cases hcompare : compareNode false false (key.drop pfx) n.btnData with
      | none =>
          rw [hcompare] at hspec
          exact .inl ⟨rfl, le_of_eq heq, fun _ _ => hspec⟩
      | some k =>
          rw [hcompare] at hspec
          exact .inr ⟨pfx + k, .concat hspec.1 hspec.2, hlevel, rfl⟩
    · obtain ⟨hbefore, hcommon⟩ := h.of_gt hn hgt
      refine .inr ⟨pfx, .concat hbefore hcommon, hlevel, ?_⟩
      simp only [if_neg (not_or.mpr ⟨hlevel, not_lt_of_gt hgt⟩), if_neg (ne_of_gt hgt)]

/-- The search stops before the first entry that is not before the key. -/
theorem findLeafLoop_searchable (pre : List Node) (h : b.Lays (pre ++ (es ++ [t])))
    (hw : WellFormed (pre ++ es) t)
    (hs : Searchable key (pre ++ es) t) (hp : Passed key pre pfx) (hfuel : es.length < fuel) :
    (t.btnNumber = endBucket ∧ (∃ pfx', Passed key (pre ++ es ++ [t]) pfx') ∧
      b.findLeafLoop key false false fuel (btrNodes + size pre) pfx = some none) ∨
    ∃ node pfx' before n after, Stops (pre ++ (es ++ [t])) key node pfx' before n after ∧
      b.findLeafLoop key false false fuel (btrNodes + size pre) pfx = some (some (node, pfx')) := by
  induction es generalizing pre fuel pfx with
  | nil =>
      obtain ⟨fuel, rfl⟩ := Nat.exists_eq_add_of_le' (Nat.zero_lt_of_lt hfuel)
      rw [List.append_nil] at hw hs
      have hcompressed := ((compressed_append _ _ _).mp hs.compressed).2.1
      have hkey : t.btnNumber ≠ endLevel → key ≠ [] ∨ t.key (lastKey [] pre) ≠ [] := by
        intro hne
        refine or_iff_not_imp_left.mpr fun hnil ht => hne ?_
        exact hs.nonempty (not_not.mp hnil) _ (mem_entries pre t []) ht
      rcases findLeafLoop_step fuel h.node hp hcompressed
        (fun ht => (hw.endLevel ht).1) hkey with ⟨heq, hle, hbehind⟩ | ⟨pfx', hp', hne, heq⟩
      · have hpfx : pfx ≤ key.length := by
          rw [hp.pfx]
          exact common_le_right _ _
        exact .inr ⟨_, pfx, pre, t, [], ⟨⟨rfl, rfl, hpfx, hle⟩, hp, hbehind⟩, heq⟩
      · have ht := hw.isEnd.resolve_left hne
        rw [if_pos ht] at heq
        rw [List.append_nil]
        exact .inl ⟨ht, ⟨pfx', hp'⟩, heq⟩
  | cons n es ih =>
      obtain ⟨fuel, rfl⟩ := Nat.exists_eq_add_of_le' (Nat.zero_lt_of_lt hfuel)
      have hsplit : pre ++ (n :: es ++ [t]) = pre ++ [n] ++ (es ++ [t]) :=
        List.append_cons pre n (es ++ [t])
      have hassoc : pre ++ n :: es = pre ++ [n] ++ es := List.append_cons pre n es
      have hcompressed := hs.compressed
      rw [List.append_assoc] at hcompressed
      have hcompressed := ((compressed_append _ _ _).mp hcompressed).2.1
      have hentry := hw.entry n (List.mem_append_right _ List.mem_cons_self)
      have hne : n.btnNumber ≠ endLevel := fun heq => hentry (heq ▸ by decide)
      have hne' : n.btnNumber ≠ endBucket := fun heq => hentry (heq ▸ by decide)
      have hkey : n.btnNumber ≠ endLevel → key ≠ [] ∨ n.key (lastKey [] pre) ≠ [] := by
        refine fun _ => or_iff_not_imp_left.mpr fun hnil hn => hne ?_
        refine hs.nonempty (not_not.mp hnil) (n.key (lastKey [] pre), n.btnNumber) ?_ hn
        rw [List.append_assoc]
        exact mem_entries pre n (es ++ [t])
      rcases findLeafLoop_step fuel h.node hp hcompressed
        (fun heq => absurd heq hne) hkey with ⟨heq, hle, hbehind⟩ | ⟨pfx', hp', -, heq⟩
      · have hpfx : pfx ≤ key.length := by
          rw [hp.pfx]
          exact common_le_right _ _
        exact .inr ⟨_, pfx, pre, n, es ++ [t], ⟨⟨rfl, rfl, hpfx, hle⟩, hp, hbehind⟩, heq⟩
      · have hnext : btrNodes + size pre + n.size = btrNodes + size (pre ++ [n]) := by
          rw [size_concat, Nat.add_assoc]
        rw [if_neg hne', hnext] at heq
        rw [heq, hsplit, hassoc]
        rw [hsplit] at h
        rw [hassoc] at hw hs
        exact ih _ h hw hs hp' (Nat.lt_of_succ_lt_succ hfuel)

/-- `BTR_find_leaf` in an ascending bucket -/
theorem findLeaf_searchable (h : b.Formatted es t) (hs : Searchable key es t) :
    (t.btnNumber = endBucket ∧ (∃ pfx', Passed key (es ++ [t]) pfx') ∧
      b.findLeaf key false false = some none) ∨
    ∃ node pfx before n after, Stops (es ++ [t]) key node pfx before n after ∧
      b.findLeaf key false false = some (some (node, pfx)) := by
  have hfuel := h.lays.length_lt
  have hp : Passed key [] 0 := ⟨by rw [lastKey, common_nil_left], fun hne => absurd rfl hne⟩
  simp only [findLeaf, Bool.false_eq_true, false_and, and_false, if_false]
  exact findLeafLoop_searchable [] h.lays h.toWellFormed hs hp hfuel

end Bucket

end Firebird.Btr
