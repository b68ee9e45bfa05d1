import Mathlib.Data.List.TakeWhile
import Firebird.Btr.Insert

/-! # Insertion in order

In an ascending bucket whose prefixes are maximal, the search stops before the first entry that
is not before the key, and the node put there has the key, and leaves all other keys as they are.
-/

namespace Firebird.Btr

section

variable {key : List UCHAR} {ins : Insertion} {before after : List Node} {n : Node} {pfx : ℕ}

theorem Passed.shared (h : Passed key before pfx) : Shared key before pfx := by
  have hpfx := h.pfx
  refine ⟨?_, ?_, ?_⟩
  · rw [hpfx]
    exact common_le_right _ _
  · rw [hpfx]
    exact common_le_left _ _
  · exact (take_eq_take (le_of_eq hpfx)).symm

/-! ## Keys of the two nodes -/

theorem Shared.pfx_le (h : Shared ins.key before pfx) : pfx ≤ 255 := h.le.trans ins.key_le

/-- The new node has the key. -/
theorem Shared.key_node (h : Shared ins.key before pfx) :
    (ins.node pfx).key (lastKey [] before) = ins.key := by
  rw [Node.key, Insertion.node, val_uchar h.pfx_le, ← h.take, List.take_append_drop]

/-- What a node shares with the last key, it shares with the new one. -/
theorem Shared.key_eq (h : Shared ins.key before pfx) (hn : n.btnPrefix.val ≤ pfx) :
    n.key (lastKey [] before) = ins.key.take n.btnPrefix.val ++ n.btnData := by
  have htake := congrArg (List.take n.btnPrefix.val) h.take
  rw [List.take_take, List.take_take, Nat.min_eq_left hn] at htake
  rw [Node.key, htake]

theorem Shared.common_eq (h : Shared ins.key before pfx) (hn : n.btnPrefix.val ≤ pfx) :
    common ins.key (n.key (lastKey [] before)) = n.btnPrefix.val + ins.same n := by
  have hlen := List.length_take_of_le (hn.trans h.le)
  calc common ins.key (n.key (lastKey [] before))
      = common (ins.key.take n.btnPrefix.val ++ ins.key.drop n.btnPrefix.val)
          (ins.key.take n.btnPrefix.val ++ n.btnData) := by
        rw [h.key_eq hn, List.take_append_drop]
    _ = n.btnPrefix.val + ins.same n := by
        rw [common_append_append, hlen, Insertion.same]

theorem Shared.prefix_rebuild (h : Shared ins.key before pfx) (hn : n.btnPrefix.val ≤ pfx) :
    (n.rebuild (ins.same n)).btnPrefix.val = n.btnPrefix.val + ins.same n := by
  refine val_uchar ?_
  rw [← h.common_eq hn]
  exact (common_le_left _ _).trans ins.key_le

/-- The next node keeps its key. -/
theorem Shared.key_rebuild (h : Shared ins.key before pfx) (hn : n.btnPrefix.val ≤ pfx) :
    (n.rebuild (ins.same n)).key ins.key = n.key (lastKey [] before) := by
  have hcommon := h.common_eq hn
  have htake := take_eq_take (le_of_eq hcommon.symm)
  have hlen := List.length_take_of_le (hn.trans h.le)
  rw [Node.key, h.prefix_rebuild hn, htake, h.key_eq hn, Node.rebuild, List.take_append, hlen,
    Nat.add_sub_cancel_left, List.append_assoc, List.take_append_drop,
    List.take_of_length_le (by rw [hlen]; exact Nat.le_add_right _ _)]

/-! ## The nodes with the new one -/

theorem Shared.entries_into (h : Shared ins.key before pfx) (hn : n.btnPrefix.val ≤ pfx) :
    entries [] (ins.into pfx before n after) = entries [] before ++
      (ins.key, ins.number) :: entries (lastKey [] before) (n :: after) := by
  rw [Insertion.into, entries_append, entries, h.key_node, entries, h.key_rebuild hn, entries]
  rfl

theorem Shared.chained_into (h : Shared ins.key before pfx) (hn : n.btnPrefix.val ≤ pfx)
    (hc : Chained [] (before ++ n :: after)) : Chained [] (ins.into pfx before n after) := by
  obtain ⟨hbefore, -, hlen, hafter⟩ := (chained_append _ _ _).mp hc
  refine (chained_append _ _ _).mpr ⟨hbefore, ?_, ?_, ?_, ?_, ?_⟩
  · rw [Insertion.node, val_uchar h.pfx_le]
    exact h.le_last
  · rw [h.key_node]
    exact ins.key_le
  · rw [h.prefix_rebuild hn, h.key_node, ← h.common_eq hn]
    exact common_le_left _ _
  · rw [h.key_node, h.key_rebuild hn]
    exact hlen
  · rw [h.key_node, h.key_rebuild hn]
    exact hafter

/-- The new node has all that it has in common with the node before for a prefix, and so has
the next one again. -/
theorem Passed.compressed_into (h : Passed ins.key before pfx) (hn : n.btnPrefix.val ≤ pfx)
    (hc : Compressed [] (before ++ n :: after)) :
    Compressed [] (ins.into pfx before n after) := by
  have hs := h.shared
  obtain ⟨hbefore, -, hafter⟩ := (compressed_append _ _ _).mp hc
  refine (compressed_append _ _ _).mpr ⟨hbefore, ?_, ?_, ?_⟩
  · rw [hs.key_node, Insertion.node, val_uchar hs.pfx_le]
    exact h.pfx
  · rw [hs.key_node, hs.key_rebuild hn, hs.common_eq hn]
    exact hs.prefix_rebuild hn
  · rw [hs.key_node, hs.key_rebuild hn]
    exact hafter

end

/-! ## The place in a leaf -/

namespace Bucket

variable {b : Bucket} {ins : Insertion} {es before after : List Node} {n t : Node} {node pfx : ℕ}

/-- At the leaf level the first node that the search stops at is the place, unless it is the end
of the bucket and has the key. -/
theorem placeLoop_leaf (h : b.Lays (es ++ [t])) (hlevel : b.header.level = 0)
    (hat : At (es ++ [t]) ins.key node pfx before n after) {fuel : ℕ} (hfuel : 0 < fuel) :
    (b.placeLoop ins fuel node pfx = some none ∧ n.btnNumber = endBucket ∧
      n.btnPrefix.val + ins.same n = ins.key.length ∧ ins.same n = n.btnData.length) ∨
    ∃ place, b.placeLoop ins fuel node pfx = some (some place) ∧ place.pfx = pfx ∧
      Put (es ++ [t]) ins place before n after := by
  obtain ⟨fuel, rfl⟩ := Nat.exists_eq_add_of_le' hfuel
  have hn := (hat.split ▸ h).node
  rw [← hat.node] at hn
  have hle := hat.prefix_le.trans hat.le
  have hhere : ∃ place, some (some (⟨node, pfx, n.btnNumber, n.btnPrefix.val + ins.same n,
      n.btnData.length - ins.same n⟩ : Place)) = some (some place) ∧ place.pfx = pfx ∧
        Put (es ++ [t]) ins place before n after :=
    ⟨_, rfl, rfl, hat.split, hat.node, hat.le, hat.prefix_le, rfl, rfl, rfl⟩
  rw [placeLoop]
  simp only [btnNumber_eq hn, btnPrefix_eq hn, btnLength_eq hn, btnData_eq hn,
    if_neg (Nat.not_lt_of_le hle)]
  split
  · exact .inr hhere
  · rename_i hsame
    obtain ⟨hkey, hall⟩ := not_or.mp hsame
    rw [not_not] at hkey hall
    split
    · rename_i hbucket
      exact .inl ⟨rfl, hbucket, hkey, Nat.add_left_cancel (hall.trans (Nat.add_comm _ _))⟩
    · rw [if_pos (.inr (.inl hlevel))]
      exact .inr hhere

/-- The place for a key in an ascending leaf -/
theorem place_searchable (h : b.Formatted es t) (hs : Searchable ins.key es t)
    (hlevel : b.header.level = 0) (hd : ins.descending = false) :
    (b.place ins = some none ∧ t.btnNumber = endBucket ∧
      ((∃ pfx, Passed ins.key (es ++ [t]) pfx) ∨
        (∃ pfx, Passed ins.key es pfx) ∧ t.key (lastKey [] es) = ins.key)) ∨
    ∃ place before n after, b.place ins = some (some place) ∧
      Put (es ++ [t]) ins place before n after ∧ Passed ins.key before place.pfx ∧
        (n.btnNumber ≠ endLevel → lastKey [] before ≤ n.key (lastKey [] before) →
          ins.key ≤ n.key (lastKey [] before)) := by
  have hpos : 0 < b.length := by
    rw [h.lays.length, btrNodes]
    omega
  rw [Bucket.place, hd]
  rcases findLeaf_searchable h hs with ⟨hbucket, hpassed, heq⟩ |
    ⟨node, pfx, before, n, after, hstops, heq⟩
  · rw [heq]
    exact .inl ⟨rfl, hbucket, .inl hpassed⟩
  · rw [heq]
    rcases placeLoop_leaf h.lays hlevel hstops.toAt hpos with ⟨heq, hbucket, hkey, hall⟩ |
      ⟨place, heq, hpfx, hput⟩
    · have ht : n = t ∧ es = before := by
        rcases split_last hstops.split with ⟨-, hn, hes⟩ | ⟨after', -, hes⟩
        · exact ⟨hn, hes⟩
        · have hentry := h.entry n (hes ▸ List.mem_append_right _ List.mem_cons_self)
          exact absurd (hbucket ▸ (by decide : endBucket.Negative)) hentry
      obtain ⟨rfl, rfl⟩ := ht
      refine .inl ⟨heq, hbucket, .inr ⟨⟨pfx, hstops.passed⟩, ?_⟩⟩
      have hcommon := hstops.passed.shared.common_eq hstops.prefix_le
      have hlen : (n.key (lastKey [] es)).length = n.btnPrefix.val + n.btnData.length :=
        Node.length_key (hstops.prefix_le.trans hstops.passed.shared.le_last)
      have hboth := take_eq_take (le_of_eq hcommon.symm)
      rw [hkey, List.take_length, ← hkey, hall, ← hlen, List.take_length] at hboth
      exact hboth.symm
    · subst hpfx
      exact .inr ⟨place, before, n, after, heq, hput, hstops.passed, hstops.behind⟩

end Bucket

/-! ## Sorted insertion -/

section

variable {key : List UCHAR} {before after es : List Node} {n : Node} {pfx : ℕ}

theorem Passed.lt_of_mem (h : Passed key before pfx) (ha : Ascending [] before) :
    ∀ e ∈ entries [] before, e.1 < key := by
  intro e he
  refine lt_of_le_of_lt ((entry_le_lastKey ha).2 e he) (h.lt ?_)
  rintro rfl
  cases he

/-- The entries before the place are those before the key. -/
theorem Passed.takeWhile_eq (h : Passed key before pfx) (ha : Ascending [] es)
    (hes : es = before ∨ ∃ after', es = before ++ n :: after' ∧ key ≤ n.key (lastKey [] before)) :
    (entries [] es).takeWhile (fun e => e.1 < key) = entries [] before ∧
      entries [] es = entries [] before ++ (entries [] es).dropWhile fun e => e.1 < key := by
  have hall : ∀ e ∈ entries [] before, decide (e.1 < key) = true := by
    intro e he
    refine decide_eq_true (h.lt_of_mem ?_ e he)
    rcases hes with rfl | ⟨after', rfl, -⟩
    · exact ha
    · exact ((ascending_append _ _ _).mp ha).1
  rcases hes with rfl | ⟨after', rfl, hle⟩
  · rw [List.takeWhile_eq_self_iff.mpr hall, List.dropWhile_eq_nil_iff.mpr hall, List.append_nil]
    exact ⟨rfl, rfl⟩
  · have hstop : ¬decide (n.key (lastKey [] before) < key) = true :=
      fun hlt => absurd (of_decide_eq_true hlt) (not_lt_of_ge hle)
    rw [entries_append, entries, List.takeWhile_append_of_pos hall, List.takeWhile_cons,
      if_neg hstop, List.dropWhile_append_of_pos hall, List.dropWhile_cons, if_neg hstop,
      List.append_nil]
    exact ⟨rfl, rfl⟩

end

variable {b b' : Bucket} {ins : Insertion} {es : List Node} {t : Node}
  {pageSize window split : ℕ} {newKey : Memory UCHAR} {dups : List Quad}

/-- The new pair goes before the first one that is not before it. -/
def Insertion.sorted (ins : Insertion) (l : List (List UCHAR × Quad)) : List (List UCHAR × Quad) :=
  l.takeWhile (fun e => e.1 < ins.key) ++
    (ins.key, ins.number) :: l.dropWhile fun e => e.1 < ins.key

/-- A key goes into an ascending leaf before the first entry that is not before it. Everything
else stays, and all prefixes are maximal again. -/
theorem insert_sorted (hb : b.Formatted es t) (hlevel : b.header.level = 0)
    (hs : Searchable ins.key es t) (hd : ins.descending = false)
    (hins : b.insertNode ins pageSize window split newKey = some (.fits b' dups)) :
    ∃ es' t', b'.Lays (es' ++ [t']) ∧ Chained [] (es' ++ [t']) ∧ Compressed [] (es' ++ [t']) ∧
      entries [] es' = ins.sorted (entries [] es) ∧
      t'.btnNumber = t.btnNumber ∧ t'.key (lastKey [] es') = t.key (lastKey [] es) := by
  rcases Bucket.place_searchable hb hs hlevel hd with ⟨hplace, -⟩ |
    ⟨place, before, n, after, hplace, hput, hpassed, hbehind⟩
  · rw [insertNode_wrongBucket hplace] at hins
    cases hins
  · cases hdelta : b.delta ins place with
    | none =>
        rw [insertNode_of_delta hplace hdelta] at hins
        cases hins
    | some delta =>
        have hslides : Slides b es t ins place before n after delta := ⟨hput, hplace, hdelta⟩
        obtain ⟨-, rfl, -⟩ := hslides.eq_of_fits hb hins
        have hlays := hslides.lays hb
        have hle := hput.prefix_le
        have hs' := hpassed.shared
        have hsplit := hput.split
        have hchained := hs'.chained_into hle (hsplit ▸ hb.chained)
        have hcompressed := hpassed.compressed_into hle (hsplit ▸ hs.compressed)
        rcases Bucket.split_last hsplit with ⟨rfl, rfl, rfl⟩ | ⟨after', rfl, rfl⟩
        · -- before the marker
          have hinto : ins.into place.pfx es n [] =
              es ++ [ins.node place.pfx] ++ [n.rebuild (ins.same n)] := by
            rw [Insertion.into, List.append_assoc, List.singleton_append]
          rw [hinto] at hlays hchained hcompressed
          obtain ⟨htake, hdrop⟩ := hpassed.takeWhile_eq (n := n) hs.ascending (.inl rfl)
          refine ⟨es ++ [ins.node place.pfx], n.rebuild (ins.same n), hlays, hchained, hcompressed,
            ?_, rfl, ?_⟩
          · rw [Insertion.sorted, htake, List.self_eq_append_right.mp hdrop, entries_append, entries,
              hs'.key_node, entries]
            rfl
          · rw [lastKey_concat, hs'.key_node, hs'.key_rebuild hle]
        · -- before an entry
          have hinto : ins.into place.pfx before n (after' ++ [t]) =
              ins.into place.pfx before n after' ++ [t] := by
            rw [Insertion.into, Insertion.into, List.append_assoc, List.cons_append,
              List.cons_append]
          rw [hinto] at hlays hchained hcompressed
          have hentry := hb.entry n (List.mem_append_right _ List.mem_cons_self)
          have hkey : ins.key ≤ n.key (lastKey [] before) :=
            hbehind (fun heq => hentry (heq ▸ by decide))
              ((ascending_append _ _ _).mp hs.ascending).2.1
          obtain ⟨htake, hdrop⟩ := hpassed.takeWhile_eq hs.ascending (.inr ⟨after', rfl, hkey⟩)
          refine ⟨ins.into place.pfx before n after', t, hlays, hchained, hcompressed, ?_, rfl, ?_⟩
          · have hrest := hdrop
            rw [entries_append] at hrest
            rw [Insertion.sorted, htake, hs'.entries_into hle, List.append_cancel_left hrest,
              ← entries_append]
          · rw [Insertion.into, lastKey_append, lastKey_append, lastKey, lastKey, lastKey,
              hs'.key_node, hs'.key_rebuild hle]

/-- A leaf with the keys `5`, `5 7` and `5 7 9` -/
def threeKeysLeaf : Bucket := .format ⟨1, 0, 0, false⟩ 0 0 (threeKeys ++ [levelEnd])

theorem threeKeysLeaf_formatted : threeKeysLeaf.Formatted threeKeys levelEnd :=
  ⟨by decide, Bucket.lays_format .., fun h => absurd rfl h⟩

/-- The key `5 8` for record 9 -/
def fiveEight : Insertion := ⟨⟨9, 0, 0, 0⟩, ⟨0, 0, 0, 0⟩, [5, 8], false, false, Bytes.two_le⟩

/-- The key `5 8` goes to the end. -/
theorem insert_sorted_fiveEight : ∃ b' es' t',
    threeKeysLeaf.insertNode fiveEight 1024 1 2 (fun _ => 0) = some (.fits b' []) ∧
    b'.Lays (es' ++ [t']) ∧ Compressed [] (es' ++ [t']) ∧
    entries [] es' = [([5], ⟨1, 0, 0, 0⟩), ([5, 7], ⟨2, 0, 0, 0⟩), ([5, 7, 9], ⟨3, 0, 0, 0⟩),
      ([5, 8], ⟨9, 0, 0, 0⟩)] := by
  have hslides : Slides threeKeysLeaf threeKeys levelEnd fiveEight ⟨55, 1, endLevel, 0, 0⟩
      threeKeys levelEnd [] 7 :=
    ⟨⟨rfl, by decide, by decide, by decide, rfl, by decide, by decide⟩, by decide, by decide⟩
  have hins : threeKeysLeaf.insertNode fiveEight 1024 1 2 (fun _ => 0) = some (.fits _ _) :=
    hslides.insertNode_fits threeKeysLeaf_formatted (by decide)
  obtain ⟨es', t', hlays, -, hcompressed, hentries, -⟩ := insert_sorted threeKeysLeaf_formatted rfl
    ⟨by decide, by decide, fun h => absurd h (by decide)⟩ rfl hins
  exact ⟨_, es', t', hins, hlays, hcompressed, hentries⟩

/-- The new node is put elsewhere. -/
def Misplaces (b : Bucket) (es : List Node) (ins : Insertion) : Prop :=
  ∃ b', b.insertNode ins 1024 1 2 (fun _ => 0) = some (.fits b' []) ∧
    ∀ es' t', b'.Lays (es' ++ [t']) → entries [] es' ≠ ins.sorted (entries [] es)

theorem Slides.misplaces {place : Place} {before after : List Node} {n : Node} {delta k : ℕ}
    (h : Slides b es t ins place before n after delta) (hb : b.Formatted es t)
    (hfits : btrNodes + size (ins.into place.pfx before n after) ≤ 1024)
    (hfound : ins.found n after = []) (hk : k ≤ (ins.sorted (entries [] es)).length)
    (hne : (entries [] (ins.into place.pfx before n after)).take k ≠
      (ins.sorted (entries [] es)).take k) : Misplaces b es ins := by
  refine ⟨_, hfound ▸ h.insertNode_fits hb hfits, fun es' t' hlays heq => hne ?_⟩
  rw [(h.lays hb).unique hlays, entries_append, heq, List.take_append_of_le_length hk]

/-- The keys `1 1` and `1 2`, each with all its bytes -/
def uncompressed : List Node :=
  [⟨0, ⟨1, 0, 0, 0⟩, [1, 1], Bytes.two_le⟩, ⟨0, ⟨2, 0, 0, 0⟩, [1, 2], Bytes.two_le⟩]

def uncompressedLeaf : Bucket := .format ⟨1, 0, 0, false⟩ 0 0 (uncompressed ++ [levelEnd])

/-- The key `1 3` for record 9 -/
def oneThree : Insertion := ⟨⟨9, 0, 0, 0⟩, ⟨0, 0, 0, 0⟩, [1, 3], false, false, Bytes.two_le⟩

/-- An empty key -/
def emptyKey : List Node := [⟨0, ⟨1, 0, 0, 0⟩, [], Bytes.zero_le⟩]

def emptyKeyLeaf : Bucket := .format ⟨1, 0, 0, false⟩ 0 0 (emptyKey ++ [levelEnd])

/-- The empty key for record 9 -/
def anotherEmpty : Insertion := ⟨⟨9, 0, 0, 0⟩, ⟨0, 0, 0, 0⟩, [], false, false, Bytes.zero_le⟩

/-- Where a prefix is not maximal the search stops too early, and `1 3` is put before `1 2`. An
empty key is put behind another one. -/
theorem insert_misplaced :
    (uncompressedLeaf.Formatted uncompressed levelEnd ∧ Ascending [] uncompressed ∧
      Misplaces uncompressedLeaf uncompressed oneThree) ∧
    emptyKeyLeaf.Formatted emptyKey levelEnd ∧ Ascending [] emptyKey ∧
      Misplaces emptyKeyLeaf emptyKey anotherEmpty := by
  have hb : uncompressedLeaf.Formatted uncompressed levelEnd :=
    ⟨by decide, Bucket.lays_format .., fun h => absurd rfl h⟩
  have hslides : Slides uncompressedLeaf uncompressed levelEnd oneThree
      ⟨42, 1, ⟨2, 0, 0, 0⟩, 1, 1⟩ [⟨0, ⟨1, 0, 0, 0⟩, [1, 1], Bytes.two_le⟩]
      ⟨0, ⟨2, 0, 0, 0⟩, [1, 2], Bytes.two_le⟩ [levelEnd] 6 :=
    ⟨⟨rfl, by decide, by decide, by decide, rfl, by decide, by decide⟩, by decide, by decide⟩
  have hb' : emptyKeyLeaf.Formatted emptyKey levelEnd :=
    ⟨by decide, Bucket.lays_format .., fun h => absurd rfl h⟩
  have hslides' : Slides emptyKeyLeaf emptyKey levelEnd anotherEmpty ⟨40, 0, endLevel, 0, 0⟩
      emptyKey levelEnd [] 6 :=
    ⟨⟨rfl, by decide, by decide, by decide, rfl, by decide, by decide⟩, by decide, by decide⟩
  exact ⟨⟨hb, by decide, hslides.misplaces (k := 2) hb (by decide) rfl (by decide) (by decide)⟩,
    hb', by decide, hslides'.misplaces (k := 1) hb' (by decide) rfl (by decide) (by decide)⟩

end Firebird.Btr
