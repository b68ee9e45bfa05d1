import Firebird.Btr.Ascending
import Firebird.Btr.Level

/-! # Unique keys (`add_node` at the leaf level in `jrd/btr.cpp`)

A key is inserted into the first leaf bucket in the chain that has a place for it. The duplicates
are collected in that bucket alone, while equal keys may go on in the next one.
-/

namespace Firebird.Btr

/-- The loop through the leaf buckets: the outcome, when it has ended -/
def addLeaf (buckets : ℕ → Bucket) (ins : Insertion) (pageSize split : ℕ)
    (newKey : Memory UCHAR) : ℕ → ℕ → Option Outcome
  | 0, _ => none
  | fuel + 1, page =>
      match (buckets page).insertNode ins pageSize page split newKey with
      | some .wrongBucket =>
          addLeaf buckets ins pageSize split newKey fuel (buckets page).sibling
      | r => r

/-- All that is in the page is before the key, and so the key belongs in one further on. -/
def Page.Behind (l : Page) (key : List UCHAR) : Prop :=
  l.t.btnNumber = endBucket ∧ (∀ e ∈ l.pairs, e.1 < key) ∧ l.bound ≤ key

instance (l : Page) (key : List UCHAR) : Decidable (l.Behind key) :=
  inferInstanceAs (Decidable (_ ∧ _ ∧ _))

/-! ## Duplicates in a bucket -/

/-- The duplicates behind a key are the numbers of all entries with that key. -/
theorem mem_equalRun {key : List UCHAR} (ns : List Node) {t : Node}
    (hc : Compressed key (ns ++ [t])) (ha : Ascending key ns)
    (hns : ∀ n ∈ ns, ¬n.btnNumber.Negative) (ht : t.btnNumber.Negative) (x : Quad) :
    x ∈ equalRun key.length (ns ++ [t]) ↔ (key, x) ∈ entries key ns := by
  induction ns with
  | nil =>
      rw [List.nil_append, equalRun, if_neg fun h => h.2.2 ht]
      exact iff_of_false List.not_mem_nil List.not_mem_nil
  | cons n ns ih =>
      obtain ⟨hn, hns⟩ := List.forall_mem_cons.mp hns
      rw [List.cons_append] at hc ⊢
      rw [equalRun, entries]
      by_cases hkey : n.key key = key
      · -- all of the key is prefix
        have hpfx : n.btnPrefix.val = key.length := by
          rw [hc.1, hkey, common_self]
        have hdata : n.btnData = [] := by
          rw [Node.key, hpfx, List.take_length] at hkey
          exact List.append_right_eq_self.mp hkey
        have hc := hc.2
        have ha := ha.2
        rw [hkey] at hc ha
        rw [if_pos ⟨hdata, hpfx, hn⟩, hkey, List.mem_cons, List.mem_cons, ih hc ha hns,
          Prod.mk.injEq, eq_self_iff_true, true_and]
      · have hne : ¬(n.btnData = [] ∧ n.btnPrefix.val = key.length ∧ ¬n.btnNumber.Negative) := by
          rintro ⟨hdata, hpfx, -⟩
          exact hkey (by rw [Node.key, hdata, hpfx, List.take_length, List.append_nil])
        rw [if_neg hne]
        refine iff_of_false List.not_mem_nil fun hmem => ?_
        -- from here on all keys are behind
        have hlt := lt_of_le_of_ne ha.1 (Ne.symm hkey)
        rcases List.mem_cons.mp hmem with heq | hmem
        · exact hkey (Prod.mk.inj heq).1.symm
        · exact absurd (le_of_mem_entries ha.2 _ hmem) (not_le_of_gt hlt)

/-! ## The search for an empty key -/

namespace Bucket

variable {b : Bucket} {ins : Insertion} {es : List Node} {n t : Node} {fuel node : ℕ}

/-- A node without prefix and data is passed, and so is one with a prefix. -/
theorem findLeafLoop_empty_step (fuel : ℕ) (hnode : b.page.Holds node n.bytes)
    (hend : n.btnNumber = endLevel → n.btnPrefix = 0) :
    (b.findLeafLoop [] false false (fuel + 1) node 0 = some (some (node, 0)) ∧
      n.btnPrefix.val ≤ 0 ∧ (n.btnNumber = endLevel ∨ n.btnData ≠ [])) ∨
    (n.btnNumber ≠ endLevel ∧ b.findLeafLoop [] false false (fuel + 1) node 0 =
      if n.btnNumber = endBucket then some none
      else b.findLeafLoop [] false false fuel (node + n.size) 0) := by
  rw [findLeafLoop, btnNumber_eq hnode, btnPrefix_eq hnode, btnData_eq hnode, nextNode_eq hnode]
  by_cases hlevel : n.btnNumber = endLevel
  · refine .inl ⟨if_pos (.inl hlevel), ?_, .inl hlevel⟩
    rw [hend hlevel]
    exact Nat.le_refl 0
  · have hgo : ¬(n.btnNumber = endLevel ∨ n.btnPrefix.val < 0) :=
      not_or.mpr ⟨hlevel, Nat.not_lt_zero _⟩
    simp only [if_neg hgo]
    by_cases hpfx : n.btnPrefix.val = 0
    · rw [if_pos hpfx, List.drop_nil, compareNode, if_neg Bool.false_ne_true]
      by_cases hdata : n.btnData = []
      · rw [if_pos hdata]
        exact .inr ⟨hlevel, rfl⟩
      · rw [if_neg hdata, compareAscending]
        exact .inl ⟨rfl, le_of_eq hpfx, .inr hdata⟩
    · rw [if_neg hpfx]
      exact .inr ⟨hlevel, rfl⟩

/-- The search for an empty key goes past all empty keys. -/
theorem findLeafLoop_empty (pre : List Node) (h : b.Lays (pre ++ (es ++ [t])))
    (hw : WellFormed (pre ++ es) t) (hfuel : es.length < fuel) :
    (t.btnNumber = endBucket ∧
      b.findLeafLoop [] false false fuel (btrNodes + size pre) 0 = some none) ∨
    ∃ node before n after, At (pre ++ (es ++ [t])) [] node 0 before n after ∧
      b.findLeafLoop [] false false fuel (btrNodes + size pre) 0 = some (some (node, 0)) ∧
      (n.btnNumber = endLevel ∨ n.btnData ≠ []) := by
  induction es generalizing pre fuel with
  | nil =>
      obtain ⟨fuel, rfl⟩ := Nat.exists_eq_add_of_le' (Nat.zero_lt_of_lt hfuel)
      rcases findLeafLoop_empty_step fuel h.node (fun ht => (hw.endLevel ht).1) with
        ⟨heq, hle, hdata⟩ | ⟨hne, heq⟩
      · exact .inr ⟨_, pre, t, [], ⟨rfl, rfl, Nat.zero_le _, hle⟩, heq, hdata⟩
      · have ht := hw.isEnd.resolve_left hne
        rw [if_pos ht] at heq
        exact .inl ⟨ht, heq⟩
  | cons n es ih =>
      obtain ⟨fuel, rfl⟩ := Nat.exists_eq_add_of_le' (Nat.zero_lt_of_lt hfuel)
      have hentry := hw.entry n (List.mem_append_right _ List.mem_cons_self)
      have hne : n.btnNumber ≠ endLevel := fun heq => hentry (heq ▸ by decide)
      have hne' : n.btnNumber ≠ endBucket := fun heq => hentry (heq ▸ by decide)
      rcases findLeafLoop_empty_step fuel h.node (fun heq => absurd heq hne) with
        ⟨heq, hle, hdata⟩ | ⟨-, heq⟩
      · exact .inr ⟨_, pre, n, es ++ [t], ⟨rfl, rfl, Nat.zero_le _, hle⟩, heq, hdata⟩
      · have hsplit : pre ++ (n :: es ++ [t]) = pre ++ [n] ++ (es ++ [t]) :=
          List.append_cons pre n (es ++ [t])
        have hassoc : pre ++ n :: es = pre ++ [n] ++ es := List.append_cons pre n es
        have hnext : btrNodes + size pre + n.size = btrNodes + size (pre ++ [n]) := by
          rw [size_concat, Nat.add_assoc]
        rw [if_neg hne', hnext] at heq
        rw [heq, hsplit]
        rw [hsplit] at h
        rw [hassoc] at hw
        exact ih _ h hw (Nat.lt_of_succ_lt_succ hfuel)

/-- The node of a place does not both end the bucket and have the key. -/
theorem placeLoop_ne {fuel pfx : ℕ} {place : Place}
    (h : b.placeLoop ins fuel node pfx = some (some place))
    (hend : btnNumber b.page place.node = endBucket) :
    ¬(place.oldPrefix = ins.key.length ∧
      place.oldPrefix = btnLength b.page place.node + btnPrefix b.page place.node) := by
  induction fuel generalizing node pfx with
  | zero => cases h
  | succ fuel ih =>
      rw [placeLoop] at h
      dsimp only at h
      split at h
      · cases h
      · split at h
        · rename_i hsame
          cases h
          exact not_and_or.mpr hsame
        · split at h
          · cases h
          · rename_i hbucket
            split at h
            · cases h
              exact absurd hend hbucket
            · split at h
              · cases h
              · cases h
              · exact ih h

end Bucket

/-! ## The place in a leaf -/

namespace Page

variable {b b' : Bucket} {l : Page} {ins : Insertion} {place : Place} {before after : List Node}
  {n : Node}

/-- What is known of the place for a key in a leaf: a key that is not empty goes behind smaller
keys alone, and an empty one not in front of another. -/
structure Placed (l : Page) (ins : Insertion) (place : Place) (before : List Node) (n : Node)
    (after : List Node) : Prop extends Put (l.es ++ [l.t]) ins place before n after where
  passed : ins.key ≠ [] → Passed ins.key before place.pfx
  behind : ins.key ≠ [] → n.btnNumber ≠ endLevel → lastKey [] before ≤ n.key (lastKey [] before) →
    ins.key ≤ n.key (lastKey [] before)
  empty : ins.key = [] → n.btnNumber = endLevel ∨ n.btnData ≠ []

/-- Either the leaf is left behind, or there is a place in it. -/
theorem Within.search (h : l.Within 0 b) (hd : ins.descending = false) :
    (b.place ins = some none ∧ l.t.btnNumber = endBucket ∧ (ins.key ≠ [] → l.Behind ins.key)) ∨
    ∃ place before n after, b.place ins = some (some place) ∧
      l.Placed ins place before n after := by
  by_cases hkey : ins.key = []
  · have hlevel : ¬(b.header.level ≠ 0 ∧ ins.descending = true ∧ btnLength b.page btrNodes = 0) :=
      fun hdummy => hdummy.1 h.level
    rw [Bucket.place, Bucket.findLeaf, if_neg hlevel, hkey, hd]
    rcases Bucket.findLeafLoop_empty [] h.lays h.toWellFormed h.lays.length_lt with
      ⟨hbucket, heq⟩ | ⟨node, before, n, after, hat, heq, hdata⟩
    · rw [size_nil, Nat.add_zero] at heq
      rw [heq]
      exact .inl ⟨rfl, hbucket, fun hne => absurd rfl hne⟩
    · rw [size_nil, Nat.add_zero] at heq
      rw [heq]
      rcases Bucket.placeLoop_leaf h.lays h.level (hkey ▸ hat)
          (Nat.zero_lt_of_lt h.lays.length_lt) with ⟨heq, hbucket, -⟩ | ⟨place, heq, -, hput⟩
      · refine .inl ⟨heq, ?_, fun hne => absurd rfl hne⟩
        rcases Bucket.split_last hat.split with ⟨-, rfl, -⟩ | ⟨after', -, hes⟩
        · exact hbucket
        · have hentry := h.entry n (hes ▸ List.mem_append_right _ List.mem_cons_self)
          exact absurd (hbucket ▸ (by decide : endBucket.Negative)) hentry
      · exact .inr ⟨place, before, n, after, heq, hput, fun hne => absurd hkey hne,
          fun hne => absurd hkey hne, fun _ => hdata⟩
  · have hs : Searchable ins.key l.es l.t :=
      ⟨h.compressed, h.ascending, fun heq => absurd heq hkey⟩
    rcases Bucket.place_searchable h.toFormatted hs h.level hd with ⟨hplace, hbucket, hall⟩ |
      ⟨place, before, n, after, hplace, hput, hpassed, hbehind⟩
    · have hle := h.le_bound hbucket
      refine .inl ⟨hplace, hbucket, fun _ => ⟨hbucket, ?_⟩⟩
      rcases hall with ⟨pfx, hpassed⟩ | ⟨⟨pfx, hpassed⟩, heq⟩
      · have hlt := hpassed.lt (List.append_ne_nil_of_right_ne_nil _ (List.cons_ne_nil _ _))
        rw [lastKey_concat] at hlt
        refine ⟨fun e he => ?_, le_of_lt hlt⟩
        exact ((entry_le_lastKey h.ascending).2 e he).trans_lt (lt_of_le_of_lt hle hlt)
      · exact ⟨hpassed.lt_of_mem h.ascending, le_of_eq heq⟩
    · exact .inr ⟨place, before, n, after, hplace, hput, fun _ => hpassed, fun _ => hbehind,
        fun heq => absurd heq hkey⟩

/-- A leaf with a place for the key is not behind it. -/
theorem Placed.not_behind (hp : l.Placed ins place before n after) (h : l.Within 0 b)
    (hplace : b.place ins = some (some place)) (hkey : ins.key ≠ []) : ¬l.Behind ins.key := by
  rintro ⟨hbucket, hlt, hbound⟩
  have hbehind := hp.behind hkey
  rcases Bucket.split_last hp.split with ⟨-, rfl, rfl⟩ | ⟨after', -, hes⟩
  · -- the marker has the key
    have hle := hbehind (fun heq => absurd (heq.symm.trans hbucket) (by decide))
      (h.le_bound hbucket)
    have hsame : l.t.key (lastKey [] l.es) = ins.key := le_antisymm hbound hle
    have hpassed := hp.passed hkey
    have hcommon := hpassed.shared.common_eq hp.prefix_le
    rw [hsame, common_self] at hcommon
    have hlength := Node.length_key (hp.prefix_le.trans hpassed.shared.le_last)
    rw [hsame] at hlength
    have hnode := (hp.split ▸ h.lays).node
    rw [← hp.node] at hnode
    rw [Bucket.place] at hplace
    split at hplace
    · cases hplace
    · cases hplace
    · refine Bucket.placeLoop_ne hplace ((btnNumber_eq hnode).trans hbucket) ?_
      rw [btnLength_eq hnode, btnPrefix_eq hnode, hp.oldPrefix]
      omega
  · have hentry := h.entry n (hes ▸ List.mem_append_right _ List.mem_cons_self)
    have hmem := mem_entries before n after'
    have ha := h.ascending
    rw [← hes] at hmem
    rw [hes] at ha
    have hle := hbehind (fun heq => hentry (heq ▸ by decide))
      ((ascending_append _ _ _).mp ha).2.1
    exact absurd (hlt _ hmem) (not_lt_of_ge hle)

/-- The duplicates found are the numbers of all entries of the leaf that have the key, unless it
is empty. -/
theorem Placed.mem_found (hp : l.Placed ins place before n after) (h : l.Within 0 b)
    (hu : ins.unique = true) (x : Quad) :
    x ∈ ins.found n after ↔ ins.key ≠ [] ∧ (ins.key, x) ∈ l.pairs := by
  rw [Insertion.found, if_pos hu]
  by_cases hkey : ins.key = []
  · have hsame : ins.same n = 0 := by
      rw [Insertion.same, hkey, List.drop_nil, common_nil_left]
    have hne : ¬((n.rebuild (ins.same n)).btnData = [] ∧
        (n.rebuild (ins.same n)).btnPrefix.val = ins.key.length ∧
          ¬(n.rebuild (ins.same n)).btnNumber.Negative) := by
      rintro ⟨hdata, -, hneg⟩
      have hdata : n.btnData.drop (ins.same n) = [] := hdata
      rw [hsame, List.drop_zero] at hdata
      rcases hp.empty hkey with hlevel | hdata'
      · exact hneg (show n.btnNumber.Negative from hlevel ▸ by decide)
      · exact hdata' hdata
    rw [equalRun, if_neg hne]
    exact iff_of_false List.not_mem_nil fun hne => hne.1 hkey
  · have hpassed := hp.passed hkey
    have hs := hpassed.shared
    have hle := hp.prefix_le
    refine Iff.trans ?_ (and_iff_right hkey).symm
    rcases Bucket.split_last hp.split with ⟨rfl, rfl, rfl⟩ | ⟨after', rfl, hes⟩
    · -- in front of the marker
      have hneg : (l.t.rebuild (ins.same l.t)).btnNumber.Negative := h.isEnd.negative
      rw [equalRun, if_neg fun hrun => hrun.2.2 hneg]
      refine iff_of_false List.not_mem_nil fun hmem => ?_
      exact absurd (hpassed.lt_of_mem h.ascending _ hmem) (lt_irrefl _)
    · -- in front of an entry
      have hc := h.compressed
      have ha := h.ascending
      rw [hp.split] at hc
      rw [hes] at ha
      obtain ⟨hbefore, ha⟩ := (ascending_append _ _ _).mp ha
      have hentry : ∀ m ∈ n :: after', ¬m.btnNumber.Negative :=
        fun m hm => h.entry m (hes ▸ List.mem_append_right _ hm)
      have hge : ins.key ≤ n.key (lastKey [] before) :=
        hp.behind hkey (fun heq => hentry n List.mem_cons_self (heq ▸ by decide)) ha.1
      have hrebuild := hs.key_rebuild hle
      have hinto := ((compressed_append _ _ _).mp (hpassed.compressed_into hle hc)).2.2
      rw [hs.key_node] at hinto
      have hafter : Ascending ins.key (n.rebuild (ins.same n) :: after') := by
        rw [Ascending, hrebuild]
        exact ⟨hge, ha.2⟩
      have hnumbers : ∀ m ∈ n.rebuild (ins.same n) :: after', ¬m.btnNumber.Negative :=
        List.forall_mem_cons.mpr ⟨hentry n List.mem_cons_self,
          fun m hm => hentry m (List.mem_cons_of_mem _ hm)⟩
      have hrun := mem_equalRun (n.rebuild (ins.same n) :: after') hinto hafter hnumbers
        h.isEnd.negative x
      have hpairs : l.pairs =
          entries [] before ++ entries ins.key (n.rebuild (ins.same n) :: after') := by
        rw [pairs, hes, entries_append, entries, entries, hrebuild]
        rfl
      rw [List.cons_append] at hrun
      rw [hrun, hpairs, List.mem_append]
      refine (or_iff_right fun hmem => ?_).symm
      exact absurd (hpassed.lt_of_mem hbefore _ hmem) (lt_irrefl _)

/-- What `insert_node` does in a leaf: it goes on to the next one, or the duplicates that it
finds when the bucket does not split are those of this leaf. -/
theorem Within.insertNode (h : l.Within 0 b) (hd : ins.descending = false) (hu : ins.unique = true)
    (pageSize window split : ℕ) (newKey : Memory UCHAR) :
    (b.insertNode ins pageSize window split newKey = some .wrongBucket ∧
      l.t.btnNumber = endBucket ∧ (ins.key ≠ [] → l.Behind ins.key)) ∨
    (b.insertNode ins pageSize window split newKey ≠ some .wrongBucket ∧
      (ins.key ≠ [] → ¬l.Behind ins.key) ∧ ∀ b' dups,
        b.insertNode ins pageSize window split newKey = some (.fits b' dups) →
          ∀ x, x ∈ dups ↔ ins.key ≠ [] ∧ (ins.key, x) ∈ l.pairs) := by
  rcases h.search hd with ⟨hplace, hbucket, hbehind⟩ | ⟨place, before, n, after, hplace, hp⟩
  · exact .inl ⟨insertNode_wrongBucket hplace, hbucket, hbehind⟩
  · refine .inr ⟨?_, hp.not_behind h hplace, fun b' dups hins x => ?_⟩
    · intro hins
      rw [Bucket.insertNode, hplace] at hins
      obtain ⟨delta, -, hins⟩ := Option.bind_eq_some_iff.mp hins
      obtain ⟨⟨dups, node⟩, -, hins⟩ := Option.bind_eq_some_iff.mp hins
      dsimp only at hins
      split at hins
      · cases hins
      · obtain ⟨r, -, hins⟩ := Option.bind_eq_some_iff.mp hins
        cases hins
    · cases hdelta : b.delta ins place with
      | none =>
          rw [insertNode_of_delta hplace hdelta] at hins
          cases hins
      | some delta =>
          have hslides : Slides b l.es l.t ins place before n after delta :=
            ⟨hp.toPut, hplace, hdelta⟩
          obtain ⟨-, -, rfl⟩ := hslides.eq_of_fits h.toFormatted hins
          exact hp.mem_found h hu x

end Page

/-! ## Probing -/

section

variable {buckets : ℕ → Bucket} {ins : Insertion} {pageSize split fuel : ℕ}
  {newKey : Memory UCHAR} {b : Bucket} {dups : List Quad}

/-- The leaf that takes the key: the first one, from where the search begins, that is not behind
it -/
def taker (key : List UCHAR) (ls : List Page) : Option Page := ls.find? fun l => ¬l.Behind key

/-- The loop ends with the leaf that takes the key. -/
theorem addLeaf_taker {start : Page} {rest : List Page} (h : IndexLevel buckets 0 (start :: rest))
    (hd : ins.descending = false) (hu : ins.unique = true)
    (hadd : addLeaf buckets ins pageSize split newKey fuel start.page = some (.fits b dups)) :
    ∃ l, (ins.key ≠ [] → taker ins.key (start :: rest) = some l) ∧
      ∀ x, x ∈ dups ↔ ins.key ≠ [] ∧ (ins.key, x) ∈ l.pairs := by
  induction fuel generalizing start rest with
  | zero => cases hadd
  | succ fuel ih =>
      rw [addLeaf] at hadd
      rcases (h.within start List.mem_cons_self).insertNode hd hu pageSize start.page split newKey
        with ⟨hins, hbucket, hbehind⟩ | ⟨hins, hbehind, hdups⟩
      · -- on to the next leaf, which there is
        rw [hins] at hadd
        cases rest with
        | nil =>
            have hlevel := h.last start rfl
            exact absurd (hlevel.symm.trans hbucket) (by decide)
        | cons next rest =>
            have hnext := (List.isChain_cons_cons.mp h.chain).1
            dsimp only at hadd
            rw [hnext.sibling] at hadd
            obtain ⟨l, htaker, hdups⟩ := ih (h.append [start] (List.cons_ne_nil _ _)) hadd
            refine ⟨l, fun hkey => ?_, hdups⟩
            rw [taker, List.find?_cons_of_neg (by simpa using hbehind hkey)]
            exact htaker hkey
      · split at hadd
        · rename_i heq
          exact absurd heq hins
        · refine ⟨start, fun hkey => ?_, hdups _ _ hadd⟩
          exact List.find?_cons_of_pos (by simpa using hbehind hkey)

/-- In a level that the key is inserted into without a split, all its duplicates are found if and
only if the leaf that takes it has the numbers of all of them. An empty key has none. -/
theorem probing_complete_iff (left right : List Page) {start : Page}
    (h : IndexLevel buckets 0 (left ++ start :: right)) (hd : ins.descending = false)
    (hu : ins.unique = true)
    (hadd : addLeaf buckets ins pageSize split newKey fuel start.page = some (.fits b dups)) :
    (∀ l ∈ left ++ start :: right, ∀ x, (ins.key, x) ∈ l.pairs → x ∈ dups) ↔
      ∀ l ∈ left ++ start :: right, ∀ x, (ins.key, x) ∈ l.pairs → ins.key ≠ [] ∧
        ∃ m, taker ins.key (start :: right) = some m ∧ (ins.key, x) ∈ m.pairs := by
  obtain ⟨m, htaker, hdups⟩ := addLeaf_taker (h.append left (List.cons_ne_nil _ _)) hd hu hadd
  refine forall₄_congr fun l hl x hx => ?_
  rw [hdups x]
  constructor
  · rintro ⟨hkey, hmem⟩
    exact ⟨hkey, m, htaker hkey, hmem⟩
  · rintro ⟨hkey, m', htaker', hmem⟩
    obtain rfl := Option.some.inj ((htaker hkey).symm.trans htaker')
    exact ⟨hkey, hmem⟩

end

/-! ## Equal keys in two leaves -/

/-- A node with a number below 256 -/
def smallNode (pfx number : UCHAR) (data : List UCHAR) (h : data.length ≤ 255) : Node :=
  ⟨pfx, ⟨number, 0, 0, 0⟩, data, h⟩

/-- The key `5` for record 3 -/
def anotherFive : Insertion := ⟨⟨3, 0, 0, 0⟩, ⟨0, 0, 0, 0⟩, [5], true, false, Bytes.one_le⟩

/-- Two leaves, of which the first is full when it has these nodes -/
def twoBuckets (l l' : Page) (page : ℕ) : Bucket :=
  if page = l.page then .format ⟨1, 0, 0, false⟩ l'.page 0 (l.es ++ [l.t])
  else .format ⟨1, 0, 0, false⟩ 0 l.page (l'.es ++ [l'.t])

/-- The key `5` for records 1 and 2 -/
def bothFives : Page :=
  ⟨1, [smallNode 0 1 [5] Bytes.one_le, smallNode 1 2 [] Bytes.zero_le],
    ⟨0, endBucket, [7], Bytes.one_le⟩⟩

/-- The key `7` for record 4 -/
def lastSeven : Page := ⟨2, [smallNode 0 4 [7] Bytes.one_le], levelEnd⟩

/-- The key `5` for record 1, and a marker with the key that the next leaf begins with -/
def firstFive : Page :=
  ⟨1, [smallNode 0 1 [5] Bytes.one_le], ⟨1, endBucket, [], Bytes.zero_le⟩⟩

/-- The key `5` for record 2 -/
def secondFive : Page := ⟨2, [smallNode 0 2 [5] Bytes.one_le], levelEnd⟩

theorem bothFives_level : IndexLevel (twoBuckets bothFives lastSeven) 0 [bothFives, lastSeven] where
  within := by
    refine List.forall_mem_cons.mpr ⟨?_, List.forall_mem_cons.mpr ⟨?_, nofun⟩⟩
    · exact ⟨⟨by decide, Bucket.lays_format .., fun h => absurd rfl h⟩, rfl, by decide, by decide,
        by decide⟩
    · exact ⟨⟨by decide, Bucket.lays_format .., fun h => absurd rfl h⟩, rfl, by decide, by decide,
        by decide⟩
  chain := List.isChain_pair.mpr ⟨rfl, rfl, by decide⟩
  last := by
    rintro l ⟨⟩
    rfl

theorem bothFives_slides : Slides (twoBuckets bothFives lastSeven 1) bothFives.es bothFives.t
    anotherFive ⟨34, 0, ⟨1, 0, 0, 0⟩, 1, 0⟩ [] (smallNode 0 1 [5] Bytes.one_le)
    [smallNode 1 2 [] Bytes.zero_le, bothFives.t] 6 :=
  ⟨⟨rfl, by decide, by decide, by decide, rfl, by decide, by decide⟩, by decide, by decide⟩

/-- Both duplicates in the first leaf are found, and the second leaf has none. -/
theorem probing_complete_bothFives : ∃ b dups,
    addLeaf (twoBuckets bothFives lastSeven) anotherFive 1024 3 (fun _ => 0) 2 1 =
      some (.fits b dups) ∧
    ∀ l ∈ [bothFives, lastSeven], ∀ x, ([5], x) ∈ l.pairs → x ∈ dups := by
  have hb := (IndexLevel.within bothFives_level bothFives List.mem_cons_self).toFormatted
  obtain ⟨b, dups, hadd⟩ : ∃ b dups, addLeaf (twoBuckets bothFives lastSeven) anotherFive 1024 3
      (fun _ => 0) 2 1 = some (.fits b dups) :=
    ⟨_, _, by rw [addLeaf, bothFives_slides.insertNode_fits hb (by decide)]⟩
  refine ⟨b, dups, hadd, (probing_complete_iff [] [lastSeven] bothFives_level rfl rfl hadd).mpr ?_⟩
  have htaker : taker [5] [bothFives, lastSeven] = some bothFives :=
    List.find?_cons_of_pos (by decide)
  refine List.forall_mem_cons.mpr ⟨fun x hx => ?_, List.forall_mem_cons.mpr ⟨fun x hx => ?_, nofun⟩⟩
  · exact ⟨List.cons_ne_nil _ _, bothFives, htaker, hx⟩
  · exact absurd (Prod.mk.inj (List.mem_singleton.mp hx)).1 (by decide)

theorem firstFive_level : IndexLevel (twoBuckets firstFive secondFive) 0 [firstFive, secondFive] where
  within := by
    refine List.forall_mem_cons.mpr ⟨?_, List.forall_mem_cons.mpr ⟨?_, nofun⟩⟩
    · exact ⟨⟨by decide, Bucket.lays_format .., fun h => absurd rfl h⟩, rfl, by decide, by decide,
        by decide⟩
    · exact ⟨⟨by decide, Bucket.lays_format .., fun h => absurd rfl h⟩, rfl, by decide, by decide,
        by decide⟩
  chain := List.isChain_pair.mpr ⟨rfl, rfl, by decide⟩
  last := by
    rintro l ⟨⟩
    rfl

/-- The new node goes to the first leaf, and the record in the second is not found. -/
theorem probing_misses : IndexLevel (twoBuckets firstFive secondFive) 0 [firstFive, secondFive] ∧
    ([5], ⟨2, 0, 0, 0⟩) ∈ secondFive.pairs ∧ ∃ b dups,
      addLeaf (twoBuckets firstFive secondFive) anotherFive 1024 3 (fun _ => 0) 2 1 =
        some (.fits b dups) ∧ ⟨2, 0, 0, 0⟩ ∉ dups := by
  have hslides : Slides (twoBuckets firstFive secondFive 1) firstFive.es firstFive.t anotherFive
      ⟨34, 0, ⟨1, 0, 0, 0⟩, 1, 0⟩ [] (smallNode 0 1 [5] Bytes.one_le) [firstFive.t] 6 :=
    ⟨⟨rfl, by decide, by decide, by decide, rfl, by decide, by decide⟩, by decide, by decide⟩
  have hb := (IndexLevel.within firstFive_level firstFive List.mem_cons_self).toFormatted
  obtain ⟨b, hadd⟩ : ∃ b, addLeaf (twoBuckets firstFive secondFive) anotherFive 1024 3
      (fun _ => 0) 2 1 = some (.fits b [⟨1, 0, 0, 0⟩]) :=
    ⟨_, by rw [addLeaf, hslides.insertNode_fits hb (by decide)]; rfl⟩
  exact ⟨firstFive_level, List.mem_singleton_self _, b, _, hadd, by decide⟩

end Firebird.Btr
