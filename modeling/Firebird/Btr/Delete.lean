import Firebird.Btr.Node

/-! # Deletion from a bucket (`delete_node` in `jrd/btr.cpp`)

The node behind the deleted one is moved over it. Where it has more in common with the deleted
key than that one has with the key before, it takes the bytes between out of the deleted node.
-/

namespace Firebird.Btr

namespace Bucket

/-- `delete_node`, up to `btr_length` -/
def deleteNode (b : Bucket) (node : ℕ) : Bucket :=
  let next := nextNode b.page node
  let page := putNumber b.page node (btnNumber b.page next)
  let l := btnLength page next
  let q := next + 6
  if btnPrefix page node < btnPrefix page next then
    let page' := putLength page node (l + btnPrefix page next - btnPrefix page node)
    let p := node + 6 + (btnPrefix page next - btnPrefix page node)
    let page'' := Memory.moveDown l page' p q
    let l' := b.length - (q + l)
    -- MEMMOVE (q, p, l)
    { b with page := Memory.moveDown l' page'' (p + l) (q + l), length := p + l + l' }
  else
    let page' := putPrefix (putLength page node l) node (btnPrefix page next)
    let p := node + 6
    let page'' := Memory.moveDown l page' p q
    let l' := b.length - (q + l)
    { b with
      page := Memory.moveDown l' page'' (p + l) (q + l), length := p + l + l'
      prefixTotal := b.prefixTotal - btnPrefix page node }

end Bucket

/-- What two nodes become when the first one is deleted -/
def Node.absorb (n m : Node) (h : m.btnPrefix.val + m.btnData.length ≤ 255) : Node where
  btnPrefix := min n.btnPrefix m.btnPrefix
  btnNumber := m.btnNumber
  btnData := n.btnData.take (m.btnPrefix.val - n.btnPrefix.val) ++ m.btnData
  length_le := by
    rw [List.length_append, List.length_take]
    omega

section

variable {prev : List UCHAR} {n m : Node}

theorem Node.val_min (n m : Node) :
    (min n.btnPrefix m.btnPrefix).val = min n.btnPrefix.val m.btnPrefix.val := by
  rcases le_total n.btnPrefix m.btnPrefix with h | h
  · rw [min_eq_left h, Nat.min_eq_left h]
  · rw [min_eq_right h, Nat.min_eq_right h]

/-- The key of the node behind stays. -/
theorem Node.key_absorb (h : m.btnPrefix.val + m.btnData.length ≤ 255)
    (hn : n.btnPrefix.val ≤ prev.length) :
    (n.absorb m h).key prev = m.key (n.key prev) := by
  rw [Node.key, Node.key, Node.key, absorb, Node.val_min, List.take_append, List.take_take,
    List.length_take_of_le hn, Nat.min_comm, List.append_assoc]

theorem Node.length_absorb (h : m.btnPrefix.val + m.btnData.length ≤ 255)
    (hm : m.btnPrefix.val ≤ n.btnPrefix.val + n.btnData.length) :
    (n.absorb m h).btnData.length = m.btnPrefix.val - n.btnPrefix.val + m.btnData.length := by
  rw [absorb, List.length_append, List.length_take]
  omega

end

namespace Bucket

variable {b : Bucket} {before after : List Node} {n m : Node}

/-- A bucket where what stands behind a node is moved down to it -/
theorem Lays.of_moveDown {page : Memory UCHAR} {n' : Node} {d : List UCHAR} {a p q l l' : ℕ}
    (ha : a = btrNodes + size before) (hp : p = a + 6 + d.length) (hpq : p ≤ q)
    (hl : l = m.btnData.length) (hl' : l' = size after)
    (hbefore : page.Holds btrNodes (before.flatMap Node.bytes))
    (hhead : page.Holds a (head n'.btnPrefix (uchar n'.btnData.length) n'.btnNumber))
    (hd : page.Holds (a + 6) d) (hdata : n'.btnData = d ++ m.btnData)
    (hbehind : page.Holds q (m.btnData ++ after.flatMap Node.bytes))
    (hpage : b.page = Memory.moveDown l' (Memory.moveDown l page p q) (p + l) (q + l))
    (hlength : b.length = p + l + l') : b.Lays (before ++ n' :: after) := by
  have hfront : page.Holds btrNodes (before.flatMap Node.bytes ++
      (head n'.btnPrefix (uchar n'.btnData.length) n'.btnNumber ++ d)) := by
    refine Memory.holds_append.mpr ⟨hbefore, ?_⟩
    rw [length_flatMap_bytes, ← ha]
    exact Memory.holds_append.mpr ⟨hhead, hd⟩
  have hmoved : (m.btnData ++ after.flatMap Node.bytes).length = l + l' := by
    rw [List.length_append, length_flatMap_bytes, hl, hl']
  have hat : btrNodes + (before.flatMap Node.bytes ++
      (head n'.btnPrefix (uchar n'.btnData.length) n'.btnNumber ++ d)).length = p := by
    rw [List.length_append, length_flatMap_bytes, List.length_append, length_head, hp, ha]
    omega
  refine ⟨?_, ?_⟩
  · have hall := hfront.append_moveDown hbehind hat hpq
    rw [hmoved, Memory.moveDown_add, ← hpage] at hall
    rw [List.flatMap_append, List.flatMap_cons, Node.bytes_eq, hdata]
    rw [hdata] at hall
    simpa only [List.append_assoc] using hall
  · rw [hlength, hp, ha, hl, hl', size_append, size_cons, Node.size, hdata, List.length_append]
    omega

/-- The two nodes once the number has been moved -/
structure Renumbered (b : Bucket) (before after : List Node) (n m : Node) (a : ℕ)
    (page : Memory UCHAR) : Prop where
  next : nextNode b.page a = a + n.size
  number : btnNumber b.page (a + n.size) = m.btnNumber
  before : page.Holds btrNodes (before.flatMap Node.bytes)
  head : page.Holds a (head n.btnPrefix (uchar n.btnData.length) m.btnNumber)
  data : page.Holds (a + 6) n.btnData
  after : page.Holds (a + n.size) (m.bytes ++ after.flatMap Node.bytes)

theorem Lays.renumbered (h : b.Lays (before ++ n :: m :: after)) {a : ℕ}
    (ha : a = btrNodes + size before) :
    Renumbered b before after n m a (putNumber b.page a m.btnNumber) := by
  have hsplit : before ++ n :: m :: after = before ++ [n] ++ m :: after := by
    rw [List.append_assoc, List.singleton_append]
  have hn := h.node
  have hdrop := (hsplit ▸ h).drop
  rw [size_concat, ← Nat.add_assoc, ← ha] at hdrop
  rw [← ha] at hn
  have hdata : b.page.Holds (a + 6) n.btnData := (Iff.mp holds_bytes_iff hn).2.2.2
  refine ⟨nextNode_eq hn, btnNumber_eq (Memory.holds_append.mp hdrop).1, ?_, ?_, ?_, ?_⟩
  · exact holds_putNumber_of_disjoint h.take (.inl (by rw [length_flatMap_bytes, ha])) _
  · exact holds_putNumber (Memory.holds_append.mp hn).1 _
  · exact holds_putNumber_of_disjoint hdata (.inr (Nat.le_refl _)) _
  · exact holds_putNumber_of_disjoint hdrop (.inr (by rw [Node.size]; omega)) _

namespace Renumbered

variable {a : ℕ} {page : Memory UCHAR}

theorem prefix_eq (h : Renumbered b before after n m a page) :
    btnPrefix page a = n.btnPrefix.val :=
  congrArg Fin.val (holds_head_iff.mp h.head).1

theorem node (h : Renumbered b before after n m a page) : page.Holds (a + n.size) m.bytes :=
  (Memory.holds_append.mp h.after).1

theorem behind (h : Renumbered b before after n m a page) :
    page.Holds (a + n.size + 6) (m.btnData ++ after.flatMap Node.bytes) := by
  have hafter := h.after
  rw [Node.bytes_eq, List.append_assoc, Memory.holds_append] at hafter
  exact hafter.2

end Renumbered

/-- The nodes of the bucket after the deletion -/
theorem Lays.deleteNode (h : b.Lays (before ++ n :: m :: after))
    (hfit : m.btnPrefix.val + m.btnData.length ≤ 255)
    (hm : m.btnPrefix.val ≤ n.btnPrefix.val + n.btnData.length) :
    (b.deleteNode (btrNodes + size before)).Lays (before ++ n.absorb m hfit :: after) := by
  obtain ⟨a, ha⟩ : ∃ a, a = btrNodes + size before := ⟨_, rfl⟩
  have hr := h.renumbered ha
  rw [← ha]
  have hlength := h.length
  rw [size_append, size_cons, size_cons] at hlength
  have hsize : n.size = 6 + n.btnData.length := rfl
  have hlen := n.length_absorb hfit hm
  simp only [Bucket.deleteNode, hr.next, hr.number, hr.prefix_eq, btnPrefix_eq hr.node,
    btnLength_eq hr.node]
  split
  · -- the node takes the bytes between out of the data of the deleted one
    rename_i hlt
    have hk : (n.btnData.take (m.btnPrefix.val - n.btnPrefix.val)).length =
        m.btnPrefix.val - n.btnPrefix.val := List.length_take_of_le (by omega)
    have hd := hr.data
    rw [← List.take_append_drop (m.btnPrefix.val - n.btnPrefix.val) n.btnData,
      Memory.holds_append] at hd
    refine Lays.of_moveDown ha (congrArg (a + 6 + ·) hk.symm) ?_ rfl ?_
      (holds_putLength_of_disjoint hr.before (.inl ?_) _) ?_
      (holds_putLength_of_disjoint hd.1 (.inr (Nat.le_refl _)) _) rfl
      (holds_putLength_of_disjoint hr.behind (.inr ?_) _) rfl rfl
    · omega
    · rw [hlength, ha, Node.size, Node.size]
      omega
    · rw [length_flatMap_bytes, ha]
    · have hput := holds_putLength hr.head
        (m.btnData.length + m.btnPrefix.val - n.btnPrefix.val)
      have hmin : (n.absorb m hfit).btnPrefix = n.btnPrefix := min_eq_left (le_of_lt hlt)
      rw [hmin, hlen, show m.btnPrefix.val - n.btnPrefix.val + m.btnData.length =
        m.btnData.length + m.btnPrefix.val - n.btnPrefix.val by omega]
      exact hput
    · omega
  · -- the node stands as it is
    rename_i hge
    have hmin : (n.absorb m hfit).btnPrefix = m.btnPrefix := min_eq_right (Nat.le_of_not_lt hge)
    have hd : (n.absorb m hfit).btnData = m.btnData := by
      have hzero : m.btnPrefix.val - n.btnPrefix.val = 0 := by omega
      have htake : n.btnData.take (m.btnPrefix.val - n.btnPrefix.val) = [] := by
        rw [hzero, List.take_zero]
      exact congrArg (· ++ m.btnData) htake
    refine Lays.of_moveDown (d := []) (p := a + 6) ha rfl ?_ rfl ?_
      (holds_putPrefix_of_disjoint (holds_putLength_of_disjoint hr.before (.inl ?_) _) (.inl ?_) _)
      ?_ (Memory.holds_nil _ _) hd
      (holds_putPrefix_of_disjoint (holds_putLength_of_disjoint hr.behind (.inr ?_) _) (.inr ?_) _)
      rfl rfl
    · omega
    · rw [hlength, ha, Node.size, Node.size]
      omega
    · rw [length_flatMap_bytes, ha]
    · rw [length_flatMap_bytes, ha]
    · have hput := holds_putPrefix (holds_putLength hr.head m.btnData.length) m.btnPrefix.val
      rw [uchar_val] at hput
      rw [hmin, hd]
      exact hput
    · omega
    · omega

/-- What the deletion leaves of the total: only what the deleted node shares with the key before
it is taken off, and this only where the node behind shares no more. -/
theorem prefixTotal_deleteNode (h : b.Lays (before ++ n :: m :: after)) :
    (b.deleteNode (btrNodes + size before)).prefixTotal =
      if n.btnPrefix.val < m.btnPrefix.val then b.prefixTotal
      else b.prefixTotal - n.btnPrefix.val := by
  have hr := h.renumbered rfl
  simp only [Bucket.deleteNode, hr.next, hr.number, hr.prefix_eq, btnPrefix_eq hr.node]
  split
  · rfl
  · rfl

end Bucket

/-! ## The entries that are left -/

section

variable {prev : List UCHAR} {before after : List Node} {n m : Node}
  {hfit : m.btnPrefix.val + m.btnData.length ≤ 255}

theorem entries_absorb (hn : n.btnPrefix.val ≤ (lastKey prev before).length) :
    entries prev (before ++ n.absorb m hfit :: after) =
      (entries prev (before ++ n :: m :: after)).eraseIdx before.length := by
  rw [entries_append, entries_append, entries, entries, entries, Node.key_absorb hfit hn,
    ← length_entries prev before, List.eraseIdx_append_of_length_le (Nat.le_refl _), Nat.sub_self,
    List.eraseIdx_cons_zero]
  rfl

theorem chained_absorb (h : Chained prev (before ++ n :: m :: after)) :
    Chained prev (before ++ n.absorb m hfit :: after) := by
  obtain ⟨hbefore, hn, -, -, hm, hafter⟩ := (chained_append _ _ _).mp h
  have hkey := n.key_absorb hfit hn
  refine (chained_append _ _ _).mpr ⟨hbefore, ?_, hkey ▸ hm, hkey ▸ hafter⟩
  rw [Node.absorb, Node.val_min]
  exact Nat.le_trans (Nat.min_le_left _ _) hn

/-- The node behind an entry -/
theorem Chained.next (h : Chained prev (before ++ n :: m :: after)) :
    m.btnPrefix.val + m.btnData.length ≤ 255 ∧
      m.btnPrefix.val ≤ n.btnPrefix.val + n.btnData.length := by
  obtain ⟨-, hn, -, hm, hlen, -⟩ := (chained_append _ _ _).mp h
  rw [Node.length_key hm] at hlen
  rw [Node.length_key hn] at hm
  exact ⟨hlen, hm⟩

end

/-- `delete_node` takes its entry out of the bucket, and nothing else: the other keys and numbers
and the marker stay, and the length is what the nodes take. -/
theorem delete_node_removes {b : Bucket} {es before after : List Node} {n t : Node}
    (hw : WellFormed es t) (hb : b.Lays (es ++ [t])) (hes : es = before ++ n :: after) :
    ∃ es' t', WellFormed es' t' ∧ (b.deleteNode (btrNodes + size before)).Lays (es' ++ [t']) ∧
      entries [] (es' ++ [t']) = (entries [] (es ++ [t])).eraseIdx before.length ∧
        t'.btnNumber = t.btnNumber := by
  subst hes
  cases after with
  | nil =>
      have hsplit : before ++ [n] ++ [t] = before ++ n :: t :: [] := by
        rw [List.append_assoc, List.singleton_append]
      rw [hsplit] at hb ⊢
      have hchained := hw.chained
      rw [hsplit] at hchained
      obtain ⟨hfit, hle⟩ := hchained.next
      have hn := ((chained_append _ _ _).mp hchained).2.1
      refine ⟨before, n.absorb t hfit, ⟨chained_absorb hchained, fun e he => ?_, hw.isEnd,
        fun ht => ?_⟩, hb.deleteNode hfit hle, entries_absorb hn, rfl⟩
      · exact hw.entry e (List.mem_append_left _ he)
      · obtain ⟨hinitial, hdata⟩ := hw.endLevel ht
        have hzero : t.btnPrefix.val - n.btnPrefix.val = 0 := by
          rw [hinitial]
          exact Nat.zero_sub _
        constructor
        · change min n.btnPrefix t.btnPrefix = 0
          rw [hinitial]
          exact min_eq_right (Fin.zero_le _)
        · change n.btnData.take (t.btnPrefix.val - n.btnPrefix.val) ++ t.btnData = []
          rw [hzero, hdata, List.take_zero, List.nil_append]
  | cons m after =>
      have hsplit : before ++ n :: m :: after ++ [t] = before ++ n :: m :: (after ++ [t]) := by
        rw [List.append_assoc, List.cons_append, List.cons_append]
      rw [hsplit] at hb ⊢
      have hchained := hw.chained
      rw [hsplit] at hchained
      obtain ⟨hfit, hle⟩ := hchained.next
      have hn := ((chained_append _ _ _).mp hchained).2.1
      have hjoin : before ++ n.absorb m hfit :: after ++ [t] =
          before ++ n.absorb m hfit :: (after ++ [t]) := by
        rw [List.append_assoc, List.cons_append]
      refine ⟨before ++ n.absorb m hfit :: after, t, ⟨?_, fun e he => ?_, hw.isEnd, hw.endLevel⟩, ?_,
        ?_, rfl⟩
      · rw [hjoin]
        exact chained_absorb hchained
      · rcases List.mem_append.mp he with he | he
        · exact hw.entry e (List.mem_append_left _ he)
        · rcases List.mem_cons.mp he with rfl | he
          · exact hw.entry m (List.mem_append_right _ (List.mem_cons_of_mem _ List.mem_cons_self))
          · exact hw.entry e
              (List.mem_append_right _ (List.mem_cons_of_mem _ (List.mem_cons_of_mem _ he)))
      · rw [hjoin]
        exact hb.deleteNode hfit hle
      · rw [hjoin]
        exact entries_absorb hn

/-- The third of three keys gets the `7` back when the second one goes. -/
theorem delete_node_removes_second : ∃ es' t', WellFormed es' t' ∧
    ((Bucket.format ⟨1, 0, 0, false⟩ 0 0 (threeKeys ++ [levelEnd])).deleteNode 41).Lays
      (es' ++ [t']) ∧
    entries [] (es' ++ [t']) =
      [([5], ⟨1, 0, 0, 0⟩), ([5, 7, 9], ⟨3, 0, 0, 0⟩), ([], endLevel)] ∧
    t'.btnNumber = endLevel := by
  have hes : threeKeys = [⟨0, ⟨1, 0, 0, 0⟩, [5], by decide⟩] ++
      ⟨1, ⟨2, 0, 0, 0⟩, [7], by decide⟩ :: [⟨2, ⟨3, 0, 0, 0⟩, [9], by decide⟩] := rfl
  exact delete_node_removes (by decide) (Bucket.lays_format ..) hes

end Firebird.Btr
