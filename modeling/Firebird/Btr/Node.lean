import Firebird.Lib.Bytes
import Firebird.Lib.CommonPrefix
import Firebird.Lib.Memory

/-! # Index buckets (`btn`, `btr` in `jrd/ods.h`)

The nodes of a bucket stand behind each other from `btr_nodes` on. Each has the key of the
node before it up to its prefix, then its own data. A pointer to a node is its offset in the
page; numbers are compared as the four bytes that they are.
-/

namespace Firebird.Btr

/-- `LONGCHAR`: the bytes of an `SLONG` -/
@[ext]
structure Quad where
  c0 : UCHAR
  c1 : UCHAR
  c2 : UCHAR
  c3 : UCHAR
deriving DecidableEq

/-- `END_LEVEL`, -1 -/
def endLevel : Quad := ⟨255, 255, 255, 255⟩

/-- `END_BUCKET`, -2 -/
def endBucket : Quad := ⟨254, 255, 255, 255⟩

namespace Quad

/-- The number is less than 0. -/
def Negative (n : Quad) : Prop := 128 ≤ n.c3

instance (n : Quad) : Decidable n.Negative := inferInstanceAs (Decidable (128 ≤ n.c3))

def bytes (n : Quad) : List UCHAR := [n.c0, n.c1, n.c2, n.c3]

end Quad

/-- Conversion to `UCHAR` -/
def uchar (n : ℕ) : UCHAR := ⟨n % 256, Bytes.mod_lt n⟩

theorem val_uchar {n : ℕ} (h : n ≤ 255) : (uchar n).val = n :=
  Nat.mod_eq_of_lt (Nat.lt_succ_of_le h)

@[simp]
theorem uchar_val (c : UCHAR) : uchar c.val = c := Fin.ext (Nat.mod_eq_of_lt c.isLt)

/-! ## Nodes in a page -/

section

variable (page : Memory UCHAR) (node : ℕ)

/-- `BTN_PREFIX` -/
def btnPrefix : ℕ := (page node).val

/-- `BTN_LENGTH` -/
def btnLength : ℕ := (page (node + 1)).val

/-- `BTR_get_quad(BTN_NUMBER(node))` -/
def btnNumber : Quad := ⟨page (node + 2), page (node + 3), page (node + 4), page (node + 5)⟩

/-- The bytes at `BTN_DATA` -/
def btnData : List UCHAR := page.load (node + 6) (btnLength page node)

/-- `NEXT_NODE` -/
def nextNode : ℕ := node + 6 + btnLength page node

end

/-- `OFFSETA(BTR, btr_nodes)` -/
def btrNodes : ℕ := 34

/-- What all pages of an index level have alike -/
structure Header where
  relation : ℕ
  id : ℕ
  level : ℕ
  descending : Bool

/-- A bucket -/
structure Bucket where
  header : Header
  dontGc : Bool
  sibling : ℕ
  leftSibling : ℕ
  prefixTotal : ℤ
  length : ℕ
  page : Memory UCHAR

/-! ## Nodes by themselves -/

/-- A node -/
@[ext]
structure Node where
  btnPrefix : UCHAR
  btnNumber : Quad
  btnData : List UCHAR
  length_le : btnData.length ≤ 255

namespace Node

variable (n : Node)

/-- The header and the data -/
def bytes : List UCHAR :=
  n.btnPrefix :: uchar n.btnData.length :: (n.btnNumber.bytes ++ n.btnData)

def size : ℕ := 6 + n.btnData.length

theorem length_drop_le (k : ℕ) : (n.btnData.drop k).length ≤ 255 :=
  Nat.le_trans (List.length_drop ▸ Nat.sub_le _ k) n.length_le

theorem length_bytes : n.bytes.length = n.size := by
  simp only [bytes, Quad.bytes, size, List.length_cons, List.length_append, List.length_nil]
  omega

/-- The key of a node behind a node with another key -/
def key (prev : List UCHAR) : List UCHAR := prev.take n.btnPrefix.val ++ n.btnData

theorem length_key {n : Node} {prev : List UCHAR} (h : n.btnPrefix.val ≤ prev.length) :
    (n.key prev).length = n.btnPrefix.val + n.btnData.length := by
  rw [key, List.length_append, List.length_take_of_le h]

/-- An `END_LEVEL` or `END_BUCKET` marker -/
def IsEnd : Prop := n.btnNumber = endLevel ∨ n.btnNumber = endBucket

instance : Decidable n.IsEnd := inferInstanceAs (Decidable (_ ∨ _))

variable {n} in
theorem IsEnd.negative (h : n.IsEnd) : n.btnNumber.Negative := by
  rcases h with h | h
  · rw [h]
    decide
  · rw [h]
    decide

end Node

section

variable {page : Memory UCHAR} {node : ℕ} {n : Node}

/-- The fields of a node in a page -/
theorem holds_bytes_iff : page.Holds node n.bytes ↔
    page node = n.btnPrefix ∧ page (node + 1) = uchar n.btnData.length ∧
      btnNumber page node = n.btnNumber ∧ page.Holds (node + 6) n.btnData := by
  simp only [Node.bytes, Quad.bytes, Memory.holds_cons, List.cons_append, List.nil_append,
    Nat.add_assoc, btnNumber]
  constructor
  · rintro ⟨h₀, h₁, h₂, h₃, h₄, h₅, hdata⟩
    exact ⟨h₀, h₁, Quad.ext h₂ h₃ h₄ h₅, hdata⟩
  · rintro ⟨h₀, h₁, hnumber, hdata⟩
    rw [← hnumber]
    exact ⟨h₀, h₁, rfl, rfl, rfl, rfl, hdata⟩

theorem btnPrefix_eq (h : page.Holds node n.bytes) : btnPrefix page node = n.btnPrefix.val :=
  congrArg Fin.val (Iff.mp holds_bytes_iff h).1

theorem btnLength_eq (h : page.Holds node n.bytes) : btnLength page node = n.btnData.length := by
  rw [btnLength, (Iff.mp holds_bytes_iff h).2.1, val_uchar n.length_le]

theorem btnNumber_eq (h : page.Holds node n.bytes) : btnNumber page node = n.btnNumber :=
  (Iff.mp holds_bytes_iff h).2.2.1

theorem btnData_eq (h : page.Holds node n.bytes) : btnData page node = n.btnData := by
  rw [btnData, btnLength_eq h]
  exact (Iff.mp holds_bytes_iff h).2.2.2.load_eq

theorem nextNode_eq (h : page.Holds node n.bytes) : nextNode page node = node + n.size := by
  rw [nextNode, btnLength_eq h, Node.size, Nat.add_assoc]

end

/-! ## Writing a node -/

/-- The bytes before `btn_data` -/
def head (pfx len : UCHAR) (number : Quad) : List UCHAR := pfx :: len :: number.bytes

theorem Node.bytes_eq (n : Node) :
    n.bytes = head n.btnPrefix (uchar n.btnData.length) n.btnNumber ++ n.btnData := rfl

@[simp]
theorem length_head (pfx len : UCHAR) (number : Quad) : (head pfx len number).length = 6 := rfl

section

variable (page : Memory UCHAR) (node : ℕ)

/-- `BTN_PREFIX(node) = n` -/
def putPrefix (n : ℕ) : Memory UCHAR := page.store node [uchar n]

/-- `BTN_LENGTH(node) = n` -/
def putLength (n : ℕ) : Memory UCHAR := page.store (node + 1) [uchar n]

/-- `quad_put(n, BTN_NUMBER(node))` -/
def putNumber (n : Quad) : Memory UCHAR := page.store (node + 2) n.bytes

end

section

variable {page : Memory UCHAR} {node a : ℕ} {pfx len : UCHAR} {number : Quad} {ws : List UCHAR}

theorem holds_head_iff : page.Holds node (head pfx len number) ↔
    page node = pfx ∧ page (node + 1) = len ∧ page.Holds (node + 2) number.bytes := by
  rw [head, Memory.holds_cons, Memory.holds_cons]

theorem holds_head (page : Memory UCHAR) (node : ℕ) :
    page.Holds node (head (page node) (page (node + 1)) (btnNumber page node)) := by
  refine holds_head_iff.mpr ⟨rfl, rfl, ?_⟩
  rw [btnNumber, Quad.bytes, Memory.holds_cons, Memory.holds_cons, Memory.holds_cons,
    Memory.holds_cons]
  exact ⟨rfl, rfl, rfl, rfl, Memory.holds_nil _ _⟩

theorem holds_putPrefix (h : page.Holds node (head pfx len number)) (n : ℕ) :
    (putPrefix page node n).Holds node (head (uchar n) len number) := by
  obtain ⟨-, hlen, hnumber⟩ := holds_head_iff.mp h
  refine holds_head_iff.mpr ⟨?_, ?_, hnumber.store_of_disjoint (.inr ?_)⟩
  · rw [putPrefix, Memory.store_singleton_apply, if_pos rfl]
  · rw [putPrefix, Memory.store_singleton_apply, if_neg (Nat.succ_ne_self node), hlen]
  · exact Nat.le_succ (node + 1)

theorem holds_putLength (h : page.Holds node (head pfx len number)) (n : ℕ) :
    (putLength page node n).Holds node (head pfx (uchar n) number) := by
  obtain ⟨hpfx, -, hnumber⟩ := holds_head_iff.mp h
  refine holds_head_iff.mpr ⟨?_, ?_, hnumber.store_of_disjoint (.inr ?_)⟩
  · rw [putLength, Memory.store_singleton_apply, if_neg (Nat.succ_ne_self node).symm, hpfx]
  · rw [putLength, Memory.store_singleton_apply, if_pos rfl]
  · exact Nat.le_refl (node + 2)

theorem holds_putNumber (h : page.Holds node (head pfx len number)) (n : Quad) :
    (putNumber page node n).Holds node (head pfx len n) := by
  obtain ⟨hpfx, hlen, -⟩ := holds_head_iff.mp h
  refine holds_head_iff.mpr ⟨?_, ?_, Memory.holds_store _ _ _⟩
  · rw [putNumber, Memory.store_of_outside (.inl (by omega)), hpfx]
  · rw [putNumber, Memory.store_of_outside (.inl (by omega)), hlen]

/-- Nothing else is changed. -/
theorem holds_putPrefix_of_disjoint (h : page.Holds a ws) (hout : a + ws.length ≤ node ∨ node + 6 ≤ a)
    (n : ℕ) : (putPrefix page node n).Holds a ws :=
  h.store_of_disjoint (hout.imp_right fun hout => by rw [List.length_singleton]; omega)

theorem holds_putLength_of_disjoint (h : page.Holds a ws) (hout : a + ws.length ≤ node ∨ node + 6 ≤ a)
    (n : ℕ) : (putLength page node n).Holds a ws :=
  h.store_of_disjoint (by rw [List.length_singleton]; omega)

theorem holds_putNumber_of_disjoint (h : page.Holds a ws) (hout : a + ws.length ≤ node ∨ node + 6 ≤ a)
    (n : Quad) : (putNumber page node n).Holds a ws :=
  h.store_of_disjoint (hout.imp Nat.le_add_right_of_le id)

end

/-! ## Nodes behind each other -/

/-- The bytes that nodes take -/
def size (ns : List Node) : ℕ := (ns.map Node.size).sum

@[simp]
theorem size_nil : size [] = 0 := rfl

@[simp]
theorem size_cons (n : Node) (ns : List Node) : size (n :: ns) = n.size + size ns := by
  rw [size, List.map_cons, List.sum_cons, size]

@[simp]
theorem size_append (ns ns' : List Node) : size (ns ++ ns') = size ns + size ns' := by
  rw [size, List.map_append, List.sum_append, size, size]

theorem size_concat (ns : List Node) (n : Node) : size (ns ++ [n]) = size ns + n.size := by
  rw [size_append, size_cons, size_nil, Nat.add_zero]

theorem length_flatMap_bytes (ns : List Node) : (ns.flatMap Node.bytes).length = size ns := by
  induction ns with
  | nil => rfl
  | cons n ns ih => rw [List.flatMap_cons, List.length_append, n.length_bytes, ih, size_cons]

/-- The key of the last node -/
def lastKey (prev : List UCHAR) : List Node → List UCHAR
  | [] => prev
  | n :: ns => lastKey (n.key prev) ns

/-- The keys and numbers of nodes -/
def entries (prev : List UCHAR) : List Node → List (List UCHAR × Quad)
  | [] => []
  | n :: ns => (n.key prev, n.btnNumber) :: entries (n.key prev) ns

/-- The sum of the prefixes -/
def prefixSum (ns : List Node) : ℤ := (ns.map fun n => (n.btnPrefix.val : ℤ)).sum

/-- No prefix is longer than the key before, and no key longer than 255. -/
def Chained (prev : List UCHAR) : List Node → Prop
  | [] => True
  | n :: ns => n.btnPrefix.val ≤ prev.length ∧ (n.key prev).length ≤ 255 ∧ Chained (n.key prev) ns

instance Chained.decidable : (prev : List UCHAR) → (ns : List Node) → Decidable (Chained prev ns)
  | _, [] => isTrue trivial
  | prev, n :: ns =>
      have := decidable (n.key prev) ns
      inferInstanceAs (Decidable (_ ∧ _ ∧ _))

/-- Every prefix is all that the key has in common with the key before, as the engine
compresses keys. -/
def Compressed (prev : List UCHAR) : List Node → Prop
  | [] => True
  | n :: ns => n.btnPrefix.val = common prev (n.key prev) ∧ Compressed (n.key prev) ns

instance Compressed.decidable : (prev : List UCHAR) → (ns : List Node) →
    Decidable (Compressed prev ns)
  | _, [] => isTrue trivial
  | prev, n :: ns =>
      have := decidable (n.key prev) ns
      inferInstanceAs (Decidable (_ ∧ _))

section

variable (prev : List UCHAR) (n : Node) (ns ns' : List Node)

theorem lastKey_append : lastKey prev (ns ++ ns') = lastKey (lastKey prev ns) ns' := by
  induction ns generalizing prev with
  | nil => rfl
  | cons n ns ih => rw [List.cons_append, lastKey, lastKey, ih]

theorem entries_append :
    entries prev (ns ++ ns') = entries prev ns ++ entries (lastKey prev ns) ns' := by
  induction ns generalizing prev with
  | nil => rfl
  | cons n ns ih => rw [List.cons_append, entries, entries, ih, lastKey, List.cons_append]

theorem chained_append :
    Chained prev (ns ++ ns') ↔ Chained prev ns ∧ Chained (lastKey prev ns) ns' := by
  induction ns generalizing prev with
  | nil => exact (iff_of_eq (true_and _)).symm
  | cons n ns ih => rw [List.cons_append, Chained, Chained, ih, lastKey, and_assoc, and_assoc]

theorem compressed_append :
    Compressed prev (ns ++ ns') ↔ Compressed prev ns ∧ Compressed (lastKey prev ns) ns' := by
  induction ns generalizing prev with
  | nil => exact (iff_of_eq (true_and _)).symm
  | cons n ns ih => rw [List.cons_append, Compressed, Compressed, ih, lastKey, and_assoc]

@[simp]
theorem prefixSum_nil : prefixSum [] = 0 := rfl

@[simp]
theorem prefixSum_cons : prefixSum (n :: ns) = n.btnPrefix.val + prefixSum ns := by
  rw [prefixSum, List.map_cons, List.sum_cons, prefixSum]

@[simp]
theorem prefixSum_append : prefixSum (ns ++ ns') = prefixSum ns + prefixSum ns' := by
  rw [prefixSum, List.map_append, List.sum_append, prefixSum, prefixSum]

end

/-- The bucket consists of these nodes. -/
structure Bucket.Lays (b : Bucket) (ns : List Node) : Prop where
  nodes : b.page.Holds btrNodes (ns.flatMap Node.bytes)
  length : b.length = btrNodes + size ns

/-- An index bucket: the nodes of its entries and a marker behind them. The first node has no
prefix, as there is no key before. -/
structure WellFormed (es : List Node) (t : Node) : Prop where
  chained : Chained [] (es ++ [t])
  entry : ∀ n ∈ es, ¬n.btnNumber.Negative
  isEnd : t.IsEnd
  endLevel : t.btnNumber = endLevel → t.btnPrefix = 0 ∧ t.btnData = []

instance (es : List Node) (t : Node) : Decidable (WellFormed es t) :=
  decidable_of_iff (Chained [] (es ++ [t]) ∧ (∀ n ∈ es, ¬n.btnNumber.Negative) ∧ t.IsEnd ∧
      (t.btnNumber = endLevel → t.btnPrefix = 0 ∧ t.btnData = []))
    ⟨fun ⟨hchained, hentry, hend, hlevel⟩ => ⟨hchained, hentry, hend, hlevel⟩,
      fun h => ⟨h.chained, h.entry, h.isEnd, h.endLevel⟩⟩

/-- A bucket in the on-page format. Above the leaf level there always is an entry. -/
structure Bucket.Formatted (b : Bucket) (es : List Node) (t : Node) : Prop extends
    WellFormed es t where
  lays : b.Lays (es ++ [t])
  nonempty : b.header.level ≠ 0 → es ≠ []

theorem length_le_size (ns : List Node) : ns.length ≤ size ns := by
  induction ns with
  | nil => exact Nat.le_refl 0
  | cons n ns ih =>
      rw [List.length_cons, size_cons, Node.size]
      omega

namespace Bucket.Lays

variable {b : Bucket} {pre ns : List Node} {n : Node}

/-- A bucket has fewer nodes than bytes. -/
theorem length_lt {es : List Node} {t : Node} (h : b.Lays (es ++ [t])) : es.length < b.length := by
  have hlength := h.length
  have hle := length_le_size es
  rw [size_append, size_cons, Node.size] at hlength
  omega

/-- The nodes from one on -/
theorem drop (h : b.Lays (pre ++ ns)) :
    b.page.Holds (btrNodes + size pre) (ns.flatMap Node.bytes) := by
  have hnodes := h.nodes
  rw [List.flatMap_append, Memory.holds_append, length_flatMap_bytes] at hnodes
  exact hnodes.2

theorem take (h : b.Lays (pre ++ ns)) : b.page.Holds btrNodes (pre.flatMap Node.bytes) := by
  have hnodes := h.nodes
  rw [List.flatMap_append, Memory.holds_append] at hnodes
  exact hnodes.1

/-- One node -/
theorem node (h : b.Lays (pre ++ n :: ns)) : b.page.Holds (btrNodes + size pre) n.bytes := by
  have hnodes := h.drop
  rw [List.flatMap_cons, Memory.holds_append] at hnodes
  exact hnodes.1

end Bucket.Lays

theorem length_uchar_inj {d d' : List UCHAR} (hd : d.length ≤ 255) (hd' : d'.length ≤ 255)
    (h : uchar d.length = uchar d'.length) : d.length = d'.length := by
  rw [← val_uchar hd, ← val_uchar hd', h]

/-- Nodes are told by their bytes. -/
theorem flatMap_bytes_inj {ns ns' : List Node}
    (h : ns.flatMap Node.bytes = ns'.flatMap Node.bytes) : ns = ns' := by
  induction ns generalizing ns' with
  | nil =>
      cases ns' with
      | nil => rfl
      | cons n' ns' => cases h
  | cons n ns ih =>
      cases ns' with
      | nil => cases h
      | cons n' ns' =>
          rw [List.flatMap_cons, List.flatMap_cons, Node.bytes_eq, Node.bytes_eq,
            List.append_assoc, List.append_assoc] at h
          obtain ⟨hhead, hrest⟩ := List.append_inj h rfl
          simp only [head, Quad.bytes, List.cons.injEq] at hhead
          obtain ⟨hinitial, hlen, h₀, h₁, h₂, h₃, -⟩ := hhead
          have hlength := length_uchar_inj n.length_le n'.length_le hlen
          obtain ⟨hdata, hns⟩ := List.append_inj hrest hlength
          rw [ih hns, Node.ext hinitial (Quad.ext h₀ h₁ h₂ h₃) hdata]

/-- A bucket has no other nodes. -/
theorem Bucket.Lays.unique {b : Bucket} {ns ns' : List Node} (h : b.Lays ns) (h' : b.Lays ns') :
    ns = ns' := by
  have hsize : size ns = size ns' := Nat.add_left_cancel (h.length.symm.trans h'.length)
  refine flatMap_bytes_inj ?_
  rw [← h.nodes.load_of_length (length_flatMap_bytes ns), hsize,
    h'.nodes.load_of_length (length_flatMap_bytes ns')]

theorem length_entries (prev : List UCHAR) (ns : List Node) :
    (entries prev ns).length = ns.length := by
  induction ns generalizing prev with
  | nil => rfl
  | cons n ns ih => rw [entries, List.length_cons, List.length_cons, ih]

/-- A bucket with these nodes -/
def Bucket.format (header : Header) (sibling leftSibling : ℕ) (ns : List Node) : Bucket where
  header := header
  dontGc := false
  sibling := sibling
  leftSibling := leftSibling
  prefixTotal := prefixSum ns
  length := btrNodes + size ns
  page := Memory.store (fun _ => 0) btrNodes (ns.flatMap Node.bytes)

theorem Bucket.lays_format (header : Header) (sibling leftSibling : ℕ) (ns : List Node) :
    (format header sibling leftSibling ns).Lays ns :=
  ⟨Memory.holds_store _ _ _, rfl⟩

/-- The keys `5`, `5 7` and `5 7 9` -/
def threeKeys : List Node :=
  [⟨0, ⟨1, 0, 0, 0⟩, [5], Bytes.one_le⟩, ⟨1, ⟨2, 0, 0, 0⟩, [7], Bytes.one_le⟩,
    ⟨2, ⟨3, 0, 0, 0⟩, [9], Bytes.one_le⟩]

/-- The end of a level -/
def levelEnd : Node := ⟨0, endLevel, [], Bytes.zero_le⟩

end Firebird.Btr
