import Mathlib.Data.List.InsertIdx
import Mathlib.Data.Nat.Notation
import Mathlib.Logic.Function.Basic

/-! # B+ trees (`BePlusTree` in `common/classes/tree.h`)

The pages of a tree are in a memory: leaf pages with items, and node pages with the addresses of the
pages below. Pages of one level are linked in both directions, and each page knows its parent. A
page that is given back to the allocator keeps what is in it, and is no longer the tree's.
-/

namespace Firebird.BePlus

abbrev Addr := ℕ

/-- The parameters of the template -/
structure Params (V K : Type) where
  keyOf : V → K
  greaterThan : K → K → Bool
  leafCount : ℕ
  nodeCount : ℕ

/-- `ItemList` -/
structure ItemList (V : Type) where
  data : List V
  parent : Option Addr
  next : Option Addr
  prev : Option Addr

/-- `NodeList` -/
structure NodeList where
  data : List Addr
  level : ℕ
  parent : Option Addr
  next : Option Addr
  prev : Option Addr

/-- The root and the level of a tree, and the pages -/
structure Tree (V : Type) where
  leaf : Addr → ItemList V
  node : Addr → NodeList
  root : Addr
  level : ℕ

/-- The allocator: `none` is an exception. -/
structure Allocator (σ : Type) where
  leafPage : σ → Option (Addr × σ)
  nodePage : σ → Option (Addr × σ)
  deallocate : Addr → σ → σ

/-! ## Pages -/

/-- The loop of `SortedVector::find`; `greater i` is whether the key is greater than that of the
entry `i`. -/
def findLoop (greater : ℕ → Bool) : ℕ → ℕ → ℕ → ℕ
  | 0, low, _ => low
  | k + 1, low, high =>
      if low < high then
        let temp := (high + low) / 2
        if greater temp then findLoop greater k (temp + 1) high else findLoop greater k low temp
      else low

/-- `SortedVector::find` -/
def find {V K : Type} (P : Params V K) (key : K) (count : ℕ) (keyAt : ℕ → K) : Bool × ℕ :=
  let pos := findLoop (fun i => P.greaterThan key (keyAt i)) count 0 count
  (pos ≠ count && !P.greaterThan (keyAt pos) key, pos)

namespace Tree

variable {V K σ : Type} [Inhabited V]

def modifyLeaf (t : Tree V) (p : Addr) (f : ItemList V → ItemList V) : Tree V :=
  { t with leaf := Function.update t.leaf p (f (t.leaf p)) }

def modifyNode (t : Tree V) (p : Addr) (f : NodeList → NodeList) : Tree V :=
  { t with node := Function.update t.node p (f (t.node p)) }

/-- The constructor `ItemList(items)` on the page `p` -/
def linkLeaf (t : Tree V) (p items : Addr) : Tree V :=
  let next := (t.leaf items).next
  let t := match next with
    | some q => t.modifyLeaf q ({ · with prev := some p })
    | none => t
  let t := t.modifyLeaf p fun _ => { data := [], parent := none, next := next, prev := some items }
  t.modifyLeaf items ({ · with next := some p })

/-- The constructor `NodeList(items)` on the page `p`; `level` is not set. -/
def linkNode (t : Tree V) (p items : Addr) : Tree V :=
  let next := (t.node items).next
  let t := match next with
    | some q => t.modifyNode q ({ · with prev := some p })
    | none => t
  let t := t.modifyNode p
    ({ · with data := [], parent := none, next := next, prev := some items })
  t.modifyNode items ({ · with next := some p })

def insertItem (t : Tree V) (p : Addr) (pos : ℕ) (item : V) : Tree V :=
  t.modifyLeaf p fun l => { l with data := l.data.insertIdx pos item }

def shrinkLeaf (t : Tree V) (p : Addr) (count : ℕ) : Tree V :=
  t.modifyLeaf p fun l => { l with data := l.data.take count }

def removeItem (t : Tree V) (p : Addr) (pos : ℕ) : Tree V :=
  t.modifyLeaf p fun l => { l with data := l.data.eraseIdx pos }

def insertNode (t : Tree V) (p : Addr) (pos : ℕ) (child : Addr) : Tree V :=
  t.modifyNode p fun l => { l with data := l.data.insertIdx pos child }

def shrinkNode (t : Tree V) (p : Addr) (count : ℕ) : Tree V :=
  t.modifyNode p fun l => { l with data := l.data.take count }

def removeNode (t : Tree V) (p : Addr) (pos : ℕ) : Tree V :=
  t.modifyNode p fun l => { l with data := l.data.eraseIdx pos }

/-- `NodeList::setNodeParent` -/
def setNodeParent (t : Tree V) (node : Addr) (level : ℕ) (parent : Option Addr) : Tree V :=
  if level = 0 then t.modifyLeaf node ({ · with parent := parent })
  else t.modifyNode node ({ · with parent := parent })

/-- `NodeList::setNodeParentAndLevel` -/
def setNodeParentAndLevel (t : Tree V) (node : Addr) (level : ℕ) (parent : Addr) : Tree V :=
  if level = 0 then t.modifyLeaf node ({ · with parent := some parent })
  else t.modifyNode node ({ · with parent := some parent, level := level - 1 })

/-- The first leaf page below a page -/
def firstLeaf (t : Tree V) : ℕ → Addr → Addr
  | 0, item => item
  | lev + 1, item => t.firstLeaf lev (t.node item).data.head!

/-- `NodeList::generate` -/
def generate (t : Tree V) (P : Params V K) (sender item : Addr) : K :=
  P.keyOf (t.leaf (t.firstLeaf (t.node sender).level item)).data.head!

def findItem (t : Tree V) (P : Params V K) (p : Addr) (key : K) : Bool × ℕ :=
  find P key (t.leaf p).data.length fun i => P.keyOf (t.leaf p).data[i]!

def findNode (t : Tree V) (P : Params V K) (p : Addr) (key : K) : Bool × ℕ :=
  find P key (t.node p).data.length fun i => t.generate P p (t.node p).data[i]!

/-- `SortedVector::add` on a node page -/
def addNode (t : Tree V) (P : Params V K) (p child : Addr) : Tree V :=
  t.insertNode p (t.findNode P p (t.generate P p child)).2 child

/-! ## `BePlusTree::add` -/

/-- The leaf page for a key -/
def descend (t : Tree V) (P : Params V K) (key : K) : ℕ → Addr → Addr
  | 0, list => list
  | lev + 1, list =>
      let r := t.findNode P list key
      let pos := if r.1 then r.2 else r.2 - 1
      t.descend P key lev (t.node list).data[pos]!

/-- How `add` ends: it returns `false` or `true`, or an exception leaves it with the item in
`addErrorValue`. -/
inductive Outcome (V σ : Type)
  | duplicate
  | added (t : Tree V) (s : σ)
  | thrown (t : Tree V) (s : σ) (addErrorValue : V)
  | loops

/-- The handler: the pages that have been allocated are given back. -/
def unwind (A : Allocator σ) (t : Tree V) : ℕ → Addr → σ → σ × V
  | 0, newNode, s => (A.deallocate newNode s, (t.leaf newNode).data.head!)
  | curLevel + 1, newNode, s =>
      t.unwind A curLevel (t.node newNode).data.head! (A.deallocate newNode s)

def fail (A : Allocator σ) (t : Tree V) (s : σ) (curLevel : ℕ) (newNode : Addr) : Outcome V σ :=
  let r := t.unwind A curLevel newNode s
  .thrown t r.1 r.2

/-- A page next to a full one, if there is room on it -/
def nodeRoom (t : Tree V) (P : Params V K) (q : Option Addr) : Option Addr :=
  q.filter fun q => (t.node q).data.length < P.nodeCount

def leafRoom (t : Tree V) (P : Params V K) (q : Option Addr) : Option Addr :=
  q.filter fun q => (t.leaf q).data.length < P.leafCount

/-- The last page of `nodeList` goes to the beginning of `list` to make room, or the new one does. -/
def spillNext (t : Tree V) (P : Params V K) (nodeList list newNode : Addr) (pos curLevel : ℕ) :
    Tree V :=
  if pos = P.nodeCount then
    (t.setNodeParentAndLevel newNode curLevel list).insertNode list 0 newNode
  else
    let last := (t.node nodeList).data[P.nodeCount - 1]!
    let t := (t.setNodeParent last curLevel (some list)).insertNode list 0 last
    let t := t.shrinkNode nodeList (P.nodeCount - 1)
    (t.setNodeParentAndLevel newNode curLevel nodeList).insertNode nodeList pos newNode

/-- The first page of `nodeList` goes to the end of `list` to make room, or the new one does. -/
def spillPrev (t : Tree V) (nodeList list newNode : Addr) (pos curLevel : ℕ) : Tree V :=
  if pos = 0 then
    (t.setNodeParentAndLevel newNode curLevel list).insertNode list (t.node list).data.length newNode
  else
    let first := (t.node nodeList).data.head!
    let t := (t.setNodeParent first curLevel (some list)).insertNode list (t.node list).data.length
      first
    let t := t.removeNode nodeList 0
    (t.setNodeParentAndLevel newNode curLevel nodeList).insertNode nodeList (pos - 1) newNode

/-- A new root page over the old root and a new page -/
def growRoot (t : Tree V) (P : Params V K) (list newNode : Addr) : Tree V :=
  let t := t.modifyNode list fun _ =>
    { data := [t.root], level := t.level, parent := none, next := none, prev := none }
  let t := t.setNodeParentAndLevel newNode t.level list
  let t := t.setNodeParent t.root t.level (some list)
  let t := t.addNode P list newNode
  { t with root := list, level := t.level + 1 }

/-- The loop up the tree that finds a place for a new page -/
def climb (P : Params V K) (A : Allocator σ) :
    ℕ → Tree V → σ → Addr → Option Addr → ℕ → Outcome V σ
  | _, t, s, newNode, none, curLevel =>
      match A.nodePage s with
      | none => t.fail A s curLevel newNode
      | some (list, s) => .added (t.growRoot P list newNode) s
  | 0, _, _, _, some _, _ => .loops
  | k + 1, t, s, newNode, some nodeList, curLevel =>
      if (t.node nodeList).data.length < P.nodeCount then
        .added ((t.setNodeParentAndLevel newNode curLevel nodeList).addNode P nodeList newNode) s
      else
        let pos := (t.findNode P nodeList (t.generate P nodeList newNode)).2
        match t.nodeRoom P (t.node nodeList).next, t.nodeRoom P (t.node nodeList).prev with
        | some list, _ => .added (t.spillNext P nodeList list newNode pos curLevel) s
        | none, some list => .added (t.spillPrev nodeList list newNode pos curLevel) s
        | none, none =>
            match A.nodePage s with
            | none => t.fail A s curLevel newNode
            | some (newList, s) =>
                let t := (t.linkNode newList nodeList).spillNext P nodeList newList newNode pos
                  curLevel
                climb P A k t s newList (t.node nodeList).parent (curLevel + 1)

theorem climb_none {P : Params V K} {A : Allocator σ} {t : Tree V} {s : σ} {newNode : Addr}
    {curLevel : ℕ} (k : ℕ) : climb P A k t s newNode none curLevel =
      match A.nodePage s with
      | none => t.fail A s curLevel newNode
      | some (list, s) => .added (t.growRoot P list newNode) s := by
  cases k <;> rfl

/-- The new item goes to the new leaf page, or the last one of the full page does. -/
def splitLeaf (t : Tree V) (P : Params V K) (leaf newLeaf : Addr) (pos : ℕ) (item : V) : Tree V :=
  if pos = P.leafCount then t.insertItem newLeaf 0 item
  else
    let t := t.insertItem newLeaf 0 (t.leaf leaf).data[P.leafCount - 1]!
    let t := t.shrinkLeaf leaf ((t.leaf leaf).data.length - 1)
    t.insertItem leaf pos item

/-- `BePlusTree::add` -/
def add (t : Tree V) (P : Params V K) (A : Allocator σ) (s : σ) (item : V) : Outcome V σ :=
  let key := P.keyOf item
  let leaf := t.descend P key t.level t.root
  let r := t.findItem P leaf key
  let pos := r.2
  if r.1 then .duplicate
  else if (t.leaf leaf).data.length < P.leafCount then .added (t.insertItem leaf pos item) s
  else
    match t.leafRoom P (t.leaf leaf).next, t.leafRoom P (t.leaf leaf).prev with
    | some temp, _ =>
        if pos = P.leafCount then .added (t.insertItem temp 0 item) s
        else
          let t := t.insertItem temp 0 (t.leaf leaf).data[P.leafCount - 1]!
          .added ((t.shrinkLeaf leaf (P.leafCount - 1)).insertItem leaf pos item) s
    | none, some temp =>
        let count := (t.leaf temp).data.length
        if pos = 0 then .added (t.insertItem temp count item) s
        else
          let t := t.insertItem temp count (t.leaf leaf).data.head!
          .added ((t.removeItem leaf 0).insertItem leaf (pos - 1) item) s
    | none, none =>
        match A.leafPage s with
        | none => .thrown t s item
        | some (newLeaf, s) =>
            let t := (t.linkLeaf newLeaf leaf).splitLeaf P leaf newLeaf pos item
            climb P A (t.level + 1) t s newLeaf (t.leaf leaf).parent 0

end Tree

end Firebird.BePlus
