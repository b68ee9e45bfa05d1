import Firebird.Tree.Add

/-! # The position in a tree, and the removal of the item there

`locate` leaves the tree at an item, and `fastRemove` takes it out. A page that becomes empty, or
that fits together with one next to it, is given back to the allocator.
-/

namespace Firebird.BePlus

/-- The position in a tree: `curr` and `curPos` -/
structure Cursor where
  curr : Option Addr
  curPos : ℕ

inductive LocType
  | equal
  | less
  | great
  | greatEqual
  | lessEqual

/-- `NEED_MERGE` -/
def needMerge (n count : ℕ) : Bool := n * 4 / 3 ≤ count

namespace Tree

variable {V K σ : Type} [Inhabited V]

/-! ## Positions -/

def current (t : Tree V) (c : Cursor) : V :=
  match c.curr with
  | some p => (t.leaf p).data[c.curPos]!
  | none => default

def getPrev (t : Tree V) (c : Cursor) : Bool × Cursor :=
  if c.curPos ≠ 0 then (c.curr.isSome, { c with curPos := c.curPos - 1 })
  else
    match c.curr.bind fun p => (t.leaf p).prev with
    | some q => (true, { curr := some q, curPos := (t.leaf q).data.length - 1 })
    | none => (false, { curr := none, curPos := 0 })

/-- A position behind the last item of a page is the first one of the next page. -/
def skipEnd (t : Tree V) (c : Cursor) : Cursor :=
  match c.curr with
  | some p => if (t.leaf p).data.length ≤ c.curPos then { curr := (t.leaf p).next, curPos := 0 } else c
  | none => c

def getNext (t : Tree V) (c : Cursor) : Bool × Cursor :=
  let c := t.skipEnd { c with curPos := c.curPos + 1 }
  (c.curr.isSome, c)

/-- `BePlusTree::locate` -/
def locate (t : Tree V) (P : Params V K) (lt : LocType) (key : K) : Bool × Cursor :=
  let list := t.descend P key t.level t.root
  let r := t.findItem P list key
  let found := r.1
  let c : Cursor := { curr := some list, curPos := r.2 }
  match lt with
  | .equal => (found, c)
  | .greatEqual => (found || (t.skipEnd c).curr.isSome, t.skipEnd c)
  | .lessEqual => if found then (true, c) else t.getPrev c
  | .less => t.getPrev c
  | .great =>
      let c := t.skipEnd (if found then { c with curPos := c.curPos + 1 } else c)
      (c.curr.isSome, c)

/-! ## Removal -/

def unlinkLeaf (t : Tree V) (p : Addr) : Tree V :=
  let temp := t.leaf p
  let t := match temp.prev with
    | some q => t.modifyLeaf q ({ · with next := temp.next })
    | none => t
  match temp.next with
  | some q => t.modifyLeaf q ({ · with prev := temp.prev })
  | none => t

def unlinkNode (t : Tree V) (p : Addr) : Tree V :=
  let temp := t.node p
  let t := match temp.prev with
    | some q => t.modifyNode q ({ · with next := temp.next })
    | none => t
  match temp.next with
  | some q => t.modifyNode q ({ · with prev := temp.prev })
  | none => t

/-- A page next to one with `count` entries that is to be merged with it -/
def nodeMerge (t : Tree V) (P : Params V K) (q : Option Addr) (count : ℕ) : Option Addr :=
  q.filter fun q => needMerge ((t.node q).data.length + count) P.nodeCount

def leafMerge (t : Tree V) (P : Params V K) (q : Option Addr) (count : ℕ) : Option Addr :=
  q.filter fun q => needMerge ((t.leaf q).data.length + count) P.leafCount

/-- The entries of `q` also become those of `p`. -/
def joinNode (t : Tree V) (p q : Addr) (nodeLevel : ℕ) : Tree V :=
  let pages := (t.node q).data
  let t := t.modifyNode p fun l => { l with data := l.data ++ pages }
  pages.foldl (fun t page => t.setNodeParent page nodeLevel (some p)) t

def joinLeaf (t : Tree V) (p q : Addr) : Tree V :=
  t.modifyLeaf p fun l => { l with data := l.data ++ (t.leaf q).data }

/-- The only page of a node page is replaced by one of a page next to it. -/
def borrowNode (t : Tree V) (list : Addr) (nodeLevel : ℕ) : Tree V :=
  match (t.node list).prev, (t.node list).next with
  | some temp, _ =>
      let last := (t.node temp).data.getLast!
      let t := t.modifyNode list fun l => { l with data := l.data.set 0 last }
      (t.setNodeParent last nodeLevel (some list)).shrinkNode temp ((t.node temp).data.length - 1)
  | none, some temp =>
      let first := (t.node temp).data.head!
      let t := t.modifyNode list fun l => { l with data := l.data.set 0 first }
      (t.setNodeParent first nodeLevel (some list)).removeNode temp 0
  | none, none => t

/-- The root page goes, and the only page below becomes the root. -/
def dropRoot (t : Tree V) : Tree V :=
  let root := (t.node t.root).data.head!
  { t.setNodeParent root (t.level - 1) none with root := root, level := t.level - 1 }

/-- The page `node` is taken out of the node page `list`; `up` removes a page of the level above. -/
def removeFrom (t : Tree V) (P : Params V K) (A : Allocator σ) (s : σ) (nodeLevel : ℕ)
    (list node : Addr) (up : Tree V → Addr → Option (Tree V × σ)) : Option (Tree V × σ) :=
  if (t.node list).data.length = 1 then
    match t.nodeMerge P (t.node list).prev 0, t.nodeMerge P (t.node list).next 0 with
    | none, none => some (t.borrowNode list nodeLevel, s)
    | _, _ => up t list
  else
    let t := t.removeNode list (t.findNode P list (t.generate P list node)).2
    let count := (t.node list).data.length
    if list = t.root ∧ count = 1 then some (t.dropRoot, A.deallocate list s)
    else
      match t.nodeMerge P (t.node list).prev count, t.nodeMerge P (t.node list).next count with
      | some temp, _ => up (t.joinNode temp list nodeLevel) list
      | none, some temp => up (t.joinNode list temp nodeLevel) temp
      | none, none => some (t, s)

/-- `BePlusTree::_removePage`; `none` if a page without a parent is reached. -/
def removePage (P : Params V K) (A : Allocator σ) (s : σ) :
    ℕ → Tree V → ℕ → Addr → Option (Tree V × σ)
  | 0, _, _, _ => none
  | k + 1, t, nodeLevel, node =>
      let t := if nodeLevel = 0 then t.unlinkLeaf node else t.unlinkNode node
      let parent := if nodeLevel = 0 then (t.leaf node).parent else (t.node node).parent
      let up := fun t page => removePage P A s k t (nodeLevel + 1) page
      match parent.bind fun list => t.removeFrom P A s nodeLevel list node up with
      | some (t, s) => some (t, A.deallocate node s)
      | none => none

/-- The only item of a leaf page is replaced by one of a page next to it. -/
def borrowLeaf (t : Tree V) (curr : Addr) : Tree V :=
  match (t.leaf curr).prev, (t.leaf curr).next with
  | some temp, _ =>
      let last := (t.leaf temp).data.getLast!
      (t.modifyLeaf curr fun l => { l with data := l.data.set 0 last }).shrinkLeaf temp
        ((t.leaf temp).data.length - 1)
  | none, some temp =>
      let first := (t.leaf temp).data.head!
      (t.modifyLeaf curr fun l => { l with data := l.data.set 0 first }).removeItem temp 0
  | none, none => t

/-- `BePlusTree::fastRemove` -/
def fastRemove (P : Params V K) (A : Allocator σ) (t : Tree V) (s : σ) (c : Cursor) :
    Option (Tree V × σ) :=
  match c.curr with
  | none => none
  | some curr =>
      if t.level = 0 then some (t.removeItem curr c.curPos, s)
      else if (t.leaf curr).data.length = 1 then
        match t.leafMerge P (t.leaf curr).prev 0, t.leafMerge P (t.leaf curr).next 0 with
        | none, none => some (t.borrowLeaf curr, s)
        | _, _ => removePage P A s t.level t 0 curr
      else
        let t := t.removeItem curr c.curPos
        let count := (t.leaf curr).data.length
        match t.leafMerge P (t.leaf curr).prev count, t.leafMerge P (t.leaf curr).next count with
        | some temp, _ => removePage P A s t.level (t.joinLeaf temp curr) 0 curr
        | none, some temp => removePage P A s t.level (t.joinLeaf curr temp) 0 temp
        | none, none => some (t, s)

end Tree

end Firebird.BePlus
