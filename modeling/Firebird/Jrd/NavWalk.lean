import Firebird.Btr.Node
import Firebird.Jrd.CompareKeys
import Firebird.Lib.Transition

/-! # Walking an index for distinct keys (`NAV_get_record` in `jrd/nav.cpp`)

The records are fetched in the order of the index, and a record is passed over as long as the key
has not changed since one was accepted. The caller counts the records that it accepts, and whether
the last one was accepted is told from the count. Between two records the page is released, and the
position is found again when the page has another incarnation.
-/

namespace Firebird.Nav

open Btr (Node Quad Compressed)

/-- The entries of a leaf page; a marker is behind them. -/
structure Leaf where
  nodes : List Node
  compressed : Compressed [] nodes

/-- `KEY`: a buffer and the length of the key in it -/
structure Key where
  data : Memory UCHAR
  length : ℕ

def Key.value (key : Key) : List UCHAR := key.data.load 0 key.length

/-- A node in front of which the walk can be -/
structure Item where
  /-- It is the first one on a page that the walk is handed over to. -/
  handoff : Bool
  page : ℕ
  index : ℕ
  node : Node

/-- An index in some order, with the records that its numbers lead to -/
structure Index where
  pages : List Leaf
  /-- `idx_flags & idx_descending` -/
  descending : Bool
  /-- The bitmap for the inversion tree -/
  inversion : Option (Quad → Bool)
  /-- The key of the version that `VIO_get` finds, if it finds one -/
  visible : Quad → Option (List UCHAR)
  /-- The caller's boolean -/
  accept : Quad → Bool

/-- The fields of `IRSB_NAV`, and the count of the stream -/
structure State where
  /-- `irsb_nav_page` and `irsb_nav_offset`: the last node that was fetched -/
  position : Option (ℕ × ℕ)
  navData : List UCHAR
  navNumber : Quad
  keyChanged : Bool
  navCount : ℕ
  visited : List Quad
  rsbRecordCount : ℕ
  /-- The key of a call that goes on, as it has found no record for the last node -/
  call : Option Key
  /-- What the caller has accepted -/
  accepted : List (List UCHAR × Quad)
  ended : Bool

/-- What a fetch meets: the bytes in the uninitialised `key` of a new call, and whether the page
has another incarnation than when it was left -/
structure Fetch where
  stack : Key
  reread : Bool

namespace Index

variable (w : Index)

/-! ## Nodes from a position on -/

def pageItems (page : ℕ) : Bool → ℕ → List Node → List Item
  | _, _, [] => []
  | handoff, i, n :: ns => ⟨handoff, page, i, n⟩ :: pageItems page false (i + 1) ns

/-- The nodes of the pages that follow -/
def laterItems : ℕ → List Leaf → List Item
  | _, [] => []
  | page, leaf :: leaves => pageItems page true 0 leaf.nodes ++ laterItems (page + 1) leaves

/-- The nodes from one on to `END_LEVEL` -/
def itemsFrom (page i : ℕ) : List Item :=
  match w.pages.drop page with
  | [] => []
  | leaf :: leaves => pageItems page false i (leaf.nodes.drop i) ++ laterItems (page + 1) leaves

/-- The search of `find_saved_node`: the first node that is not in front of the saved key, and
whether it is the saved one. The comparison has no flags. -/
def findSaved (navData : List UCHAR) (navNumber : Quad) : List UCHAR → List Item → Option (ℕ × ℕ × Bool)
  | _, [] => none
  | prev, x :: xs =>
      let key := x.node.key prev
      if navData ≤ key then some (x.page, x.index, key = navData ∧ x.node.btnNumber = navNumber)
      else findSaved navData navNumber key xs

/-- `get_position` -/
def getPosition (s : State) (reread : Bool) : List Item :=
  match s.position with
  | none => w.itemsFrom 0 0
  | some (page, i) =>
      if reread then
        match findSaved s.navData s.navNumber [] (w.itemsFrom page 0) with
        | some (page', i', found) => w.itemsFrom page' (if found then i' + 1 else i')
        | none => []
      else w.itemsFrom page (i + 1)

/-! ## `NAV_get_record` -/

/-- Whether a node shows that the key has changed: on the same page by its data, behind a page by
its length and its bytes -/
def changes (key : Key) (x : Item) : Bool :=
  if x.handoff then x.node.btnData.length ≠ key.length ∨ key.value ≠ x.node.btnData
  else x.node.btnData ≠ []

/-- The key with the data of a node put behind its prefix -/
def build (key : Key) (n : Node) : Key where
  data := key.data.store n.btnPrefix.val n.btnData
  length := n.btnPrefix.val + n.btnData.length

def InBitmap (number : Quad) : Prop := ∀ bitmap ∈ w.inversion, bitmap number = true

instance (number : Quad) : Decidable (w.InBitmap number) :=
  match h : w.inversion with
  | none => .isTrue (by rw [InBitmap, h]; exact nofun)
  | some bitmap =>
      if hb : bitmap number = true then .isTrue (by
        rw [InBitmap, h]
        rintro _ ⟨⟩
        exact hb)
      else .isFalse (by
        rw [InBitmap, h]
        exact fun hall => hb (hall bitmap rfl))

/-- The loop up to a node whose record is to be fetched, or to the end; and `irsb_key_changed` -/
def scan (visited : List Quad) : List Item → Key → Bool → Option (Item × Key) × Bool
  | [], _, changed => (none, changed)
  | x :: xs, key, changed =>
      let changed := changed || changes key x
      let key := build key x.node
      if ¬w.InBitmap x.node.btnNumber ∨ x.node.btnNumber ∈ visited ∨ changed = false then
        scan visited xs key changed
      else (some (x, key), changed)

/-- What a call begins with: the saved key in the buffer, and `irsb_key_changed` from the counts -/
def start (s : State) (stack : Key) : Key × Bool :=
  match s.call with
  | some key => (key, s.keyChanged)
  | none => (⟨stack.data.store 0 s.navData, stack.length⟩, s.rsbRecordCount = s.navCount)

/-- A record is fetched, and the caller counts it if it accepts it. -/
def getRecord (s : State) (x : Item) (key : Key) : State :=
  let number := x.node.btnNumber
  let s := { s with position := some (x.page, x.index), navData := key.value, navNumber := number }
  if w.visible number = some key.value then
    let s := { s with visited := number :: s.visited, call := none }
    if w.accept number then
      { s with
        rsbRecordCount := (s.rsbRecordCount + 1) % 4294967296
        accepted := s.accepted ++ [(key.value, number)] }
    else s
  else { s with call := some key }

/-- From a position to the next record that is fetched -/
def fetch (s : State) (op : Fetch) : State :=
  let r := w.scan s.visited (w.getPosition s op.reread) (start s op.stack).1 (start s op.stack).2
  let s := { s with keyChanged := r.2, navCount := s.rsbRecordCount }
  match r.1 with
  | none => { s with call := none, ended := true }
  | some (x, key) => w.getRecord s x key

/-- A forward walk, from any counts -/
def walk : Transition.System State Fetch where
  init s := s.position = none ∧ s.navData = [] ∧ s.visited = [] ∧ s.call = none ∧ s.accepted = [] ∧
    s.ended = false
  step s op s' := s.ended = false ∧ s' = w.fetch s op

end Index

end Firebird.Nav
