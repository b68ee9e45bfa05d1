import Firebird.Lib.Bytes
import Firebird.Lib.Extent
import Firebird.Lib.Transition

/-! # The index root page

The slots of the indexes grow up from the start of the page and the descriptors of their keys grow
down from its end. A slot is used again when its index has been deleted. When there is no room
between the two, `compress_root` is to move the descriptors of the indexes to the end of the page.
-/

namespace Firebird.IndexRoot

/-- `IRTD` -/
structure Irtd where
  field : Fin 65536
  itype : Fin 65536
  deriving DecidableEq

/-- `irt_repeat` -/
structure IrtRepeat where
  root : ℤ
  desc : ℕ
  keys : ℕ
  flags : BitVec 8

/-- `IDX`: the flags and `idx_rpt`, which has room for sixteen keys -/
structure Idx where
  flags : BitVec 8
  rpt : List Irtd
  length_le : rpt.length ≤ 16

/-- `IRT`: the slots `[0, irt_count)`, and the bytes of the page -/
structure Irt where
  rpt : List IrtRepeat
  bytes : Memory UCHAR

/-- `dbb_page_size` is a `USHORT`. -/
structure Dbb where
  pageSize : ℕ
  lt : pageSize < 65536
  le : 1024 ≤ pageSize

/-- `dbb_max_idx`, for slots of twelve bytes and one descriptor of four bytes each -/
def Dbb.maxIdx (d : Dbb) : ℕ := min ((d.pageSize - 20) / (12 + 1 * 4)) 256

/-! ## Descriptors as bytes -/

def ushort (n : Fin 65536) : List UCHAR :=
  [⟨n.val % 256, Bytes.mod_lt _⟩, ⟨n.val / 256, by omega⟩]

def Irtd.image (d : Irtd) : List UCHAR := ushort d.field ++ ushort d.itype

def readUshort (m : Memory UCHAR) (a : ℕ) : Fin 65536 :=
  ⟨(m a).val + 256 * (m (a + 1)).val, by omega⟩

def readIrtd (m : Memory UCHAR) (a : ℕ) : Irtd := ⟨readUshort m a, readUshort m (a + 2)⟩

/-- The bytes of descriptors that stand one after the other -/
def image (ds : List Irtd) : List UCHAR := ds.flatMap Irtd.image

/-- The keys that `BTR_description` picks up -/
def description (m : Memory UCHAR) (s : IrtRepeat) : List Irtd :=
  (List.range s.keys).map fun i => readIrtd m (s.desc + 4 * i)

/-! ## Operations -/

namespace IrtRepeat

/-- `irt_in_progress` -/
def inProgress (s : IrtRepeat) : Bool := s.flags.getLsbD 2

/-- The slot is of an index, or of one that is being created. -/
def used (s : IrtRepeat) : Bool := s.root ≠ 0 || s.inProgress

/-- The area of the descriptors -/
def area (s : IrtRepeat) : Extent := ⟨s.desc, 4 * s.keys⟩

end IrtRepeat

/-- The offset behind `n` slots -/
def slotsEnd (n : ℕ) : ℕ := 20 + 12 * n

namespace Irt

variable (d : Dbb) (idx : Idx) (page : Irt)

/-- The high water mark of the descriptors -/
def space : ℕ := page.rpt.foldl (fun sp s => if s.used then min sp s.desc else sp) d.pageSize

/-- The first slot that is not used, or the one behind the last -/
def freeSlot : ℕ := page.rpt.findIdx fun s => !s.used

/-- `space -= l`, which is a `USHORT` -/
def newDesc : ℕ := (page.space d + 65536 - 4 * idx.rpt.length) % 65536

/-- There is room for the descriptors behind one slot more. -/
def hasRoom : Bool := slotsEnd (page.rpt.length + 1) ≤ page.newDesc d idx

/-- The slot of an index that is being created -/
def newSlot : IrtRepeat where
  root := 0
  desc := page.newDesc d idx
  keys := idx.rpt.length
  flags := idx.flags ||| 4

/-- The index is put in a slot, and its descriptors below the others. -/
def place : Irt where
  rpt :=
    if page.freeSlot < page.rpt.length then page.rpt.set page.freeSlot (page.newSlot d idx)
    else page.rpt ++ [page.newSlot d idx]
  bytes := page.bytes.store (page.newDesc d idx) (image idx.rpt)

/-- The loop of `compress_root`: the descriptors are moved within a copy of the page. -/
def compressFrom (bytes : Memory UCHAR) :
    ℤ → Memory UCHAR → List IrtRepeat → ℤ × Memory UCHAR × List IrtRepeat
  | p, temp, [] => (p, temp, [])
  | p, temp, s :: ss =>
      if s.root ≠ 0 then
        let l := 4 * s.keys
        let temp := temp.store (p - l).toNat (bytes.load s.desc l)
        let r := compressFrom bytes (p - l) temp ss
        (r.1, r.2.1, { s with desc := ((p - l) % 65536).toNat } :: r.2.2)
      else
        let r := compressFrom bytes p temp ss
        (r.1, r.2.1, s :: r.2.2)

/-- `compress_root`: the copy is given back, and the page keeps its bytes. -/
def compressRoot : ℕ × Irt :=
  let r := compressFrom page.bytes d.pageSize page.bytes page.rpt
  ((r.1 % 65536).toNat, { page with rpt := r.2.2 })

/-- `BTR_reserve_slot`: the slot, unless there is no room or there are too many indexes -/
def reserveSlot : Option ℕ × Irt :=
  if d.maxIdx < page.rpt.length then (none, page)
  else if page.hasRoom d idx then (some page.freeSlot, page.place d idx)
  else
    let page := (page.compressRoot d).2
    if page.hasRoom d idx then (some page.freeSlot, page.place d idx) else (none, page)

/-- The index has been created, or its root has been split. -/
def setRoot (i : ℕ) (root : ℤ) : Irt :=
  { page with rpt := page.rpt.modify i fun s => { s with root := root, flags := s.flags &&& ~~~4 } }

/-- `BTR_delete_index` -/
def deleteIndex (i : ℕ) : Irt :=
  { page with rpt := page.rpt.modify i fun s => { s with root := 0, flags := 0 } }

end Irt

end Firebird.IndexRoot
