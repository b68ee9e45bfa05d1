import Firebird.Jrd.BigRecord
import Firebird.Lib.Bytes
import Firebird.Lib.Extent

/-! # Data pages (`jrd/dpm.epp`)

A data page starts with its header and the line index, one offset and length for each line. The
fragments stand at the end of the page and grow downwards, each at an offset that is a multiple
of `ODS_ALIGNMENT` below the one before. `DPM_compress` moves them together.

Each routine that takes space adds up what is in use by rounded lengths, and compresses the page
when the space below the lowest fragment does not do.
-/

namespace Firebird.Dpm

/-! ## The page -/

/-- `sizeof(dpg::dpg_repeat)` -/
def sizeofRepeat : ℕ := 4

/-- `SPACE_FUDGE` -/
def spaceFudge : ℕ := rhdfSize

/-- An `SSHORT` that is assigned `x` -/
def sshort (x : ℤ) : ℤ := Int.bmod x 65536

/-- `ROUNDUP(n, ODS_ALIGNMENT)` -/
def roundup (n : ℤ) : ℤ := (n + 3) / 4 * 4

/-- `HIGH_WATER` -/
def highWater (x : ℕ) : ℤ := sizeofDpg + sizeofRepeat * ((x : ℤ) - 1)

/-- A data page: `dpg_rpt` up to `dpg_count`, an offset and a length each, and all its bytes -/
structure DataPage where
  rpt : List Extent
  bytes : Memory UCHAR

namespace DataPage

/-- `dpg_count` -/
def count (page : DataPage) : ℕ := page.rpt.length

/-- `page->dpg_rpt[slot] = line` -/
def setLine (page : DataPage) (slot : ℕ) (line : Extent) : DataPage :=
  { page with rpt := page.rpt.set slot line }

/-- `++page->dpg_count`, with nothing in the new line yet -/
def extend (page : DataPage) : DataPage :=
  { page with rpt := page.rpt ++ [⟨0, 0⟩] }

/-- What is written to the page from `offset` on -/
def write (page : DataPage) (offset : ℕ) (ws : List UCHAR) : DataPage :=
  { page with bytes := page.bytes.store offset ws }

end DataPage

/-! ## Record headers -/

/-- The bytes of a field of `n` bytes, the lowest one first -/
def fieldBytes (n u : ℕ) : List UCHAR := (List.range n).map fun i => Fin.ofNat 256 (u / 256 ^ i)

/-- The field of `n` bytes at `a` -/
def field (m : Memory UCHAR) (a n : ℕ) : ℕ :=
  (m.load a n).foldr (fun x u => x.val + 256 * u) 0

/-- A record header, `RHD` -/
structure Rhd where
  transaction : ℕ
  bPage : ℕ
  bLine : ℕ
  flags : ℕ
  format : ℕ

/-- A record header as it stands on a page -/
def Rhd.image (header : Rhd) : List UCHAR :=
  fieldBytes 4 header.transaction ++ fieldBytes 4 header.bPage ++ fieldBytes 2 header.bLine ++
    fieldBytes 2 header.flags ++ fieldBytes 1 header.format

/-- The record header at `a` -/
def rhdAt (m : Memory UCHAR) (a : ℕ) : Rhd :=
  ⟨field m a 4, field m (a + 4) 4, field m (a + 8) 2, field m (a + 10) 2, field m (a + 12) 1⟩

def rhdDeleted : ℕ := 1
def rhdChain : ℕ := 2
def rhdFragment : ℕ := 4
def rhdBlob : ℕ := 16
def rhdDelta : ℕ := 32

/-! ## `DPM_compress` -/

/-- The loop of `DPM_compress`; `none` where `temp_page` would be written outside -/
def compressLoop (bytes : Memory UCHAR) :
    List Extent → ℤ → Memory UCHAR → Option (List Extent × ℤ × Memory UCHAR)
  | [], space, temp => some ([], space, temp)
  | index :: rpt, space, temp =>
      if index.offset = 0 then do
        let (rpt, space, temp) ← compressLoop bytes rpt space temp
        some (index :: rpt, space, temp)
      else
        let l := sshort index.length
        let space := sshort (space - roundup l)
        if l < 0 ∨ space < 0 then none
        else do
          let temp := temp.store space.toNat (bytes.load index.offset l.toNat)
          let (rpt, left, temp) ← compressLoop bytes rpt space temp
          some (⟨space.toNat, index.length⟩ :: rpt, left, temp)

/-- `DPM_compress`. What `temp_page` holds before is not known. -/
def dpmCompress (dbb : Dbb) (temp : Memory UCHAR) (page : DataPage) : Option (DataPage × ℤ) := do
  let (rpt, space, temp) ← compressLoop page.bytes page.rpt dbb.pageSize temp
  let bytes := page.bytes.store space.toNat (temp.load space.toNat (dbb.pageSize - space.toNat))
  some (⟨rpt, bytes⟩, space)

/-! ## `find_space` -/

/-- The loop over the lines: the lowest offset of those that count, and the sum over them -/
def scan (counts : Extent → Option ℤ) : List Extent → ℤ → ℤ → ℤ × ℤ
  | [], space, sum => (space, sum)
  | index :: rpt, space, sum =>
      match counts index with
      | none => scan counts rpt space sum
      | some n => scan counts rpt (min space index.offset) (sshort (sum + n))

theorem scan_cons (counts : Extent → Option ℤ) (index : Extent) (rpt : List Extent)
    (space sum : ℤ) : scan counts (index :: rpt) space sum =
      match counts index with
      | none => scan counts rpt space sum
      | some n => scan counts rpt (min space index.offset) (sshort (sum + n)) := rfl

/-- Types of `DPM_store` -/
inductive StoreType
  | primary
  | secondary
  | other
  deriving DecidableEq

/-- The test in `find_space` for a line that room is reserved for -/
def reserves (bytes : Memory UCHAR) (index : Extent) : Bool :=
  let header := rhdAt bytes index.offset
  header.bPage = 0 && header.flags &&& (rhdChain ||| rhdBlob ||| rhdDeleted ||| rhdFragment) = 0

/-- What a line adds to `used` in `find_space` -/
def findCounts (bytes : Memory UCHAR) (reserving : Bool) (type : StoreType) (index : Extent) :
    Option ℤ :=
  if index.offset = 0 then none
  else if type = .primary && reserving && reserves bytes index then
    some (roundup index.length + spaceFudge)
  else some (roundup index.length)

/-- `else if (!slot) slot = i;` over the lines from the `i`th on -/
def emptySlot : List Extent → ℕ → ℕ → ℕ
  | [], _, slot => slot
  | index :: rpt, i, slot =>
      emptySlot rpt (i + 1) (if index.offset = 0 ∧ slot = 0 then i else slot)

/-- `find_space`: `some none` where it returns null, else the page, the slot and the space -/
def findSpace (dbb : Dbb) (noReserve : Bool) (temp : Memory UCHAR) (page : DataPage) (size : ℤ)
    (type : StoreType) : Option (Option (DataPage × ℕ × ℤ)) :=
  let alignedSize := sshort (roundup size)
  let (space, used) := scan (findCounts page.bytes (!noReserve) type) page.rpt dbb.pageSize
    (sshort (highWater page.count))
  let slot := emptySlot page.rpt 0 0
  let used := if slot = 0 then sshort (used + sizeofRepeat) else used
  if alignedSize > dbb.pageSize - used then some none
  else do
    let i := page.count + if slot = 0 then 1 else 0
    let compressed :=
      if alignedSize > space - highWater i then dpmCompress dbb temp page else some (page, space)
    let (page, space) ← compressed
    let (page, slot) := if slot = 0 then (page.extend, page.count) else (page, slot)
    let space := sshort (space - alignedSize)
    some (some (page.setLine slot ⟨space.toNat, size.toNat⟩, slot, space))

/-! ## `DPM_update` -/

/-- The record that is written: its header, its compressed image and the bytes to fill it up -/
def recordImage (header : Rhd) (body : List UCHAR) (fill : ℕ) : List UCHAR :=
  header.image ++ body ++ List.replicate fill 0

/-- What a line adds to `available` in `DPM_update` -/
def updateCounts (index : Extent) : Option ℤ :=
  if index.offset = 0 then none else some (-roundup index.length)

/-- `DPM_update`: `some none` where it goes on with `fragment` -/
def dpmUpdate (dbb : Dbb) (temp : Memory UCHAR) (page : DataPage) (slot : ℕ) (header : Rhd)
    (body : List UCHAR) : Option (Option DataPage) :=
  let size := body.length
  let fill := (rhdfSize - rhdSize) - size
  let length := roundup (rhdSize + size + fill : ℕ)
  let top := sshort (highWater page.count)
  let page := page.setLine slot ⟨(page.rpt.getD slot ⟨0, 0⟩).offset, 0⟩
  let (space, available) :=
    scan updateCounts page.rpt dbb.pageSize (sshort (dbb.pageSize - top))
  if length > available then some none
  else do
    let space := sshort (space - length)
    let compressed :=
      if space < top then
        (dpmCompress dbb temp page).map fun r => (r.1, sshort (r.2 - length))
      else some (page, space)
    let (page, space) ← compressed
    let page := page.setLine slot ⟨space.toNat, rhdSize + size + fill⟩
    some (some (page.write space.toNat (recordImage header body fill)))

/-! ## `DPM_chain` -/

/-- `get_header`: the header of a line that is there -/
def DataPage.getHeader (page : DataPage) (line : ℕ) : Option Rhd := do
  let index ← page.rpt[line]?
  if index.offset = 0 then none else some (rhdAt page.bytes index.offset)

/-- The tests of `DPM_get` and `DPM_chain` on the record that is found; `prior` is
`temp.rpb_prior` -/
def chainable (page : DataPage) (line : ℕ) (seen : Rhd) (prior : Bool) : Bool :=
  match page.getHeader line with
  | none => false
  | some org =>
      org.flags &&& (rhdBlob ||| rhdChain ||| rhdFragment) = 0 &&
        seen.transaction = org.transaction && seen.bPage = org.bPage && seen.bLine = org.bLine &&
        (org.flags &&& rhdDelta = 0 || prior)

/-- What a line adds to `available` in `DPM_chain` -/
def chainCounts (index : Extent) : Option ℤ :=
  if index.length ≠ 0 ∧ index.offset ≠ 0 then some (-roundup index.length) else none

/-- `DPM_chain`: `some none` where it returns `FALSE`, else the page and the slot -/
def dpmChain (dbb : Dbb) (temp : Memory UCHAR) (page : DataPage) (line : ℕ) (seen : Rhd)
    (prior : Bool) (pageNumber : ℕ) (new : Rhd) (body : List UCHAR) :
    Option (Option (DataPage × ℕ)) :=
  let size := body.length
  if !chainable page line seen prior then some none
  else if size > dbb.pageSize - (sizeofDpg + rhdSize) then some none
  else
    let fill := if new.flags &&& rhdDeleted ≠ 0 then 0 else (rhdfSize - rhdSize) - size
    let length := roundup (rhdSize + size + fill : ℕ)
    let slot := page.rpt.findIdx (·.length = 0)
    let (space, available) :=
      scan chainCounts page.rpt dbb.pageSize
        (sshort (dbb.pageSize - sshort (highWater page.count)))
    let top := sshort (sshort (highWater page.count) + if slot = page.count then sizeofRepeat else 0)
    let available := sshort (available - if slot = page.count then sizeofRepeat else 0)
    if length > available then some none
    else do
      let space := sshort (space - length)
      let compressed :=
        if space < top then
          (dpmCompress dbb temp page).map fun r => (r.1, sshort (r.2 - length))
        else some (page, space)
      let (page, space) ← compressed
      let page := if slot = page.count then page.extend else page
      let index := page.rpt.getD line ⟨0, 0⟩
      let flags := (rhdAt page.bytes index.offset).flags ||| rhdChain
      let page := page.write (index.offset + 10) (fieldBytes 2 flags)
      let page := page.setLine slot index
      let page := page.setLine line ⟨space.toNat, rhdSize + size + fill⟩
      let header := { new with bPage := pageNumber, bLine := slot }
      some (some (page.write space.toNat (recordImage header body fill), slot))

/-! ## `DPM_delete` -/

/-- The lines up to the highest one in use -/
def used : List Extent → List Extent
  | [] => []
  | index :: rpt => if index.offset = 0 ∧ used rpt = [] then [] else index :: used rpt

/-- `DPM_delete` on the page; `none` where it bugchecks -/
def dpmDelete (page : DataPage) (line : ℕ) : Option DataPage := do
  let _ ← page.getHeader line
  let page := page.setLine line ⟨0, 0⟩
  some { page with rpt := used page.rpt }

/-! ## Short integers -/

variable {x y : ℤ}

theorem sshort_eq (h : -32768 ≤ x) (h' : x < 32768) : sshort x = x :=
  Int.bmod_eq_of_le (by omega) (by omega)

theorem sshort_sshort_add (x y : ℤ) : sshort (sshort x + y) = sshort (x + y) :=
  Int.bmod_add_bmod

theorem sshort_sshort (x : ℤ) : sshort (sshort x) = sshort x := Int.bmod_bmod

theorem le_roundup (x : ℤ) : x ≤ roundup x ∧ roundup x ≤ x + 3 := by
  unfold roundup
  omega

theorem roundup_zero : roundup 0 = 0 := rfl

theorem highWater_eq (n : ℕ) : highWater n = 24 + 4 * n := by
  simp only [highWater, sizeofDpg, sizeofRepeat]
  omega

/-! ## The layout -/

/-- The line is in use. -/
def DataPage.Live (page : DataPage) (i : ℕ) (index : Extent) : Prop :=
  page.rpt[i]? = some index ∧ index.offset ≠ 0

/-- The lines in use are above the line index and inside the page, and apart from each other. -/
structure Layout (dbb : Dbb) (page : DataPage) : Prop where
  index : highWater page.count ≤ dbb.pageSize
  above : ∀ i a, page.Live i a → highWater page.count ≤ a.offset
  inside : ∀ i a, page.Live i a → a.stop ≤ dbb.pageSize
  apart : ∀ i j a b, page.Live i a → page.Live j b → i ≠ j → Extent.Apart a b

/-- The line keeps its length and its bytes, wherever they are now. -/
def Keeps (page page' : DataPage) (i : ℕ) : Prop :=
  ∀ a, page.Live i a → ∃ b, page'.Live i b ∧ b.length = a.length ∧
    Extent.content page'.bytes b = Extent.content page.bytes a

variable {dbb : Dbb} {page page' page'' : DataPage} {i j slot line : ℕ} {a b index : Extent}
  {rpt rpt' : List Extent} {bytes temp temp' : Memory UCHAR} {space space' : ℤ}

theorem Keeps.refl (page : DataPage) (i : ℕ) : Keeps page page i :=
  fun a ha => ⟨a, ha, rfl, rfl⟩

theorem Keeps.trans (h : Keeps page page' i) (h' : Keeps page' page'' i) : Keeps page page'' i := by
  intro a ha
  obtain ⟨b, hb, hlen, hbytes⟩ := h a ha
  obtain ⟨c, hc, hlen', hbytes'⟩ := h' b hb
  exact ⟨c, hc, hlen'.trans hlen, hbytes'.trans hbytes⟩

/-- The bytes that the lines take, as `used` and `available` count them -/
def taken (rpt : List Extent) : ℤ :=
  (rpt.map fun index => if index.offset = 0 then 0 else roundup index.length).sum

theorem taken_cons_of_eq (h : index.offset = 0) (rpt : List Extent) :
    taken (index :: rpt) = taken rpt := by
  rw [taken, List.map_cons, List.sum_cons, if_pos h, zero_add, taken]

theorem taken_cons_of_ne (h : index.offset ≠ 0) (rpt : List Extent) :
    taken (index :: rpt) = roundup index.length + taken rpt := by
  rw [taken, List.map_cons, List.sum_cons, if_neg h, taken]

theorem taken_nonneg (rpt : List Extent) : 0 ≤ taken rpt := by
  induction rpt with
  | nil => exact le_rfl
  | cons index rpt ih =>
      by_cases h : index.offset = 0
      · rwa [taken_cons_of_eq h]
      · have := le_roundup index.length
        rw [taken_cons_of_ne h]
        omega

/-! ## `DPM_compress` -/

/-- Where a line goes: between `lo` and `hi`, with its bytes -/
def Moved (bytes temp : Memory UCHAR) (lo hi : ℤ) (a b : Extent) : Prop :=
  a.offset = 0 ∧ b = a ∨
    a.offset ≠ 0 ∧ b.length = a.length ∧ lo ≤ b.offset ∧ b.stop ≤ hi ∧
      Extent.content temp b = Extent.content bytes a

theorem Moved.mono {lo lo' hi hi' : ℤ} (h : Moved bytes temp lo hi a b) (hlo : lo' ≤ lo)
    (hhi : hi ≤ hi') : Moved bytes temp lo' hi' a b := by
  rcases h with h | ⟨hne, hlen, hb, hb', hbytes⟩
  · exact .inl h
  · exact .inr ⟨hne, hlen, hlo.trans hb, hb'.trans hhi, hbytes⟩

theorem Moved.stop_le {lo hi : ℤ} (h : Moved bytes temp lo hi a b) (hne : b.offset ≠ 0) :
    b.stop ≤ hi := by
  rcases h with ⟨h0, rfl⟩ | ⟨-, -, -, hstop, -⟩
  · exact absurd h0 hne
  · exact hstop

theorem exists_moved {lo hi : ℤ} (h : List.Forall₂ (Moved bytes temp lo hi) rpt rpt')
    (hb : b ∈ rpt') : ∃ a, Moved bytes temp lo hi a b := by
  induction h with
  | nil => cases hb
  | cons hab _ ih =>
      rcases List.mem_cons.mp hb with rfl | hb
      · exact ⟨_, hab⟩
      · exact ih hb

/-- The lines are packed downwards from `space` on. -/
theorem compressLoop_spec (bytes temp : Memory UCHAR) (h : ∀ a ∈ rpt, a.offset ≠ 0 → a.length < 32768)
    (hroom : taken rpt ≤ space) (hspace : space < 32768) :
    ∃ rpt' temp', compressLoop bytes rpt space temp = some (rpt', space - taken rpt, temp') ∧
      List.Forall₂ (Moved bytes temp' (space - taken rpt) space) rpt rpt' ∧
      rpt'.Pairwise (fun a b => a.offset ≠ 0 → b.offset ≠ 0 → b.stop ≤ a.offset) ∧
      ∀ p : ℕ, space ≤ p → temp' p = temp p := by
  induction rpt generalizing space temp with
  | nil =>
      refine ⟨[], temp, ?_, .nil, .nil, fun _ _ => rfl⟩
      rw [compressLoop, taken, List.map_nil, List.sum_nil, sub_zero]
  | cons index rpt ih =>
      obtain ⟨hfirst, hrest⟩ := List.forall_mem_cons.mp h
      have htaken := taken_nonneg rpt
      rw [compressLoop]
      by_cases h0 : index.offset = 0
      · rw [taken_cons_of_eq h0] at hroom ⊢
        obtain ⟨rpt', temp', heq, hmoved, hpair, hout⟩ := ih temp hrest hroom hspace
        refine ⟨index :: rpt', temp', ?_, .cons (.inl ⟨h0, rfl⟩) hmoved, ?_, hout⟩
        · rw [if_pos h0, heq]
          rfl
        · exact List.pairwise_cons.mpr ⟨fun b _ hne => absurd h0 hne, hpair⟩
      · rw [taken_cons_of_ne h0] at hroom ⊢
        have hlen := hfirst h0
        have hround := le_roundup index.length
        have hl : sshort index.length = index.length := sshort_eq (by omega) (by omega)
        have hs : sshort (space - roundup index.length) = space - roundup index.length :=
          sshort_eq (by omega) (by omega)
        obtain ⟨rpt', temp', heq, hmoved, hpair, hout⟩ :=
          ih (temp.store (space - roundup index.length).toNat (bytes.load index.offset index.length))
            hrest (show taken rpt ≤ space - roundup index.length by omega) (by omega)
        have hleft : space - roundup index.length - taken rpt =
            space - (roundup index.length + taken rpt) := by omega
        rw [hleft] at heq hmoved
        refine ⟨⟨(space - roundup index.length).toNat, index.length⟩ :: rpt', temp', ?_, ?_, ?_, ?_⟩
        · simp only [if_neg h0, hl, hs]
          rw [if_neg (by omega), Int.toNat_natCast, heq]
          rfl
        · refine .cons (.inr ⟨h0, rfl, ?_, ?_, ?_⟩) ?_
          · change _ ≤ ((space - roundup index.length).toNat : ℤ)
            omega
          · change (((space - roundup index.length).toNat + index.length : ℕ) : ℤ) ≤ space
            omega
          · -- what is moved later is below
            have hwords := Memory.load_store temp (space - roundup index.length).toNat
              (bytes.load index.offset index.length)
            rw [Memory.length_load] at hwords
            refine Eq.trans (Extent.content_congr fun p hp _ => ?_) hwords
            change (space - roundup index.length).toNat ≤ p at hp
            exact hout p (by omega)
          · exact hmoved.imp fun a b hab => hab.mono le_rfl (by omega)
        · refine List.pairwise_cons.mpr ⟨fun b hb _ hne => ?_, hpair⟩
          obtain ⟨a, hab⟩ := exists_moved hmoved hb
          have hstop := hab.stop_le hne
          change b.stop ≤ (space - roundup index.length).toNat
          omega
        · intro p hp
          rw [hout p (by omega)]
          exact Memory.store_of_outside (by rw [Memory.length_load]; omega)

/-- An entry of one list and the entry of the other -/
theorem exists_getElem? {α β : Type*} {R : α → β → Prop} {l : List α} {l' : List β} {x : α}
    (h : List.Forall₂ R l l') (hx : l[i]? = some x) : ∃ y, l'[i]? = some y ∧ R x y := by
  induction h generalizing i with
  | nil => cases hx
  | cons hxy _ ih =>
      cases i with
      | zero =>
          cases hx
          exact ⟨_, rfl, hxy⟩
      | succ i => exact ih hx

/-- A page that `DPM_compress` has been over, and what it returns -/
structure Compressed (dbb : Dbb) (page page' : DataPage) (space : ℤ) : Prop where
  space_eq : space = dbb.pageSize - taken page.rpt
  above : highWater page.count ≤ space
  line : ∀ (i : ℕ) (a : Extent), page.rpt[i]? = some a → ∃ b, page'.rpt[i]? = some b ∧
    Moved page.bytes page'.bytes space dbb.pageSize a b
  count : page'.count = page.count
  apart : page'.rpt.Pairwise (fun a b => a.offset ≠ 0 → b.offset ≠ 0 → b.stop ≤ a.offset)

theorem dpmCompress_spec (temp : Memory UCHAR) (hinside : ∀ i a, page.Live i a → a.stop ≤ dbb.pageSize)
    (hroom : highWater page.count ≤ dbb.pageSize - taken page.rpt) :
    ∃ page' space, dpmCompress dbb temp page = some (page', space) ∧
      Compressed dbb page page' space := by
  have hmax : dbb.pageSize ≤ 16384 := dbb.le_max
  have htaken := taken_nonneg page.rpt
  have hwater := highWater_eq page.count
  have hlen : ∀ a ∈ page.rpt, a.offset ≠ 0 → a.length < 32768 := by
    intro a ha hne
    obtain ⟨i, hi⟩ := List.mem_iff_getElem?.mp ha
    have hstop := hinside i a ⟨hi, hne⟩
    unfold Extent.stop at hstop
    omega
  obtain ⟨rpt', temp', heq, hmoved, hpair, -⟩ :=
    compressLoop_spec page.bytes temp hlen (by omega)
      (show (dbb.pageSize : ℤ) < 32768 by omega)
  refine ⟨⟨rpt', page.bytes.store (dbb.pageSize - taken page.rpt).toNat
    (temp'.load (dbb.pageSize - taken page.rpt).toNat
      (dbb.pageSize - (dbb.pageSize - taken page.rpt).toNat))⟩, _, ?_,
    ⟨rfl, hroom, ?_, hmoved.length_eq.symm, hpair⟩⟩
  · rw [dpmCompress, heq]
    rfl
  intro i a ha
  obtain ⟨b, hb, hab⟩ := exists_getElem? hmoved ha
  refine ⟨b, hb, ?_⟩
  rcases hab with h0 | ⟨hne, hlen, hlo, hhi, hbytes⟩
  · exact .inl h0
  · refine .inr ⟨hne, hlen, hlo, hhi, ?_⟩
    rw [← hbytes]
    -- the temporary page is copied back from the lowest line on
    apply Extent.content_congr
    intro p hp hp'
    have hcopy := Memory.holds_store page.bytes (dbb.pageSize - taken page.rpt).toNat
      (temp'.load (dbb.pageSize - taken page.rpt).toNat
        (dbb.pageSize - (dbb.pageSize - taken page.rpt).toNat))
    have hword := hcopy (p - (dbb.pageSize - taken page.rpt).toNat)
      (by rw [Memory.length_load]; omega)
    rw [← Memory.holds_load _ _ _ _ (by rw [Memory.length_load]; omega)] at hword
    have hback : (dbb.pageSize - taken page.rpt).toNat +
        (p - (dbb.pageSize - taken page.rpt).toNat) = p := by omega
    rw [hback] at hword
    exact hword

theorem Compressed.live (h : Compressed dbb page page' space) (hb : page'.Live i b) :
    ∃ a, page.Live i a ∧ Moved page.bytes page'.bytes space dbb.pageSize a b := by
  have hlt : i < page'.count := (List.getElem?_eq_some_iff.mp hb.1).1
  rw [h.count] at hlt
  have ha := List.getElem?_eq_getElem (l := page.rpt) hlt
  obtain ⟨b', hb', hmoved⟩ := h.line i _ ha
  obtain rfl : b' = b := Option.some.inj (hb'.symm.trans hb.1)
  refine ⟨_, ⟨ha, ?_⟩, hmoved⟩
  rcases hmoved with ⟨h0, heq⟩ | hmoved
  · exact absurd (heq ▸ h0) hb.2
  · exact hmoved.1

theorem Compressed.le_offset (h : Compressed dbb page page' space) (hb : page'.Live i b) :
    space ≤ b.offset ∧ b.stop ≤ dbb.pageSize := by
  obtain ⟨a, ha, hmoved⟩ := h.live hb
  rcases hmoved with ⟨h0, -⟩ | ⟨-, -, hlo, hhi, -⟩
  · exact absurd h0 ha.2
  · exact ⟨hlo, by exact_mod_cast hhi⟩

theorem Compressed.layout (h : Compressed dbb page page' space)
    (hindex : highWater page.count ≤ dbb.pageSize) : Layout dbb page' where
  index := h.count.symm ▸ hindex
  above i b hb := by
    rw [h.count]
    exact h.above.trans (h.le_offset hb).1
  inside i b hb := (h.le_offset hb).2
  apart i j a b ha hb hij := by
    have hpair := List.pairwise_iff_getElem.mp h.apart
    obtain ⟨hi, rfl⟩ := List.getElem?_eq_some_iff.mp ha.1
    obtain ⟨hj, rfl⟩ := List.getElem?_eq_some_iff.mp hb.1
    rcases Nat.lt_or_gt_of_ne hij with hlt | hgt
    · exact .inr (.inr (.inr (hpair i j hi hj hlt ha.2 hb.2)))
    · exact .inr (.inr (.inl (hpair j i hj hi hgt hb.2 ha.2)))

theorem Compressed.keeps (h : Compressed dbb page page' space) (i : ℕ) : Keeps page page' i := by
  intro a ha
  have hpos : 0 < space := by
    have := h.above
    rw [highWater_eq] at this
    omega
  obtain ⟨b, hb, hmoved⟩ := h.line i a ha.1
  rcases hmoved with ⟨h0, -⟩ | ⟨-, hlen, hlo, -, hbytes⟩
  · exact absurd h0 ha.2
  · exact ⟨b, ⟨hb, by omega⟩, hlen, hbytes⟩

end Firebird.Dpm
