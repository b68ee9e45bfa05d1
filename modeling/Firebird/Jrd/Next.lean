import Mathlib.Data.Int.Notation
import Firebird.Lib.Search

/-! # Sequential scans (`jrd/dpm.epp`)

`DPM_next` goes from a record number to the next line that holds a primary record, forward or
backwards: through the pointer pages of the relation, the slots of each, and the lines of the data
page of each slot. A record number is made of the three.

Forward it finds the next record, as long as the number behind the last one is in a pointer page.
Backwards it goes wrong where it leaves a pointer page: behind the last one it ends as if it was
the first, and the slots of an earlier one are counted by the page that was left.
-/

namespace Firebird.Sequential

open Search (First Last)

/-! ## Pages -/

/-- What `dpm.epp` uses of a database: the data pages per pointer page, and the most records per
data page. They follow from the page size, and a `SSHORT` holds them. -/
structure Dbb where
  dp_per_pp : ℕ
  max_records : ℕ
  dp_per_pp_pos : 0 < dp_per_pp
  max_records_pos : 0 < max_records
  dp_per_pp_lt : dp_per_pp < 2 ^ 15
  max_records_lt : max_records < 2 ^ 15

/-- A record header -/
structure Rhdf where
  flags : BitVec 16
  b_page : ℕ
  b_line : ℕ
  transaction : ℕ
  format : ℕ
  f_page : ℕ
  f_line : ℕ

/-- A data page: offset and length of each line, and the headers at the offsets -/
structure Dpg where
  count : ℕ
  offset : ℕ → ℕ
  length : ℕ → ℕ
  header : ℕ → Rhdf

/-- A pointer page, with 0 in the empty slots -/
structure Ppg where
  page : ℕ → ℕ
  count : ℕ
  eof : Bool

/-- The record parameter block, as far as `DPM_next` fills it -/
structure Rpb where
  number : ℤ
  page : ℕ
  line : ℕ
  flags : BitVec 16
  b_page : ℕ
  b_line : ℕ
  transaction : ℕ
  format_number : ℕ
  f_page : ℕ
  f_line : ℕ
  address : ℕ
  length : ℕ

/-- A relation. Its pointer pages are numbered by a `USHORT`, and the last one is marked. -/
structure Relation (dbb : Dbb) where
  pages : List Ppg
  data : ℕ → Dpg
  pages_ne_nil : pages ≠ []
  pages_lt : pages.length < 2 ^ 16
  eof_iff : ∀ i, ∀ p ∈ pages[i]?, p.eof = true ↔ i + 1 = pages.length
  count_le : ∀ p ∈ pages, p.count ≤ dbb.dp_per_pp
  lines_le : ∀ page, (data page).count ≤ dbb.max_records

def rpb_chained : BitVec 16 := 2
def rpb_fragment : BitVec 16 := 4
def rpb_incomplete : BitVec 16 := 8
def rpb_blob : BitVec 16 := 16

/-- `RHD_SIZE` -/
def rhd_size : ℕ := 13

/-- `RHDF_SIZE` -/
def rhdf_size : ℕ := 22

/-! ## The loops -/

/-- `get_header`: whether the line is there, and the block filled from its header -/
def get_header (dpage : Dpg) (page line : ℕ) (rpb : Rpb) : Bool × Rpb :=
  if dpage.count ≤ line then (false, rpb)
  else if dpage.offset line = 0 then (false, rpb)
  else
    let header := dpage.header (dpage.offset line)
    let rpb := { rpb with page := page, line := line, flags := header.flags }
    let rpb :=
      if rpb.flags &&& rpb_fragment = 0 then
        { rpb with
          b_page := header.b_page
          b_line := header.b_line
          transaction := header.transaction
          format_number := header.format }
      else rpb
    let rpb :=
      if rpb.flags &&& rpb_incomplete ≠ 0 then
        { rpb with
          f_page := header.f_page
          f_line := header.f_line
          address := dpage.offset line + rhdf_size
          length := dpage.length line - rhdf_size }
      else
        { rpb with
          address := dpage.offset line + rhd_size
          length := dpage.length line - rhd_size }
    (true, rpb)

/-- The next line or slot -/
def onward (backwards : Bool) (i : ℤ) : ℤ := if backwards then i - 1 else i + 1

/-- The lines of a data page, up to one with a primary record. Each turn is at another line, so
there are not more than `dpg_count` of them. -/
def lineLoop (backwards : Bool) (dpage : Dpg) (page : ℕ) : ℕ → ℤ → Rpb → Option ℤ × Rpb
  | 0, _, rpb => (none, rpb)
  | k + 1, line, rpb =>
      if 0 ≤ line ∧ line < dpage.count then
        let (found, rpb) := get_header dpage page line.toNat rpb
        if found ∧ rpb.flags &&& (rpb_blob ||| rpb_chained ||| rpb_fragment) = 0 then
          (some line, rpb)
        else lineLoop backwards dpage page k (onward backwards line) rpb
      else (none, rpb)

/-- How the slots of a pointer page end -/
inductive Turn
  | found (slot line : ℤ)
  | stop
  | behind

/-- The line that the next page begins with -/
def Dbb.firstLine (dbb : Dbb) (backwards : Bool) : ℤ := if backwards then (dbb.max_records : ℤ) - 1 else 0

/-- A slot: the lines of its data page, if there is one -/
def slotLines {dbb : Dbb} (rel : Relation dbb) (backwards : Bool) (page_number : ℕ) (line : ℤ)
    (rpb : Rpb) : Option ℤ × Rpb :=
  if page_number = 0 then (none, rpb)
  else
    let dpage := rel.data page_number
    let line := if backwards ∧ dpage.count ≤ line then (dpage.count : ℤ) - 1 else line
    lineLoop backwards dpage page_number dpage.count line rpb

/-- The slots of a pointer page, not more than `ppg_count` -/
def slotLoop {dbb : Dbb} (rel : Relation dbb) (backwards onepage : Bool) (ppage : Ppg) :
    ℕ → ℤ → ℤ → Rpb → Turn × Rpb
  | 0, _, _, rpb => (.behind, rpb)
  | k + 1, slot, line, rpb =>
      if 0 ≤ slot ∧ slot < ppage.count then
        match slotLines rel backwards (ppage.page slot.toNat) line rpb with
        | (some line, rpb) => (.found slot line, rpb)
        | (none, rpb) =>
            if onepage then (.stop, rpb)
            else
              slotLoop rel backwards onepage ppage k (onward backwards slot)
                (dbb.firstLine backwards) rpb
      else (.behind, rpb)

/-- What ends `DPM_next` otherwise: msg 249, "pointer page vanished from DPM_next", a record number
that a `SLONG` does not hold, and a loop without end -/
inductive Fault
  | bugcheck
  | overflow
  | endless

/-- `get_pointer_page`, `NULL` behind the last one -/
def get_pointer_page {dbb : Dbb} (rel : Relation dbb) (sequence : ℕ) : Option Ppg :=
  rel.pages[sequence]?

/-- The pointer pages, not more than there are and one more -/
def pageLoop {dbb : Dbb} (rel : Relation dbb) (backwards onepage : Bool) :
    ℕ → ℕ → ℤ → ℤ → Rpb → Except Fault (Bool × Rpb)
  | 0, _, _, _, _ => .error .endless
  | k + 1, pp_sequence, slot, line, rpb =>
      match get_pointer_page rel pp_sequence with
      | none => .error .bugcheck
      | some ppage =>
          let slot := if backwards ∧ ppage.count ≤ slot then (ppage.count : ℤ) - 1 else slot
          match slotLoop rel backwards onepage ppage ppage.count slot line rpb with
          | (.found slot line, rpb) =>
              let number := (pp_sequence * dbb.dp_per_pp + slot) * dbb.max_records + line
              if number < 2 ^ 31 then .ok (true, { rpb with number := number })
              else .error .overflow
          | (.stop, rpb) => .ok (false, rpb)
          | (.behind, rpb) =>
              if ppage.eof ∨ onepage then .ok (false, rpb)
              else if backwards then
                pageLoop rel backwards onepage k ((pp_sequence + 65535) % 65536)
                  ((ppage.count : ℤ) - 1) ((dbb.max_records : ℤ) - 1) rpb
              else
                pageLoop rel backwards onepage k ((pp_sequence + 1) % 65536) 0 0 rpb

/-- From a record number on. `DECOMPOSE` splits it by division, and the pointer page is cut to a
`USHORT`. -/
def nextFrom {dbb : Dbb} (rel : Relation dbb) (backwards onepage : Bool) (rpb : Rpb) :
    Except Fault (Bool × Rpb) :=
  let line := rpb.number.tmod dbb.max_records
  let sequence := rpb.number.tdiv dbb.max_records
  let slot := sequence.tmod dbb.dp_per_pp
  let pp_sequence := (sequence.tdiv dbb.dp_per_pp % 65536).toNat
  pageLoop rel backwards onepage (rel.pages.length + 1) pp_sequence slot line rpb

/-- `DPM_next`, after `DPM_scan_pages` has put all pointer pages in `rel_pages` -/
def DPM_next {dbb : Dbb} (rel : Relation dbb) (backwards onepage : Bool) (rpb : Rpb) :
    Except Fault (Bool × Rpb) :=
  if backwards then
    if 0 < rpb.number then
      nextFrom rel backwards onepage { rpb with number := rpb.number - 1 }
    else if rpb.number < 0 then
      let pp_sequence := rel.pages.length % 65536
      let past := pp_sequence * dbb.dp_per_pp * dbb.max_records
      if past < 2 ^ 31 then
        nextFrom rel backwards onepage { rpb with number := (past : ℤ) - 1 }
      else .error .overflow
    else .ok (false, rpb)
  else if rpb.number + 1 < 2 ^ 31 then
    nextFrom rel backwards onepage { rpb with number := rpb.number + 1 }
  else .error .overflow

/-! ## What the loops look for -/

/-- The line holds a primary record: it is in use, and no blob, chained version or fragment. -/
def Dpg.Primary (d : Dpg) (line : ℕ) : Prop :=
  line < d.count ∧ d.offset line ≠ 0 ∧
    (d.header (d.offset line)).flags &&& (rpb_blob ||| rpb_chained ||| rpb_fragment) = 0

section

variable {dbb : Dbb} (rel : Relation dbb) (ppage : Ppg)

/-- The primary records of the data page with this number, 0 for none -/
def Relation.InSlot (page_number line : ℕ) : Prop :=
  page_number ≠ 0 ∧ (rel.data page_number).Primary line

/-- The primary records of a pointer page, by slot and line -/
def Relation.InPage (y : ℕ) : Prop :=
  y / dbb.max_records < ppage.count ∧
    rel.InSlot (ppage.page (y / dbb.max_records)) (y % dbb.max_records)

/-- The record numbers of a pointer page -/
def Dbb.width (dbb : Dbb) : ℕ := dbb.dp_per_pp * dbb.max_records

/-- The numbers of the primary records of a relation -/
def Relation.Primary (p : ℕ) : Prop :=
  ∃ ppage ∈ rel.pages[p / dbb.width]?, rel.InPage ppage (p % dbb.width)

end

theorem get_header_iff {dpage : Dpg} {page line : ℕ} {rpb : Rpb} :
    ((get_header dpage page line rpb).1 = true ∧
      (get_header dpage page line rpb).2.flags &&& (rpb_blob ||| rpb_chained ||| rpb_fragment) = 0) ↔
        dpage.Primary line := by
  unfold get_header Dpg.Primary
  split
  · rename_i hcount
    exact iff_of_false (by simp) fun h => by omega
  · rename_i hcount
    split
    · rename_i hoffset
      exact iff_of_false (by simp) fun h => h.2.1 hoffset
    · rename_i hoffset
      -- the flags stay those of the header, whichever fields are filled
      simp only [true_and]
      rw [and_iff_right (by omega : line < dpage.count), and_iff_right hoffset]
      split <;> split <;> exact Iff.rfl

variable {dbb : Dbb} {rel : Relation dbb} {dpage : Dpg} {ppage : Ppg} {rpb : Rpb} {page k : ℕ}

theorem lineLoop_forward {line : ℕ} (hk : dpage.count ≤ line + k) :
    ∃ o rpb', lineLoop false dpage page k line rpb = (o.map Nat.cast, rpb') ∧
      First dpage.Primary line dpage.count o := by
  induction k generalizing line rpb with
  | zero => exact ⟨none, rpb, rfl, Search.first_none_of_le hk⟩
  | succ k ih =>
      rw [lineLoop]
      split
      · rename_i hinside
        simp only [Int.toNat_natCast]
        split
        · rename_i hfound
          refine ⟨some line, _, rfl, ?_⟩
          have hprimary := Iff.mp get_header_iff hfound
          exact ⟨hprimary, le_rfl, hprimary.1, fun y hy hlt => absurd hy (by omega)⟩
        · rename_i hnot
          obtain ⟨o, rpb', heq, hfirst⟩ :=
            @ih (get_header dpage page line rpb).2 (line + 1) (by omega)
          refine ⟨o, rpb', heq, ?_⟩
          have hhere : First dpage.Primary line (line + 1) none := by
            intro y hy hlt hprimary
            obtain rfl : y = line := by omega
            exact hnot (Iff.mpr get_header_iff hprimary)
          exact hhere.append hfirst (Nat.le_succ line)
      · rename_i houtside
        exact ⟨none, rpb, rfl, Search.first_none_of_le (by omega)⟩

theorem lineLoop_backward {j : ℕ} (hj : j ≤ dpage.count) (hk : j ≤ k) :
    ∃ o rpb', lineLoop true dpage page k ((j : ℤ) - 1) rpb = (o.map Nat.cast, rpb') ∧
      Last dpage.Primary 0 j o := by
  induction k generalizing j rpb with
  | zero => exact ⟨none, rpb, rfl, Search.last_none_of_le hk⟩
  | succ k ih =>
      rw [lineLoop]
      split
      · rename_i hinside
        obtain ⟨i, rfl⟩ : ∃ i, j = i + 1 := ⟨j - 1, by omega⟩
        have hline : ((i + 1 : ℕ) : ℤ) - 1 = i := by omega
        simp only [hline, Int.toNat_natCast]
        split
        · rename_i hfound
          refine ⟨some i, _, rfl, Iff.mp get_header_iff hfound, Nat.zero_le i,
            Nat.lt_succ_self i, ?_⟩
          exact fun y hy hlt => absurd hy (by omega)
        · rename_i hnot
          obtain ⟨o, rpb', heq, hlast⟩ :=
            @ih (get_header dpage page i rpb).2 i (by omega) (by omega)
          refine ⟨o, rpb', heq, ?_⟩
          have hhere : Last dpage.Primary i (i + 1) none := by
            intro y hy hlt hprimary
            obtain rfl : y = i := by omega
            exact hnot (Iff.mpr get_header_iff hprimary)
          exact hhere.append hlast (Nat.le_succ i)
      · rename_i houtside
        exact ⟨none, rpb, rfl, Search.last_none_of_le (by omega)⟩

theorem slotLines_forward (page_number line : ℕ) :
    ∃ o rpb', slotLines rel false page_number line rpb = (o.map Nat.cast, rpb') ∧
      First (rel.InSlot page_number) line dbb.max_records o := by
  rw [slotLines]
  split
  · rename_i hzero
    exact ⟨none, rpb, rfl, fun y _ _ h => h.1 hzero⟩
  · rename_i hzero
    have hcount := rel.lines_le page_number
    obtain ⟨o, rpb', heq, hfirst⟩ := @lineLoop_forward (rel.data page_number) rpb
      page_number _ line (Nat.le_add_left (rel.data page_number).count line)
    refine ⟨o, rpb', by simpa using heq, ?_⟩
    have hwide := hfirst.widen (fun y hy h => absurd h.1 (Nat.not_lt.mpr hy)) hcount
    exact hwide.congr fun y _ => (and_iff_right hzero).symm

theorem slotLines_backward (page_number j : ℕ) :
    ∃ o rpb', slotLines rel true page_number ((j : ℤ) - 1) rpb = (o.map Nat.cast, rpb') ∧
      Last (rel.InSlot page_number) 0 j o := by
  rw [slotLines]
  split
  · rename_i hzero
    exact ⟨none, rpb, rfl, fun y _ _ h => h.1 hzero⟩
  · rename_i hzero
    -- a line behind the last one is clamped
    have hclamp : (if ((rel.data page_number).count : ℤ) ≤ (j : ℤ) - 1 then
        ((rel.data page_number).count : ℤ) - 1 else (j : ℤ) - 1) =
          ((min j (rel.data page_number).count : ℕ) : ℤ) - 1 := by
      split <;> omega
    simp only [true_and, hclamp]
    obtain ⟨o, rpb', heq, hlast⟩ := @lineLoop_backward (rel.data page_number) rpb
      page_number _ _ (Nat.min_le_right j _) (Nat.min_le_right j _)
    refine ⟨o, rpb', heq, ?_⟩
    have hbehind : Last (rel.data page_number).Primary (min j (rel.data page_number).count) j
        none := by
      intro y hy hlt h
      have hcount := h.1
      omega
    have hwide := hbehind.append hlast (Nat.min_le_left j _)
    exact hwide.congr fun y _ => (and_iff_right hzero).symm

/-- What a slot has, as part of the pointer page -/
theorem inPage_slot {slot line : ℕ} (hslot : slot < ppage.count) (hline : line < dbb.max_records) :
    rel.InSlot (ppage.page slot) line ↔ rel.InPage ppage (slot * dbb.max_records + line) := by
  have hdiv : (slot * dbb.max_records + line) / dbb.max_records = slot := by
    rw [Nat.mul_comm, Nat.mul_add_div dbb.max_records_pos, Nat.div_eq_of_lt hline, Nat.add_zero]
  have hmod : (slot * dbb.max_records + line) % dbb.max_records = line := by
    rw [Nat.mul_comm, Nat.mul_add_mod, Nat.mod_eq_of_lt hline]
  rw [Relation.InPage, hdiv, hmod]
  exact (and_iff_right hslot).symm

theorem Relation.InPage.lt {y : ℕ} (h : rel.InPage ppage y) : y < ppage.count * dbb.max_records :=
  (Nat.div_lt_iff_lt_mul dbb.max_records_pos).mp h.1

/-- The end of the slots, with the slot and line of the place found -/
def turn : Option (ℕ × ℕ) → Turn
  | some x => .found x.1 x.2
  | none => .behind

/-- A slot and a line as one number -/
def Dbb.place (dbb : Dbb) (x : ℕ × ℕ) : ℕ := x.1 * dbb.max_records + x.2

theorem slotLoop_forward {slot line : ℕ} (hk : ppage.count ≤ slot + k)
    (hline : line ≤ dbb.max_records) :
    ∃ o rpb', slotLoop rel false false ppage k slot line rpb = (turn o, rpb') ∧
      First (rel.InPage ppage) (slot * dbb.max_records + line) (ppage.count * dbb.max_records)
        (o.map dbb.place) := by
  induction k generalizing slot line rpb with
  | zero =>
      refine ⟨none, rpb, rfl, Search.first_none_of_le ?_⟩
      exact (Nat.mul_le_mul_right _ hk).trans (Nat.le_add_right _ _)
  | succ k ih =>
      rw [slotLoop]
      split
      · rename_i hinside
        have hslot : slot < ppage.count := by omega
        simp only [Int.toNat_natCast]
        obtain ⟨o, rpb', heq, hfirst⟩ := @slotLines_forward dbb rel rpb
          (ppage.page slot) line
        rw [heq]
        have hwidth : slot * dbb.max_records + dbb.max_records = (slot + 1) * dbb.max_records :=
          (Nat.succ_mul _ _).symm
        have hchunk := (hfirst.congr fun y hy => inPage_slot hslot hy).shift
        rw [hwidth] at hchunk
        cases o with
        | some r =>
            refine ⟨some (slot, r), rpb', rfl, hchunk.extend ?_⟩
            exact Nat.mul_le_mul_right _ hslot
        | none =>
            obtain ⟨o', rpb'', heq', hrest⟩ :=
              @ih rpb' (slot + 1) 0 (by omega) (Nat.zero_le _)
            refine ⟨o', rpb'', heq', hchunk.append hrest ?_⟩
            rw [← hwidth]
            exact Nat.add_le_add_left hline _
      · rename_i houtside
        refine ⟨none, rpb, rfl, Search.first_none_of_le ?_⟩
        exact (Nat.mul_le_mul_right _ (by omega)).trans (Nat.le_add_right _ _)

/-- What is below a line of the slot that `i` is one behind -/
def Dbb.below (dbb : Dbb) (i j : ℕ) : ℕ := i * dbb.max_records + j - dbb.max_records

theorem below_succ (i j : ℕ) : dbb.below (i + 1) j = i * dbb.max_records + j := by
  rw [Dbb.below, Nat.succ_mul, Nat.add_right_comm, Nat.add_sub_cancel]

theorem below_max (i : ℕ) : dbb.below i dbb.max_records = i * dbb.max_records :=
  Nat.add_sub_cancel _ _

theorem slotLoop_backward {i j : ℕ} (hi : i ≤ ppage.count) (hk : i ≤ k)
    (hj : j ≤ dbb.max_records) :
    ∃ o rpb', slotLoop rel true false ppage k ((i : ℤ) - 1) ((j : ℤ) - 1) rpb = (turn o, rpb') ∧
      Last (rel.InPage ppage) 0 (dbb.below i j) (o.map dbb.place) := by
  have hnone : dbb.below 0 j ≤ 0 := by
    rw [Dbb.below, Nat.zero_mul, Nat.zero_add]
    omega
  induction k generalizing i j rpb with
  | zero =>
      obtain rfl : i = 0 := by omega
      exact ⟨none, rpb, rfl, Search.last_none_of_le hnone⟩
  | succ k ih =>
      rw [slotLoop]
      split
      · rename_i hinside
        obtain ⟨slot, rfl⟩ : ∃ slot, i = slot + 1 := ⟨i - 1, by omega⟩
        have hcast : ((slot + 1 : ℕ) : ℤ) - 1 = slot := by omega
        simp only [hcast, Int.toNat_natCast]
        obtain ⟨o, rpb', heq, hlast⟩ := @slotLines_backward dbb rel rpb
          (ppage.page slot) j
        rw [heq, below_succ]
        have hchunk := (hlast.congr fun y hy => inPage_slot hi (hy.trans_le hj)).shift
        rw [Nat.add_zero] at hchunk
        cases o with
        | some r => exact ⟨some (slot, r), rpb', rfl, hchunk.extend (Nat.zero_le _)⟩
        | none =>
            have hzero : dbb.below 0 dbb.max_records ≤ 0 := by rw [below_max, Nat.zero_mul]
            obtain ⟨o', rpb'', heq', hrest⟩ :=
              @ih rpb' slot dbb.max_records (by omega) (by omega) le_rfl hzero
            rw [below_max] at hrest
            exact ⟨o', rpb'', heq', hchunk.append hrest (Nat.le_add_right _ _)⟩
      · rename_i houtside
        obtain rfl : i = 0 := by omega
        exact ⟨none, rpb, rfl, Search.last_none_of_le hnone⟩

end Firebird.Sequential
