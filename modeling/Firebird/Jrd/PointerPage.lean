import Mathlib.Data.List.Basic
import Mathlib.Logic.Function.Basic
import Mathlib.Order.Lattice
import Mathlib.Order.MinMax
import Mathlib.Order.Nat
import Firebird.Lib.Transition

/-! # Pointer pages (`jrd/dpm.epp`)

A pointer page has `dbb_dp_per_pp` slots for the data pages of a relation, and two bits for each
slot: whether the data page is full, and whether it holds large objects. `ppg_min_space` is the
lowest slot with space available, where `locate_space` starts to look for room.
-/

namespace Firebird.PointerPage

open Transition (Reachable)

/-! ## The bits of a slot -/

/-- The two bits of a slot -/
inductive Mark where
  | full
  | large
  deriving DecidableEq

/-- `(slot & 3) << 1`, and one more for the "large object" bit -/
def Mark.position (m : Mark) (slot : ℕ) : ℕ :=
  match m with
  | .full => slot % 4 * 2
  | .large => slot % 4 * 2 + 1

/-- `bits[slot >> 2] & bit` -/
def readBit (bits : ℕ → BitVec 8) (m : Mark) (slot : ℕ) : Bool :=
  (bits (slot / 4)).getLsbD (m.position slot)

/-- `*byte |= bit` or `*byte &= ~bit` -/
def writeBit (bits : ℕ → BitVec 8) (m : Mark) (slot : ℕ) (on : Bool) : ℕ → BitVec 8 :=
  let byte := bits (slot / 4)
  let bit := BitVec.twoPow 8 (m.position slot)
  Function.update bits (slot / 4) (if on then byte ||| bit else byte &&& ~~~bit)

theorem Mark.position_lt (m : Mark) (slot : ℕ) : m.position slot < 8 := by
  cases m with
  | full =>
      rw [position]
      omega
  | large =>
      rw [position]
      omega

/-- Two bits of a byte are of the same slot and kind if they are at the same position. -/
theorem Mark.position_inj {m m' : Mark} {slot slot' : ℕ} (hbyte : slot / 4 = slot' / 4)
    (h : m.position slot = m'.position slot') : m = m' ∧ slot = slot' := by
  cases m with
  | full =>
      cases m' with
      | full =>
          rw [position, position] at h
          exact ⟨rfl, by omega⟩
      | large =>
          rw [position, position] at h
          omega
  | large =>
      cases m' with
      | full =>
          rw [position, position] at h
          omega
      | large =>
          rw [position, position] at h
          exact ⟨rfl, by omega⟩

section

variable (bits : ℕ → BitVec 8) (m m' : Mark) (slot slot' : ℕ) (on : Bool)

theorem readBit_writeBit_self : readBit (writeBit bits m slot on) m slot = on := by
  have hlt := m.position_lt slot
  rw [readBit, writeBit, Function.update_self]
  cases on with
  | false => simp [hlt]
  | true => simp [hlt]

theorem readBit_writeBit_of_ne {m m' : Mark} {slot slot' : ℕ} (h : ¬(m = m' ∧ slot = slot')) :
    readBit (writeBit bits m slot on) m' slot' = readBit bits m' slot' := by
  rw [readBit, readBit, writeBit]
  by_cases hbyte : slot' / 4 = slot / 4
  · have hne : m.position slot ≠ m'.position slot' := fun heq =>
      h (Mark.position_inj hbyte.symm heq)
    rw [hbyte, Function.update_self]
    cases on with
    | false => simp [hne.symm, m'.position_lt slot']
    | true => simp [hne]
  · rw [Function.update_of_ne hbyte]

end

/-! ## Pages -/

/-- A pointer page -/
structure Ppg where
  /-- `ppg_page`, 0 where no data page is -/
  page : ℕ → ℕ
  bits : ℕ → BitVec 8
  count : ℕ
  minSpace : ℕ
  eof : Bool

/-- A data page: the offsets of its lines, 0 where none is -/
structure Dpg where
  sequence : ℕ
  offset : ℕ → ℕ
  count : ℕ
  full : Bool
  large : Bool
  orphan : Bool

namespace Ppg

variable (p : Ppg)

/-- The page of the slot is marked full. -/
def full (slot : ℕ) : Bool := readBit p.bits .full slot

/-- A page that `DPM_allocate` has cleared -/
def fresh : Ppg := ⟨fun _ => 0, fun _ => 0, 0, 0, true⟩

/-- The slots whose data pages `locate_space` tries -/
def scan : List ℕ :=
  (List.range' p.minSpace (p.count - p.minSpace)).filter fun slot =>
    p.page slot ≠ 0 ∧ ¬p.full slot

end Ppg

/-- The entries up to the last one that is not 0 -/
def countUsed (entry : ℕ → ℕ) : ℕ → ℕ
  | 0 => 0
  | n + 1 => if entry n ≠ 0 then n + 1 else countUsed entry n

/-- The data and pointer pages of a relation, with `rel_slot_space` and `rel_data_space` -/
structure Relation where
  pages : List Ppg
  data : ℕ → Dpg
  slotSpace : ℕ
  dataSpace : ℕ

/-! ## `extend_relation` -/

namespace Ppg

variable (p : Ppg)

/-- The first slot in use that is empty -/
def emptySlot : Option ℕ := (List.range p.count).find? fun slot => p.page slot = 0

/-- The slot gets a page, which is not full. -/
def fill (slot page : ℕ) : Ppg where
  page := Function.update p.page slot page
  bits := writeBit p.bits .full slot false
  count := max p.count (slot + 1)
  minSpace := min p.minSpace slot
  eof := p.eof

end Ppg

/-- Where the search for an empty slot ends: on a pointer page, or behind the last one -/
inductive Place where
  | slot (ppSequence slot : ℕ)
  | behind (ppSequence : ℕ)

/-- The search through the pointer pages from `pp_sequence` on -/
def searchSlot (dpPerPp : ℕ) : ℕ → List Ppg → Option Place
  | _, [] => none
  | ppSequence, p :: pages =>
      match p.emptySlot with
      | some slot => some (.slot ppSequence slot)
      | none =>
          if ppSequence ≠ 0 ∧ p.count < dpPerPp ∨ p.count < dpPerPp - 1 then
            some (.slot ppSequence p.count)
          else if p.eof then some (.behind ppSequence)
          else searchSlot dpPerPp (ppSequence + 1) pages

namespace Relation

variable (dpPerPp : ℕ) (s : Relation)

/-- A new pointer page behind the last one -/
def allocatePointer (ppSequence : ℕ) : Relation :=
  { s with
    pages := (s.pages.take (ppSequence + 1)).modify ppSequence (fun p => { p with eof := false }) ++
      [Ppg.fresh]
    slotSpace := ppSequence + 1 }

/-- "We've found a slot. Stick in the pointer to the data page" -/
def stickIn (ppSequence slot page : ℕ) : Option Relation := do
  let p ← s.pages[ppSequence]?
  if p.page slot ≠ 0 then none
  else some { s with
    pages := s.pages.set ppSequence (p.fill slot page)
    data := Function.update s.data page
      ⟨ppSequence * dpPerPp + slot, fun _ => 0, 0, false, false, false⟩
    dataSpace := ppSequence }

/-- `extend_relation` with a page that `DPM_allocate` has found -/
def extendRelation (page : ℕ) : Option Relation := do
  let place ← searchSlot dpPerPp s.slotSpace (s.pages.drop s.slotSpace)
  match place with
  | .slot ppSequence slot => s.stickIn dpPerPp ppSequence slot page
  | .behind ppSequence => (s.allocatePointer ppSequence).stickIn dpPerPp (ppSequence + 1) 0 page

end Relation

/-! ## `mark_full` -/

/-- The bits and `ppg_min_space` according to the flags of the data page -/
def Ppg.mark (p : Ppg) (slot : ℕ) (full large : Bool) : Ppg :=
  { p with
    bits := writeBit (writeBit p.bits .full slot full) .large slot large
    minSpace := if full then max (slot + 1) p.minSpace else min slot p.minSpace }

/-- `mark_full` for a data page -/
def Relation.markFull (dpPerPp : ℕ) (s : Relation) (page : ℕ) : Option Relation := do
  let d := s.data page
  let ppSequence := d.sequence / dpPerPp
  let slot := d.sequence % dpPerPp
  let p ← s.pages[ppSequence]?
  -- the data page may have been deleted from the relation
  if p.count ≤ slot ∨ page ≠ p.page slot then some s
  else some { s with
    pages := s.pages.set ppSequence (p.mark slot d.full d.large)
    dataSpace := if d.full then s.dataSpace else min ppSequence s.dataSpace }

/-! ## `DPM_delete` -/

/-- "Eliminate the pointer to the data page" -/
def Ppg.eliminate (p : Ppg) (slot : ℕ) : Ppg :=
  let page := Function.update p.page slot 0
  let count := countUsed page p.count
  { p with
    page := page
    count := count
    minSpace := min p.minSpace (count - 1) }

namespace Relation

variable (dpPerPp : ℕ) (s : Relation)

/-- "Data page has gone empty. Refetch page thru pointer page. If it's still empty, remove page
from relation." -/
def removePage (sequence : ℕ) : Option Relation := do
  let ppSequence := sequence / dpPerPp
  let slot := sequence % dpPerPp
  let p ← s.pages[ppSequence]?
  if p.count ≤ slot ∨ p.page slot = 0 then some s
  else if (s.data (p.page slot)).count ≠ 0 then some s
  else some { s with
    pages := s.pages.set ppSequence (p.eliminate slot)
    slotSpace := min s.slotSpace ppSequence }

/-- `DPM_delete` of a line of a data page -/
def delete (page line : ℕ) : Option Relation :=
  let d := s.data page
  if d.count ≤ line ∨ d.offset line = 0 then none
  else
    let offset := Function.update d.offset line 0
    let count := countUsed offset d.count
    let emptied := { d with offset := offset, count := count }
    if count ≠ 0 ∧ d.full then
      { s with data := Function.update s.data page { emptied with full := false } }.markFull
        dpPerPp page
    else
      let s := { s with data := Function.update s.data page emptied }
      if count ≠ 0 then some s
      else if d.orphan then some s
      else s.removePage dpPerPp d.sequence

end Relation

/-! ## Runs -/

/-- What may happen to the pages of a relation. -/
inductive Action where
  | extend (page : ℕ)
  | markFull (page : ℕ)
  | delete (page line : ℕ)
  /-- A data page is changed otherwise: `find_space` and the storing of records and blobs. -/
  | write (page : ℕ) (d : Dpg)

/-- One action, unless it ends in a bug check -/
def step (dpPerPp : ℕ) (s : Relation) : Action → Option Relation
  | .extend page => s.extendRelation dpPerPp page
  | .markFull page => s.markFull dpPerPp page
  | .delete page line => s.delete dpPerPp page line
  | .write page d => some { s with data := Function.update s.data page d }

/-- Runs from what `DPM_create_relation` leaves -/
def system (dpPerPp : ℕ) : Transition.System Relation Action where
  init s := s.pages = [Ppg.fresh] ∧ s.slotSpace = 0 ∧ s.dataSpace = 0
  step s a s' := step dpPerPp s a = some s'

/-! ## What happens to a pointer page -/

section

variable {dpPerPp : ℕ} {s s' : Relation} {a : Action} {p p' : Ppg}

/-- The pointer pages of the relation, with another behind the last one -/
inductive Origin (s : Relation) : Ppg → Prop
  | old {p : Ppg} (hp : p ∈ s.pages) : Origin s p
  | notLast {p : Ppg} (hp : p ∈ s.pages) : Origin s { p with eof := false }
  | fresh : Origin s Ppg.fresh

/-- What an action does to a pointer page -/
inductive Change (dpPerPp : ℕ) (s : Relation) : Action → Ppg → Ppg → Prop
  | same (a : Action) (p : Ppg) : Change dpPerPp s a p p
  | fill (p : Ppg) (slot page : ℕ) : Change dpPerPp s (.extend page) p (p.fill slot page)
  | mark (p : Ppg) (page : ℕ)
      (hp : s.pages[(s.data page).sequence / dpPerPp]? = some p)
      (hslot : (s.data page).sequence % dpPerPp < p.count)
      (hpage : page = p.page ((s.data page).sequence % dpPerPp)) :
      Change dpPerPp s (.markFull page) p
        (p.mark ((s.data page).sequence % dpPerPp) (s.data page).full (s.data page).large)
  | unmark (p : Ppg) (page line slot : ℕ) (large : Bool) :
      Change dpPerPp s (.delete page line) p (p.mark slot false large)
  | eliminate (p : Ppg) (page line slot : ℕ) :
      Change dpPerPp s (.delete page line) p (p.eliminate slot)

theorem markFull_pages {page : ℕ} {d : Dpg} (hd : s.data page = d)
    (h : s.markFull dpPerPp page = some s') :
    s'.pages = s.pages ∨
      ∃ p, s.pages[d.sequence / dpPerPp]? = some p ∧ d.sequence % dpPerPp < p.count ∧
        page = p.page (d.sequence % dpPerPp) ∧
        s'.pages = s.pages.set (d.sequence / dpPerPp)
          (p.mark (d.sequence % dpPerPp) d.full d.large) := by
  subst hd
  rw [Relation.markFull] at h
  obtain ⟨p, hp, h⟩ := Option.bind_eq_some_iff.mp h
  split at h
  · cases h
    exact .inl rfl
  · rename_i hin
    rw [not_or, not_le, not_not] at hin
    cases h
    exact .inr ⟨p, hp, hin.1, hin.2, rfl⟩

theorem stickIn_pages {ppSequence slot page : ℕ}
    (h : s.stickIn dpPerPp ppSequence slot page = some s') :
    ∃ p ∈ s.pages, s'.pages = s.pages.set ppSequence (p.fill slot page) := by
  rw [Relation.stickIn] at h
  obtain ⟨p, hp, h⟩ := Option.bind_eq_some_iff.mp h
  split at h
  · cases h
  · cases h
    exact ⟨p, List.mem_of_getElem? hp, rfl⟩

theorem removePage_pages {sequence : ℕ} (h : s.removePage dpPerPp sequence = some s') :
    s'.pages = s.pages ∨ ∃ p ∈ s.pages, s'.pages =
      s.pages.set (sequence / dpPerPp) (p.eliminate (sequence % dpPerPp)) := by
  rw [Relation.removePage] at h
  obtain ⟨p, hp, h⟩ := Option.bind_eq_some_iff.mp h
  split at h
  · cases h
    exact .inl rfl
  · split at h
    · cases h
      exact .inl rfl
    · cases h
      exact .inr ⟨p, List.mem_of_getElem? hp, rfl⟩

theorem allocatePointer_pages {ppSequence : ℕ} (hp : p ∈ (s.allocatePointer ppSequence).pages) :
    Origin s p := by
  rcases List.mem_append.mp hp with hold | hnew
  · obtain ⟨k, hk⟩ := List.getElem?_of_mem hold
    rw [List.getElem?_modify] at hk
    obtain ⟨q, hq, rfl⟩ := Option.map_eq_some_iff.mp hk
    have hmem : q ∈ s.pages := List.mem_of_mem_take (List.mem_of_getElem? hq)
    split
    · exact .notLast hmem
    · exact .old hmem
  · rw [List.mem_singleton.mp hnew]
    exact .fresh

theorem markFull_change {page : ℕ} (h : s.markFull dpPerPp page = some s') (hp' : p' ∈ s'.pages) :
    ∃ p ∈ s.pages, Change dpPerPp s (.markFull page) p p' := by
  rcases markFull_pages rfl h with hsame | ⟨p, hp, hslot, hpage, hpages⟩
  · rw [hsame] at hp'
    exact ⟨p', hp', .same _ _⟩
  · rw [hpages] at hp'
    rcases List.mem_or_eq_of_mem_set hp' with hmem | rfl
    · exact ⟨p', hmem, .same _ _⟩
    · exact ⟨p, List.mem_of_getElem? hp, .mark p page hp hslot hpage⟩

theorem extendRelation_change {page : ℕ} (h : s.extendRelation dpPerPp page = some s')
    (hp' : p' ∈ s'.pages) : ∃ p, Origin s p ∧ Change dpPerPp s (.extend page) p p' := by
  obtain ⟨place, -, h⟩ := Option.bind_eq_some_iff.mp h
  cases place with
  | slot ppSequence slot =>
      obtain ⟨p, hp, hpages⟩ := stickIn_pages h
      rw [hpages] at hp'
      rcases List.mem_or_eq_of_mem_set hp' with hmem | rfl
      · exact ⟨p', .old hmem, .same _ _⟩
      · exact ⟨p, .old hp, .fill p slot page⟩
  | behind ppSequence =>
      obtain ⟨p, hp, hpages⟩ := stickIn_pages h
      rw [hpages] at hp'
      rcases List.mem_or_eq_of_mem_set hp' with hmem | rfl
      · exact ⟨p', allocatePointer_pages hmem, .same _ _⟩
      · exact ⟨p, allocatePointer_pages hp, .fill p 0 page⟩

/-- A page that is not empty yet is marked not full. -/
theorem delete_change {page line : ℕ} (h : s.delete dpPerPp page line = some s')
    (hp' : p' ∈ s'.pages) : ∃ p ∈ s.pages, Change dpPerPp s (.delete page line) p p' := by
  rw [Relation.delete] at h
  split at h
  · cases h
  dsimp only at h
  split at h
  · rcases markFull_pages (Function.update_self ..) h with hsame | ⟨p, hp, -, -, hpages⟩
    · rw [hsame] at hp'
      exact ⟨p', hp', .same _ _⟩
    · rw [hpages] at hp'
      rcases List.mem_or_eq_of_mem_set hp' with hmem | rfl
      · exact ⟨p', hmem, .same _ _⟩
      · exact ⟨p, List.mem_of_getElem? hp, .unmark p page line _ _⟩
  split at h
  · cases h
    exact ⟨p', hp', .same _ _⟩
  split at h
  · cases h
    exact ⟨p', hp', .same _ _⟩
  · rcases removePage_pages h with hsame | ⟨p, hp, hpages⟩
    · rw [hsame] at hp'
      exact ⟨p', hp', .same _ _⟩
    · rw [hpages] at hp'
      rcases List.mem_or_eq_of_mem_set hp' with hmem | rfl
      · exact ⟨p', hmem, .same _ _⟩
      · exact ⟨p, hp, .eliminate p page line _⟩

/-- Each pointer page comes from one that was there, or is new. -/
theorem step_pages (h : step dpPerPp s a = some s') (hp' : p' ∈ s'.pages) :
    ∃ p, Origin s p ∧ Change dpPerPp s a p p' := by
  cases a with
  | extend page => exact extendRelation_change h hp'
  | markFull page =>
      obtain ⟨p, hp, hchange⟩ := markFull_change h hp'
      exact ⟨p, .old hp, hchange⟩
  | delete page line =>
      obtain ⟨p, hp, hchange⟩ := delete_change h hp'
      exact ⟨p, .old hp, hchange⟩
  | write page d =>
      cases h
      exact ⟨p', .old hp', .same _ _⟩

end

/-! ## `ppg_min_space` -/

/-- No page below `ppg_min_space` is without the full bit, and no page behind the slots in use. -/
structure Sound (p : Ppg) : Prop where
  full_of_lt : ∀ slot < p.minSpace, p.page slot ≠ 0 → p.full slot
  lt_count : ∀ slot, p.page slot ≠ 0 → slot < p.count

/-- The slots from `ppg_min_space` up to one all have full pages. -/
def Ppg.FullUpTo (p : Ppg) (slot : ℕ) : Prop :=
  ∀ k < slot, p.minSpace ≤ k → p.page k ≠ 0 → p.full k

section

variable {p : Ppg} {slot page : ℕ} {full large : Bool}

theorem mem_scan : slot ∈ p.scan ↔
    (p.minSpace ≤ slot ∧ slot < p.count) ∧ p.page slot ≠ 0 ∧ ¬p.full slot := by
  rw [Ppg.scan, List.mem_filter, List.mem_range'_1, decide_eq_true_iff]
  refine and_congr_left fun _ => and_congr_right fun hle => ?_
  omega

/-- The scan passes no page that is not marked full. -/
theorem Sound.mem_scan (h : Sound p) (hpage : p.page slot ≠ 0) (hfull : ¬p.full slot) :
    slot ∈ p.scan := by
  refine PointerPage.mem_scan.mpr ⟨⟨?_, h.lt_count slot hpage⟩, hpage, hfull⟩
  exact not_lt.mp fun hlt => hfull (h.full_of_lt slot hlt hpage)

theorem sound_fresh : Sound Ppg.fresh where
  full_of_lt _ hlt := absurd hlt (Nat.not_lt_zero _)
  lt_count _ hpage := absurd rfl hpage

theorem Sound.notLast (h : Sound p) : Sound { p with eof := false } := ⟨h.1, h.2⟩

theorem full_fill (p : Ppg) (slot page k : ℕ) (h : k ≠ slot) :
    (p.fill slot page).full k = p.full k :=
  readBit_writeBit_of_ne _ _ fun heq => h heq.2.symm

theorem page_fill (p : Ppg) (slot page k : ℕ) (h : k ≠ slot) :
    (p.fill slot page).page k = p.page k := by
  change Function.update p.page slot page k = p.page k
  rw [Function.update_of_ne h]

theorem Sound.fill (h : Sound p) (slot page : ℕ) : Sound (p.fill slot page) where
  full_of_lt k hlt hpage := by
    have hmin : k < p.minSpace ∧ k < slot := lt_min_iff.mp hlt
    rw [full_fill p slot page k hmin.2.ne]
    refine h.full_of_lt k hmin.1 ?_
    rwa [page_fill p slot page k hmin.2.ne] at hpage
  lt_count k hpage := by
    by_cases hk : k = slot
    · rw [hk]
      exact lt_of_lt_of_le (Nat.lt_succ_self slot) (le_max_right _ _)
    · rw [page_fill p slot page k hk] at hpage
      exact lt_of_lt_of_le (h.lt_count k hpage) (le_max_left _ _)

theorem full_mark_self (p : Ppg) (slot : ℕ) (full large : Bool) :
    (p.mark slot full large).full slot = full := by
  change readBit (writeBit (writeBit p.bits .full slot full) .large slot large) .full slot = full
  rw [readBit_writeBit_of_ne _ _ (by simp), readBit_writeBit_self]

theorem full_mark_of_ne (p : Ppg) {slot k : ℕ} (full large : Bool) (h : k ≠ slot) :
    (p.mark slot full large).full k = p.full k := by
  change readBit (writeBit (writeBit p.bits .full slot full) .large slot large) .full k = _
  rw [readBit_writeBit_of_ne _ _ (by simp), readBit_writeBit_of_ne _ _ fun heq => h heq.2.symm,
    Ppg.full]

/-- A page may be marked full if all from `ppg_min_space` up to it are. -/
theorem Sound.mark_full_iff (h : Sound p) :
    Sound (p.mark slot true large) ↔ p.FullUpTo slot := by
  constructor
  · intro hmark k hlt hle hpage
    have hfull := hmark.full_of_lt k (lt_max_of_lt_left (Nat.lt_succ_of_lt hlt)) hpage
    rwa [full_mark_of_ne p true large hlt.ne] at hfull
  · intro hup
    refine ⟨fun k hlt hpage => ?_, h.lt_count⟩
    by_cases hk : k = slot
    · rw [hk, full_mark_self]
    · rw [full_mark_of_ne p true large hk]
      rcases Nat.lt_or_ge k p.minSpace with hbelow | habove
      · exact h.full_of_lt k hbelow hpage
      · refine hup k ?_ habove hpage
        have hmax : k < slot + 1 ∨ k < p.minSpace := lt_max_iff.mp hlt
        omega

theorem Sound.unmark (h : Sound p) (slot : ℕ) (large : Bool) :
    Sound (p.mark slot false large) where
  full_of_lt k hlt hpage := by
    have hmin : k < slot ∧ k < p.minSpace := lt_min_iff.mp hlt
    rw [full_mark_of_ne p false large hmin.1.ne]
    exact h.full_of_lt k hmin.2 hpage
  lt_count := h.lt_count

theorem lt_countUsed {entry : ℕ → ℕ} {n k : ℕ} (hlt : k < n) (hk : entry k ≠ 0) :
    k < countUsed entry n := by
  induction n with
  | zero => exact absurd hlt (Nat.not_lt_zero k)
  | succ n ih =>
      rw [countUsed]
      split
      · exact hlt
      · rename_i hn
        refine ih (lt_of_le_of_ne (Nat.le_of_lt_succ hlt) ?_)
        rintro rfl
        exact hn hk

/-- The slot is empty then, and the others are as before. -/
theorem page_eliminate (p : Ppg) {slot k : ℕ} (h : (p.eliminate slot).page k ≠ 0) :
    k ≠ slot ∧ (p.eliminate slot).page k = p.page k := by
  have hne : k ≠ slot := by
    rintro rfl
    exact h (Function.update_self k 0 p.page)
  exact ⟨hne, Function.update_of_ne hne 0 p.page⟩

theorem Sound.eliminate (h : Sound p) (slot : ℕ) : Sound (p.eliminate slot) where
  full_of_lt k hlt hpage := by
    have hsame := (page_eliminate p hpage).2
    rw [hsame] at hpage
    exact h.full_of_lt k (lt_min_iff.mp hlt).1 hpage
  lt_count k hpage := by
    have hsame := (page_eliminate p hpage).2
    refine lt_countUsed (h.lt_count k ?_) hpage
    rwa [hsame] at hpage

end

/-! ## Every run -/

section

variable {dpPerPp : ℕ} {s s' : Relation} {a : Action} {p p' : Ppg}

/-- Pages are marked full in the order of their slots: before one is, there is no page from
`ppg_min_space` up to it that is not marked. -/
def InOrder (dpPerPp : ℕ) (s : Relation) : Action → Prop
  | .markFull page =>
      (s.data page).full = true → ∀ p ∈ s.pages[(s.data page).sequence / dpPerPp]?,
        p.page ((s.data page).sequence % dpPerPp) = page →
          p.FullUpTo ((s.data page).sequence % dpPerPp)
  | _ => True

theorem Change.sound (hchange : Change dpPerPp s a p p') (hinOrder : InOrder dpPerPp s a)
    (h : Sound p) : Sound p' := by
  cases hchange with
  | same => exact h
  | fill _ slot page => exact h.fill slot page
  | mark _ page hp hslot hpage =>
      cases hfull : (s.data page).full with
      | false => exact h.unmark _ _
      | true => exact h.mark_full_iff.mpr (hinOrder hfull p hp hpage.symm)
  | unmark _ page line slot large => exact h.unmark slot large
  | eliminate _ page line slot => exact h.eliminate slot

theorem Origin.sound (horigin : Origin s p) (h : ∀ p ∈ s.pages, Sound p) : Sound p := by
  cases horigin with
  | old hp => exact h p hp
  | notLast hp => exact (h _ hp).notLast
  | fresh => exact sound_fresh

theorem sound_step (h : ∀ p ∈ s.pages, Sound p) (hstep : step dpPerPp s a = some s')
    (hinOrder : InOrder dpPerPp s a) : ∀ p ∈ s'.pages, Sound p := by
  intro p' hp'
  obtain ⟨p, horigin, hchange⟩ := step_pages hstep hp'
  exact hchange.sound hinOrder (horigin.sound h)

theorem sound_reachable (h : Reachable ((system dpPerPp).restrict (InOrder dpPerPp)) s) :
    ∀ p ∈ s.pages, Sound p := by
  refine Reachable.invariant (S := (system dpPerPp).restrict (InOrder dpPerPp))
    (I := fun s => ∀ p ∈ s.pages, Sound p) (fun s hs p hp => ?_)
    (fun s a s' hs hstep => sound_step hs hstep.1 hstep.2) h
  rw [hs.1] at hp
  rw [List.mem_singleton.mp hp]
  exact sound_fresh

/-- `ppg_min_space` is no higher than the lowest slot whose page is not marked full, and
`locate_space` passes none of these. -/
structure HintSound (p : Ppg) : Prop where
  full_of_lt : ∀ slot < p.minSpace, p.page slot ≠ 0 → p.full slot
  scanned : ∀ slot, p.page slot ≠ 0 → ¬p.full slot → slot ∈ p.scan

/-- On every pointer page of a relation whose pages are marked full in order, the hint holds. -/
theorem hint_sound (h : Reachable ((system dpPerPp).restrict (InOrder dpPerPp)) s)
    (hp : p ∈ s.pages) : HintSound p where
  full_of_lt := (sound_reachable h p hp).full_of_lt
  scanned _ hpage hfull := (sound_reachable h p hp).mem_scan hpage hfull

end

instance (p : Ppg) (slot : ℕ) : Decidable (p.FullUpTo slot) :=
  inferInstanceAs (Decidable (∀ k < slot, p.minSpace ≤ k → p.page k ≠ 0 → p.full k))

instance (dpPerPp : ℕ) (s : Relation) (a : Action) : Decidable (InOrder dpPerPp s a) :=
  match a with
  | .markFull page =>
      inferInstanceAs (Decidable ((s.data page).full = true →
        ∀ p ∈ s.pages[(s.data page).sequence / dpPerPp]?,
          p.page ((s.data page).sequence % dpPerPp) = page →
            p.FullUpTo ((s.data page).sequence % dpPerPp)))
  | .extend _ => .isTrue trivial
  | .delete _ _ => .isTrue trivial
  | .write _ _ => .isTrue trivial

/-- A relation with a pointer page only -/
def created : Relation := ⟨[Ppg.fresh], fun _ => ⟨0, fun _ => 0, 0, false, false, false⟩, 0, 0⟩

/-- Two lines in a slot of the first pointer page, after `find_space` has set `dpg_full` -/
def filled (sequence : ℕ) : Dpg := ⟨sequence, fun _ => 512, 2, true, false, false⟩

/-- A page is filled, and another one is put behind it. -/
def firstFull : List Action :=
  [.extend 100, .write 100 (filled 0), .markFull 100, .extend 101]

/-- Three slots in a pointer page -/
theorem hint_sound_firstFull : ∃ s p,
    Reachable ((system 3).restrict (InOrder 3)) s ∧ p ∈ s.pages ∧ p.minSpace = 1 ∧
      p.page 0 = 100 ∧ p.page 1 = 101 ∧ HintSound p := by
  let run := firstFull.foldlM (fun s a => if InOrder 3 s a then step 3 s a else none) created
  have hview : (run.bind fun s => s.pages[0]?.map fun p => (p.minSpace, p.page 0, p.page 1)) =
      some (1, 100, 101) := by decide
  obtain ⟨s, hrun, hs⟩ := Option.bind_eq_some_iff.mp hview
  obtain ⟨p, hp, heq⟩ := Option.map_eq_some_iff.mp hs
  have hreach : Reachable ((system 3).restrict (InOrder 3)) s := by
    refine Reachable.of_foldlM (fun a _ t t' ht => ?_) (.init ⟨rfl, rfl, rfl⟩) hrun
    split at ht
    · exact ⟨ht, by assumption⟩
    · cases ht
  have hmem : p ∈ s.pages := List.mem_of_getElem? hp
  simp only [Prod.mk.injEq] at heq
  exact ⟨s, p, hreach, hmem, heq.1, heq.2.1, heq.2.2, hint_sound hreach hmem⟩

/-- A line of the first page is deleted, and the second page is found to be full. -/
def secondFull : List Action :=
  firstFull ++ [.delete 100 1, .write 101 (filled 1), .markFull 101]

/-- `locate_space` passes the first page then, which is not marked full. -/
theorem hint_unsound : ∃ s p, Reachable (system 3) s ∧ p ∈ s.pages ∧ p.page 0 = 100 ∧
    p.full 0 = false ∧ p.scan = [] ∧ ¬HintSound p := by
  have hview : ((secondFull.foldlM (step 3) created).bind fun s => s.pages[0]?.map fun p =>
      (p.page 0, p.full 0, p.scan)) = some (100, false, []) := by decide
  obtain ⟨s, hrun, hs⟩ := Option.bind_eq_some_iff.mp hview
  obtain ⟨p, hp, heq⟩ := Option.map_eq_some_iff.mp hs
  simp only [Prod.mk.injEq] at heq
  obtain ⟨hpage, hfull, hscan⟩ := heq
  refine ⟨s, p, Reachable.of_foldlM (fun _ _ _ _ ht => ht) (.init ⟨rfl, rfl, rfl⟩) hrun,
    List.mem_of_getElem? hp, hpage, hfull, hscan, fun hint => ?_⟩
  have hmem := hint.scanned 0 (by rw [hpage]; decide) (by rw [hfull]; decide)
  rw [hscan] at hmem
  cases hmem

end Firebird.PointerPage
