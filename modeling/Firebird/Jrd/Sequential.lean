import Firebird.Lib.Cursor
import Firebird.Jrd.Next

/-! # Where a sequential scan is right

The calls of `DPM_next` that find the next record, and the scans that find all of them.
-/

namespace Firebird.Sequential

open Search (First Last)

/-! ## Pointer pages -/

/-- The record number that is returned, if there is one -/
def answer : Except Fault (Bool × Rpb) → Except Fault (Option ℤ)
  | .ok (true, rpb) => .ok (some rpb.number)
  | .ok (false, _) => .ok none
  | .error e => .error e

/-- The answer with a number, which a `SLONG` has to hold -/
def reply (p : ℕ) : Except Fault (Option ℤ) := if p < 2 ^ 31 then .ok (some p) else .error .overflow

variable {dbb : Dbb} {rel : Relation dbb} {ppage : Ppg} {rpb : Rpb} {pp k : ℕ}

/-- As many record numbers as the pointer pages have -/
def Relation.total (rel : Relation dbb) : ℕ := rel.pages.length * dbb.width

theorem Dbb.width_pos (dbb : Dbb) : 0 < dbb.width :=
  Nat.mul_pos dbb.dp_per_pp_pos dbb.max_records_pos

theorem slots_le (hpage : ppage ∈ rel.pages[pp]?) :
    ppage.count * dbb.max_records ≤ dbb.width :=
  Nat.mul_le_mul_right _ (rel.count_le ppage (List.mem_of_getElem? hpage))

theorem inPage_iff (hpage : ppage ∈ rel.pages[pp]?) {y : ℕ} (hy : y < dbb.width) :
    rel.InPage ppage y ↔ rel.Primary (pp * dbb.width + y) := by
  have hdiv : (pp * dbb.width + y) / dbb.width = pp := by
    rw [Nat.mul_comm, Nat.mul_add_div dbb.width_pos, Nat.div_eq_of_lt hy, Nat.add_zero]
  have hmod : (pp * dbb.width + y) % dbb.width = y := by
    rw [Nat.mul_comm, Nat.mul_add_mod, Nat.mod_eq_of_lt hy]
  rw [Relation.Primary, hdiv, hmod]
  constructor
  · intro h
    exact ⟨ppage, hpage, h⟩
  · rintro ⟨q, hq, h⟩
    rwa [Option.mem_unique hpage hq]

theorem Relation.Primary.lt {p : ℕ} (h : rel.Primary p) : p < rel.total := by
  rcases h with ⟨ppage, hpage, -⟩
  have hlt : p / dbb.width < rel.pages.length := (List.getElem?_eq_some_iff.mp hpage).1
  exact (Nat.div_lt_iff_lt_mul dbb.width_pos).mp hlt

theorem number_place (pp : ℕ) (x : ℕ × ℕ) :
    ((pp : ℤ) * dbb.dp_per_pp + x.1) * dbb.max_records + x.2 =
      (pp * dbb.width + dbb.place x : ℕ) := by
  rw [Dbb.width, Dbb.place]
  push_cast
  ring

theorem answer_found (pp : ℕ) (x : ℕ × ℕ) (rpb : Rpb) :
    answer
        (if ((pp : ℤ) * dbb.dp_per_pp + x.1) * dbb.max_records + x.2 < 2 ^ 31 then
          .ok (true,
            { rpb with number := ((pp : ℤ) * dbb.dp_per_pp + x.1) * dbb.max_records + x.2 })
        else .error .overflow) = reply (pp * dbb.width + dbb.place x) := by
  rw [number_place, reply]
  split
  · rename_i h
    rw [if_pos (by omega)]
    rfl
  · rename_i h
    rw [if_neg (by omega)]
    rfl

/-- One pointer page forward: a record of it, or what comes behind it -/
theorem pageLoop_page_forward {slot line : ℕ} (hpage : ppage ∈ rel.pages[pp]?)
    (hline : line ≤ dbb.max_records) :
    ∃ o rpb', First rel.Primary (pp * dbb.width + (slot * dbb.max_records + line))
        ((pp + 1) * dbb.width) (o.map (pp * dbb.width + ·)) ∧
      answer (pageLoop rel false false (k + 1) pp slot line rpb) =
        match o with
        | some y => reply (pp * dbb.width + y)
        | none =>
            if ppage.eof = true then .ok none
            else answer (pageLoop rel false false k ((pp + 1) % 65536) 0 0 rpb') := by
  obtain ⟨o, rpb', heq, hfirst⟩ := @slotLoop_forward dbb rel ppage rpb _ slot line
    (Nat.le_add_left ppage.count slot) hline
  have hwide := hfirst.widen (fun y hy h => absurd h.lt (Nat.not_lt.mpr hy)) (slots_le hpage)
  have hplaces := (hwide.congr fun y hy => inPage_iff hpage hy).shift
  rw [← Nat.succ_mul] at hplaces
  refine ⟨o.map dbb.place, rpb', hplaces, ?_⟩
  rw [pageLoop, get_pointer_page, hpage]
  simp only [Bool.false_eq_true, false_and, if_false, heq]
  cases o with
  | some x => exact answer_found pp x rpb'
  | none =>
      simp only [turn, or_false, Option.map_none]
      split
      · rfl
      · rfl

theorem pageLoop_forward {slot line : ℕ} (hpp : pp < rel.pages.length)
    (hk : rel.pages.length ≤ pp + k) (hline : line ≤ dbb.max_records)
    (hplace : slot * dbb.max_records + line ≤ dbb.width) :
    ∃ o, First rel.Primary (pp * dbb.width + (slot * dbb.max_records + line)) rel.total o ∧
      answer (pageLoop rel false false k pp slot line rpb) = o.elim (.ok none) reply := by
  induction k generalizing pp slot line rpb with
  | zero => omega
  | succ k ih =>
      have hpage : rel.pages[pp] ∈ rel.pages[pp]? := List.getElem?_eq_getElem hpp
      obtain ⟨o, rpb', hfirst, heq⟩ :=
        @pageLoop_page_forward dbb rel _ rpb pp k slot line hpage hline
      rw [heq]
      cases o with
      | some y =>
          exact ⟨_, hfirst.extend (Nat.mul_le_mul_right _ hpp), rfl⟩
      | none =>
          have heof := rel.eof_iff pp _ hpage
          dsimp only
          split
          · rename_i hlast
            refine ⟨none, ?_, rfl⟩
            rwa [heof.mp hlast] at hfirst
          · rename_i hmore
            have hnext : pp + 1 < rel.pages.length := by
              have hne : pp + 1 ≠ rel.pages.length := fun h => hmore (heof.mpr h)
              omega
            have hcut : (pp + 1) % 65536 = pp + 1 := by
              have hlt := rel.pages_lt
              omega
            rw [hcut]
            obtain ⟨o, hrest, heq'⟩ := @ih rpb' (pp + 1) 0 0 hnext (by omega)
              (Nat.zero_le _) (by rw [Nat.zero_mul]; exact Nat.zero_le _)
            rw [Nat.zero_mul, Nat.add_zero, Nat.add_zero] at hrest
            refine ⟨o, hfirst.append hrest ?_, heq'⟩
            rw [Nat.succ_mul]
            exact Nat.add_le_add_left hplace _

/-- One pointer page backwards, with the slot that `c` is one behind, if the page has it -/
theorem pageLoop_page_backward {c j : ℕ} (hpage : ppage ∈ rel.pages[pp]?)
    (hj : j ≤ dbb.max_records) :
    ∃ o rpb', Last (rel.InPage ppage) 0 (dbb.below (min c ppage.count) j) o ∧
      answer (pageLoop rel true false (k + 1) pp ((c : ℤ) - 1) ((j : ℤ) - 1) rpb) =
        match o with
        | some y => reply (pp * dbb.width + y)
        | none =>
            if ppage.eof = true then .ok none
            else
              answer (pageLoop rel true false k ((pp + 65535) % 65536) ((ppage.count : ℤ) - 1)
                ((dbb.max_records : ℤ) - 1) rpb') := by
  obtain ⟨o, rpb', heq, hlast⟩ := @slotLoop_backward dbb rel ppage rpb _ _ _
    (Nat.min_le_right c ppage.count) (Nat.min_le_right c ppage.count) hj
  refine ⟨o.map dbb.place, rpb', hlast, ?_⟩
  have hclamp : (if (ppage.count : ℤ) ≤ (c : ℤ) - 1 then (ppage.count : ℤ) - 1 else (c : ℤ) - 1) =
      ((min c ppage.count : ℕ) : ℤ) - 1 := by
    split <;> omega
  rw [pageLoop, get_pointer_page, hpage]
  simp only [true_and, hclamp, heq]
  cases o with
  | some x => exact answer_found pp x rpb'
  | none =>
      simp only [turn, Bool.false_eq_true, or_false, if_true, Option.map_none]
      rw [apply_ite answer]
      rfl

/-- The record is in a slot that the pointer page behind its own has, too. -/
def Relation.Counted (rel : Relation dbb) (p : ℕ) : Prop :=
  ∃ next ∈ rel.pages[p / dbb.width + 1]?, p % dbb.width < next.count * dbb.max_records

theorem width_div {y : ℕ} (hy : y < dbb.width) : (pp * dbb.width + y) / dbb.width = pp := by
  rw [Nat.mul_comm, Nat.mul_add_div dbb.width_pos, Nat.div_eq_of_lt hy, Nat.add_zero]

theorem width_mod {y : ℕ} (hy : y < dbb.width) : (pp * dbb.width + y) % dbb.width = y := by
  rw [Nat.mul_comm, Nat.mul_add_mod, Nat.mod_eq_of_lt hy]

theorem counted_iff {next : Ppg} (hnext : next ∈ rel.pages[pp + 1]?) {y : ℕ} (hy : y < dbb.width) :
    rel.Counted (pp * dbb.width + y) ↔ y < next.count * dbb.max_records := by
  rw [Relation.Counted, width_div hy, width_mod hy]
  constructor
  · rintro ⟨q, hq, h⟩
    rwa [Option.mem_unique hnext hq]
  · intro h
    exact ⟨next, hnext, h⟩

/-- Below a pointer page, only what the page behind counts is looked at, and there is no end. -/
theorem pageLoop_below {i : ℕ} {next : Ppg} (hnext : next ∈ rel.pages[i]?) (hk : i < k) :
    ∃ o, Last (fun p => rel.Primary p ∧ rel.Counted p) 0 (i * dbb.width) o ∧
      answer (pageLoop rel true false k ((i + 65535) % 65536) ((next.count : ℤ) - 1)
        ((dbb.max_records : ℤ) - 1) rpb) = o.elim (.error .bugcheck) reply := by
  have hlt : i < rel.pages.length := (List.getElem?_eq_some_iff.mp hnext).1
  have hbound := rel.pages_lt
  obtain ⟨k, rfl⟩ : ∃ k', k = k' + 1 := ⟨k - 1, by omega⟩
  induction i generalizing k next rpb with
  | zero =>
      -- the first page was left: there is no page before it
      have hvanished : rel.pages[65535]? = none := List.getElem?_eq_none (by omega)
      refine ⟨none, Search.last_none_of_le (by rw [Nat.zero_mul]), ?_⟩
      rw [pageLoop, Nat.zero_add, Nat.mod_eq_of_lt (by decide), get_pointer_page, hvanished]
      rfl
  | succ i ih =>
      have hcut : (i + 1 + 65535) % 65536 = i := by omega
      have hpage : rel.pages[i] ∈ rel.pages[i]? := List.getElem?_eq_getElem (by omega)
      rw [hcut]
      obtain ⟨o, rpb', hlast, heq⟩ := @pageLoop_page_backward dbb rel _ rpb i k next.count _
        hpage le_rfl
      have hmin : min next.count rel.pages[i].count * dbb.max_records ≤ dbb.width :=
        (Nat.mul_le_mul_right _ (Nat.min_le_right _ _)).trans (slots_le hpage)
      have hsame : ∀ y < min next.count rel.pages[i].count * dbb.max_records,
          rel.InPage rel.pages[i] y ↔
            rel.Primary (i * dbb.width + y) ∧ rel.Counted (i * dbb.width + y) := by
        intro y hy
        have hwidth := hy.trans_le hmin
        rw [inPage_iff hpage hwidth, counted_iff hnext hwidth]
        refine (and_iff_left ?_).symm
        exact hy.trans_le (Nat.mul_le_mul_right _ (Nat.min_le_left _ _))
      have hrest : Last (fun y => rel.Primary (i * dbb.width + y) ∧ rel.Counted (i * dbb.width + y))
          (min next.count rel.pages[i].count * dbb.max_records) dbb.width none := by
        intro y hy hwidth h
        have hfirst := ((inPage_iff hpage hwidth).mpr h.1).lt
        have hsecond := (counted_iff hnext hwidth).mp h.2
        rw [← Nat.mul_min_mul_right] at hy
        omega
      rw [below_max] at hlast
      have hplaces := @Last.shift (fun p => rel.Primary p ∧ rel.Counted p) _ _ _
        (i * dbb.width) (hrest.append (hlast.congr hsame) hmin)
      rw [← Nat.succ_mul, Nat.add_zero] at hplaces
      rw [heq]
      cases o with
      | some y => exact ⟨_, hplaces.extend (Nat.zero_le _), rfl⟩
      | none =>
          have hmore : ¬rel.pages[i].eof = true := fun h => by
            have hend := (rel.eof_iff i _ hpage).mp h
            omega
          dsimp only
          rw [if_neg hmore]
          obtain ⟨k, rfl⟩ : ∃ k', k = k' + 1 := ⟨k - 1, by omega⟩
          obtain ⟨o, hbelow, heq'⟩ := @ih rpb' _ hpage (by omega) k (by omega)
          exact ⟨o, hplaces.append hbelow (Nat.mul_le_mul_right _ (Nat.le_succ i)), heq'⟩

/-! ## From a record number on -/

/-- The pointer page that a number is split into, a `USHORT` -/
def Dbb.ppSequence (dbb : Dbb) (m : ℕ) : ℕ := m / dbb.width % 65536

/-- The place that a number is split into -/
def Dbb.start (dbb : Dbb) (m : ℕ) : ℕ := dbb.ppSequence m * dbb.width + m % dbb.width

theorem start_le (m : ℕ) : dbb.start m ≤ m := by
  have hcut : dbb.ppSequence m * dbb.width ≤ m / dbb.width * dbb.width :=
    Nat.mul_le_mul_right _ (Nat.mod_le _ _)
  have hsplit := Nat.div_add_mod' m dbb.width
  rw [Dbb.start]
  omega

theorem start_lt_iff (m : ℕ) : dbb.start m < rel.total ↔ dbb.ppSequence m < rel.pages.length := by
  rw [Relation.total, ← Nat.div_lt_iff_lt_mul dbb.width_pos, Dbb.start, width_div (Nat.mod_lt _ dbb.width_pos)]

theorem start_of_le {m : ℕ} (h : m ≤ rel.total) : dbb.start m = m := by
  have hpages := rel.pages_lt
  have hdiv : m / dbb.width ≤ rel.pages.length := by
    rw [← Nat.mul_div_cancel rel.pages.length dbb.width_pos]
    exact Nat.div_le_div_right h
  rw [Dbb.start, Dbb.ppSequence, Nat.mod_eq_of_lt (by omega)]
  exact Nat.div_add_mod' m dbb.width

theorem mod_width (m : ℕ) :
    m % dbb.width = m / dbb.max_records % dbb.dp_per_pp * dbb.max_records + m % dbb.max_records := by
  rw [Dbb.width, Nat.mul_comm dbb.dp_per_pp, Nat.mod_mul, Nat.add_comm,
    Nat.mul_comm dbb.max_records]

theorem nextFrom_eq (backwards onepage : Bool) (m : ℕ) :
    nextFrom rel backwards onepage { rpb with number := m } =
      pageLoop rel backwards onepage (rel.pages.length + 1) (dbb.ppSequence m)
        (m / dbb.max_records % dbb.dp_per_pp : ℕ) (m % dbb.max_records : ℕ)
        { rpb with number := m } := by
  have hpp : (m / dbb.max_records / dbb.dp_per_pp : ℕ) = m / dbb.width := by
    rw [Nat.div_div_eq_div_mul, Dbb.width, Nat.mul_comm dbb.dp_per_pp]
  rw [nextFrom, Dbb.ppSequence, ← hpp]
  rfl

theorem pageLoop_vanished (backwards : Bool) (hpp : rel.pages.length ≤ pp) (slot line : ℤ) :
    answer (pageLoop rel backwards false (k + 1) pp slot line rpb) = .error .bugcheck := by
  rw [pageLoop, get_pointer_page, List.getElem?_eq_none hpp]
  rfl

theorem nextFrom_vanished (backwards : Bool) {m : ℕ} (h : rel.total ≤ dbb.start m) :
    answer (nextFrom rel backwards false { rpb with number := m }) = .error .bugcheck := by
  rw [nextFrom_eq]
  apply pageLoop_vanished
  exact Nat.not_lt.mp fun hlt => Nat.not_lt.mpr h ((start_lt_iff m).mpr hlt)

theorem nextFrom_forward {m : ℕ} (h : dbb.start m < rel.total) :
    ∃ o, First rel.Primary (dbb.start m) rel.total o ∧
      answer (nextFrom rel false false { rpb with number := m }) = o.elim (.ok none) reply := by
  rw [nextFrom_eq, Dbb.start, mod_width]
  refine pageLoop_forward ((start_lt_iff m).mp h) (by omega) (Nat.mod_lt _ dbb.max_records_pos).le ?_
  rw [← mod_width]
  exact (Nat.mod_lt _ dbb.width_pos).le

/-- What a search backwards from a number looks at: in its own pointer page, from its slot and line
down, or from the last slot; before, if the page is not the last one, the slots that the page behind
has, too -/
def Relation.Looked (rel : Relation dbb) (m p : ℕ) : Prop :=
  p / dbb.width = dbb.ppSequence m ∧
      (∃ ppage ∈ rel.pages[dbb.ppSequence m]?, p % dbb.width <
        dbb.below (min (m / dbb.max_records % dbb.dp_per_pp + 1) ppage.count)
          (m % dbb.max_records + 1)) ∨
    p / dbb.width < dbb.ppSequence m ∧ dbb.ppSequence m + 1 < rel.pages.length ∧ rel.Counted p

/-- The slots and lines from those of a number down -/
theorem below_le (m c : ℕ) :
    dbb.below (min (m / dbb.max_records % dbb.dp_per_pp + 1) c) (m % dbb.max_records + 1) ≤
      m % dbb.width + 1 := by
  have hle : dbb.below (min (m / dbb.max_records % dbb.dp_per_pp + 1) c) (m % dbb.max_records + 1) ≤
      dbb.below (m / dbb.max_records % dbb.dp_per_pp + 1) (m % dbb.max_records + 1) := by
    apply Nat.sub_le_sub_right
    apply Nat.add_le_add_right
    exact Nat.mul_le_mul_right _ (Nat.min_le_left _ _)
  rwa [below_succ, ← Nat.add_assoc, ← mod_width] at hle

theorem Relation.Looked.le {m p : ℕ} (h : rel.Looked m p) : p ≤ m := by
  apply le_trans _ (@start_le dbb m)
  rw [Dbb.start, ← Nat.div_add_mod' p dbb.width]
  rcases h with ⟨hpage, ppage, -, hplace⟩ | ⟨hbefore, -⟩
  · have hbelow := @below_le dbb m ppage.count
    rw [hpage]
    omega
  · have hmod := Nat.mod_lt p dbb.width_pos
    have hmul := Nat.mul_le_mul_right dbb.width (Nat.succ_le_of_lt hbefore)
    rw [Nat.succ_mul] at hmul
    omega

theorem nextFrom_backward {m : ℕ} (h : dbb.start m < rel.total) :
    ∃ o, Last (fun p => rel.Primary p ∧ rel.Looked m p) 0 rel.total o ∧
      answer (nextFrom rel true false { rpb with number := m }) =
        o.elim
          (if dbb.ppSequence m + 1 = rel.pages.length then .ok none else .error .bugcheck) reply := by
  have hpp := (start_lt_iff m).mp h
  have hpage : rel.pages[dbb.ppSequence m] ∈ rel.pages[dbb.ppSequence m]? :=
    List.getElem?_eq_getElem hpp
  have hslot : ((m / dbb.max_records % dbb.dp_per_pp : ℕ) : ℤ) =
      ((m / dbb.max_records % dbb.dp_per_pp + 1 : ℕ) : ℤ) - 1 := by omega
  have hline : ((m % dbb.max_records : ℕ) : ℤ) = ((m % dbb.max_records + 1 : ℕ) : ℤ) - 1 := by omega
  rw [nextFrom_eq, hslot, hline]
  obtain ⟨o, rpb', hlast, heq⟩ := @pageLoop_page_backward dbb rel _
    { rpb with number := m } _ rel.pages.length (m / dbb.max_records % dbb.dp_per_pp + 1)
    (m % dbb.max_records + 1) hpage (Nat.mod_lt _ dbb.max_records_pos)
  rw [heq]
  have hbelow := @below_le dbb m rel.pages[dbb.ppSequence m].count
  have hmod := Nat.mod_lt m dbb.width_pos
  have hsame : ∀ y < dbb.width, rel.InPage rel.pages[dbb.ppSequence m] y ∧ y <
      dbb.below (min (m / dbb.max_records % dbb.dp_per_pp + 1) rel.pages[dbb.ppSequence m].count)
        (m % dbb.max_records + 1) ↔
      rel.Primary (dbb.ppSequence m * dbb.width + y) ∧
        rel.Looked m (dbb.ppSequence m * dbb.width + y) := by
    intro y hy
    rw [inPage_iff hpage hy, Relation.Looked, width_div hy, width_mod hy]
    refine and_congr_right fun _ => ?_
    constructor
    · intro hlt
      exact .inl ⟨rfl, _, hpage, hlt⟩
    · rintro (⟨-, q, hq, hlt⟩ | ⟨hlt, -⟩)
      · rwa [Option.mem_unique hpage hq]
      · exact absurd hlt (Nat.lt_irrefl _)
  have hhere := ((hlast.congr fun y hy => (and_iff_left hy).symm).widen
    (fun y hy hQ => Nat.not_lt.mpr hy hQ.2) (hbelow.trans hmod)).congr hsame
  have hplaces := @Last.shift (fun p => rel.Primary p ∧ rel.Looked m p) _ _ _
    (dbb.ppSequence m * dbb.width) hhere
  rw [← Nat.succ_mul, Nat.add_zero] at hplaces
  have hbehind : ∀ p, (dbb.ppSequence m + 1) * dbb.width ≤ p →
      ¬(rel.Primary p ∧ rel.Looked m p) := by
    rintro p hp ⟨-, hlooked⟩
    have hdiv := (Nat.le_div_iff_mul_le dbb.width_pos).mpr hp
    rcases hlooked with ⟨hpage, -⟩ | ⟨hbefore, -⟩
    · omega
    · omega
  have htotal : (dbb.ppSequence m + 1) * dbb.width ≤ rel.total := Nat.mul_le_mul_right _ hpp
  have hbase : dbb.ppSequence m * dbb.width ≤ (dbb.ppSequence m + 1) * dbb.width :=
    Nat.mul_le_mul_right _ (Nat.le_succ _)
  cases o with
  | some y =>
      exact ⟨_, (hplaces.extend (Nat.zero_le _)).widen hbehind htotal, rfl⟩
  | none =>
      have heof := rel.eof_iff _ _ hpage
      dsimp only
      by_cases hend : dbb.ppSequence m + 1 = rel.pages.length
      · rw [if_pos (heof.mpr hend), if_pos hend]
        have hbelow : Last (fun p => rel.Primary p ∧ rel.Looked m p) 0
            (dbb.ppSequence m * dbb.width) none := by
          rintro p - hp ⟨-, hlooked⟩
          have hdiv := (Nat.div_lt_iff_lt_mul dbb.width_pos).mpr hp
          rcases hlooked with ⟨hpage, -⟩ | ⟨-, hmore, -⟩
          · omega
          · omega
        exact ⟨none, (hplaces.append hbelow hbase).widen hbehind htotal, rfl⟩
      · rw [if_neg fun h => hend (heof.mp h), if_neg hend]
        obtain ⟨o, hrest, heq'⟩ := @pageLoop_below dbb rel rpb' _ _ _ hpage hpp
        have hbelow : Last (fun p => rel.Primary p ∧ rel.Looked m p) 0
            (dbb.ppSequence m * dbb.width) o := by
          apply hrest.congr
          intro p hp
          have hdiv := (Nat.div_lt_iff_lt_mul dbb.width_pos).mpr hp
          refine and_congr_right fun _ => ?_
          constructor
          · intro hcounted
            exact .inr ⟨hdiv, by omega, hcounted⟩
          · rintro (⟨hpage, -⟩ | ⟨-, -, hcounted⟩)
            · omega
            · exact hcounted
        exact ⟨o, (hplaces.append hbelow hbase).widen hbehind htotal, heq'⟩

/-! ## Calls -/

/-- The record numbers ahead of one; backwards a negative number is behind the last one. -/
def Relation.ahead (rel : Relation dbb) (backwards : Bool) (n : ℤ) : Set ℤ :=
  {y | (∃ p : ℕ, y = p ∧ rel.Primary p) ∧ if backwards then n < 0 ∨ y < n else n < y}

/-- The order of a scan -/
def before (backwards : Bool) (x y : ℤ) : Prop := if backwards then y < x else x < y

/-- `DPM_next` with `onepage` not set, as a cursor on the record numbers -/
def call (rel : Relation dbb) (backwards : Bool) (rpb : Rpb) : Except Fault (Option Rpb) :=
  match DPM_next rel backwards false rpb with
  | .ok (true, rpb) => .ok (some rpb)
  | .ok (false, _) => .ok none
  | .error e => .error e

/-- The call finds the next record, or that there is none. -/
def Finds (rel : Relation dbb) (backwards : Bool) (rpb : Rpb) : Prop :=
  Cursor.Answers (call rel backwards) Rpb.number (before backwards)
    (fun rpb => rel.ahead backwards rpb.number) rpb

/-- The calls from here on find all records ahead, in order, and then that there are no more. -/
def Scans (rel : Relation dbb) (backwards : Bool) (rpb : Rpb) : Prop :=
  Cursor.Enumerates (call rel backwards) Rpb.number (before backwards)
    (fun rpb => rel.ahead backwards rpb.number) rpb

/-- Forward from `n`: the number behind it is split into a place in a pointer page with no record
from there to it, and the next record has a number that fits. -/
def Relation.ForwardClear (rel : Relation dbb) (n : ℤ) : Prop :=
  n + 1 < 2 ^ 31 ∧ dbb.start (n + 1).toNat < rel.total ∧
    (∀ p, dbb.start (n + 1).toNat ≤ p → p < (n + 1).toNat → ¬rel.Primary p) ∧
      ∀ y, Cursor.IsFirst (before false) (rel.ahead false n) y → y < 2 ^ 31

/-- Where a search backwards begins -/
def Relation.begin (rel : Relation dbb) (n : ℤ) : ℕ :=
  if 0 < n then (n - 1).toNat else rel.total - 1

/-- Backwards from `n`: the record before is where the search looks, and if there is none, the
search ends in the last pointer page. -/
def Relation.BackwardClear (rel : Relation dbb) (n : ℤ) : Prop :=
  n = 0 ∨ (n < 0 → rel.total < 2 ^ 31) ∧ dbb.start (rel.begin n) < rel.total ∧
    (∀ p : ℕ, Cursor.IsFirst (before true) (rel.ahead true n) p → rel.Looked (rel.begin n) p) ∧
      (rel.ahead true n = ∅ → dbb.ppSequence (rel.begin n) + 1 = rel.pages.length)

/-- The condition for a call -/
def Relation.Clear (rel : Relation dbb) (backwards : Bool) (n : ℤ) : Prop :=
  if backwards then rel.BackwardClear n else rel.ForwardClear n

theorem finds_iff {backwards : Bool} :
    Finds rel backwards rpb ↔
      match answer (DPM_next rel backwards false rpb) with
      | .ok none => rel.ahead backwards rpb.number = ∅
      | .ok (some y) => Cursor.IsFirst (before backwards) (rel.ahead backwards rpb.number) y
      | .error _ => False := by
  rw [Finds, Cursor.Answers, call]
  rcases DPM_next rel backwards false rpb with e | ⟨_ | _, rpb'⟩
  · exact Iff.rfl
  · exact Iff.rfl
  · exact Iff.rfl

theorem mem_ahead_false {n : ℤ} {p : ℕ} :
    (p : ℤ) ∈ rel.ahead false n ↔ rel.Primary p ∧ n < p := by
  constructor
  · rintro ⟨⟨q, heq, hq⟩, hlt⟩
    obtain rfl : p = q := Int.ofNat_inj.mp heq
    exact ⟨hq, hlt⟩
  · rintro ⟨hp, hlt⟩
    exact ⟨⟨p, rfl, hp⟩, hlt⟩

theorem mem_ahead_true {n : ℤ} {p : ℕ} :
    (p : ℤ) ∈ rel.ahead true n ↔ rel.Primary p ∧ (n < 0 ∨ (p : ℤ) < n) := by
  constructor
  · rintro ⟨⟨q, heq, hq⟩, hlt⟩
    obtain rfl : p = q := Int.ofNat_inj.mp heq
    exact ⟨hq, hlt⟩
  · rintro ⟨hp, hlt⟩
    exact ⟨⟨p, rfl, hp⟩, hlt⟩

/-- There is only one first element. -/
theorem isFirst_unique {backwards : Bool} {A : Set ℤ} {x y : ℤ}
    (hx : Cursor.IsFirst (before backwards) A x) (hy : Cursor.IsFirst (before backwards) A y) :
    x = y := by
  rcases hx.2 y hy.1 with heq | hxy
  · exact heq.symm
  rcases hy.2 x hx.1 with heq | hyx
  · exact heq
  cases backwards with
  | false => exact absurd (show x < y from hxy) (not_lt.mpr (show y < x from hyx).le)
  | true => exact absurd (show y < x from hxy) (not_lt.mpr (show x < y from hyx).le)

theorem reply_small {r : ℕ} (h : r < 2 ^ 31) : reply r = .ok (some (r : ℤ)) := if_pos h

theorem reply_overflow {r : ℕ} (h : ¬r < 2 ^ 31) : reply r = .error .overflow := if_neg h

/-- The least record number from the one behind `n` on is the first one ahead. -/
theorem isFirst_forward {n : ℤ} (hn : -1 ≤ n) {r : ℕ}
    (h : First rel.Primary (n + 1).toNat rel.total (some r)) :
    Cursor.IsFirst (before false) (rel.ahead false n) r := by
  rcases h with ⟨hr, hle, -, hno⟩
  refine ⟨mem_ahead_false.mpr ⟨hr, by omega⟩, ?_⟩
  rintro y ⟨⟨q, rfl, hq⟩, hlt⟩
  have hlt : n < q := hlt
  rcases Nat.lt_trichotomy r q with hrq | rfl | hqr
  · exact .inr (Int.ofNat_lt.mpr hrq)
  · exact .inl rfl
  · exact absurd hq (hno q (by omega) hqr)

theorem ahead_forward_empty {n : ℤ} (hn : -1 ≤ n)
    (h : First rel.Primary (n + 1).toNat rel.total none) : rel.ahead false n = ∅ := by
  apply Set.eq_empty_of_forall_notMem
  rintro y ⟨⟨q, rfl, hq⟩, hlt⟩
  have hlt : n < q := hlt
  exact h q (by omega) hq.lt hq

theorem finds_forward_iff (hn : -1 ≤ rpb.number) :
    Finds rel false rpb ↔ rel.ForwardClear rpb.number := by
  rw [finds_iff, DPM_next, Relation.ForwardClear]
  simp only [Bool.false_eq_true, if_false]
  by_cases hfits : rpb.number + 1 < 2 ^ 31
  swap
  · rw [if_neg hfits]
    exact iff_of_false id fun h => hfits h.1
  rw [if_pos hfits, and_iff_right hfits]
  obtain ⟨m, hm⟩ : ∃ m : ℕ, rpb.number + 1 = m := ⟨(rpb.number + 1).toNat, by omega⟩
  rw [hm, Int.toNat_natCast]
  have hstart := @start_le dbb m
  have htoNat : (rpb.number + 1).toNat = m := by omega
  by_cases hpage : dbb.start m < rel.total
  swap
  · rw [nextFrom_vanished false (Nat.not_lt.mp hpage)]
    exact iff_of_false id fun h => hpage h.1
  rw [and_iff_right hpage]
  obtain ⟨o, hfirst, heq⟩ := @nextFrom_forward dbb rel rpb m hpage
  rw [heq]
  constructor
  · intro hfinds
    constructor
    · -- a record before the number would have been found, which is not ahead
      intro p hle hlt hp
      cases o with
      | none => exact hfirst p hle hp.lt hp
      | some r =>
          have hr : r ≤ p := Nat.not_lt.mp fun h => hfirst.2.2.2 p hle h hp
          have hsmall : r < 2 ^ 31 := by omega
          rw [Option.elim_some, reply_small hsmall] at hfinds
          have hahead := (mem_ahead_false.mp hfinds.1).2
          omega
    · intro y hy
      cases o with
      | none =>
          have hnone : rel.ahead false rpb.number = ∅ := hfinds
          exact absurd hy.1 (by rw [hnone]; exact Set.notMem_empty y)
      | some r =>
          by_cases hsmall : r < 2 ^ 31
          · rw [Option.elim_some, reply_small hsmall] at hfinds
            rw [isFirst_unique hy hfinds]
            omega
          · rw [Option.elim_some, reply_overflow hsmall] at hfinds
            exact hfinds.elim
  · rintro ⟨hclear, hsmall⟩
    cases o with
    | none =>
        refine ahead_forward_empty hn ?_
        rw [htoNat]
        exact fun y hy hlt => hfirst y (hstart.trans hy) hlt
    | some r =>
        have hr : m ≤ r := Nat.not_lt.mp fun h => hclear r hfirst.2.1 h hfirst.1
        have hahead : Cursor.IsFirst (before false) (rel.ahead false rpb.number) r := by
          apply isFirst_forward hn
          rw [htoNat]
          exact ⟨hfirst.1, hr, hfirst.2.2.1, fun y hy => hfirst.2.2.2 y (hstart.trans hy)⟩
        have hlt := hsmall r hahead
        rw [Option.elim_some, reply_small (by omega)]
        exact hahead

theorem total_pos (rel : Relation dbb) : 0 < rel.total :=
  Nat.mul_pos (List.length_pos_iff.mpr rel.pages_ne_nil) dbb.width_pos

/-- Backwards, `DPM_next` begins below the number, or with the last one that the pages have. -/
theorem DPM_next_backward (hn : rpb.number ≠ 0) :
    DPM_next rel true false rpb =
      if rpb.number < 0 ∧ 2 ^ 31 ≤ rel.total then .error .overflow
      else nextFrom rel true false { rpb with number := rel.begin rpb.number } := by
  have hpages := rel.pages_lt
  have htotal := total_pos rel
  have hpast : rel.pages.length % 65536 * dbb.dp_per_pp * dbb.max_records = rel.total := by
    rw [Nat.mod_eq_of_lt (by omega), Nat.mul_assoc]
    rfl
  rw [DPM_next, if_pos rfl, Relation.begin]
  dsimp only
  rw [hpast]
  by_cases hpos : 0 < rpb.number
  · have hcast : rpb.number - 1 = ((rpb.number - 1).toNat : ℤ) := by omega
    rw [if_pos hpos, if_pos hpos, if_neg (by omega), hcast]
    rfl
  · have hcast : (rel.total : ℤ) - 1 = (rel.total - 1 : ℕ) := by omega
    rw [if_neg hpos, if_neg hpos, if_pos (by omega), hcast]
    by_cases hfits : rel.total < 2 ^ 31
    · rw [if_pos hfits, if_neg (by omega)]
    · rw [if_neg hfits, if_pos (by omega)]

/-- What is ahead backwards is not above the number that the search begins with. -/
theorem le_begin_iff {n : ℤ} (hn : n ≠ 0) {p : ℕ} :
    (p : ℤ) ∈ rel.ahead true n ↔ rel.Primary p ∧ p ≤ rel.begin n := by
  rw [mem_ahead_true, Relation.begin]
  refine and_congr_right fun hp => ?_
  have hlt := hp.lt
  split <;> omega

/-- The greatest record number looked at is the first one ahead, if the first one is looked at. -/
theorem isFirst_backward {n : ℤ} (hn : n ≠ 0) {r p : ℕ}
    (h : Last (fun p => rel.Primary p ∧ rel.Looked (rel.begin n) p) 0 rel.total (some r))
    (hp : Cursor.IsFirst (before true) (rel.ahead true n) p)
    (hlooked : rel.Looked (rel.begin n) p) : p = r := by
  rcases h with ⟨⟨hr, hrlooked⟩, -, -, hno⟩
  have hprimary := ((le_begin_iff hn).mp hp.1).1
  have hahead : (r : ℤ) ∈ rel.ahead true n := (le_begin_iff hn).mpr ⟨hr, hrlooked.le⟩
  have hle : p ≤ r := Nat.not_lt.mp fun hlt => hno p hlt hprimary.lt ⟨hprimary, hlooked⟩
  rcases hp.2 r hahead with heq | hbefore
  · omega
  · have hlt : (r : ℤ) < p := hbefore
    omega

/-- If something is ahead backwards, there is a first one. -/
theorem exists_isFirst_backward {n : ℤ} (hn : n ≠ 0) {p : ℕ} (hp : (p : ℤ) ∈ rel.ahead true n) :
    ∃ q : ℕ, Cursor.IsFirst (before true) (rel.ahead true n) q := by
  obtain ⟨hprimary, hle⟩ := (le_begin_iff hn).mp hp
  obtain ⟨o, hlast⟩ := Search.exists_last rel.Primary (rel.begin n + 1)
  cases o with
  | none => exact absurd hprimary (hlast p (Nat.zero_le p) (by omega))
  | some q =>
      rcases hlast with ⟨hq, -, hlt, hno⟩
      refine ⟨q, (le_begin_iff hn).mpr ⟨hq, by omega⟩, ?_⟩
      rintro y ⟨⟨r, rfl, hr⟩, hahead⟩
      have hrle := ((le_begin_iff hn).mp ⟨⟨r, rfl, hr⟩, hahead⟩).2
      rcases Nat.lt_trichotomy r q with hrq | rfl | hqr
      · exact .inr (Int.ofNat_lt.mpr hrq)
      · exact .inl rfl
      · exact absurd hr (hno r hqr (by omega))

theorem finds_backward_iff (hn : rpb.number < 2 ^ 31) :
    Finds rel true rpb ↔ rel.BackwardClear rpb.number := by
  rw [finds_iff, Relation.BackwardClear]
  by_cases hzero : rpb.number = 0
  · have hend : DPM_next rel true false rpb = .ok (false, rpb) := by
      rw [DPM_next, if_pos rfl, hzero]
      rfl
    rw [hend]
    refine iff_of_true ?_ (.inl hzero)
    apply Set.eq_empty_of_forall_notMem
    rintro y ⟨⟨q, rfl, hq⟩, hlt⟩
    have hlt : rpb.number < 0 ∨ (q : ℤ) < rpb.number := hlt
    omega
  rw [DPM_next_backward hzero, or_iff_right hzero]
  by_cases hfits : rpb.number < 0 → rel.total < 2 ^ 31
  swap
  · rw [if_pos (by omega)]
    exact iff_of_false id fun h => hfits h.1
  rw [if_neg (by omega), and_iff_right hfits]
  by_cases hpage : dbb.start (rel.begin rpb.number) < rel.total
  swap
  · rw [nextFrom_vanished true (Nat.not_lt.mp hpage)]
    exact iff_of_false id fun h => hpage h.1
  rw [and_iff_right hpage]
  obtain ⟨o, hlast, heq⟩ := @nextFrom_backward dbb rel rpb _ hpage
  rw [heq]
  constructor
  · intro hfinds
    cases o with
    | none =>
        rw [Option.elim_none] at hfinds
        by_cases hend : dbb.ppSequence (rel.begin rpb.number) + 1 = rel.pages.length
        · rw [if_pos hend] at hfinds
          have hnone : rel.ahead true rpb.number = ∅ := hfinds
          refine ⟨fun p hp => absurd hp.1 ?_, fun _ => hend⟩
          rw [hnone]
          exact Set.notMem_empty _
        · rw [if_neg hend] at hfinds
          exact hfinds.elim
    | some r =>
        have hlooked := hlast.1.2
        by_cases hsmall : r < 2 ^ 31
        · rw [Option.elim_some, reply_small hsmall] at hfinds
          constructor
          · intro p hp
            rwa [Int.ofNat_inj.mp (isFirst_unique hp hfinds)]
          · intro hnone
            exact absurd hfinds.1 (by rw [hnone]; exact Set.notMem_empty _)
        · rw [Option.elim_some, reply_overflow hsmall] at hfinds
          exact hfinds.elim
  · rintro ⟨hlooked, hend⟩
    by_cases hnone : rel.ahead true rpb.number = ∅
    · cases o with
      | none =>
          rw [Option.elim_none, if_pos (hend hnone)]
          exact hnone
      | some r =>
          have hmem := (le_begin_iff hzero).mpr ⟨hlast.1.1, hlast.1.2.le⟩
          exact absurd hmem (by rw [hnone]; exact Set.notMem_empty _)
    · obtain ⟨y, hy⟩ := Set.nonempty_iff_ne_empty.mpr hnone
      obtain ⟨q, rfl, -⟩ := hy.1
      obtain ⟨p, hp⟩ := exists_isFirst_backward hzero hy
      have hprimary := ((le_begin_iff hzero).mp hp.1).1
      cases o with
      | none =>
          exact absurd ⟨hprimary, hlooked p hp⟩ (hlast p (Nat.zero_le p) hprimary.lt)
      | some r =>
          obtain rfl := isFirst_backward hzero hlast hp (hlooked p hp)
          have hsmall : p < 2 ^ 31 := by
            have hlt := hprimary.lt
            have hahead := (mem_ahead_true.mp hp.1).2
            omega
          rw [Option.elim_some, reply_small hsmall]
          exact hp

/-! ## Scans -/

theorem finds_iff_clear {backwards : Bool} (hlow : -1 ≤ rpb.number) (hhigh : rpb.number < 2 ^ 31) :
    Finds rel backwards rpb ↔ rel.Clear backwards rpb.number := by
  cases backwards with
  | false => exact finds_forward_iff hlow
  | true => exact finds_backward_iff hhigh

theorem before_irrefl (backwards : Bool) (x : ℤ) : ¬before backwards x x := by
  cases backwards with
  | false => exact lt_irrefl x
  | true => exact lt_irrefl x

/-- Behind a record, the records after it are ahead. -/
theorem advances (backwards : Bool) :
    Cursor.Advances Rpb.number (before backwards) fun rpb => rel.ahead backwards rpb.number := by
  rintro s s' ⟨⟨p, hp, hprimary⟩, hahead⟩ y
  cases backwards with
  | false =>
      have hahead : s.number < s'.number := hahead
      constructor
      · rintro ⟨hy, hlt⟩
        exact ⟨⟨hy, hahead.trans hlt⟩, hlt⟩
      · rintro ⟨⟨hy, -⟩, hlt⟩
        exact ⟨hy, hlt⟩
  | true =>
      have hahead : s.number < 0 ∨ s'.number < s.number := hahead
      constructor
      · rintro ⟨hy, hlt⟩
        have hlt : s'.number < 0 ∨ y < s'.number := hlt
        have hbefore : y < s'.number := by omega
        exact ⟨⟨hy, hahead.imp_right hbefore.trans⟩, hbefore⟩
      · rintro ⟨⟨hy, -⟩, hlt⟩
        exact ⟨hy, .inr hlt⟩

theorem ahead_finite (backwards : Bool) (n : ℤ) : (rel.ahead backwards n).Finite := by
  apply ((Set.finite_lt_nat rel.total).image (Nat.cast : ℕ → ℤ)).subset
  rintro y ⟨⟨p, rfl, hp⟩, -⟩
  exact ⟨p, hp.lt, rfl⟩

/-- At the beginning all records are ahead. -/
theorem mem_ahead_start {backwards : Bool} {p : ℕ} :
    (p : ℤ) ∈ rel.ahead backwards (-1) ↔ rel.Primary p := by
  cases backwards with
  | false => exact mem_ahead_false.trans (and_iff_left (by omega))
  | true => exact mem_ahead_true.trans (and_iff_left (.inl (by decide)))

/-- A scan is right exactly if the condition holds for each of its calls. -/
theorem scans_iff {backwards : Bool} (hstart : rpb.number = -1) :
    Scans rel backwards rpb ↔
      rel.Clear backwards (-1) ∧ ∀ p : ℕ, rel.Primary p → rel.Clear backwards p := by
  have hhere := @finds_iff_clear dbb rel rpb backwards (by omega)
    (by omega)
  rw [hstart] at hhere
  have hthere : rel.Clear backwards (-1) → ∀ s : Rpb, ∀ p : ℕ, s.number = p → rel.Primary p →
      (Finds rel backwards s ↔ rel.Clear backwards p) := by
    intro hclear s p hs hp
    rw [← hs]
    cases backwards with
    | false => exact finds_forward_iff (by omega)
    | true =>
        -- all numbers fit, or the first call would have failed
        have htotal : rel.total < 2 ^ 31 := by
          rcases hclear with hzero | ⟨hfits, -⟩
          · omega
          · exact hfits (by decide)
        have hlt := hp.lt
        exact finds_backward_iff (by omega)
  constructor
  · rintro ⟨ns, hyields, hsorted, hall⟩
    obtain ⟨hfirst, hrest⟩ := hyields.answers (before_irrefl backwards) (advances backwards)
      hsorted hall
    have hclear := hhere.mp hfirst
    refine ⟨hclear, fun p hp => ?_⟩
    have hmem : (p : ℤ) ∈ rel.ahead backwards rpb.number := by
      rw [hstart]
      exact mem_ahead_start.mpr hp
    obtain ⟨s, hs, hanswers⟩ := hrest p ((hall p).mpr hmem)
    exact (hthere hclear s p hs hp).mp hanswers
  · rintro ⟨hclear, hrest⟩
    apply Cursor.enumerates_of_answers (before_irrefl backwards) (advances backwards)
      (ahead_finite _ _) (hhere.mpr hclear)
    rintro s ⟨⟨p, hs, hp⟩, -⟩
    exact (hthere hclear s p hs hp).mpr (hrest p hp)

/-- Forward, all calls are right if no record is at the end of the pointer pages or the numbers. -/
theorem forward_clear_iff :
    (rel.Clear false (-1) ∧ ∀ p : ℕ, rel.Primary p → rel.Clear false p) ↔
      ∀ p, rel.Primary p → p + 1 < rel.total ∧ p + 1 < 2 ^ 31 := by
  constructor
  · rintro ⟨-, hrest⟩ p hp
    obtain ⟨hfits, hstart, -⟩ := hrest p hp
    have hcast : ((p : ℤ) + 1).toNat = p + 1 := by omega
    rw [hcast, start_of_le hp.lt] at hstart
    exact ⟨hstart, by omega⟩
  · intro hall
    have hclear : ∀ n : ℤ, -1 ≤ n → n + 1 < 2 ^ 31 → (n + 1).toNat < rel.total →
        rel.Clear false n := by
      intro n hn hfits hlt
      have hstart := start_of_le hlt.le
      refine ⟨hfits, hstart.trans_lt hlt, fun p hp hp' => by omega, ?_⟩
      rintro y ⟨⟨⟨q, rfl, hq⟩, -⟩, -⟩
      have hsmall := (hall q hq).2
      omega
    refine ⟨hclear (-1) le_rfl (by decide) (total_pos rel), fun p hp => ?_⟩
    obtain ⟨hlt, hfits⟩ := hall p hp
    exact hclear p (by omega) (by omega) (by omega)

/-- Each call of `DPM_next` finds the next record exactly if its condition holds, and each scan from
`-1` finds all records in order exactly if the condition holds for its calls. Forward that is so
unless a record is at the very end. -/
theorem sequential_scan_iff (rel : Relation dbb) :
    (∀ (backwards : Bool) (rpb : Rpb), -1 ≤ rpb.number ∧ rpb.number < 2 ^ 31 →
      (Finds rel backwards rpb ↔ rel.Clear backwards rpb.number)) ∧
    (∀ (backwards : Bool) (rpb : Rpb), rpb.number = -1 →
      (Scans rel backwards rpb ↔
        rel.Clear backwards (-1) ∧ ∀ p : ℕ, rel.Primary p → rel.Clear backwards p)) ∧
    ∀ rpb : Rpb, rpb.number = -1 →
      (Scans rel false rpb ↔ ∀ p, rel.Primary p → p + 1 < rel.total ∧ p + 1 < 2 ^ 31) := by
  refine ⟨?_, ?_, ?_⟩
  · intro backwards rpb hn
    exact finds_iff_clear hn.1 hn.2
  · intro backwards rpb hstart
    exact scans_iff hstart
  · intro rpb hstart
    exact (scans_iff hstart).trans forward_clear_iff

/-! ## A scan that ends too early -/

/-- Two data pages on each pointer page, and four lines on each data page -/
def smallDbb : Dbb := ⟨2, 4, Nat.two_pos, by decide, by decide, by decide⟩

/-- A data page with one line, a primary record -/
def oneRecord : Dpg := ⟨1, fun _ => 100, fun _ => 20, fun _ => ⟨0, 0, 0, 1, 1, 0, 0⟩⟩

/-- Two pointer pages, with a data page in the first slot of the first one -/
def twoPointerPages : Relation smallDbb where
  pages := [⟨fun slot => if slot = 0 then 7 else 0, 1, false⟩, ⟨fun _ => 0, 0, true⟩]
  data _ := oneRecord
  pages_ne_nil := List.cons_ne_nil _ _
  pages_lt := by decide
  eof_iff i p hp := by
    rcases i with _ | _ | i
    · cases hp
      decide
    · cases hp
      decide
    · cases hp
  count_le := by decide
  lines_le := by
    intro page
    decide

def freshRpb : Rpb := ⟨-1, 0, 0, 0, 0, 0, 0, 0, 0, 0, 0, 0⟩

example : answer (DPM_next twoPointerPages false false freshRpb) = .ok (some 0) := rfl

/-- The record of the first pointer page is not found from the end. -/
theorem sequential_scan_ends_early :
    ¬∀ (dbb : Dbb) (rel : Relation dbb) (backwards : Bool),
      (∀ rpb : Rpb, -1 ≤ rpb.number ∧ rpb.number < 2 ^ 31 → Finds rel backwards rpb) ∧
        ∀ rpb : Rpb, rpb.number = -1 → Scans rel backwards rpb := by
  intro hall
  have hfinds := (hall smallDbb twoPointerPages true).1 freshRpb (by decide)
  have hend : answer (DPM_next twoPointerPages true false freshRpb) = .ok none := rfl
  rw [finds_iff, hend] at hfinds
  have hrecord : twoPointerPages.Primary 0 := by
    refine ⟨_, rfl, by decide, by decide, by decide, by decide, by decide⟩
  have hmem : ((0 : ℕ) : ℤ) ∈ twoPointerPages.ahead true (-1) := mem_ahead_start.mpr hrecord
  have hnone : twoPointerPages.ahead true (-1) = ∅ := hfinds
  rw [hnone] at hmem
  exact hmem

end Firebird.Sequential
