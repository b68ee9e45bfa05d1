import Firebird.Btr.SearchKey
import Firebird.Jrd.CompareKeys

/-! # The limit of an index walk (`NAV_get_record` and `compare_keys` in `jrd/nav.cpp`)

A walk goes on as long as the key of a row does not stand behind the key of the search. For a search
that has not all segments, or the beginning of a string only, the rows that match it go on.
-/

namespace Firebird.Nav

open Btr (Begins joined marker makeKey complementKey stuffCount)

/-! ## Rows and searches -/

/-- The compressed segments of a row -/
structure Row (idx : Idx) where
  segments : List (List UCHAR)
  nonempty : ∀ l ∈ segments, l ≠ []
  length_eq : segments.length = idx.count

/-- The compressed values of a search, for the first segments of an index. The last one is the
beginning of a string where the search is for one. -/
structure Search (idx : Idx) where
  segments : List (List UCHAR)
  starting : Bool
  nonempty : ∀ l ∈ segments, l ≠ []
  some_segment : segments ≠ []
  length_le : segments.length ≤ idx.count
  string : starting = true → ∀ itype ∈ idx.itypes[segments.length - 1]?, IsString itype

section

variable {idx : Idx} (row : Row idx) (search : Search idx) (descending : Bool)

/-- The key of the row, from `BTR_key` -/
def Row.key : List UCHAR := (Btr.btrKey idx.count descending row.segments).2

/-- The key of the search, from `BTR_make_key` -/
def Search.key : List UCHAR := makeKey idx.count descending search.starting search.segments

/-- The flags of the retrieval: `irb_partial` where the search has not all segments -/
def Search.flags : Flags := ⟨search.segments.length < idx.count, search.starting, descending⟩

/-- The first segments of the row are those of the search, or the last one begins with it. -/
def Match : Prop := Begins search.starting search.segments row.segments

instance : Decidable (Match row search) := Begins.decidable _ _ _

/-- The row does not match and stands in front of the search in the index. -/
def Before : Prop :=
  ¬Match row search ∧ sortKey descending (row.key descending) < sortKey descending (search.key descending)

instance : Decidable (Before row search descending) := inferInstanceAs (Decidable (_ ∧ _))

/-- The row does not match and stands behind the search. -/
def After : Prop :=
  ¬Match row search ∧ sortKey descending (search.key descending) < sortKey descending (row.key descending)

instance : Decidable (After row search descending) := inferInstanceAs (Decidable (_ ∧ _))

/-- The comparison is inside the index description, and negative, zero or positive as the row stands
to the search. -/
def Agrees (result : Except Stop Ordering) : Prop :=
  ∃ o, result = .ok o ∧ (o = .lt ↔ Before row search descending) ∧ (o = .eq ↔ Match row search) ∧
    (o = .gt ↔ After row search descending)

/-- The segments of the row as they are laid down -/
def Row.laid : List (List UCHAR) := Btr.laid false row.segments

/-- The last segment of a search is filled up, unless it is a beginning or that of the index. -/
def Search.filled : Bool := !search.starting && decide (search.segments.length ≠ idx.count)

def Search.laid : List (List UCHAR) := Btr.laid search.filled search.segments

/-- The segments as they are laid down match: they may differ in the zeros that fill a chunk. -/
def LaidMatch : Prop := Begins search.starting search.laid row.laid

instance : Decidable (LaidMatch row search) := Begins.decidable _ _ _

/-- The condition: a search for a beginning in a descending index of several segments is not the
beginning of a longer key, and no segments differ only in the zeros that fill a chunk. -/
def Sound : Prop :=
  ¬(search.starting = true ∧ descending = true ∧ 1 < idx.count ∧
      search.key descending <+: row.key descending ∧ search.key descending ≠ row.key descending) ∧
    (LaidMatch row search → Match row search)

instance : Decidable (Sound row search descending) := inferInstanceAs (Decidable (_ ∧ _))

end

/-! ## Keys -/

variable {idx : Idx} {row : Row idx} {search : Search idx} {descending : Bool}

/-- A key in a descending index is the complement. -/
def turn (descending : Bool) (key : List UCHAR) : List UCHAR :=
  if descending then complementKey key else key

theorem Row.key_eq (row : Row idx) (h : idx.count ≠ 1) :
    row.key descending = turn descending (joined idx.count 0 row.laid) := by
  rw [Row.key, Btr.btrKey, Btr.laidDown, if_neg h, Row.laid]
  by_cases hnil : row.segments = []
  · rw [hnil]
    rfl
  · rw [(Btr.assemble_eq_joined hnil).1, List.replicate_zero, List.nil_append]
    rfl

theorem Search.key_eq (search : Search idx) (h : idx.count ≠ 1) :
    search.key descending = turn descending (joined idx.count 0 search.laid) := by
  obtain ⟨hopen, hfilled⟩ := @Btr.assemble_eq_joined _ 0 0 idx.count search.some_segment
  rw [List.replicate_zero, List.nil_append] at hopen hfilled
  rw [Search.key, makeKey, if_neg h, Search.laid]
  by_cases hfill : search.starting = false ∧ search.segments.length ≠ idx.count
  · have hflag : search.filled = true := by
      rw [Search.filled, hfill.1, decide_eq_true hfill.2]
      rfl
    rw [if_pos hfill, hfilled, hflag]
    rfl
  · have hflag : search.filled = false := by
      rw [Search.filled, Bool.and_eq_false_iff, Bool.not_eq_false', decide_eq_false_iff_not]
      rw [not_and_or, Bool.not_eq_false] at hfill
      exact hfill
    rw [if_neg hfill, hflag, List.append_nil, hopen]
    rfl

theorem Search.filled_iff : search.filled = true ↔
    search.starting = false ∧ search.segments.length < idx.count := by
  have hle := search.length_le
  rw [Search.filled, Bool.and_eq_true, Bool.not_eq_true', decide_eq_true_iff]
  exact and_congr_right fun _ => ⟨fun hne => by omega, fun hlt => by omega⟩

theorem xor_injective : Function.Injective fun x : UCHAR => x ^^^ 255 := by
  intro x y h
  have hx := Bytes.xor_xor_cancel x 255
  rw [show x ^^^ 255 = y ^^^ 255 from h, Bytes.xor_xor_cancel] at hx
  exact hx.symm

theorem complementKey_begins {l m : List UCHAR} :
    complementKey l <+: complementKey m ↔ l <+: m := by
  constructor
  · intro h
    obtain ⟨l', hl', heq⟩ := List.prefix_map_iff.mp h
    rwa [List.map_injective_iff.mpr xor_injective heq]
  · exact fun h => h.map _

theorem turn_begins {l m : List UCHAR} : turn descending l <+: turn descending m ↔ l <+: m := by
  cases descending with
  | false => exact Iff.rfl
  | true => exact complementKey_begins

theorem turn_injective : Function.Injective (turn descending) := by
  cases descending with
  | false => exact fun _ _ h => h
  | true => exact Btr.complementKey_injective

theorem length_turn (l : List UCHAR) : (turn descending l).length = l.length := by
  cases descending with
  | false => rfl
  | true => exact List.length_map _

/-- The segments of an index of one segment -/
theorem segments_one (h : idx.count = 1) (row : Row idx) (search : Search idx) :
    ∃ r l, row.segments = [r] ∧ search.segments = [l] ∧ row.laid = [r] ∧ search.laid = [l] := by
  obtain ⟨r, hr⟩ := List.length_eq_one_iff.mp (row.length_eq.trans h)
  have hone : search.segments.length = 1 := by
    have hpos := List.length_pos_of_ne_nil search.some_segment
    have hle := search.length_le
    omega
  obtain ⟨l, hl⟩ := List.length_eq_one_iff.mp hone
  have hfilled : search.filled = false := by
    rw [Bool.eq_false_iff, ne_eq, Search.filled_iff]
    omega
  refine ⟨r, l, hr, hl, ?_, ?_⟩
  · rw [Row.laid, hr]
    rfl
  · rw [Search.laid, hl, hfilled]
    rfl

theorem Row.key_one (h : idx.count = 1) {r : List UCHAR} (hr : row.segments = [r]) :
    row.key descending = turn descending r := by
  rw [Row.key, Btr.btrKey, Btr.laidDown, if_pos h, hr]
  rfl

theorem Search.key_one (h : idx.count = 1) {l : List UCHAR} (hl : search.segments = [l]) :
    search.key descending = turn descending l := by
  rw [Search.key, makeKey, if_pos h, hl]
  rfl

theorem count_le (idx : Idx) : idx.count ≤ 255 := idx.count_le.trans (by decide)

theorem Row.chunked (row : Row idx) : Btr.Chunked row.laid := Btr.chunked_laid row.nonempty

theorem Search.chunked (search : Search idx) : Btr.Chunked search.laid :=
  Btr.chunked_laid search.nonempty

theorem Row.length_laid (row : Row idx) : row.laid.length = idx.count :=
  (Btr.length_laid _ _).trans row.length_eq

theorem Search.length_laid (search : Search idx) :
    search.laid.length = search.segments.length := Btr.length_laid _ _

/-- The key of the search begins that of the row. -/
theorem key_begins_iff : search.key descending <+: row.key descending ↔
    Begins true search.laid row.laid := by
  by_cases h : idx.count = 1
  · obtain ⟨r, l, hr, hl, hrlaid, hllaid⟩ := segments_one h row search
    rw [Row.key_one h hr, Search.key_one h hl, hrlaid, hllaid, turn_begins]
    rfl
  · rw [row.key_eq h, search.key_eq h, turn_begins]
    refine Btr.joined_begins search.chunked row.chunked ?_ (count_le idx)
    rw [row.length_laid, Nat.zero_add]

/-- Equal keys match. -/
theorem laidMatch_of_eq (h : search.key descending = row.key descending) :
    LaidMatch row search := by
  have hbegins := key_begins_iff.mp (h ▸ List.prefix_rfl :
    search.key descending <+: row.key descending)
  cases hstarting : search.starting with
  | true =>
      rw [LaidMatch, hstarting]
      exact hbegins
  | false =>
      rw [LaidMatch, hstarting]
      by_cases hone : idx.count = 1
      · obtain ⟨r, l, hr, hl, hrlaid, hllaid⟩ := segments_one hone row search
        rw [Row.key_one hone hr, Search.key_one hone hl] at h
        rw [hrlaid, hllaid]
        exact turn_injective h
      · refine Btr.begins_of_both hbegins ?_
        rw [row.key_eq hone, search.key_eq hone] at h
        refine (Btr.joined_begins row.chunked search.chunked ?_ (count_le idx)).mp
          ⟨[], by rw [List.append_nil, turn_injective h]⟩
        rw [search.length_laid, Nat.zero_add]
        exact search.length_le

/-- A search for all the segments matches its own key only. -/
theorem eq_of_laidMatch (hstarting : search.starting = false)
    (hall : search.segments.length = idx.count) (h : LaidMatch row search) :
    search.key descending = row.key descending := by
  rw [LaidMatch, hstarting] at h
  have heq : search.laid = row.laid := by
    refine Btr.eq_of_begins h ?_
    rw [search.length_laid, row.length_laid, hall]
  by_cases hone : idx.count = 1
  · obtain ⟨r, l, hr, hl, hrlaid, hllaid⟩ := segments_one hone row search
    rw [hrlaid, hllaid] at heq
    rw [Row.key_one hone hr, Search.key_one hone hl, (List.cons.inj heq).1]
  · rw [row.key_eq hone, search.key_eq hone, heq]

/-! ## Bytes of the row's key -/

section

variable {string1 : Memory UCHAR} {i : ℕ} {c : UCHAR}

/-- A byte of a key in a descending index is the complement. -/
def turnByte (descending : Bool) (c : UCHAR) : UCHAR := if descending then c ^^^ 255 else c

theorem turnByte_injective : Function.Injective (turnByte descending) := by
  cases descending with
  | false => exact fun _ _ h => h
  | true => exact xor_injective

theorem getElem?_turn (l : List UCHAR) (i : ℕ) :
    (turn descending l)[i]? = l[i]?.map (turnByte descending) := by
  cases descending with
  | false => exact (congrFun Option.map_id _).symm
  | true => exact List.getElem?_map

/-- A byte of the key in the buffer -/
theorem byte_of_row (hstring1 : string1.load 0 (row.key descending).length = row.key descending)
    (hone : idx.count ≠ 1) (hc : (joined idx.count 0 row.laid)[i]? = some c) :
    string1 i = turnByte descending c := by
  have hbyte : (row.key descending)[i]? = some (turnByte descending c) := by
    rw [row.key_eq hone, getElem?_turn, hc]
    rfl
  obtain ⟨hlt, hget⟩ := List.getElem?_eq_some_iff.mp hbyte
  have hholds := Memory.holds_load string1 0 (row.key descending).length
  rw [hstring1] at hholds
  have hi := hholds i hlt
  rw [Nat.zero_add] at hi
  rw [hi, hget]

theorem getElem?_of_begins {l m : List UCHAR} (h : l <+: m) (hc : l[i]? = some c) :
    m[i]? = some c := by
  obtain ⟨t, rfl⟩ := h
  rw [List.getElem?_append_left (List.getElem?_eq_some_iff.mp hc).1, hc]

theorem segmentAt_succ (j : ℕ) : segmentAt (j + 1) = j / 5 * 5 := by
  have hdiv : (((j + 1 : ℕ) : ℤ) - 1).tdiv (stuffCount + 1 : ℕ) = ((j / 5 : ℕ) : ℤ) := by
    rw [Nat.cast_add, Nat.cast_one, add_sub_cancel_right]
    rfl
  rw [segmentAt, hdiv]
  norm_cast

theorem val_marker {n : ℕ} : (marker idx.count n).val = idx.count - n := by
  have hle := idx.count_le
  rw [marker, Fin.val_ofNat]
  exact Nat.mod_eq_of_lt (by rw [Idx.count]; omega)

theorem lt_val_xor : ∀ m : ℕ, m ≤ 16 → 16 < m ^^^ 255 := by decide

end

/-! ## The comparison -/

variable {string1 : Memory UCHAR}

theorem Search.laid_ne_nil (search : Search idx) : search.laid ≠ [] := by
  intro hnil
  have hlen := search.length_laid
  rw [hnil, List.length_nil] at hlen
  exact search.some_segment (List.eq_nil_of_length_eq_zero hlen.symm)

/-- The marker of the segment that the search ends with -/
theorem tail_marker (hstring1 : string1.load 0 (row.key descending).length = row.key descending)
    (hbegins : search.key descending <+: row.key descending) (hone : idx.count ≠ 1) :
    string1 (segmentAt (search.key descending).length) =
      turnByte descending (marker idx.count (search.segments.length - 1)) := by
  obtain ⟨j, hj, hmarker⟩ :=
    @Btr.joined_marker _ 0 idx.count search.chunked search.laid_ne_nil
  rw [search.length_laid, Nat.zero_add] at hmarker
  rw [row.key_eq hone, search.key_eq hone, turn_begins] at hbegins
  rw [search.key_eq hone, length_turn, hj, segmentAt_succ]
  exact byte_of_row hstring1 hone (getElem?_of_begins hbegins hmarker)

/-- The index description is read for the segment that the search ends with, which a descending index
does not show. -/
theorem stringTail_eq (hstring1 : string1.load 0 (row.key descending).length = row.key descending)
    (hbegins : search.key descending <+: row.key descending)
    (hstarting : search.starting = true) :
    stringTail idx string1 (search.key descending).length (search.flags descending) =
      if descending = true ∧ 1 < idx.count then .error .outside else .ok true := by
  have hpos := List.length_pos_of_ne_nil search.some_segment
  have hle := search.length_le
  rw [stringTail, if_pos (show (search.flags descending).starting = true from hstarting), tailItype]
  by_cases hone : idx.count = 1
  · obtain ⟨r, l, hr, hl, -, -⟩ := segments_one hone row search
    obtain ⟨itype, hitype⟩ := List.length_eq_one_iff.mp hone
    have hstring := search.string hstarting
    rw [hl, hitype] at hstring
    rw [if_neg (by omega), if_neg (by omega), hitype]
    exact congrArg Except.ok (decide_eq_true (hstring itype rfl))
  · have hcount : 1 < idx.count := by omega
    rw [if_pos hcount, tail_marker hstring1 hbegins hone]
    dsimp only
    cases descending with
    | true =>
        have hlow := lt_val_xor (idx.count - (search.segments.length - 1)) (by
          have := idx.count_le
          rw [Idx.count]
          omega)
        have hval : (turnByte true (marker idx.count (search.segments.length - 1))).val =
            (idx.count - (search.segments.length - 1)) ^^^ 255 := by
          rw [turnByte, if_pos rfl, Bytes.val_xor, val_marker]
          rfl
        have hcount' := idx.count_le
        rw [hval, if_neg (by rw [Idx.count] at *; omega), if_pos ⟨rfl, hcount⟩]
        rfl
    | false =>
        have hi : (idx.count : ℤ) -
            ((turnByte false (marker idx.count (search.segments.length - 1))).val : ℤ) =
              ((search.segments.length - 1 : ℕ) : ℤ) := by
          rw [turnByte, if_neg Bool.false_ne_true, val_marker]
          omega
        rw [hi, if_pos (Int.natCast_nonneg _), Int.toNat_natCast, if_neg nofun]
        obtain ⟨itype, hitype⟩ : ∃ itype, idx.itypes[search.segments.length - 1]? = some itype :=
          ⟨_, List.getElem?_eq_getElem (by rw [Idx.count] at *; omega)⟩
        have hstring := search.string hstarting itype hitype
        rw [hitype]
        exact congrArg Except.ok (decide_eq_true hstring)

/-- What stands behind the key of a search for the first segments: the marker of its last segment if
the row's goes on, and a smaller one if the row matches. -/
theorem joined_of_filled (hbegins : search.key descending <+: row.key descending)
    (hfilled : search.filled = true) :
    idx.count ≠ 1 ∧ (joined idx.count 0 search.laid).length % 5 = 0 ∧
      ∃ c rest, joined idx.count 0 row.laid = joined idx.count 0 search.laid ++ c :: rest ∧
        c ≤ marker idx.count (search.segments.length - 1) ∧
        (c ≠ marker idx.count (search.segments.length - 1) ↔ LaidMatch row search) := by
  obtain ⟨hstarting, hlt⟩ := Search.filled_iff.mp hfilled
  have hpos := List.length_pos_of_ne_nil search.some_segment
  have hwhole : ∀ l ∈ search.laid, l.length % stuffCount = 0 := by
    intro l hl
    rw [Search.laid, hfilled] at hl
    exact Btr.whole_of_mem_laid hl
  refine ⟨by omega, Btr.length_joined_whole _ _ hwhole, ?_⟩
  obtain ⟨c, rest, hjoined, hle, hc⟩ := Btr.joined_behind (n := 0) search.chunked row.chunked
    (by rw [row.length_laid, Nat.zero_add]) (count_le idx) hwhole search.laid_ne_nil
    (by rw [row.length_laid, search.length_laid]; exact hlt) (key_begins_iff.mp hbegins)
  rw [search.length_laid, Nat.zero_add] at hle hc
  refine ⟨c, rest, hjoined, hle, ?_⟩
  rw [hc, LaidMatch, hstarting]

/-- A row behind the key of a search for the first segments -/
theorem compare_behind (hstring1 : string1.load 0 (row.key descending).length = row.key descending)
    (hbegins : search.key descending <+: row.key descending) (hfilled : search.filled = true) :
    (search.key descending).length % 5 = 0 ∧
      (string1 (search.key descending).length ≠ string1 (segmentAt (search.key descending).length) ↔
        LaidMatch row search) := by
  obtain ⟨hone, hmod, c, rest, hjoined, -, hc⟩ := joined_of_filled hbegins hfilled
  have hlength : (search.key descending).length = (joined idx.count 0 search.laid).length := by
    rw [search.key_eq hone, length_turn]
  have hnext : string1 (search.key descending).length = turnByte descending c := by
    refine byte_of_row hstring1 hone ?_
    rw [hlength, hjoined, List.getElem?_append_right (Nat.le_refl _), Nat.sub_self]
    rfl
  rw [hnext, tail_marker hstring1 hbegins hone, turnByte_injective.ne_iff, hc, hlength]
  exact ⟨hmod, Iff.rfl⟩

/-- The comparison as `NAV_get_record` makes it -/
def compareRow (row : Row idx) (search : Search idx) (descending : Bool) (string1 : Memory UCHAR) :
    Except Stop Ordering :=
  compareKeys idx string1 (row.key descending).length (search.key descending)
    (search.flags descending)

/-- What the comparison returns -/
theorem compareRow_eq (hstring1 : string1.load 0 (row.key descending).length = row.key descending) :
    compareRow row search descending string1 =
      if search.starting = true ∧ descending = true ∧ 1 < idx.count ∧
          search.key descending <+: row.key descending ∧
          search.key descending ≠ row.key descending then .error .outside
      else .ok (if LaidMatch row search then .eq
        else if sortKey descending (row.key descending) < sortKey descending (search.key descending)
          then .lt else .gt) := by
  rw [compareRow]
  by_cases hbegins : search.key descending <+: row.key descending
  · by_cases heq : search.key descending = row.key descending
    · rw [if_neg fun h => h.2.2.2.2 heq, if_pos (laidMatch_of_eq heq), heq]
      exact compareKeys_self hstring1
    · rw [compareKeys_longer hstring1 hbegins heq]
      cases hstarting : search.starting with
      | true =>
          have hmatch : LaidMatch row search := by
            rw [LaidMatch, hstarting]
            exact key_begins_iff.mp hbegins
          rw [if_pos (.inr hstarting), stringTail_eq hstring1 hbegins hstarting, if_pos hmatch]
          by_cases hdescending : descending = true ∧ 1 < idx.count
          · rw [if_pos hdescending]
            exact (if_pos ⟨rfl, hdescending.1, hdescending.2, hbegins, heq⟩).symm
          · rw [if_neg hdescending]
            exact (if_neg fun h => hdescending ⟨h.2.1, h.2.2.1⟩).symm
      | false =>
          have houtside : ¬(false = true ∧ descending = true ∧ 1 < idx.count ∧
              search.key descending <+: row.key descending ∧
              search.key descending ≠ row.key descending) := fun h => Bool.false_ne_true h.1
          rw [if_neg houtside]
          by_cases hall : search.segments.length = idx.count
          · -- no flag: the row's key is longer
            have hflags : ¬((search.flags descending).partly = true ∨
                (search.flags descending).starting = true) := by
              rintro (h | h)
              · exact (of_decide_eq_true h).ne hall
              · exact Bool.false_ne_true (hstarting.symm.trans h)
            rw [if_neg hflags, byLength_longer hbegins heq,
              if_neg fun h => heq (eq_of_laidMatch hstarting hall h)]
            rfl
          · have hlt := Nat.lt_of_le_of_ne search.length_le hall
            have hpos := List.length_pos_of_ne_nil search.some_segment
            obtain ⟨hremainder, hbehind⟩ :=
              compare_behind hstring1 hbegins (Search.filled_iff.mpr ⟨hstarting, hlt⟩)
            have htail : stringTail idx string1 (search.key descending).length
                (search.flags descending) = .ok false :=
              if_neg (Bool.eq_false_iff.mp hstarting)
            rw [if_pos (.inl (decide_eq_true hlt)), htail]
            dsimp only
            by_cases hmatch : LaidMatch row search
            · rw [if_pos hmatch, if_pos ⟨by omega, hremainder, hbehind.mpr hmatch⟩]
            · rw [if_neg hmatch, if_neg fun h => hmatch (hbehind.mp h.2.2),
                if_neg fun h => h.2.1 hremainder, byLength_longer hbegins heq]
              rfl
  · have hmatch : ¬LaidMatch row search := by
      intro h
      exact hbegins (key_begins_iff.mpr (Btr.begins_of_begins h))
    rw [if_neg fun h => hbegins h.2.2.2.1, compareKeys_apart hstring1 hbegins, if_neg hmatch]
    rfl

/-- Segments that match do so as they are laid down. -/
theorem Match.laidMatch (h : Match row search) : LaidMatch row search := by
  refine Btr.begins_laid h ?_ (fun hfilled => ?_) fun hopen => ?_
  · rw [row.length_eq]
    exact search.length_le
  · rw [row.length_eq]
    exact Search.filled_iff.mp hfilled
  · rw [Bool.eq_false_iff, ne_eq, Search.filled_iff, not_and_or, Bool.not_eq_false] at hopen
    rw [row.length_eq]
    exact hopen.imp_right fun hle => Nat.le_antisymm search.length_le (Nat.not_lt.mp hle)

/-- A comparison agrees with the order of the index just when the condition holds. -/
theorem agrees_iff (hstring1 : string1.load 0 (row.key descending).length = row.key descending) :
    Agrees row search descending (compareRow row search descending string1) ↔
      Sound row search descending := by
  rw [compareRow_eq hstring1, Sound]
  by_cases houtside : search.starting = true ∧ descending = true ∧ 1 < idx.count ∧
      search.key descending <+: row.key descending ∧ search.key descending ≠ row.key descending
  · rw [if_pos houtside]
    refine iff_of_false ?_ fun h => h.1 houtside
    rintro ⟨o, ho, -⟩
    cases ho
  · rw [if_neg houtside]
    constructor
    · rintro ⟨o, ho, hlt, heq, hgt⟩
      obtain rfl := Except.ok.inj ho
      refine ⟨houtside, fun hlaid => heq.mp ?_⟩
      rw [if_pos hlaid]
    · rintro ⟨-, hsound⟩
      have hiff : LaidMatch row search ↔ Match row search := ⟨hsound, Match.laidMatch⟩
      refine ⟨_, rfl, ?_⟩
      by_cases hmatch : Match row search
      · rw [if_pos (hiff.mpr hmatch)]
        exact ⟨iff_of_false nofun fun h => h.1 hmatch, iff_of_true rfl hmatch,
          iff_of_false nofun fun h => h.1 hmatch⟩
      · rw [if_neg fun h => hmatch (hiff.mp h)]
        have hne : sortKey descending (search.key descending) ≠
            sortKey descending (row.key descending) := by
          intro h
          exact hmatch (hiff.mp (laidMatch_of_eq (sortKey_injective descending h)))
        by_cases hlt : sortKey descending (row.key descending) <
            sortKey descending (search.key descending)
        · rw [if_pos hlt]
          exact ⟨iff_of_true rfl ⟨hmatch, hlt⟩, iff_of_false nofun hmatch,
            iff_of_false nofun fun h => hlt.not_gt h.2⟩
        · rw [if_neg hlt]
          exact ⟨iff_of_false nofun fun h => hlt h.2, iff_of_false nofun hmatch,
            iff_of_true rfl ⟨hmatch, lt_of_le_of_ne (not_lt.mp hlt) hne⟩⟩

/-! ## The walk -/

/-- What stands between a list and another one that it begins is begun by it. -/
theorem begins_of_between {l m n : List ℕ} (h : l <+: n) (hlt : l < m) (hle : m ≤ n) : l <+: m := by
  induction l generalizing m n with
  | nil => exact List.nil_prefix
  | cons x l ih =>
      obtain ⟨t, rfl⟩ := h
      cases m with
      | nil => exact absurd hlt (List.not_lt_nil _)
      | cons y m =>
          have hnot := not_lt.mpr hle
          rw [List.cons_append, List.cons_lt_cons_iff, not_or] at hnot
          rw [List.cons_lt_cons_iff] at hlt
          rcases hlt with hlt | ⟨rfl, hlt⟩
          · exact absurd hlt hnot.1
          · have hle' : m ≤ l ++ t := not_lt.mp fun h => hnot.2 ⟨rfl, h⟩
            exact List.cons_prefix_cons.mpr ⟨rfl, ih (List.prefix_append l t) hlt hle'⟩

/-- No row that matches stands behind one that is behind the search. -/
theorem After.of_ordered {row' : Row idx} (h : After row search descending)
    (hsound : Sound row search descending)
    (hle : Ordered descending (row.key descending) (row'.key descending)) :
    After row' search descending := by
  obtain ⟨hmatch, hlt⟩ := h
  refine ⟨fun hmatch' => ?_, lt_of_lt_of_le hlt hle⟩
  have hnot : ¬LaidMatch row search := fun hlaid => hmatch (hsound.2 hlaid)
  have hlaid' := hmatch'.laidMatch
  have hbegins' : search.key descending <+: row'.key descending :=
    key_begins_iff.mpr (Btr.begins_of_begins hlaid')
  have hne' : search.key descending ≠ row'.key descending := by
    intro heq
    rw [heq] at hlt
    exact (lt_of_lt_of_le hlt hle).ne rfl
  cases descending with
  | true => exact absurd (lt_of_lt_of_le hlt hle) (sortKey_lt_of_begins hbegins' hne').2.not_gt
  | false =>
      have hbegins : search.key false <+: row.key false := by
        have hmap : (search.key false).map Fin.val <+: (row'.key false).map Fin.val :=
          hbegins'.map _
        rw [sortKey, sortKey, if_neg Bool.false_ne_true, List.append_nil, List.append_nil] at hlt
        rw [Ordered, sortKey, sortKey, if_neg Bool.false_ne_true, List.append_nil,
          List.append_nil] at hle
        obtain ⟨l, hl, heq⟩ := List.prefix_map_iff.mp (begins_of_between hmap hlt hle)
        rwa [List.map_injective_iff.mpr Fin.val_injective heq]
      cases hstarting : search.starting with
      | true =>
          refine hnot ?_
          rw [LaidMatch, hstarting]
          exact key_begins_iff.mp hbegins
      | false =>
          by_cases hall : search.segments.length = idx.count
          · exact hne' (eq_of_laidMatch hstarting hall hlaid')
          · -- behind the search the row goes on with its segment, the other one with the next
            have hfilled : search.filled = true :=
              Search.filled_iff.mpr ⟨hstarting, Nat.lt_of_le_of_ne search.length_le hall⟩
            obtain ⟨hone, -, c, rest, hjoined, -, hc⟩ := joined_of_filled hbegins hfilled
            obtain ⟨-, -, c', rest', hjoined', hle', hc'⟩ := joined_of_filled hbegins' hfilled
            have hcc : c' < c := by
              rw [not_not.mp fun hne => hnot (hc.mp hne)]
              exact lt_of_le_of_ne hle' (hc'.mpr hlaid')
            have hlt' : sortKey false (row'.key false) < sortKey false (row.key false) := by
              rw [row.key_eq hone, row'.key_eq hone, turn, turn, if_neg Bool.false_ne_true,
                if_neg Bool.false_ne_true, hjoined, hjoined', sortKey, sortKey, List.map_append,
                List.map_append, List.append_assoc, List.append_assoc]
              exact List.Lex.append_left _ (List.Lex.rel (show c'.val < c.val from hcc)) _
            exact hlt'.not_ge hle

/-- **Limits mean the order of the index, where the condition holds.** A comparison of a row with
the limit stays inside the index description and agrees with the order of the index just when the
condition holds. In an index whose rows all meet it, a walk up to the first row behind the limit
has all rows that are not behind it. -/
theorem limit_agrees_iff (search : Search idx) (descending : Bool) :
    (∀ (row : Row idx) (string1 : Memory UCHAR),
      string1.load 0 (row.key descending).length = row.key descending →
        (Agrees row search descending (compareRow row search descending string1) ↔
          Sound row search descending)) ∧
    ∀ (rows : List (Row idx)) (buffer : Row idx → Memory UCHAR),
      (∀ row, (buffer row).load 0 (row.key descending).length = row.key descending) →
      rows.Pairwise (fun row row' => Ordered descending (row.key descending) (row'.key descending)) →
      (∀ row ∈ rows, Sound row search descending) →
        rows.takeWhile (fun row => compareRow row search descending (buffer row) ≠ .ok .gt) =
          rows.filter fun row => ¬After row search descending := by
  refine ⟨fun row string1 hstring1 => agrees_iff hstring1, ?_⟩
  intro rows buffer hbuffer hordered hsound
  have hgt : ∀ row ∈ rows,
      (compareRow row search descending (buffer row) = .ok .gt ↔ After row search descending) := by
    intro row hrow
    obtain ⟨o, ho, -, -, hgt⟩ := (agrees_iff (hbuffer row)).mpr (hsound row hrow)
    rw [ho, Except.ok.injEq, hgt]
  clear hbuffer
  induction rows with
  | nil => rfl
  | cons row rows ih =>
      obtain ⟨hhead, htail⟩ := List.pairwise_cons.mp hordered
      have hrest := ih htail (fun r hr => hsound r (List.mem_cons_of_mem _ hr))
        fun r hr => hgt r (List.mem_cons_of_mem _ hr)
      by_cases hafter : After row search descending
      · -- all that follow are behind the limit
        have hnone : (row :: rows).filter (fun row => ¬After row search descending) = [] := by
          rw [List.filter_eq_nil_iff]
          intro r hr
          rw [decide_eq_true_iff, not_not]
          rcases List.mem_cons.mp hr with rfl | hr
          · exact hafter
          · exact hafter.of_ordered (hsound row List.mem_cons_self) (hhead r hr)
        rw [hnone, List.takeWhile_cons_of_neg]
        rw [decide_eq_true_iff, not_not]
        exact (hgt row List.mem_cons_self).mpr hafter
      · rw [List.takeWhile_cons_of_pos, List.filter_cons_of_pos, hrest]
        · exact decide_eq_true hafter
        · rw [decide_eq_true_iff]
          exact fun h => hafter ((hgt row List.mem_cons_self).mp h)

/-- An index of two strings -/
def twoStrings : Idx := ⟨[idxString, idxString], by decide⟩

/-- The strings of a row, without the blanks behind them -/
def stringRow (a b : List UCHAR) (ha : a ≠ []) (hb : b ≠ []) : Row twoStrings where
  segments := [a, b]
  nonempty := by
    intro l hl
    rcases List.mem_cons.mp hl with rfl | hl
    · exact ha
    · rw [List.mem_singleton.mp hl]
      exact hb
  length_eq := rfl

/-- A search for the first string, or for its beginning -/
def firstString (a : List UCHAR) (ha : a ≠ []) (starting : Bool) : Search twoStrings where
  segments := [a]
  starting := starting
  nonempty l hl := by
    rw [List.mem_singleton.mp hl]
    exact ha
  some_segment := List.cons_ne_nil _ _
  length_le := show 1 ≤ 2 from Nat.le_succ 1
  string _ itype hitype := by
    obtain rfl := Option.some.inj hitype
    exact .inl rfl

/-- The rows with the string `A` are walked over, and not that with `AB`, which is behind them. -/
theorem limit_agrees_twoStrings :
    let rows := [stringRow [65] [66] (by decide) (by decide),
      stringRow [65] [67] (by decide) (by decide), stringRow [65, 66] [66] (by decide) (by decide)]
    let search := firstString [65] (by decide) false
    (∀ row ∈ rows, Agrees row search false
      (compareRow row search false (Memory.store (fun _ => 0) 0 (row.key false)))) ∧
    rows.takeWhile (fun row => compareRow row search false
        (Memory.store (fun _ => 0) 0 (row.key false)) ≠ .ok .gt) =
      rows.filter fun row => ¬After row search false := by
  intro rows search
  have hsound : ∀ row ∈ rows, Sound row search false := by decide
  have hbuffer : ∀ row : Row twoStrings, Memory.load
      (Memory.store (fun _ => 0) 0 (row.key false)) 0 (row.key false).length = row.key false :=
    fun row => Memory.load_store _ _ _
  refine ⟨fun row hrow => ?_, ?_⟩
  · exact ((limit_agrees_iff search false).1 row _ (hbuffer row)).mpr (hsound row hrow)
  · exact (limit_agrees_iff search false).2 rows _ hbuffer (by decide) hsound

/-- A search for the beginning `A` reads outside the description of a descending index when it comes
to a row with the string `AB`; and a search for `A` takes a string that goes on with a zero for it. -/
theorem limit_astray :
    (compareRow (stringRow [65, 66] [67] (by decide) (by decide)) (firstString [65] (by decide) true)
      true (Memory.store (fun _ => 0) 0
        ((stringRow [65, 66] [67] (by decide) (by decide)).key true)) = .error .outside) ∧
    ¬Agrees (stringRow [65, 0] [67] (by decide) (by decide)) (firstString [65] (by decide) false)
      false (compareRow (stringRow [65, 0] [67] (by decide) (by decide))
        (firstString [65] (by decide) false) false
        (Memory.store (fun _ => 0) 0
          ((stringRow [65, 0] [67] (by decide) (by decide)).key false))) := by
  refine ⟨by decide, ?_⟩
  rintro ⟨o, ho, -, heq, -⟩
  have hresult : compareRow (stringRow [65, 0] [67] (by decide) (by decide))
      (firstString [65] (by decide) false) false (Memory.store (fun _ => 0) 0
        ((stringRow [65, 0] [67] (by decide) (by decide)).key false)) = .ok .eq := by decide
  rw [hresult] at ho
  obtain rfl := Except.ok.inj ho
  exact absurd (heq.mp rfl) (by decide)

end Firebird.Nav
