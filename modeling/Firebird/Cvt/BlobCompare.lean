import Firebird.Lib.Piecewise
import Firebird.Cvt.Compare
import Firebird.Evl.BlobString

/-! # Comparing blobs (`CVT2_blob_compare` in `jrd/cvt2.cpp`)

Two blobs are read with one `BLB_get_segment` each, and what is read of them is compared, the shorter
piece as if it went on with pads. The loop ends at the end of one of the blobs. The loops for the
rest of the other blob are never entered: `blb_flags & BLB_eof == BLB_eof` is a test of the bit of
temporary blobs.
-/

namespace Firebird.Cvt

open Evl (StoredBlob Blob BLB_open BLB_get_segment BLB_get_segment_rest BUFFER_LARGE)

/-- `BLOB_text` -/
def BLOB_text : ℤ := 1

/-- A descriptor of a blob, with what its id stands for -/
structure BlobDsc where
  dsc_address : ℕ
  bid_relation_id : ℕ
  /-- `bid_temp_id` or `bid_number` -/
  bid_stuff : ℕ
  dsc_sub_type : ℤ
  /-- The character set of a text -/
  dsc_scale : ℕ
  stored : StoredBlob

/-- The tests for the same blob id -/
def BlobDsc.SameId (arg1 arg2 : BlobDsc) : Prop :=
  arg1.dsc_address = arg2.dsc_address ∨
    arg1.bid_relation_id = arg2.bid_relation_id ∧
      (arg1.bid_relation_id = 0 ∧ arg1.bid_stuff = arg2.bid_stuff ∨
        arg1.bid_relation_id ≠ 0 ∧ arg1.bid_stuff = arg2.bid_stuff)

instance (arg1 arg2 : BlobDsc) : Decidable (arg1.SameId arg2) :=
  inferInstanceAs (Decidable (_ ∨ _))

def BlobDsc.ttype (arg : BlobDsc) : ℕ :=
  if arg.dsc_sub_type = BLOB_text then arg.dsc_scale else ttype_none

/-- `both_are_text` -/
def BlobDsc.BothAreText (arg1 arg2 : BlobDsc) : Prop :=
  arg1.dsc_sub_type = BLOB_text ∧ arg2.dsc_sub_type = BLOB_text

instance (arg1 arg2 : BlobDsc) : Decidable (arg1.BothAreText arg2) :=
  inferInstanceAs (Decidable (_ ∧ _))

/-- `blank_char` -/
def BlobDsc.blankChar (arg1 arg2 : BlobDsc) : ℕ := if arg1.BothAreText arg2 then 32 else 0

section

/- `getType` is that of `INTL_texttype_lookup`, and `INTL_compare` stands for all of the comparison
that is not binary. -/
variable (getType : ℕ → ℕ) (INTL_compare : BlobDsc → BlobDsc → Except Halt ℤ)

/-- The character set of `arg1`, looked up where one of the two is `ttype_dynamic` -/
def BlobDsc.lookedUp (arg1 arg2 : BlobDsc) : ℕ :=
  if arg1.ttype = ttype_dynamic ∨ arg2.ttype = ttype_dynamic then getType arg1.ttype else arg1.ttype

/-- `bin_cmp` -/
def BlobDsc.BinCmp (arg1 arg2 : BlobDsc) : Prop :=
  ¬arg1.BothAreText arg2 ∨
    arg1.lookedUp getType arg2 = arg2.lookedUp getType arg1 ∨
    arg1.lookedUp getType arg2 = ttype_none ∨ arg1.lookedUp getType arg2 = ttype_ascii ∨
    arg2.lookedUp getType arg1 = ttype_none ∨ arg2.lookedUp getType arg1 = ttype_ascii

instance (arg1 arg2 : BlobDsc) : Decidable (arg1.BinCmp getType arg2) :=
  inferInstanceAs (Decidable (_ ∨ _))

/-! ## The loops -/

/-- The loop over the bytes that both pieces have -/
def commonLoop : ℕ → List ℕ → List ℕ → ℤ
  | common_top + 1, c1 :: p1, c2 :: p2 =>
    if c1 ≠ c2 then (if c1 < c2 then -1 else 1) else commonLoop common_top p1 p2
  | _, _, _ => 0

/-- The loops over the bytes that only one of the pieces has, with what they return for a byte above
the pad -/
def padLoop (above : ℤ) (blank_char : ℕ) : List ℕ → ℤ
  | c :: p =>
    if c ≠ blank_char then (if c > blank_char then above else -above)
    else padLoop above blank_char p
  | [] => 0

example : commonLoop 2 [65, 66] [65, 67] = -1 := by simp [commonLoop]

example : padLoop 1 32 [32, 33] = 1 := by simp [padLoop]

/-- The comparison of two pieces -/
def comparePieces (blank_char : ℕ) (buffer1 buffer2 : List ℕ) : ℤ :=
  let common_top := min buffer1.length buffer2.length
  let ret_val := commonLoop common_top buffer1 buffer2
  if ret_val ≠ 0 then ret_val
  else if buffer1.length < buffer2.length then
    padLoop (-1) blank_char (buffer2.drop buffer1.length)
  else if buffer1.length > buffer2.length then
    padLoop 1 blank_char (buffer1.drop buffer2.length)
  else 0

/-- The loop over the pieces of both blobs: `ret_val`, and the blobs behind it -/
def piecesLoop (blank_char : ℕ) (blob1 blob2 : Blob) : ℤ × Blob × Blob :=
  if _h : blob1.blb_eof = true then (0, blob1, blob2)
  else if blob2.blb_eof = true then (0, blob1, blob2)
  else
    let l1 := BLB_get_segment blob1 BUFFER_LARGE
    let l2 := BLB_get_segment blob2 BUFFER_LARGE
    let ret_val := comparePieces blank_char l1.1 l2.1
    if ret_val ≠ 0 then (ret_val, l1.2, l2.2) else piecesLoop blank_char l1.2 l2.2
termination_by blob1.rest
decreasing_by exact BLB_get_segment_rest _h

/-- The loops over the rest of one of the blobs -/
def restLoop (above : ℤ) (blank_char : ℕ) (blob : Blob) : ℤ :=
  if _h : blob.blb_eof = true then 0
  else
    let l := BLB_get_segment blob BUFFER_LARGE
    let ret_val := padLoop above blank_char l.1
    if ret_val ≠ 0 then ret_val else restLoop above blank_char l.2
termination_by blob.rest
decreasing_by exact BLB_get_segment_rest _h

/-- `BLB_eof` -/
def BLB_eof : ℕ := 2

/-- `blb_flags` of a blob that is open for retrieval -/
def blb_flags (blob : Blob) : ℕ := if blob.blb_eof then BLB_eof else 0

/-- `blb_flags & BLB_eof == BLB_eof`, where `==` binds first -/
def eofTest (blob : Blob) : Bool := blb_flags blob &&& (BLB_eof == BLB_eof).toNat ≠ 0

def binaryCompare (blank_char : ℕ) (blob1 blob2 : Blob) : ℤ :=
  let l := piecesLoop blank_char blob1 blob2
  if l.1 ≠ 0 then l.1
  else
    let eof1 := eofTest l.2.1
    let eof2 := eofTest l.2.2
    if eof1 && !eof2 then restLoop (-1) blank_char l.2.2
    else if !eof1 && eof2 then restLoop 1 blank_char l.2.1
    else 0

/-- `CVT2_blob_compare` of two blobs -/
def BlobDsc.CVT2_blob_compare (arg1 arg2 : BlobDsc) : Except Halt ℤ :=
  if arg1.SameId arg2 then .ok 0
  else if arg1.BinCmp getType arg2 then
    .ok (binaryCompare (arg1.blankChar arg2) (BLB_open arg1.stored) (BLB_open arg2.stored))
  else INTL_compare arg1 arg2

end

/-! ## What is read of a blob -/

/-- What the calls of `BLB_get_segment` return, up to the one that finds the end -/
def pieces (blob : Blob) : List (List ℕ) :=
  if _h : blob.blb_eof = true then []
  else (BLB_get_segment blob BUFFER_LARGE).1 :: pieces (BLB_get_segment blob BUFFER_LARGE).2
termination_by blob.rest
decreasing_by exact BLB_get_segment_rest _h

example : pieces ⟨true, [], []⟩ = [] := by simp [pieces]

/-- The lengths of what is read of a blob -/
def cuts (b : StoredBlob) : List ℕ := (pieces (BLB_open b)).map List.length

theorem pieces_of_eof {blob : Blob} (h : blob.blb_eof = true) : pieces blob = [] := by
  rw [pieces, dif_pos h]

theorem pieces_of_not_eof {blob : Blob} (h : blob.blb_eof = false) :
    pieces blob = (BLB_get_segment blob BUFFER_LARGE).1 ::
      pieces (BLB_get_segment blob BUFFER_LARGE).2 := by
  rw [pieces, dif_neg (Bool.eq_false_iff.mp h)]

/-- The pieces in a row are what is left of the blob. The last one is empty. -/
theorem pieces_spec {blob : Blob} (h : blob.blb_eof = false) :
    ∃ l : List (List ℕ), pieces blob = l ++ [[]] ∧ (∀ p ∈ l, p.length ≤ BUFFER_LARGE) ∧
      l.flatten = blob.fragment ++ blob.segments.flatten := by
  induction hn : blob.rest using Nat.strong_induction_on generalizing blob with
  | _ n ih =>
    subst hn
    have hlt := BLB_get_segment_rest (Bool.eq_false_iff.mp h)
    rw [pieces_of_not_eof h]
    rcases blob with ⟨eof, fragment, segments⟩
    obtain rfl : eof = false := h
    cases fragment with
    | nil =>
      cases segments with
      | nil => exact ⟨[], by rw [pieces_of_eof] <;> rfl, by simp, rfl⟩
      | cons segment segments =>
        obtain ⟨l, hl, hlen, hflat⟩ := ih _ hlt rfl rfl
        refine ⟨segment.take BUFFER_LARGE :: l, ?_, ?_, ?_⟩
        · rw [hl]
          rfl
        · rw [List.forall_mem_cons]
          exact ⟨List.length_take_le _ _, hlen⟩
        · rw [List.flatten_cons, hflat]
          change segment.take BUFFER_LARGE ++ (segment.drop BUFFER_LARGE ++ segments.flatten) = _
          rw [← List.append_assoc, List.take_append_drop]
          rfl
    | cons c fragment =>
      obtain ⟨l, hl, hlen, hflat⟩ := ih _ hlt rfl rfl
      refine ⟨(c :: fragment).take BUFFER_LARGE :: l, ?_, ?_, ?_⟩
      · rw [hl]
        rfl
      · rw [List.forall_mem_cons]
        exact ⟨List.length_take_le _ _, hlen⟩
      · rw [List.flatten_cons, hflat]
        change (c :: fragment).take BUFFER_LARGE ++
          ((c :: fragment).drop BUFFER_LARGE ++ segments.flatten) = _
        rw [← List.append_assoc, List.take_append_drop]

theorem flatten_pieces (b : StoredBlob) : (pieces (BLB_open b)).flatten = b.content := by
  cases b with
  | null =>
    rw [pieces_of_eof rfl]
    rfl
  | segmented segments =>
    have heof : (BLB_open (.segmented segments)).blb_eof = false := rfl
    obtain ⟨l, hl, -, hflat⟩ := pieces_spec heof
    rw [hl, List.flatten_append, hflat]
    exact List.append_nil _
  | stream content =>
    have heof : (BLB_open (.stream content)).blb_eof = false := rfl
    obtain ⟨l, hl, -, hflat⟩ := pieces_spec heof
    rw [hl, List.flatten_append, hflat]
    exact List.append_nil _

/-- Segments that fit in the buffer are the pieces. -/
theorem pieces_segmented {segments : List (List ℕ)} (h : ∀ p ∈ segments, p.length ≤ BUFFER_LARGE) :
    pieces (BLB_open (.segmented segments)) = segments ++ [[]] := by
  induction segments with
  | nil =>
    rw [pieces_of_not_eof rfl, pieces_of_eof rfl]
    rfl
  | cons segment segments ih =>
    rw [List.forall_mem_cons] at h
    rw [pieces_of_not_eof rfl]
    change segment.take BUFFER_LARGE ::
      pieces ⟨false, segment.drop BUFFER_LARGE, segments⟩ = _
    rw [List.take_of_length_le h.1, List.drop_eq_nil_of_le h.1, List.cons_append, ← ih h.2]
    rfl

/-- Pieces of the lengths of those of a blob are the pieces of a blob. -/
theorem exists_pieces {b : StoredBlob} {l : List (List ℕ)} (h : l.map List.length = cuts b) :
    ∃ b' : StoredBlob, pieces (BLB_open b') = l := by
  have hsegmented : (BLB_open b).blb_eof = false → ∃ b' : StoredBlob, pieces (BLB_open b') = l := by
    intro heof
    obtain ⟨k, hk, hlen, -⟩ := pieces_spec heof
    rw [cuts, hk, List.map_append, List.map_eq_append_iff] at h
    obtain ⟨l, e, rfl, hl, he⟩ := h
    obtain ⟨p, rfl, hp⟩ := List.map_eq_singleton_iff.mp he
    obtain rfl : p = [] := List.length_eq_zero_iff.mp hp
    refine ⟨.segmented l, pieces_segmented ?_⟩
    intro p hp
    have hmem : p.length ∈ k.map List.length := hl ▸ List.mem_map_of_mem hp
    obtain ⟨q, hq, heq⟩ := List.mem_map.mp hmem
    exact heq ▸ hlen q hq
  cases b with
  | null =>
    rw [cuts, pieces_of_eof rfl, List.map_nil, List.map_eq_nil_iff] at h
    exact ⟨.null, by rw [h, pieces_of_eof rfl]⟩
  | segmented segments => exact hsegmented rfl
  | stream content => exact hsegmented rfl

/-! ## What is compared -/

variable {blank_char : ℕ}

theorem padLoop_first (p : List ℕ) :
    padLoop 1 blank_char p = signOf (Padded.compare blank_char p []) := by
  induction p with
  | nil =>
    rw [Padded.compare_nil_nil]
    rfl
  | cons c p ih =>
    rw [padLoop, Padded.compare_cons_nil]
    rcases lt_trichotomy c blank_char with hlt | rfl | hgt
    · rw [if_pos hlt.ne, if_neg hlt.asymm, (cmp_eq_lt_iff _ _).mpr hlt]
      rfl
    · rw [if_neg (not_not.mpr rfl), cmp_self_eq_eq, ih]
      rfl
    · rw [if_pos hgt.ne', if_pos hgt, (cmp_eq_gt_iff _ _).mpr hgt]
      rfl

theorem padLoop_neg (above : ℤ) (p : List ℕ) :
    padLoop (-above) blank_char p = -padLoop above blank_char p := by
  induction p with
  | nil => rfl
  | cons c p ih =>
    rw [padLoop, padLoop, ih]
    split
    · split <;> rfl
    · rfl

theorem padLoop_second (p : List ℕ) :
    padLoop (-1) blank_char p = signOf (Padded.compare blank_char [] p) := by
  rw [padLoop_neg, padLoop_first, ← signOf_swap, Padded.compare_swap]

theorem comparePieces_cons (c1 c2 : ℕ) (p1 p2 : List ℕ) :
    comparePieces blank_char (c1 :: p1) (c2 :: p2) =
      if c1 ≠ c2 then (if c1 < c2 then -1 else 1) else comparePieces blank_char p1 p2 := by
  unfold comparePieces
  simp only [List.length_cons, Nat.add_min_add_right, commonLoop, List.drop_succ_cons,
    Nat.add_lt_add_iff_right, gt_iff_lt]
  by_cases hne : c1 ≠ c2
  · rw [if_pos hne, if_pos hne, if_pos]
    split <;> decide
  · rw [if_neg hne, if_neg hne]

/-- A pair of pieces is compared as if the shorter one were filled up with pads. -/
theorem comparePieces_eq (p1 p2 : List ℕ) :
    comparePieces blank_char p1 p2 = signOf (Padded.compare blank_char p1 p2) := by
  induction p1 generalizing p2 with
  | nil =>
    cases p2 with
    | nil =>
      rw [Padded.compare_nil_nil]
      rfl
    | cons c2 p2 => exact padLoop_second (c2 :: p2)
  | cons c1 p1 ih =>
    cases p2 with
    | nil => exact padLoop_first (c1 :: p1)
    | cons c2 p2 =>
      rw [comparePieces_cons, Padded.compare_cons_cons, ih]
      rcases lt_trichotomy c1 c2 with hlt | rfl | hgt
      · rw [if_pos hlt.ne, if_pos hlt, (cmp_eq_lt_iff _ _).mpr hlt]
        rfl
      · rw [if_neg (not_not.mpr rfl), cmp_self_eq_eq]
        rfl
      · rw [if_pos hgt.ne', if_neg hgt.asymm, (cmp_eq_gt_iff _ _).mpr hgt]
        rfl

/-- The loop compares in pairs what is read of the blobs. -/
theorem piecesLoop_eq (blob1 blob2 : Blob) :
    (piecesLoop blank_char blob1 blob2).1 =
      signOf (Padded.piecewise blank_char (pieces blob1) (pieces blob2)) := by
  induction hn : blob1.rest using Nat.strong_induction_on generalizing blob1 blob2 with
  | _ n ih =>
    subst hn
    rw [piecesLoop]
    cases heof1 : blob1.blb_eof with
    | true =>
      rw [dif_pos rfl, pieces_of_eof heof1]
      rfl
    | false =>
      rw [dif_neg Bool.false_ne_true]
      cases heof2 : blob2.blb_eof with
      | true =>
        rw [if_pos rfl, pieces_of_eof heof2, Padded.piecewise_nil_right]
        rfl
      | false =>
        have hlt := BLB_get_segment_rest (Bool.eq_false_iff.mp heof1)
        rw [if_neg Bool.false_ne_true, pieces_of_not_eof heof1, pieces_of_not_eof heof2,
          Padded.piecewise]
        dsimp only
        rw [comparePieces_eq, apply_ite Prod.fst, ih _ hlt _ _ rfl]
        cases Padded.compare blank_char (BLB_get_segment blob1 BUFFER_LARGE).1
            (BLB_get_segment blob2 BUFFER_LARGE).1 with
        | lt => rfl
        | eq => rfl
        | gt => rfl

/-- The bit is never set in a blob that is open for retrieval. -/
theorem eofTest_eq (blob : Blob) : eofTest blob = false := by
  unfold eofTest blb_flags
  cases blob.blb_eof <;> decide

theorem binaryCompare_eq (blob1 blob2 : Blob) :
    binaryCompare blank_char blob1 blob2 =
      signOf (Padded.piecewise blank_char (pieces blob1) (pieces blob2)) := by
  unfold binaryCompare
  dsimp only
  rw [eofTest_eq, eofTest_eq, ← piecesLoop_eq]
  by_cases hzero : (piecesLoop blank_char blob1 blob2).1 = 0
  · rw [if_neg (not_not.mpr hzero), hzero]
    rfl
  · rw [if_pos hzero]

section

variable {getType : ℕ → ℕ} {INTL_compare : BlobDsc → BlobDsc → Except Halt ℤ} {a b : BlobDsc}

theorem BlobDsc.SameId.symm (h : a.SameId b) : b.SameId a := by
  rcases h with h | ⟨hrel, h | h⟩
  · exact .inl h.symm
  · exact .inr ⟨hrel.symm, .inl ⟨hrel ▸ h.1, h.2.symm⟩⟩
  · exact .inr ⟨hrel.symm, .inr ⟨hrel ▸ h.1, h.2.symm⟩⟩

theorem BlobDsc.bothAreText_comm : a.BothAreText b ↔ b.BothAreText a := and_comm

theorem BlobDsc.blankChar_comm (a b : BlobDsc) : a.blankChar b = b.blankChar a := by
  unfold blankChar
  exact if_congr bothAreText_comm rfl rfl

theorem BlobDsc.BinCmp.symm (h : a.BinCmp getType b) : b.BinCmp getType a := by
  rcases h with h | h | h | h | h | h
  · exact .inl fun hb => h (bothAreText_comm.mp hb)
  · exact .inr (.inl h.symm)
  · exact .inr (.inr (.inr (.inr (.inl h))))
  · exact .inr (.inr (.inr (.inr (.inr h))))
  · exact .inr (.inr (.inl h))
  · exact .inr (.inr (.inr (.inl h)))

theorem BlobDsc.CVT2_blob_compare_eq (hid : ¬a.SameId b) (hbin : a.BinCmp getType b) :
    a.CVT2_blob_compare getType INTL_compare b =
      .ok (signOf (Padded.piecewise (a.blankChar b) (pieces (BLB_open a.stored))
        (pieces (BLB_open b.stored)))) := by
  rw [CVT2_blob_compare, if_neg hid, if_pos hbin, binaryCompare_eq]

/-- The blobs are compared by their contents, the shorter one filled up with pads. -/
def BlobDsc.ByContents (getType : ℕ → ℕ) (INTL_compare : BlobDsc → BlobDsc → Except Halt ℤ)
    (a b : BlobDsc) : Prop :=
  a.CVT2_blob_compare getType INTL_compare b =
    .ok (signOf (Padded.compare (a.blankChar b) a.stored.content b.stored.content))

theorem BlobDsc.byContents_iff (hid : ¬a.SameId b) (hbin : a.BinCmp getType b) :
    a.ByContents getType INTL_compare b ↔
      Padded.piecewise (a.blankChar b) (pieces (BLB_open a.stored)) (pieces (BLB_open b.stored)) =
        Padded.compare (a.blankChar b) a.stored.content b.stored.content := by
  unfold ByContents
  rw [CVT2_blob_compare_eq hid hbin]
  constructor
  · intro h
    exact signOf_inj (Except.ok.inj h)
  · intro h
    rw [h]

/-- Leading pieces of the same lengths that differ -/
def LeadingDiffer (a b : StoredBlob) : Prop :=
  ∃ s t, s <+: pieces (BLB_open a) ∧ t <+: pieces (BLB_open b) ∧
    s.map List.length = t.map List.length ∧ s ≠ t

/-- All characters are bytes. -/
def IsBytes (b : StoredBlob) : Prop := ∀ c ∈ b.content, c < 256

theorem BlobDsc.byContents_of_alike (hid : ¬a.SameId b) (hbin : a.BinCmp getType b)
    (h : LeadingDiffer a.stored b.stored ∨ Padded.CutAlike (cuts a.stored) (cuts b.stored)) :
    a.ByContents getType INTL_compare b := by
  rw [byContents_iff hid hbin, ← flatten_pieces, ← flatten_pieces]
  rcases h with ⟨s, t, ⟨s', hs⟩, ⟨t', ht⟩, hlen, hne⟩ | halike
  · rw [← hs, ← ht]
    exact Padded.piecewise_of_leading hlen hne s' t'
  · exact Padded.piecewise_of_cutAlike halike

/-- Blobs that are cut otherwise are compared in another order, for some contents. -/
theorem BlobDsc.exists_not_byContents (hid : ¬a.SameId b) (hbin : a.BinCmp getType b)
    (h : ¬Padded.CutAlike (cuts a.stored) (cuts b.stored)) :
    ∃ s t, cuts s = cuts a.stored ∧ cuts t = cuts b.stored ∧ IsBytes s ∧ IsBytes t ∧
      ¬({ a with stored := s }).ByContents getType INTL_compare { b with stored := t } := by
  have hblank : a.blankChar b ≤ 32 := by
    unfold blankChar
    split <;> decide
  have hastray : Padded.Astray (a.blankChar b) 33 34 (cuts a.stored) (cuts b.stored) :=
    Padded.astray_of_not_cutAlike (by omega) (by decide) h
  obtain ⟨p, q, hp, hq, hall, hne⟩ := hastray
  obtain ⟨s, hs⟩ := exists_pieces hp
  obtain ⟨t, ht⟩ := exists_pieces hq
  have hbytes : ∀ c ∈ p.flatten ++ q.flatten, c < 256 := by
    intro c hc
    rcases hall c hc with rfl | rfl | rfl
    · omega
    · decide
    · decide
  refine ⟨s, t, by rw [cuts, hs, hp], by rw [cuts, ht, hq], ?_, ?_, ?_⟩
  · intro c hc
    rw [← flatten_pieces, hs] at hc
    exact hbytes c (List.mem_append_left _ hc)
  · intro c hc
    rw [← flatten_pieces, ht] at hc
    exact hbytes c (List.mem_append_right _ hc)
  · intro hright
    have heq := (byContents_iff (a := { a with stored := s }) (b := { b with stored := t })
      hid hbin).mp hright
    rw [← flatten_pieces, ← flatten_pieces, hs, ht] at heq
    exact hne heq

end

/-- A blob of no text with an id of its own -/
def blobOf (id : ℕ) (segments : List (List ℕ)) : BlobDsc where
  dsc_address := id
  bid_relation_id := 128
  bid_stuff := id
  dsc_sub_type := 0
  dsc_scale := 0
  stored := .segmented segments

theorem blobOf_compare {i j : ℕ} (h : i ≠ j) {s t : List (List ℕ)}
    (hs : ∀ p ∈ s, p.length ≤ BUFFER_LARGE) (ht : ∀ p ∈ t, p.length ≤ BUFFER_LARGE) :
    (blobOf i s).CVT2_blob_compare id (fun _ _ => .ok 0) (blobOf j t) =
      .ok (signOf (Padded.piecewise 0 (s ++ [[]]) (t ++ [[]]))) := by
  have hid : ¬(blobOf i s).SameId (blobOf j t) := by
    rintro (heq | ⟨-, ⟨-, heq⟩ | ⟨-, heq⟩⟩)
    · exact h heq
    · exact h heq
    · exact h heq
  have hbin : (blobOf i s).BinCmp id (blobOf j t) := .inl fun hboth => nomatch hboth.1
  rw [BlobDsc.CVT2_blob_compare_eq hid hbin]
  change Except.ok (signOf (Padded.piecewise 0 (pieces (BLB_open (.segmented s)))
    (pieces (BLB_open (.segmented t))))) = _
  rw [pieces_segmented hs, pieces_segmented ht]

end Firebird.Cvt
