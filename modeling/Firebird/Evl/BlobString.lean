import Mathlib.Algebra.GroupWithZero.Nat
import Mathlib.Data.List.Infix
import Firebird.Evl.Like

/-! # CONTAINING and STARTING WITH (`string_boolean` in `jrd/evl.cpp`)

Both predicates are evaluated on the pieces that `BLB_get_segment` returns for a blob, `CONTAINING`
until one of them contains the string, `STARTING WITH` on the first piece only. A blob is read
segment by segment, where the pages are left out that the segments are stored on. Characters are
those of the narrow text types.
-/

namespace Firebird.Evl

/-- `nod_starts` or `nod_contains` -/
inductive StringNod where
  | starts
  | contains
deriving DecidableEq

/-! ## The predicates on a string -/

variable {to_upper : LIKETYPE → LIKETYPE}

/-- The loop that compares the characters, as long as there is something to look for -/
def compareLoop (up : LIKETYPE → LIKETYPE) : List LIKETYPE → List LIKETYPE → Bool
  | _, [] => true
  | [], _ :: _ => false
  | c1 :: q1, c2 :: q2 => if up c1 = up c2 then compareLoop up q1 q2 else false

def EVL_nc_contains (to_upper : LIKETYPE → LIKETYPE) (p2 : List LIKETYPE) : List LIKETYPE → Bool
  | [] => if p2.length ≤ 0 then compareLoop to_upper [] p2 else false
  | c :: p1 =>
    if p2.length ≤ (c :: p1).length then
      if compareLoop to_upper (c :: p1) p2 then true else EVL_nc_contains to_upper p2 p1
    else false

def string_function (to_upper : LIKETYPE → LIKETYPE) (p1 p2 : List LIKETYPE) : StringNod → Bool
  | .starts => if p1.length < p2.length then false else compareLoop id p1 p2
  | .contains => EVL_nc_contains to_upper p2 p1

/-! ## Reading a blob -/

/-- `BUFFER_LARGE` -/
def BUFFER_LARGE : ℕ := 1024

/-- What a blob id stands for -/
inductive StoredBlob where
  /-- The null id -/
  | null
  | segmented (segments : List (List LIKETYPE))
  | stream (content : List LIKETYPE)

/-- A blob that is read. Of a stream blob the rest is one fragment. -/
structure Blob where
  blb_eof : Bool
  /-- What is left of the current segment -/
  fragment : List LIKETYPE
  /-- The segments behind it -/
  segments : List (List LIKETYPE)

def BLB_open : StoredBlob → Blob
  | .null => ⟨true, [], []⟩
  | .segmented segments => ⟨false, [], segments⟩
  | .stream content => ⟨false, content, []⟩

/-- A piece of the current segment that fits in the buffer -/
def Blob.move (blob : Blob) (buffer_length : ℕ) : List LIKETYPE × Blob :=
  (blob.fragment.take buffer_length,
    { blob with fragment := blob.fragment.drop buffer_length })

def BLB_get_segment (blob : Blob) (buffer_length : ℕ) : List LIKETYPE × Blob :=
  if blob.blb_eof then ([], blob)
  else
    match blob.fragment, blob.segments with
    | [], [] => ([], { blob with blb_eof := true })
    | [], segment :: segments => Blob.move ⟨false, segment, segments⟩ buffer_length
    | _ :: _, _ => blob.move buffer_length

/-- How much is left to read -/
def Blob.rest (blob : Blob) : ℕ :=
  blob.fragment.length + (blob.segments.map fun s => s.length + 1).sum +
    if blob.blb_eof then 0 else 1

theorem Blob.move_rest (blob : Blob) (n : ℕ) : (blob.move n).2.rest =
    blob.fragment.length - n + (blob.segments.map fun s => s.length + 1).sum +
      if blob.blb_eof then 0 else 1 := by
  rw [Blob.move, Blob.rest, List.length_drop]

theorem BLB_get_segment_rest {blob : Blob} (h : ¬blob.blb_eof = true) :
    (BLB_get_segment blob BUFFER_LARGE).2.rest < blob.rest := by
  rcases blob with ⟨eof, fragment, segments⟩
  obtain rfl : eof = false := Bool.eq_false_iff.mpr h
  cases fragment with
  | nil =>
    cases segments with
    | nil => exact Nat.one_pos
    | cons s segments =>
      change (Blob.move ⟨false, s, segments⟩ BUFFER_LARGE).2.rest < _
      rw [Blob.move_rest, Blob.rest, List.map_cons, List.sum_cons, List.length_nil]
      dsimp only
      omega
  | cons c fragment =>
    change (Blob.move ⟨false, c :: fragment, segments⟩ BUFFER_LARGE).2.rest < _
    rw [Blob.move_rest, Blob.rest, List.length_cons]
    have hbuffer : 0 < BUFFER_LARGE := by decide
    omega

/-- The loop over the pieces -/
def segmentLoop (to_upper : LIKETYPE → LIKETYPE) (node : StringNod) (p2 : List LIKETYPE)
    (blob : Blob) : Bool :=
  if _h : blob.blb_eof = true then false
  else if string_function to_upper (BLB_get_segment blob BUFFER_LARGE).1 p2 node then true
  else if node = .starts then false
  else segmentLoop to_upper node p2 (BLB_get_segment blob BUFFER_LARGE).2
termination_by blob.rest
decreasing_by exact BLB_get_segment_rest _h

/-- `string_boolean` for a blob -/
def string_boolean (to_upper : LIKETYPE → LIKETYPE) (node : StringNod) (desc1 : StoredBlob)
    (p2 : List LIKETYPE) : Bool :=
  segmentLoop to_upper node p2 (BLB_open desc1)

/-! ## What the predicates mean -/

/-- The predicate holds of the whole string. `CONTAINING` does not look at the case of letters. -/
def Holds (to_upper : LIKETYPE → LIKETYPE) (p1 p2 : List LIKETYPE) : StringNod → Prop
  | .starts => p2 <+: p1
  | .contains => p2.map to_upper <:+: p1.map to_upper

theorem compareLoop_iff {up : LIKETYPE → LIKETYPE} {p1 p2 : List LIKETYPE} :
    compareLoop up p1 p2 = true ↔ p2.map up <+: p1.map up := by
  induction p2 generalizing p1 with
  | nil => simp [compareLoop]
  | cons c2 p2 ih =>
    cases p1 with
    | nil => simp [compareLoop]
    | cons c1 p1 =>
      unfold compareLoop
      rw [List.map_cons, List.map_cons, List.cons_prefix_cons, ← ih]
      split
      · next h => simp [h]
      · next h => simp [Ne.symm h]

theorem EVL_nc_contains_iff {p1 p2 : List LIKETYPE} :
    EVL_nc_contains to_upper p2 p1 = true ↔ p2.map to_upper <:+: p1.map to_upper := by
  induction p1 with
  | nil =>
    rw [List.map_nil, List.infix_nil, List.map_eq_nil_iff]
    cases p2 with
    | nil => simp [EVL_nc_contains, compareLoop]
    | cons c p2 => simp [EVL_nc_contains]
  | cons c p1 ih =>
    unfold EVL_nc_contains
    rw [List.map_cons, List.infix_cons_iff, ← List.map_cons, ← compareLoop_iff, ← ih]
    split
    · split
      · next h => simp [h]
      · next h => simp [h]
    · next hlen =>
      -- what is longer than the string is neither at its front nor behind
      have hfront : ¬compareLoop to_upper (c :: p1) p2 = true := by
        intro h
        have hle := (compareLoop_iff.mp h).length_le
        rw [List.length_map, List.length_map] at hle
        exact hlen hle
      have hrest : ¬EVL_nc_contains to_upper p2 p1 = true := by
        intro h
        have hle := (ih.mp h).length_le
        rw [List.length_map, List.length_map] at hle
        exact hlen (hle.trans (Nat.le_succ _))
      simp [hfront, hrest]

theorem string_function_iff {p1 p2 : List LIKETYPE} {node : StringNod} :
    string_function to_upper p1 p2 node = true ↔ Holds to_upper p1 p2 node := by
  cases node with
  | contains => exact EVL_nc_contains_iff
  | starts =>
    change (if p1.length < p2.length then false else compareLoop id p1 p2) = true ↔ p2 <+: p1
    by_cases hlen : p1.length < p2.length
    · rw [if_pos hlen]
      exact iff_of_false Bool.false_ne_true fun h => Nat.not_lt.mpr h.length_le hlen
    · rw [if_neg hlen, compareLoop_iff, List.map_id, List.map_id]

/-! ## Blobs and their pieces -/

def StoredBlob.segments : StoredBlob → List (List LIKETYPE)
  | .null => []
  | .segmented segments => segments
  | .stream content => [content]

/-- The contents of all segments in a row -/
def StoredBlob.content (b : StoredBlob) : List LIKETYPE := b.segments.flatten

/-- A part of the string as the buffer cuts it -/
def Chunk (p s : List LIKETYPE) : Prop := ∃ k, p = (s.drop (k * BUFFER_LARGE)).take BUFFER_LARGE

/-- A piece of one of the segments, or the empty piece at the end of the blob -/
def BlobPiece (segments : List (List LIKETYPE)) (p : List LIKETYPE) : Prop :=
  p = [] ∨ ∃ s ∈ segments, Chunk p s

/-- One piece of the blob shows that the predicate holds, for `STARTING WITH` the first piece. -/
def StoredBlob.Shows (to_upper : LIKETYPE → LIKETYPE) (b : StoredBlob) (p2 : List LIKETYPE)
    (node : StringNod) : Prop :=
  b ≠ .null ∧
    match node with
    | .starts => p2 <+: (b.segments.headD []).take BUFFER_LARGE
    | .contains => ∃ p, BlobPiece b.segments p ∧ p2.map to_upper <:+: p.map to_upper

theorem chunk_nil {p : List LIKETYPE} : Chunk p [] ↔ p = [] := by
  simp [Chunk]

theorem chunk_iff {p s : List LIKETYPE} :
    Chunk p s ↔ p = s.take BUFFER_LARGE ∨ Chunk p (s.drop BUFFER_LARGE) := by
  constructor
  · rintro ⟨k, h⟩
    cases k with
    | zero =>
      rw [Nat.zero_mul, List.drop_zero] at h
      exact .inl h
    | succ k =>
      rw [Nat.succ_mul, Nat.add_comm, ← List.drop_drop] at h
      exact .inr ⟨k, h⟩
  · rintro (h | ⟨k, h⟩)
    · exact ⟨0, by rwa [Nat.zero_mul, List.drop_zero]⟩
    · exact ⟨k + 1, by rwa [Nat.succ_mul, Nat.add_comm, ← List.drop_drop]⟩

/-- The pieces of a blob are the one that is read next, and the pieces of what is left. -/
theorem blobPiece_iff {blob : Blob} (h : blob.blb_eof = false) {p : List LIKETYPE} :
    BlobPiece (blob.fragment :: blob.segments) p ↔
      p = (BLB_get_segment blob BUFFER_LARGE).1 ∨
        (BLB_get_segment blob BUFFER_LARGE).2.blb_eof = false ∧
          BlobPiece ((BLB_get_segment blob BUFFER_LARGE).2.fragment ::
            (BLB_get_segment blob BUFFER_LARGE).2.segments) p := by
  rcases blob with ⟨eof, fragment, segments⟩
  obtain rfl : eof = false := h
  cases fragment with
  | nil =>
    cases segments with
    | nil => simp [BLB_get_segment, BlobPiece, chunk_nil]
    | cons s segments =>
      simp only [BLB_get_segment, Blob.move, BlobPiece, List.exists_mem_cons_iff, chunk_nil]
      rw [chunk_iff]
      simp
      tauto
  | cons c fragment =>
    simp only [BLB_get_segment, Blob.move, BlobPiece, List.exists_mem_cons_iff]
    rw [chunk_iff]
    simp
    tauto

/-- The loop for `CONTAINING` goes through all pieces. -/
theorem segmentLoop_contains {p2 : List LIKETYPE} {blob : Blob} :
    segmentLoop to_upper .contains p2 blob = true ↔
      blob.blb_eof = false ∧ ∃ p, BlobPiece (blob.fragment :: blob.segments) p ∧
        Holds to_upper p p2 .contains := by
  induction hn : blob.rest using Nat.strong_induction_on generalizing blob with
  | _ n ih =>
    subst hn
    rw [segmentLoop]
    cases heof : blob.blb_eof with
    | true => simp
    | false =>
      have hlt := BLB_get_segment_rest (Bool.eq_false_iff.mp heof)
      specialize ih _ hlt rfl
      rw [dif_neg Bool.false_ne_true, if_neg (c := StringNod.contains = .starts) (by decide),
        eq_self_iff_true, true_and]
      simp only [blobPiece_iff heof]
      by_cases hfst :
          string_function to_upper (BLB_get_segment blob BUFFER_LARGE).1 p2 .contains = true
      · rw [if_pos hfst]
        exact iff_of_true rfl ⟨_, .inl rfl, string_function_iff.mp hfst⟩
      · rw [if_neg hfst, ih]
        rw [string_function_iff] at hfst
        constructor
        · rintro ⟨hne, p, hp, h⟩
          exact ⟨p, .inr ⟨hne, hp⟩, h⟩
        · rintro ⟨p, rfl | ⟨hne, hp⟩, h⟩
          · exact absurd h hfst
          · exact ⟨hne, p, hp, h⟩

/-- The loop for `STARTING WITH` is left behind the first piece. -/
theorem segmentLoop_starts {p2 : List LIKETYPE} {blob : Blob} :
    segmentLoop to_upper .starts p2 blob = true ↔
      blob.blb_eof = false ∧ p2 <+: (BLB_get_segment blob BUFFER_LARGE).1 := by
  rw [segmentLoop]
  cases heof : blob.blb_eof with
  | true => simp
  | false =>
    rw [dif_neg Bool.false_ne_true, if_pos rfl, eq_self_iff_true, true_and]
    by_cases hfst : string_function to_upper (BLB_get_segment blob BUFFER_LARGE).1 p2 .starts = true
    · rw [if_pos hfst]
      exact iff_of_true rfl (string_function_iff.mp hfst)
    · rw [if_neg hfst]
      exact iff_of_false Bool.false_ne_true fun h => hfst (string_function_iff.mpr h)

/-- `string_boolean` looks at the pieces of the blob. -/
theorem string_boolean_iff (to_upper : LIKETYPE → LIKETYPE) (node : StringNod) (b : StoredBlob)
    (p2 : List LIKETYPE) :
    string_boolean to_upper node b p2 = true ↔ b.Shows to_upper p2 node := by
  unfold string_boolean
  cases node with
  | contains =>
    rw [segmentLoop_contains]
    cases b with
    | null => simp [StoredBlob.Shows, BLB_open]
    | segmented segments =>
      simp [StoredBlob.Shows, BLB_open, StoredBlob.segments, BlobPiece, chunk_nil, Holds]
    | stream content => simp [StoredBlob.Shows, BLB_open, StoredBlob.segments, Holds]
  | starts =>
    rw [segmentLoop_starts]
    cases b with
    | null => simp [StoredBlob.Shows, BLB_open]
    | segmented segments =>
      cases segments with
      | nil => simp [StoredBlob.Shows, BLB_open, StoredBlob.segments, BLB_get_segment]
      | cons s segments =>
        simp [StoredBlob.Shows, BLB_open, StoredBlob.segments, BLB_get_segment, Blob.move]
    | stream content =>
      cases content with
      | nil => simp [StoredBlob.Shows, BLB_open, StoredBlob.segments, BLB_get_segment]
      | cons c content =>
        simp [StoredBlob.Shows, BLB_open, StoredBlob.segments, BLB_get_segment, Blob.move]

theorem piece_content {segments : List (List LIKETYPE)} {p : List LIKETYPE}
    (h : BlobPiece segments p) : p.map to_upper <:+: segments.flatten.map to_upper := by
  apply List.IsInfix.map
  rcases h with rfl | ⟨s, hs, k, rfl⟩
  · exact List.nil_infix
  · have hpart : (s.drop (k * BUFFER_LARGE)).take BUFFER_LARGE <:+: s :=
      (List.take_prefix _ _).isInfix.trans (List.drop_suffix _ _).isInfix
    exact hpart.trans (List.infix_of_mem_flatten hs)

/-- What a piece shows holds of the whole string. -/
theorem StoredBlob.Shows.holds {b : StoredBlob} {p2 : List LIKETYPE} {node : StringNod}
    (h : b.Shows to_upper p2 node) : Holds to_upper b.content p2 node := by
  obtain ⟨-, h⟩ := h
  cases node with
  | contains =>
    obtain ⟨p, hp, h⟩ := h
    exact h.trans (piece_content hp)
  | starts =>
    refine h.trans ((List.take_prefix _ _).trans ?_)
    unfold StoredBlob.content
    cases b.segments with
    | nil => exact List.nil_prefix
    | cons s segments => exact List.prefix_append s _

/-- Two blobs with the same contents are answered as the whole string is, unless the predicate holds
and the pieces of one of the blobs do not show it. -/
theorem string_boolean_pieces (to_upper : LIKETYPE → LIKETYPE) (node : StringNod)
    {b1 b2 : StoredBlob} (h : b1.content = b2.content) (p2 : List LIKETYPE) :
    (string_boolean to_upper node b1 p2 = true ↔ b1.Shows to_upper p2 node) ∧
      ((string_boolean to_upper node b1 p2 = string_boolean to_upper node b2 p2 ∧
          (string_boolean to_upper node b1 p2 = true ↔ Holds to_upper b1.content p2 node)) ↔
        (Holds to_upper b1.content p2 node →
          b1.Shows to_upper p2 node ∧ b2.Shows to_upper p2 node)) := by
  have h1 := string_boolean_iff to_upper node b1 p2
  have h2 := string_boolean_iff to_upper node b2 p2
  refine ⟨h1, ?_⟩
  have hw1 : b1.Shows to_upper p2 node → Holds to_upper b1.content p2 node :=
    StoredBlob.Shows.holds
  have hw2 : b2.Shows to_upper p2 node → Holds to_upper b2.content p2 node :=
    StoredBlob.Shows.holds
  rw [← h] at hw2
  rw [Bool.eq_iff_iff, h1, h2]
  tauto

theorem string_boolean_pieces_stream :
    (string_boolean id .starts (.segmented [[97], [98]]) [97] = true ↔
        (StoredBlob.segmented [[97], [98]]).Shows id [97] .starts) ∧
      ((string_boolean id .starts (.segmented [[97], [98]]) [97] =
            string_boolean id .starts (.stream [97, 98]) [97] ∧
          (string_boolean id .starts (.segmented [[97], [98]]) [97] = true ↔
            Holds id (StoredBlob.segmented [[97], [98]]).content [97] .starts)) ↔
        (Holds id (StoredBlob.segmented [[97], [98]]).content [97] .starts →
          (StoredBlob.segmented [[97], [98]]).Shows id [97] .starts ∧
            (StoredBlob.stream [97, 98]).Shows id [97] .starts)) := by
  have h : (StoredBlob.segmented [[97], [98]]).content = (StoredBlob.stream [97, 98]).content := rfl
  exact string_boolean_pieces id .starts h [97]

/-- Two segments in place of one hide what is across their boundary. -/
theorem string_boolean_segmented :
    (StoredBlob.segmented [[97, 98]]).content = (StoredBlob.segmented [[97], [98]]).content ∧
      string_boolean id .contains (.segmented [[97, 98]]) [97, 98] = true ∧
      string_boolean id .contains (.segmented [[97], [98]]) [97, 98] = false ∧
      string_boolean id .starts (.segmented [[97, 98]]) [97, 98] = true ∧
      string_boolean id .starts (.segmented [[97], [98]]) [97, 98] = false := by
  refine ⟨rfl, ?_, ?_, ?_, ?_⟩ <;>
    simp [string_boolean, segmentLoop, BLB_open, BLB_get_segment, Blob.move, BUFFER_LARGE,
      string_function, EVL_nc_contains, compareLoop]

end Firebird.Evl
