import Firebird.Lib.Bytes

/-! # Keys of several segments (`BTR_key` and `BTR_make_key` in `jrd/btr.cpp`)

The bytes of a segment are laid down in chunks of four, and before each chunk there is the
marker of the segment. The markers go down from one segment to the next. Before the next segment
the last chunk is filled up with zeros.

The keys are in the order of the segments. Where one segment stops and the other goes on, there
is a zero or the marker of the next segment in one key. The other one has a greater marker there,
or bytes that are not all zero.
-/

namespace Firebird.Btr

/-! ## The key -/

/-- `STUFF_COUNT` -/
def stuffCount : ℕ := 4

/-- `MAX_KEY` -/
def maxKey : ℕ := 256

/-- The loop over the bytes of a segment: what it writes, and `stuff_count` behind it -/
def stuff (marker : UCHAR) : ℕ → List UCHAR → List UCHAR × ℕ
  | n, [] => ([], n)
  | 0, q :: l =>
      let r := stuff marker (stuffCount - 1) l
      (marker :: q :: r.1, r.2)
  | n + 1, q :: l =>
      let r := stuff marker n l
      (q :: r.1, r.2)

/-- `*p++ = idx->idx_count - n` -/
def marker (idxCount n : ℕ) : UCHAR := Fin.ofNat 256 (idxCount - n)

/-- The loop over the segments from the `n`th on -/
def assemble (idxCount : ℕ) : ℕ → ℕ → List (List UCHAR) → List UCHAR
  | _, _, [] => []
  | n, count, segment :: segments =>
      let r := stuff (marker idxCount n) 0 segment
      List.replicate count 0 ++ r.1 ++ assemble idxCount (n + 1) r.2 segments

/-- `BTR_complement_key` -/
def complementKey (key : List UCHAR) : List UCHAR :=
  key.map (· ^^^ 255)

/-- What `BTR_key` lays down for the compressed segments of a record -/
def laidDown (idxCount : ℕ) (segments : List (List UCHAR)) : List UCHAR :=
  if idxCount = 1 then segments.headD [] else assemble idxCount 0 0 segments

/-- `IDX_E`, where all the segments can be compressed -/
inductive IdxE
  | ok
  | keytoobig

/-- `BTR_key`: the result, and the key that an index with the flag keeps -/
def btrKey (idxCount : ℕ) (descending : Bool) (segments : List (List UCHAR)) :
    IdxE × List UCHAR :=
  let key := laidDown idxCount segments
  (if key.length ≥ maxKey then .keytoobig else .ok,
    if descending then complementKey key else key)

/-- A compressed segment -/
structure Segment where
  bytes : List UCHAR
  nonempty : bytes ≠ []
  trimmed : bytes.getLast? ≠ some 0

/-! ## One segment -/

variable {m : UCHAR} {l l' tail tail' : List UCHAR} {n count idxCount : ℕ}

/-- What is behind the bytes of a segment: nothing, or zeros and the marker of the next one -/
def Follows (m : UCHAR) (count : ℕ) (tail : List UCHAR) : Prop :=
  tail = [] ∨ ∃ m' rest, m' < m ∧ tail = List.replicate count 0 ++ m' :: rest

/-- A segment that goes on is behind one that stops. -/
theorem stuff_nil_lt (hne : l ≠ []) (htrim : l.getLast? ≠ some 0) (htail : Follows m count tail) :
    tail < (stuff m count l).1 ++ tail' := by
  induction l generalizing count tail with
  | nil => exact absurd rfl hne
  | cons q l ih =>
      rcases htail with rfl | ⟨m', rest, hlt, rfl⟩
      · cases count with
        | zero => exact List.Lex.nil
        | succ count => exact List.Lex.nil
      · cases count with
        | zero => exact List.Lex.rel hlt
        | succ count =>
            rw [stuff, List.replicate_succ, List.cons_append, List.cons_append,
              List.cons_lt_cons_iff]
            rcases eq_or_ne q 0 with hzero | hpos
            · -- a zero is not the last byte
              cases l with
              | nil => exact absurd (by rw [hzero]; rfl) htrim
              | cons q' l =>
                  right
                  rw [List.getLast?_cons_cons] at htrim
                  exact ⟨hzero.symm, ih (List.cons_ne_nil _ _) htrim (.inr ⟨m', rest, hlt, rfl⟩)⟩
            · exact .inl (Fin.pos_iff_ne_zero.mpr hpos)

theorem stuff_lt (h : l < l') (htrim : l'.getLast? ≠ some 0)
    (htail : Follows m (stuff m count l).2 tail) :
    (stuff m count l).1 ++ tail < (stuff m count l').1 ++ tail' := by
  induction l generalizing l' count with
  | nil =>
      have hne : l' ≠ [] := by
        rintro rfl
        exact absurd h (lt_irrefl _)
      exact stuff_nil_lt hne htrim htail
  | cons q l ih =>
      cases l' with
      | nil => exact absurd h (List.not_lt_nil _)
      | cons q' l' =>
          have hrest : l < l' → l'.getLast? ≠ some 0 := by
            intro hlt
            cases l' with
            | nil => exact absurd hlt (List.not_lt_nil _)
            | cons q'' l' => rwa [List.getLast?_cons_cons] at htrim
          rw [List.cons_lt_cons_iff] at h
          cases count with
          | zero =>
              rw [stuff, stuff, List.cons_append, List.cons_append, List.cons_append,
                List.cons_append, List.cons_lt_cons_iff, List.cons_lt_cons_iff]
              refine .inr ⟨rfl, ?_⟩
              rcases h with hlt | ⟨heq, hlt⟩
              · exact .inl hlt
              · exact .inr ⟨heq, ih hlt (hrest hlt) htail⟩
          | succ count =>
              rw [stuff, stuff, List.cons_append, List.cons_append, List.cons_lt_cons_iff]
              rcases h with hlt | ⟨heq, hlt⟩
              · exact .inl hlt
              · exact .inr ⟨heq, ih hlt (hrest hlt) htail⟩

/-! ## All segments -/

theorem marker_lt (h : n < idxCount) (hle : idxCount ≤ 255) :
    marker idxCount (n + 1) < marker idxCount n := by
  rw [marker, marker, Fin.lt_def, Fin.val_ofNat, Fin.val_ofNat, Nat.mod_eq_of_lt (by omega),
    Nat.mod_eq_of_lt (by omega)]
  omega

/-- The first byte behind the zeros is the marker. -/
theorem assemble_follows {segments : List Segment} (h : n < idxCount) (hle : idxCount ≤ 255) :
    Follows (marker idxCount n) count
      (assemble idxCount (n + 1) count (segments.map Segment.bytes)) := by
  cases segments with
  | nil => exact .inl rfl
  | cons segment segments =>
      right
      obtain ⟨q, l, hl⟩ := List.exists_cons_of_ne_nil segment.nonempty
      rw [List.map_cons, assemble, hl, stuff, List.append_assoc]
      exact ⟨_, _, marker_lt h hle, rfl⟩

theorem assemble_lt {segments segments' : List Segment} (hle : idxCount ≤ 255)
    (hn : n + segments.length ≤ idxCount) (hlen : segments.length = segments'.length)
    (h : segments.map Segment.bytes < segments'.map Segment.bytes) :
    assemble idxCount n count (segments.map Segment.bytes) <
      assemble idxCount n count (segments'.map Segment.bytes) := by
  induction segments generalizing segments' n count with
  | nil =>
      cases segments' with
      | nil => exact absurd h (lt_irrefl _)
      | cons segment' segments' => cases hlen
  | cons segment segments ih =>
      cases segments' with
      | nil => cases hlen
      | cons segment' segments' =>
          rw [List.length_cons] at hn
          rw [List.map_cons, List.map_cons, List.cons_lt_cons_iff] at h
          rw [List.map_cons, List.map_cons, assemble, assemble, List.append_assoc,
            List.append_assoc]
          apply List.Lex.append_left
          rcases h with hlt | ⟨heq, hlt⟩
          · exact stuff_lt hlt segment'.trimmed (assemble_follows (by omega) hle)
          · rw [heq]
            apply List.Lex.append_left
            exact ih (by omega) (Nat.succ.inj hlen) hlt

/-- The order of the keys is total, as that of the segments is. -/
theorem assemble_lt_iff {segments segments' : List Segment} (hle : idxCount ≤ 255)
    (hlen : segments.length = idxCount) (hlen' : segments'.length = idxCount) :
    (assemble idxCount 0 0 (segments.map Segment.bytes) <
        assemble idxCount 0 0 (segments'.map Segment.bytes) ↔
      segments.map Segment.bytes < segments'.map Segment.bytes) ∧
    (assemble idxCount 0 0 (segments.map Segment.bytes) =
        assemble idxCount 0 0 (segments'.map Segment.bytes) ↔
      segments.map Segment.bytes = segments'.map Segment.bytes) := by
  have hup : segments.map Segment.bytes < segments'.map Segment.bytes →
      assemble idxCount 0 0 (segments.map Segment.bytes) <
        assemble idxCount 0 0 (segments'.map Segment.bytes) :=
    assemble_lt hle (by omega) (by omega)
  have hdown : segments'.map Segment.bytes < segments.map Segment.bytes →
      assemble idxCount 0 0 (segments'.map Segment.bytes) <
        assemble idxCount 0 0 (segments.map Segment.bytes) :=
    assemble_lt hle (by omega) (by omega)
  rcases lt_trichotomy (segments.map Segment.bytes) (segments'.map Segment.bytes) with h | h | h
  · exact ⟨iff_of_true (hup h) h, iff_of_false (hup h).ne h.ne⟩
  · rw [h]
    exact ⟨iff_of_false (lt_irrefl _) (lt_irrefl _), iff_of_true rfl rfl⟩
  · exact ⟨iff_of_false (hdown h).not_gt h.not_gt, iff_of_false (hdown h).ne' h.ne'⟩

theorem complementKey_injective : Function.Injective complementKey := by
  have hinvolutive : Function.Involutive fun x : UCHAR => x ^^^ 255 := by
    intro x
    exact Bytes.xor_xor_cancel x 255
  exact List.map_injective_iff.mpr hinvolutive.injective

/-! ## Main results -/

/-- **Compound keys are in the order of their segments.** This is about the key that is laid down;
an index that is not descending keeps just that one, and a descending index its complement. -/
theorem btrKey_segmentwise (idxCount : ℕ) (h : 2 ≤ idxCount) (h' : idxCount ≤ 16)
    (segments segments' : List Segment) (hlen : segments.length = idxCount)
    (hlen' : segments'.length = idxCount) :
    (laidDown idxCount (segments.map Segment.bytes) <
        laidDown idxCount (segments'.map Segment.bytes) ↔
      segments.map Segment.bytes < segments'.map Segment.bytes) ∧
    (laidDown idxCount (segments.map Segment.bytes) =
        laidDown idxCount (segments'.map Segment.bytes) ↔
      segments.map Segment.bytes = segments'.map Segment.bytes) ∧
    (btrKey idxCount false (segments.map Segment.bytes)).2 =
      laidDown idxCount (segments.map Segment.bytes) ∧
    ∀ descending, ((btrKey idxCount descending (segments.map Segment.bytes)).2 =
        (btrKey idxCount descending (segments'.map Segment.bytes)).2 ↔
      segments.map Segment.bytes = segments'.map Segment.bytes) := by
  have hcount : idxCount ≠ 1 := by omega
  have hle : idxCount ≤ 255 := by omega
  obtain ⟨hlt, heq⟩ := assemble_lt_iff hle hlen hlen'
  simp only [btrKey, laidDown, if_neg hcount]
  refine ⟨hlt, heq, rfl, fun descending => ?_⟩
  cases descending with
  | false => exact heq
  | true => exact complementKey_injective.eq_iff.trans heq

/-- `01`, `02 03` is before `01 00 05`, `09`. -/
theorem btrKey_segmentwise_two :
    laidDown 2 [[1], [2, 3]] = [2, 1, 0, 0, 0, 1, 2, 3] ∧
    laidDown 2 [[1, 0, 5], [9]] = [2, 1, 0, 5, 0, 1, 9] ∧
    laidDown 2 [[1], [2, 3]] < laidDown 2 [[1, 0, 5], [9]] :=
  ⟨by decide, by decide,
    (btrKey_segmentwise 2 (by decide) (by decide)
      [⟨[1], by decide, by decide⟩, ⟨[2, 3], by decide, by decide⟩]
      [⟨[1, 0, 5], by decide, by decide⟩, ⟨[9], by decide, by decide⟩] rfl rfl).1.mpr (by decide)⟩

end Firebird.Btr
