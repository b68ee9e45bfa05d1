import Firebird.Btr.Compound

/-! # Keys of a search (`BTR_make_key` in `jrd/btr.cpp`)

A search has a key for the first segments of an index. Behind the last of them its chunk is filled
up, when there are more segments in the index and the search is not for a beginning. So the key is a
beginning of an entry's key just when the segments are, in the form in which they are laid down.
-/

namespace Firebird.Btr

/-! ## The key -/

/-- `stuff_count` behind the loop over the segments -/
def countBehind (idxCount : ℕ) : ℕ → ℕ → List (List UCHAR) → ℕ
  | _, count, [] => count
  | n, _, segment :: segments =>
      countBehind idxCount (n + 1) (stuff (marker idxCount n) 0 segment).2 segments

/-- `BTR_make_key`, for compressed values -/
def makeKey (idxCount : ℕ) (descending fuzzy : Bool) (segments : List (List UCHAR)) : List UCHAR :=
  let key :=
    if idxCount = 1 then segments.headD []
    else
      assemble idxCount 0 0 segments ++
        if fuzzy = false ∧ segments.length ≠ idxCount then
          List.replicate (countBehind idxCount 0 0 segments) 0
        else []
  if descending then complementKey key else key

/-! ## Segments as they are laid down -/

/-- A segment with the zeros behind it -/
def fill (l : List UCHAR) : List UCHAR :=
  l ++ List.replicate ((stuffCount - l.length % stuffCount) % stuffCount) 0

/-- The segments with their zeros; the last one has them only on demand. -/
def laid (filled : Bool) : List (List UCHAR) → List (List UCHAR)
  | [] => []
  | [l] => [if filled then fill l else l]
  | l :: l' :: ls => fill l :: laid filled (l' :: ls)

/-- The chunks of the segments from the `n`th on -/
def joined (idxCount : ℕ) : ℕ → List (List UCHAR) → List UCHAR
  | _, [] => []
  | n, l :: ls => (stuff (marker idxCount n) 0 l).1 ++ joined idxCount (n + 1) ls

/-- Whether the segments of a search are the first ones of a row, or, for a search for a beginning,
the last one is the beginning of the row's -/
def Begins (starting : Bool) : List (List UCHAR) → List (List UCHAR) → Prop
  | [], _ => True
  | _ :: _, [] => False
  | [l], r :: _ => if starting then l <+: r else l = r
  | l :: l' :: ls, r :: rs => l = r ∧ Begins starting (l' :: ls) rs

instance Begins.decidable (starting : Bool) :
    (ls rs : List (List UCHAR)) → Decidable (Begins starting ls rs)
  | [], _ => .isTrue trivial
  | _ :: _, [] => .isFalse id
  | [l], r :: _ => inferInstanceAs (Decidable (if starting then l <+: r else l = r))
  | l :: l' :: ls, r :: rs =>
      have := Begins.decidable starting (l' :: ls) rs
      inferInstanceAs (Decidable (l = r ∧ _))

variable {m m' : UCHAR} {l l' r : List UCHAR} {ls rs : List (List UCHAR)} {n count idxCount i : ℕ}
  {filled starting : Bool} {more : List UCHAR}

theorem stuff_append (m : UCHAR) (count : ℕ) (l l' : List UCHAR) : stuff m count (l ++ l') =
    ((stuff m count l).1 ++ (stuff m (stuff m count l).2 l').1,
      (stuff m (stuff m count l).2 l').2) := by
  induction l generalizing count with
  | nil => rfl
  | cons q l ih =>
      cases count with
      | zero => rw [List.cons_append, stuff, ih, stuff, List.cons_append, List.cons_append]
      | succ count => rw [List.cons_append, stuff, ih, stuff, List.cons_append]

/-- What is left of the last chunk -/
theorem stuff_left (m : UCHAR) (h : count < 4) (l : List UCHAR) :
    (stuff m count l).2 < 4 ∧ ((stuff m count l).2 + l.length) % 4 = count % 4 := by
  induction l generalizing count with
  | nil => exact ⟨h, rfl⟩
  | cons q l ih =>
      cases count with
      | zero =>
          obtain ⟨hlt, hmod⟩ := ih (show 3 < 4 by decide)
          show (stuff m 3 l).2 < 4 ∧ ((stuff m 3 l).2 + (l.length + 1)) % 4 = 0 % 4
          exact ⟨hlt, by omega⟩
      | succ count =>
          obtain ⟨hlt, hmod⟩ := ih (show count < 4 by omega)
          show (stuff m count l).2 < 4 ∧
            ((stuff m count l).2 + (l.length + 1)) % 4 = (count + 1) % 4
          exact ⟨hlt, by omega⟩

theorem stuff_snd (m : UCHAR) (l : List UCHAR) :
    (stuff m 0 l).2 = (stuffCount - l.length % stuffCount) % stuffCount := by
  obtain ⟨hlt, hmod⟩ := stuff_left m (show 0 < 4 by decide) l
  rw [stuffCount]
  omega

theorem stuff_zeros (m : UCHAR) (count : ℕ) :
    stuff m count (List.replicate count 0) = (List.replicate count 0, 0) := by
  induction count with
  | zero => rfl
  | succ count ih => rw [List.replicate_succ, stuff, ih]

theorem stuff_fill (m : UCHAR) (l : List UCHAR) :
    stuff m 0 (fill l) = ((stuff m 0 l).1 ++ List.replicate (stuff m 0 l).2 0, 0) := by
  rw [fill, ← stuff_snd m l, stuff_append, stuff_zeros]

/-- The key has the chunks of the segments in the form in which they are laid down. -/
theorem assemble_eq_joined (hne : ls ≠ []) :
    assemble idxCount n count ls = List.replicate count 0 ++ joined idxCount n (laid false ls) ∧
    assemble idxCount n count ls ++ List.replicate (countBehind idxCount n count ls) 0 =
      List.replicate count 0 ++ joined idxCount n (laid true ls) := by
  induction ls generalizing n count with
  | nil => exact absurd rfl hne
  | cons l ls ih =>
      cases ls with
      | nil =>
          constructor
          · exact List.append_assoc _ _ _
          · show (_ ++ _ ++ []) ++ List.replicate (stuff (marker idxCount n) 0 l).2 0 =
              _ ++ ((stuff (marker idxCount n) 0 (fill l)).1 ++ [])
            rw [stuff_fill, List.append_nil, List.append_nil, List.append_assoc]
      | cons l' ls =>
          obtain ⟨hopen, hfilled⟩ := @ih (n + 1) (stuff (marker idxCount n) 0 l).2
            (List.cons_ne_nil _ _)
          rw [laid, laid, joined, joined, stuff_fill, assemble, countBehind]
          constructor
          · rw [hopen, List.append_assoc, List.append_assoc]
          · rw [List.append_assoc, hfilled, List.append_assoc, List.append_assoc]

/-! ## Beginnings of a key -/

/-- The segments are laid down in whole chunks up to the last one. -/
def Chunked : List (List UCHAR) → Prop
  | [] => True
  | [l] => l ≠ []
  | l :: l' :: ls => l ≠ [] ∧ l.length % stuffCount = 0 ∧ Chunked (l' :: ls)

theorem fill_ne_nil (h : l ≠ []) : fill l ≠ [] := by
  rw [fill]
  exact List.append_ne_nil_of_left_ne_nil h _

theorem length_fill (l : List UCHAR) : (fill l).length % stuffCount = 0 := by
  rw [fill, List.length_append, List.length_replicate, stuffCount]
  omega

theorem laid_cons_exists (filled : Bool) (l : List UCHAR) (ls : List (List UCHAR)) :
    ∃ r rs, laid filled (l :: ls) = r :: rs := by
  cases ls with
  | nil => exact ⟨_, _, rfl⟩
  | cons l' ls => exact ⟨_, _, rfl⟩

theorem chunked_laid (h : ∀ l ∈ ls, l ≠ []) : Chunked (laid filled ls) := by
  induction ls with
  | nil => trivial
  | cons l ls ih =>
      have hl := h l List.mem_cons_self
      have htail := ih fun r hr => h r (List.mem_cons_of_mem _ hr)
      cases ls with
      | nil =>
          cases filled with
          | false => exact hl
          | true => exact fill_ne_nil hl
      | cons l' ls =>
          obtain ⟨r, rs, hrs⟩ := laid_cons_exists filled l' ls
          rw [laid, hrs]
          rw [hrs] at htail
          exact ⟨fill_ne_nil hl, length_fill l, htail⟩

theorem length_laid (filled : Bool) (ls : List (List UCHAR)) :
    (laid filled ls).length = ls.length := by
  induction ls with
  | nil => rfl
  | cons l ls ih =>
      cases ls with
      | nil => rfl
      | cons l' ls => exact congrArg (· + 1) ih

/-- The bytes of a segment begin those of a longer one only. -/
theorem stuff_begins (hmore : more = [] ∨
      (stuff m count r).2 = 0 ∧ ∃ m' rest, m' ≠ m ∧ more = m' :: rest) :
    (stuff m count l).1 <+: (stuff m count r).1 ++ more ↔ l <+: r := by
  induction l generalizing count r with
  | nil => exact iff_of_true List.nil_prefix List.nil_prefix
  | cons q l ih =>
      cases r with
      | nil =>
          refine iff_of_false ?_ fun h => List.cons_ne_nil _ _ (List.prefix_nil.mp h)
          rcases hmore with rfl | ⟨hzero, m', rest, hne, rfl⟩
          · intro h
            cases count with
            | zero => exact List.cons_ne_nil _ _ (List.prefix_nil.mp h)
            | succ count => exact List.cons_ne_nil _ _ (List.prefix_nil.mp h)
          · -- the next marker stands where the segment goes on
            obtain rfl : count = 0 := hzero
            intro h
            exact hne (List.cons_prefix_cons.mp h).1.symm
      | cons q' r =>
          rw [List.cons_prefix_cons]
          cases count with
          | zero =>
              rw [stuff, stuff, List.cons_append, List.cons_append, List.cons_prefix_cons,
                List.cons_prefix_cons]
              exact (and_iff_right rfl).trans (and_congr_right fun _ => ih hmore)
          | succ count =>
              rw [stuff, stuff, List.cons_append, List.cons_prefix_cons]
              exact and_congr_right fun _ => ih hmore

theorem stuff_snd_of_mod (m : UCHAR) (h : l.length % stuffCount = 0) : (stuff m 0 l).2 = 0 := by
  rw [stuff_snd, h]
  rfl

theorem stuff_fst_ne_nil (m : UCHAR) (h : l ≠ []) : ∃ rest, (stuff m 0 l).1 = m :: rest := by
  cases l with
  | nil => exact absurd rfl h
  | cons q l => exact ⟨_, rfl⟩

/-- The next segments begin with their marker. -/
theorem joined_head (h : Chunked (l :: ls)) (idxCount n : ℕ) :
    ∃ rest, joined idxCount n (l :: ls) = marker idxCount n :: rest := by
  have hne : l ≠ [] := by
    cases ls with
    | nil => exact h
    | cons l' ls => exact h.1
  obtain ⟨rest, hrest⟩ := stuff_fst_ne_nil (marker idxCount n) hne
  rw [joined, hrest]
  exact ⟨_, rfl⟩

/-- What stands behind the chunks of a segment -/
theorem joined_tail (h : Chunked (r :: rs)) (hn : n < idxCount) (hle : idxCount ≤ 255) :
    joined idxCount (n + 1) rs = [] ∨ (stuff (marker idxCount n) 0 r).2 = 0 ∧
      ∃ m' rest, m' ≠ marker idxCount n ∧ joined idxCount (n + 1) rs = m' :: rest := by
  cases rs with
  | nil => exact .inl rfl
  | cons r' rs =>
      obtain ⟨-, hmod, hrs⟩ := h
      obtain ⟨rest, hrest⟩ := joined_head hrs idxCount (n + 1)
      exact .inr ⟨stuff_snd_of_mod _ hmod, _, rest, (marker_lt hn hle).ne, hrest⟩

theorem stuff_behind (m : UCHAR) (h : l.length % stuffCount = 0) (l' : List UCHAR) :
    (stuff m 0 (l ++ l')).1 = (stuff m 0 l).1 ++ (stuff m 0 l').1 := by
  rw [stuff_append, stuff_snd_of_mod m h]

theorem Chunked.tail (h : Chunked (l :: ls)) : Chunked ls := by
  cases ls with
  | nil => trivial
  | cons l' ls => exact h.2.2

/-- The key of a search begins that of a row just when the segments do. -/
theorem joined_begins (hls : Chunked ls) (hrs : Chunked rs) (hn : n + rs.length ≤ idxCount)
    (hle : idxCount ≤ 255) :
    joined idxCount n ls <+: joined idxCount n rs ↔ Begins true ls rs := by
  induction ls generalizing rs n with
  | nil => exact iff_of_true List.nil_prefix trivial
  | cons l ls ih =>
      obtain ⟨rest, hhead⟩ := joined_head hls idxCount n
      cases rs with
      | nil =>
          rw [hhead]
          cases ls with
          | nil => exact iff_of_false (fun h => List.cons_ne_nil _ _ (List.prefix_nil.mp h)) id
          | cons l' ls => exact iff_of_false (fun h => List.cons_ne_nil _ _ (List.prefix_nil.mp h)) id
      | cons r rs =>
          rw [List.length_cons] at hn
          have hmore := @joined_tail r rs n idxCount hrs (by omega) hle
          have hsegment := @stuff_begins (marker idxCount n) l r 0 _ hmore
          cases ls with
          | nil =>
              rw [joined, joined, joined, List.append_nil, hsegment]
              rfl
          | cons l' ls =>
              obtain ⟨-, hmod, hls'⟩ := hls
              show (stuff _ 0 l).1 ++ joined idxCount (n + 1) (l' :: ls) <+:
                (stuff _ 0 r).1 ++ joined idxCount (n + 1) rs ↔ l = r ∧ Begins true (l' :: ls) rs
              constructor
              · intro h
                obtain ⟨z, rfl⟩ := hsegment.mp ((List.prefix_append _ _).trans h)
                rw [stuff_behind _ hmod, List.append_assoc, List.prefix_append_right_inj] at h
                cases z with
                | nil =>
                    rw [List.append_nil]
                    exact ⟨rfl, (ih hls' hrs.tail (by omega)).mp h⟩
                | cons q z =>
                    -- a greater marker shows that the row's segment goes on
                    obtain ⟨rest', hrest'⟩ := joined_head hls' idxCount (n + 1)
                    rw [hrest', stuff, List.cons_append] at h
                    exact absurd (List.cons_prefix_cons.mp h).1
                      (marker_lt (by omega) hle).ne
              · rintro ⟨rfl, h⟩
                rw [List.prefix_append_right_inj]
                exact (ih hls' hrs.tail (by omega)).mpr h

/-- Segments that end with a whole chunk: what stands behind them in the key of a row is the marker
of the next segment, or their last marker again when the row's segment goes on. -/
theorem joined_behind (hls : Chunked ls) (hrs : Chunked rs) (hn : n + rs.length ≤ idxCount)
    (hle : idxCount ≤ 255) (hwhole : ∀ l ∈ ls, l.length % stuffCount = 0) (hne : ls ≠ [])
    (hlt : ls.length < rs.length) (h : Begins true ls rs) :
    ∃ c rest, joined idxCount n rs = joined idxCount n ls ++ c :: rest ∧
      c ≤ marker idxCount (n + ls.length - 1) ∧
      (c ≠ marker idxCount (n + ls.length - 1) ↔ Begins false ls rs) := by
  induction ls generalizing rs n with
  | nil => exact absurd rfl hne
  | cons l ls ih =>
      cases rs with
      | nil => exact absurd hlt (Nat.not_lt_zero _)
      | cons r rs =>
          rw [List.length_cons] at hn
          have hmod := hwhole l List.mem_cons_self
          cases ls with
          | nil =>
              obtain ⟨r', rs', rfl⟩ := List.exists_cons_of_length_pos (Nat.lt_of_succ_lt_succ hlt)
              obtain ⟨rest', hrest'⟩ := joined_head hrs.tail idxCount (n + 1)
              obtain ⟨z, rfl⟩ : l <+: r := h
              have hkey : joined idxCount n ((l ++ z) :: r' :: rs') = joined idxCount n [l] ++
                  ((stuff (marker idxCount n) 0 z).1 ++ marker idxCount (n + 1) :: rest') := by
                show (stuff _ 0 (l ++ z)).1 ++ joined idxCount (n + 1) (r' :: rs') =
                  ((stuff _ 0 l).1 ++ []) ++ _
                rw [stuff_behind _ hmod, hrest', List.append_nil, List.append_assoc]
              rw [hkey]
              cases z with
              | nil =>
                  have hmarker := @marker_lt n idxCount (by rw [List.length_cons] at hn; omega) hle
                  exact ⟨_, rest', rfl, hmarker.le, iff_of_true hmarker.ne (List.append_nil l).symm⟩
              | cons q z =>
                  refine ⟨_, _, rfl, le_refl _, iff_of_false (fun hne => hne rfl) fun heq => ?_⟩
                  exact List.cons_ne_nil q z (List.self_eq_append_right.mp heq)
          | cons l' ls =>
              obtain ⟨rfl, h⟩ := h
              obtain ⟨c, rest, heq, hc⟩ := @ih rs (n + 1) hls.tail hrs.tail (by omega)
                (fun x hx => hwhole x (List.mem_cons_of_mem _ hx)) (List.cons_ne_nil _ _)
                (Nat.lt_of_succ_lt_succ hlt) h
              refine ⟨c, rest, ?_, ?_⟩
              · show (stuff _ 0 l).1 ++ joined idxCount (n + 1) rs = _
                rw [heq, ← List.append_assoc]
                rfl
              · rw [show n + (l :: l' :: ls).length - 1 = n + 1 + (l' :: ls).length - 1 by
                  rw [List.length_cons]; omega]
                exact ⟨hc.1, hc.2.trans (and_iff_right rfl).symm⟩

/-! ## Markers -/

theorem length_stuff (m : UCHAR) (h : count < 5) (l : List UCHAR) :
    ((stuff m count l).1.length + (stuff m count l).2) % 5 = count % 5 := by
  induction l generalizing count with
  | nil => rw [stuff, List.length_nil, Nat.zero_add]
  | cons q l ih =>
      cases count with
      | zero =>
          have hmod := ih (show 3 < 5 by decide)
          show ((stuff m 3 l).1.length + 1 + 1 + (stuff m 3 l).2) % 5 = 0 % 5
          omega
      | succ count =>
          have hmod := ih (show count < 5 by omega)
          show ((stuff m count l).1.length + 1 + (stuff m count l).2) % 5 = (count + 1) % 5
          omega

/-- A marker stands at every fifth place. -/
theorem stuff_marker (m : UCHAR) (h : count < 5) (l : List UCHAR)
    (hi : i < (stuff m count l).1.length) (hmod : i % 5 = count) :
    (stuff m count l).1[i]? = some m := by
  induction l generalizing count i with
  | nil => exact absurd hi (Nat.not_lt_zero _)
  | cons q l ih =>
      cases count with
      | zero =>
          change i < (stuff m 3 l).1.length + 1 + 1 at hi
          show (m :: q :: (stuff m 3 l).1)[i]? = some m
          rcases Nat.eq_zero_or_pos i with rfl | hpos
          · rfl
          · obtain ⟨j, rfl⟩ : ∃ j, i = j + 1 + 1 := ⟨i - 2, by omega⟩
            rw [List.getElem?_cons_succ, List.getElem?_cons_succ]
            exact ih (by decide) (by omega) (by omega)
      | succ count =>
          change i < (stuff m count l).1.length + 1 at hi
          show (q :: (stuff m count l).1)[i]? = some m
          obtain ⟨j, rfl⟩ : ∃ j, i = j + 1 := ⟨i - 1, by omega⟩
          rw [List.getElem?_cons_succ]
          exact ih (by omega) (by omega) (by omega)

theorem length_stuff_whole (m : UCHAR) (h : l.length % stuffCount = 0) :
    (stuff m 0 l).1.length % 5 = 0 := by
  have hmod := length_stuff m (show 0 < 5 by decide) l
  rw [stuff_snd_of_mod m h] at hmod
  exact hmod

/-- The last chunk of a key begins with the marker of the last segment. -/
theorem joined_marker (hls : Chunked ls) (hne : ls ≠ []) :
    ∃ j, (joined idxCount n ls).length = j + 1 ∧
      (joined idxCount n ls)[j / 5 * 5]? = some (marker idxCount (n + ls.length - 1)) := by
  induction ls generalizing n with
  | nil => exact absurd rfl hne
  | cons l ls ih =>
      cases ls with
      | nil =>
          obtain ⟨rest, hrest⟩ := stuff_fst_ne_nil (marker idxCount n) (show l ≠ [] from hls)
          rw [joined, joined, List.append_nil]
          refine ⟨rest.length, by rw [hrest, List.length_cons], ?_⟩
          refine stuff_marker _ (by decide) l ?_ (Nat.mul_mod_left _ _)
          rw [hrest, List.length_cons]
          omega
      | cons l' ls =>
          obtain ⟨j, hlen, hget⟩ := @ih (n + 1) hls.tail (List.cons_ne_nil _ _)
          have hmod := length_stuff_whole (marker idxCount n) hls.2.1
          refine ⟨(stuff (marker idxCount n) 0 l).1.length + j, ?_, ?_⟩
          · show ((stuff _ 0 l).1 ++ joined idxCount (n + 1) (l' :: ls)).length = _
            rw [List.length_append, hlen]
            rfl
          · show ((stuff _ 0 l).1 ++ joined idxCount (n + 1) (l' :: ls))[_]? = _
            rw [List.getElem?_append_right (by omega),
              show ((stuff (marker idxCount n) 0 l).1.length + j) / 5 * 5 -
                (stuff (marker idxCount n) 0 l).1.length = j / 5 * 5 by omega, hget]
            congr 2
            rw [List.length_cons]
            show n + 1 + (ls.length + 1) - 1 = n + (ls.length + 1 + 1) - 1
            omega

/-! ## Segments that match -/

theorem length_joined_whole (idxCount n : ℕ) (h : ∀ l ∈ ls, l.length % stuffCount = 0) :
    (joined idxCount n ls).length % 5 = 0 := by
  induction ls generalizing n with
  | nil => rfl
  | cons l ls ih =>
      have hmod := length_stuff_whole (marker idxCount n) (h l List.mem_cons_self)
      have hrest := @ih (n + 1) fun r hr => h r (List.mem_cons_of_mem _ hr)
      rw [joined, List.length_append]
      omega

theorem whole_of_mem_laid (h : l ∈ laid true ls) : l.length % stuffCount = 0 := by
  induction ls with
  | nil => cases h
  | cons r ls ih =>
      cases ls with
      | nil =>
          rw [List.mem_singleton.mp h]
          exact length_fill r
      | cons r' ls =>
          rcases List.mem_cons.mp h with rfl | h
          · exact length_fill r
          · exact ih h

theorem begins_of_begins (h : Begins starting ls rs) : Begins true ls rs := by
  induction ls generalizing rs with
  | nil => trivial
  | cons l ls ih =>
      cases rs with
      | nil => cases ls <;> exact h
      | cons r rs =>
          cases ls with
          | nil =>
              cases starting with
              | true => exact h
              | false =>
                  obtain rfl : l = r := h
                  exact List.prefix_rfl
          | cons l' ls => exact ⟨h.1, ih h.2⟩

theorem begins_of_both (h : Begins true ls rs) (h' : Begins true rs ls) : Begins false ls rs := by
  induction ls generalizing rs with
  | nil => trivial
  | cons l ls ih =>
      cases rs with
      | nil => cases ls <;> exact h
      | cons r rs =>
          cases ls with
          | nil =>
              cases rs with
              | nil => exact List.IsPrefix.eq_of_length_le h (List.IsPrefix.length_le h')
              | cons r' rs => exact h'.2.elim
          | cons l' ls =>
              refine ⟨h.1, ih h.2 ?_⟩
              cases rs with
              | nil => exact h.2.elim
              | cons r' rs => exact h'.2

theorem eq_of_begins (h : Begins false ls rs) (hlen : ls.length = rs.length) : ls = rs := by
  induction ls generalizing rs with
  | nil => exact (List.eq_nil_of_length_eq_zero hlen.symm).symm
  | cons l ls ih =>
      cases rs with
      | nil => cases hlen
      | cons r rs =>
          cases ls with
          | nil =>
              obtain rfl : l = r := h
              cases rs with
              | nil => rfl
              | cons r' rs => cases hlen
          | cons l' ls =>
              obtain ⟨rfl, h⟩ := h
              rw [ih h (Nat.succ.inj hlen)]

/-- Segments that match do so as they are laid down. -/
theorem begins_laid (h : Begins starting ls rs) (hlen : ls.length ≤ rs.length)
    (hfilled : filled = true → starting = false ∧ ls.length < rs.length)
    (hopen : filled = false → starting = true ∨ ls.length = rs.length) :
    Begins starting (laid filled ls) (laid false rs) := by
  induction ls generalizing rs with
  | nil => trivial
  | cons l ls ih =>
      cases rs with
      | nil => exact absurd hlen (Nat.not_succ_le_zero _)
      | cons r rs =>
          cases ls with
          | nil =>
              cases rs with
              | nil =>
                  cases filled with
                  | false => exact h
                  | true => exact absurd (hfilled rfl).2 (lt_irrefl _)
              | cons r' rs =>
                  cases filled with
                  | false =>
                      rcases hopen rfl with rfl | hlen
                      · exact List.IsPrefix.trans h (List.prefix_append r _)
                      · cases hlen
                  | true =>
                      obtain ⟨rfl, -⟩ := hfilled rfl
                      exact congrArg fill (show l = r from h)
          | cons l' ls =>
              cases rs with
              | nil => exact absurd hlen (by rw [List.length_cons, List.length_cons]; simp)
              | cons r' rs =>
                  obtain ⟨rfl, h⟩ := h
                  have hrest := ih h (Nat.le_of_succ_le_succ hlen)
                    (fun hf => ⟨(hfilled hf).1, Nat.lt_of_succ_lt_succ (hfilled hf).2⟩)
                    fun hf => (hopen hf).imp_right Nat.succ.inj
                  obtain ⟨q, qs, hqs⟩ := laid_cons_exists filled l' ls
                  rw [laid, laid, hqs]
                  rw [hqs] at hrest
                  exact ⟨rfl, hrest⟩

end Firebird.Btr
