import Firebird.Jrd.Sqz

/-! # Compression into a limited area (`SQZ_compress` and `SQZ_compress_length` in `jrd/sqz.cpp`)

`fragment` puts the head of a record into what is left of a page. `SQZ_compress_length` says
where the tail starts, the tail is stored, and `SQZ_compress` fills the area.

Where the area ends, a repeat is left out as a whole: a control byte of zero fills the one byte
that may remain. A literal string is shortened, and its control byte patched. So the area holds
the control chain of a shorter record.
-/

namespace Firebird.Sqz

open RunLength (Seg segments expand size)

/-! ## The loops -/

/-- How the loop over a block ends: at a `return` with `input - start`, or behind the last
control byte. The rest is `output` as written so far, and `space`. -/
inductive BlockEnd
  | returned (input : ℕ) (output : List SCHAR)
  | through (input : ℕ) (output : List SCHAR) (space : ℤ)
  deriving DecidableEq, Repr

/-- `if (length > 0) MOVE_FAST(input, output, length);` -/
def moveFast (data : List SCHAR) (input : ℕ) (output : List SCHAR) (length : ℕ) :
    Except Abort (List SCHAR) :=
  if length > 0 ∧ data.length < input + length then .error .readBeyond
  else .ok (output ++ (data.drop input).take length)

/-- The loop of `SQZ_compress` over the control bytes of a block -/
def compressBlock (data : List SCHAR) :
    List SCHAR → ℕ → List SCHAR → ℤ → Except Abort BlockEnd
  | [], input, output, space => .ok (.through input output space)
  | c :: control, input, output, space =>
      let space := space - 1
      if space ≤ 0 then
        .ok (.returned input (if space = 0 then output ++ [0] else output))
      else if c.toInt < 0 then
        match data[input]? with
        | none => .error .readBeyond
        | some b =>
            compressBlock data control (input + (-c.toInt).toNat) (output ++ [c] ++ [b]) (space - 1)
      else
        let output := output ++ [c]
        let space := space - c.toInt
        if space < 0 then
          let length := c.toInt + space
          -- `output[-1] = length`
          let output := output.dropLast ++ [Int8.ofInt length]
          do
            let output ← moveFast data input output length.toNat
            .ok (.returned (input + length.toNat) output)
        else do
          let output ← moveFast data input output c.toInt.toNat
          compressBlock data control (input + c.toInt.toNat) output space

/-- The loop of `SQZ_compress` along `dcc_next` -/
def compressLoop (data : List SCHAR) :
    List (List SCHAR) → ℕ → List SCHAR → ℤ → Except Abort (ℕ × List SCHAR)
  | [], _, _, _ => .error (.bugcheck 178)
  | dcc :: next, input, output, space => do
      match ← compressBlock data dcc input output space with
      | .returned input output => .ok (ushort input, output)
      | .through input output space => compressLoop data next input output space

/-- `SQZ_compress`: what it returns, and the bytes it has written -/
def sqzCompress (dcc : List (List SCHAR)) (data : List SCHAR) (space : ℤ) :
    Except Abort (ℕ × List SCHAR) :=
  compressLoop data dcc 0 [] space

/-- How the loop of `SQZ_compress_length` over a block ends -/
inductive Counted
  | returned (input : ℕ)
  | through (input : ℕ) (space : ℤ)
  deriving DecidableEq, Repr

/-- The loop of `SQZ_compress_length` over the control bytes of a block -/
def lengthBlock : List SCHAR → ℕ → ℤ → Counted
  | [], input, space => .through input space
  | c :: control, input, space =>
      let space := space - 1
      if space ≤ 0 then .returned input
      else if c.toInt < 0 then lengthBlock control (input + (-c.toInt).toNat) (space - 1)
      else
        let space := space - c.toInt
        if space < 0 then .returned (input + (c.toInt + space).toNat)
        else lengthBlock control (input + c.toInt.toNat) space

/-- The loop of `SQZ_compress_length` along `dcc_next` -/
def compressLengthLoop : List (List SCHAR) → ℕ → ℤ → Except Abort ℕ
  | [], _, _ => .error (.bugcheck 178)
  | dcc :: next, input, space =>
      match lengthBlock dcc input space with
      | .returned input => .ok (ushort input)
      | .through input space => compressLengthLoop next input space

/-- `SQZ_compress_length` -/
def sqzCompressLength (dcc : List (List SCHAR)) (space : ℤ) : Except Abort ℕ :=
  compressLengthLoop dcc 0 space

/-! ## Where the area ends -/

/-- The segments of which the first `space` bytes are the compressed form -/
def cut : ℕ → List (Seg SCHAR) → List (Seg SCHAR)
  | 0, _ => []
  | _ + 1, [] => []
  | 1, _ :: _ => [.lit []]
  | space + 2, .rep n b :: ss => .rep n b :: cut space ss
  | space + 2, .lit bs :: ss =>
      if space + 1 < bs.length then [.lit (bs.take (space + 1))]
      else .lit bs :: cut (space + 1 - bs.length) ss

variable {ss : List (Seg SCHAR)} {data rest output cs : List SCHAR} {space input : ℕ}

theorem size_cut (h : space < size ss) : size (cut space ss) = space := by
  induction space, ss using cut.induct with
  | case1 => rw [cut, RunLength.size_nil]
  | case2 => simp at h
  | case3 => rfl
  | case4 space n b ss ih =>
      rw [RunLength.size_cons, Seg.size] at h
      rw [cut, RunLength.size_cons, ih (by omega), Seg.size]
      omega
  | case5 space bs ss hlt =>
      rw [cut, if_pos hlt, RunLength.size_cons, Seg.size, List.length_take, RunLength.size_nil]
      omega
  | case6 space bs ss hlt ih =>
      rw [RunLength.size_cons, Seg.size] at h
      rw [cut, if_neg hlt, RunLength.size_cons, ih (by omega), Seg.size]
      omega

theorem expand_cut_prefix : expand (cut space ss) <+: expand ss := by
  induction space, ss using cut.induct with
  | case1 =>
      rw [cut]
      exact List.nil_prefix
  | case2 => exact List.nil_prefix
  | case3 => exact List.nil_prefix
  | case4 space n b ss ih =>
      rw [cut, RunLength.expand_cons, RunLength.expand_cons]
      exact (List.prefix_append_right_inj _).mpr ih
  | case5 space bs ss hlt =>
      rw [cut, if_pos hlt, RunLength.expand_cons, RunLength.expand_cons, RunLength.expand_nil,
        List.append_nil]
      exact (List.take_prefix _ _).trans (List.prefix_append _ _)
  | case6 space bs ss hlt ih =>
      rw [cut, if_neg hlt, RunLength.expand_cons, RunLength.expand_cons]
      exact (List.prefix_append_right_inj _).mpr ih

theorem encodable_cut (space : ℕ) (h : ∀ s ∈ ss, Encodable s) : ∀ s ∈ cut space ss, Encodable s := by
  induction space, ss using cut.induct with
  | case1 =>
      rw [cut]
      exact fun s hs => absurd hs List.not_mem_nil
  | case2 => exact fun s hs => absurd hs List.not_mem_nil
  | case3 =>
      intro s hs
      rw [cut, List.mem_singleton] at hs
      rw [hs]
      exact Nat.zero_le _
  | case4 space n b ss ih =>
      obtain ⟨hfirst, hrest⟩ := List.forall_mem_cons.mp h
      rw [cut]
      exact List.forall_mem_cons.mpr ⟨hfirst, ih hrest⟩
  | case5 space bs ss hlt =>
      intro s hs
      have hbs : bs.length ≤ 127 := (List.forall_mem_cons.mp h).1
      rw [cut, if_pos hlt, List.mem_singleton] at hs
      rw [hs]
      exact (List.length_take_le' _ _).trans hbs
  | case6 space bs ss hlt ih =>
      obtain ⟨hfirst, hrest⟩ := List.forall_mem_cons.mp h
      rw [cut, if_neg hlt]
      exact List.forall_mem_cons.mpr ⟨hfirst, ih hrest⟩

/-! ## The loops fill the area -/

theorem moveFast_eq {bs : List SCHAR} {n : ℕ} (h : data.drop input = bs ++ rest)
    (hn : n ≤ bs.length) : moveFast data input output n = .ok (output ++ bs.take n) := by
  have hlen := congrArg List.length h
  rw [List.length_drop, List.length_append] at hlen
  rw [moveFast, if_neg (by omega), h, List.take_append_of_le_length hn]

/-- The loop of `SQZ_compress` packs the segments that are cut. -/
theorem compressBlock_cut (h : ∀ s ∈ ss, Encodable s) (hdata : data.drop input = expand ss ++ rest)
    (hspace : space < size ss) :
    compressBlock data (ss.map ctl) input output space =
      .ok (.returned (input + (expand (cut space ss)).length)
        (output ++ (cut space ss).flatMap packed)) := by
  induction space, ss using cut.induct generalizing input output with
  | case1 ss =>
      cases ss with
      | nil => simp at hspace
      | cons s ss =>
          rw [List.map_cons, compressBlock, if_pos (by simp), if_neg (by simp), cut,
            List.flatMap_nil, List.append_nil, RunLength.expand_nil]
          rfl
  | case2 => simp at hspace
  | case3 s ss =>
      rw [List.map_cons, compressBlock, if_pos (by simp), if_pos (by simp)]
      rfl
  | case4 space n b ss ih =>
      obtain ⟨hfirst, hrest⟩ := List.forall_mem_cons.mp h
      have hctl := toInt_ctl_rep hfirst
      have hn : 0 < n := hfirst.1
      rw [RunLength.expand_cons, Seg.expand, List.append_assoc] at hdata
      have hget : data[input]? = some b := by
        have hhead := congrArg (fun l => l[0]?) hdata
        simp only [List.getElem?_drop, Nat.add_zero] at hhead
        rw [hhead, List.getElem?_append_left (by simpa using hn), List.getElem?_replicate, if_pos hn]
      have hdrop : data.drop (input + n) = expand ss ++ rest := by
        rw [← List.drop_drop, hdata]
        exact List.drop_left' List.length_replicate
      rw [RunLength.size_cons, Seg.size] at hspace
      rw [List.map_cons, compressBlock, if_neg (by omega), if_pos (by omega), hctl, hget]
      simp only [neg_neg, Int.toNat_natCast]
      have hleft : ((space + 2 : ℕ) : ℤ) - 1 - 1 = space := by omega
      rw [hleft, ih hrest hdrop (by omega), cut, RunLength.expand_cons, Seg.expand, List.length_append,
        List.length_replicate, List.flatMap_cons, packed, ← Nat.add_assoc]
      simp only [List.append_assoc, List.cons_append, List.nil_append, ctl]
  | case5 space bs ss hlt =>
      have hfirst := (List.forall_mem_cons.mp h).1
      have hctl := toInt_ctl_lit hfirst
      rw [RunLength.expand_cons, Seg.expand, List.append_assoc] at hdata
      rw [List.map_cons, compressBlock, if_neg (by omega), if_neg (by omega), if_pos (by omega)]
      have hleft : (ctl (.lit bs)).toInt + (((space + 2 : ℕ) : ℤ) - 1 - (ctl (.lit bs)).toInt) =
          (space + 1 : ℕ) := by omega
      have hlen : (bs.take (space + 1)).length = space + 1 := by
        rw [List.length_take]
        omega
      simp only [hleft, Int.toNat_natCast, List.dropLast_concat]
      rw [moveFast_eq hdata (by omega), cut, if_pos hlt, RunLength.expand_cons, Seg.expand,
        RunLength.expand_nil, List.append_nil, hlen, List.flatMap_cons, List.flatMap_nil, packed, hlen]
      simp only [List.append_assoc, List.cons_append, List.nil_append, List.append_nil]
      rfl
  | case6 space bs ss hlt ih =>
      obtain ⟨hfirst, hrest⟩ := List.forall_mem_cons.mp h
      have hctl := toInt_ctl_lit hfirst
      rw [RunLength.expand_cons, Seg.expand, List.append_assoc] at hdata
      have hdrop : data.drop (input + bs.length) = expand ss ++ rest := by
        rw [← List.drop_drop, hdata]
        exact List.drop_left' rfl
      rw [RunLength.size_cons, Seg.size] at hspace
      rw [List.map_cons, compressBlock, if_neg (by omega), if_neg (by omega), if_neg (by omega), hctl]
      have hleft : ((space + 2 : ℕ) : ℤ) - 1 - bs.length = (space + 1 - bs.length : ℕ) := by omega
      simp only [hleft, Int.toNat_natCast]
      rw [moveFast_eq hdata le_rfl, List.take_length]
      change compressBlock data (ss.map ctl) (input + bs.length) _ _ = _
      rw [ih hrest hdrop (by omega), cut, if_neg hlt, RunLength.expand_cons, Seg.expand,
        List.length_append, List.flatMap_cons, packed, ← Nat.add_assoc]
      simp only [List.append_assoc, List.cons_append, List.nil_append, ctl]

/-- The loop of `SQZ_compress_length` takes the same branches. -/
theorem lengthBlock_cut (h : ∀ s ∈ ss, Encodable s) (hspace : space < size ss) :
    lengthBlock (ss.map ctl) input space = .returned (input + (expand (cut space ss)).length) := by
  induction space, ss using cut.induct generalizing input with
  | case1 ss =>
      cases ss with
      | nil => simp at hspace
      | cons s ss =>
          rw [List.map_cons, lengthBlock, if_pos (by simp), cut, RunLength.expand_nil]
          rfl
  | case2 => simp at hspace
  | case3 s ss =>
      rw [List.map_cons, lengthBlock, if_pos (by simp)]
      rfl
  | case4 space n b ss ih =>
      obtain ⟨hfirst, hrest⟩ := List.forall_mem_cons.mp h
      have hctl := toInt_ctl_rep hfirst
      have hn : 0 < n := hfirst.1
      have hleft : ((space + 2 : ℕ) : ℤ) - 1 - 1 = space := by omega
      rw [RunLength.size_cons, Seg.size] at hspace
      rw [List.map_cons, lengthBlock, if_neg (by omega), if_pos (by omega), hctl, neg_neg,
        Int.toNat_natCast, hleft, ih hrest (by omega), cut, RunLength.expand_cons, Seg.expand,
        List.length_append, List.length_replicate, ← Nat.add_assoc]
  | case5 space bs ss hlt =>
      have hctl := toInt_ctl_lit (List.forall_mem_cons.mp h).1
      have hlen : (bs.take (space + 1)).length = space + 1 := by
        rw [List.length_take]
        omega
      rw [List.map_cons, lengthBlock, if_neg (by omega), if_neg (by omega), if_pos (by omega), cut,
        if_pos hlt, RunLength.expand_cons, Seg.expand, RunLength.expand_nil, List.append_nil, hlen]
      congr 2
      omega
  | case6 space bs ss hlt ih =>
      obtain ⟨hfirst, hrest⟩ := List.forall_mem_cons.mp h
      have hctl := toInt_ctl_lit hfirst
      have hleft : ((space + 2 : ℕ) : ℤ) - 1 - bs.length = (space + 1 - bs.length : ℕ) := by omega
      rw [RunLength.size_cons, Seg.size] at hspace
      rw [List.map_cons, lengthBlock, if_neg (by omega), if_neg (by omega), if_neg (by omega), hctl,
        Int.toNat_natCast, hleft, ih hrest (by omega), cut, if_neg hlt, RunLength.expand_cons,
        Seg.expand, List.length_append, ← Nat.add_assoc]

/-! ## Along the blocks -/

/-- The loop over two blocks is that over the first, and over the second if it is got to. -/
theorem compressBlock_append (cs ds : List SCHAR) (input : ℕ) (output : List SCHAR) (space : ℤ) :
    compressBlock data (cs ++ ds) input output space =
      (compressBlock data cs input output space >>= fun
        | .returned input output => .ok (.returned input output)
        | .through input output space => compressBlock data ds input output space) := by
  induction cs generalizing input output space with
  | nil => rfl
  | cons c cs ih =>
      rw [List.cons_append, compressBlock, compressBlock]
      split
      · rfl
      · split
        · cases data[input]? with
          | none => rfl
          | some b => exact ih _ _ _
        · simp only
          split
          · cases moveFast data input _ _ with
            | error e => rfl
            | ok output => rfl
          · cases moveFast data input _ _ with
            | error e => rfl
            | ok output => exact ih _ _ _

theorem compressLoop_eq (blocks : List (List SCHAR)) (input : ℕ) (output : List SCHAR) (space : ℤ) :
    compressLoop data blocks input output space =
      (compressBlock data blocks.flatten input output space >>= fun
        | .returned input output => .ok (ushort input, output)
        | .through _ _ _ => .error (.bugcheck 178)) := by
  induction blocks generalizing input output space with
  | nil => rfl
  | cons dcc next ih =>
      rw [compressLoop, List.flatten_cons, compressBlock_append]
      cases compressBlock data dcc input output space with
      | error e => rfl
      | ok passed =>
          cases passed with
          | returned input output => rfl
          | through input output space => exact ih input output space

theorem lengthBlock_append (cs ds : List SCHAR) (input : ℕ) (space : ℤ) :
    lengthBlock (cs ++ ds) input space =
      match lengthBlock cs input space with
      | .returned input => .returned input
      | .through input space => lengthBlock ds input space := by
  induction cs generalizing input space with
  | nil => rfl
  | cons c cs ih =>
      rw [List.cons_append, lengthBlock, lengthBlock]
      split
      · rfl
      · split
        · exact ih _ _
        · simp only
          split
          · rfl
          · exact ih _ _

theorem compressLengthLoop_eq (blocks : List (List SCHAR)) (input : ℕ) (space : ℤ) :
    compressLengthLoop blocks input space =
      match lengthBlock blocks.flatten input space with
      | .returned input => .ok (ushort input)
      | .through _ _ => .error (.bugcheck 178) := by
  induction blocks generalizing input space with
  | nil => rfl
  | cons dcc next ih =>
      rw [compressLengthLoop, List.flatten_cons, lengthBlock_append]
      cases lengthBlock dcc input space with
      | returned input => rfl
      | through input space => exact ih input space

/-! ## Main results -/

theorem encodable_segments (data : List SCHAR) : ∀ s ∈ segments limits data, Encodable s :=
  fun s hs => encodable_of_fits (RunLength.segments_fit limits data s hs)

/-- **What fits into a smaller area.** The two routines agree on how much of the record fits, the
area is filled, and it decompresses to just that much of the record. The area may be of any
size below the compressed size, of which `SQZ_length` returns the `USHORT`. -/
theorem sqzCompress_fills (data : List SCHAR) (h : data.length ≤ 65535) (space : ℕ)
    (hspace : space < packedSize data) :
    (sqzLength data).2 ≤ packedSize data ∧
    ∃ r out, sqzCompress (sqzLength data).1.blocks data space = .ok (r, out) ∧
      sqzCompressLength (sqzLength data).1.blocks space = .ok r ∧
      out.length = space ∧ r ≤ data.length ∧
      ∀ room, r ≤ room → sqzDecompress out space room = .ok (data.take r) := by
  have hsize : size (segments limits data) = packedSize data := RunLength.size_segments limits data
  have hfit := encodable_segments data
  have hexpand := RunLength.expand_segments limits data
  have hcontrols := (sqzLength_eq h).1
  rw [Chain.controls] at hcontrols
  have hlt : space < size (segments limits data) := hsize ▸ hspace
  have hcut := size_cut hlt
  have hinitial : expand (cut space (segments limits data)) <+: data := by
    have hcutprefix : expand (cut space (segments limits data)) <+:
        expand (segments limits data) := expand_cut_prefix
    rwa [hexpand] at hcutprefix
  have hle := hinitial.length_le
  have hushort := ushort_of_le (hle.trans h)
  refine ⟨?_, (expand (cut space (segments limits data))).length,
    (cut space (segments limits data)).flatMap packed, ?_, ?_, ?_, hle, ?_⟩
  · rw [(sqzLength_eq h).2, hsize]
    exact Nat.mod_le _ _
  · rw [sqzCompress, compressLoop_eq, hcontrols,
      compressBlock_cut hfit (by rw [hexpand, List.append_nil]; rfl) hlt]
    simp only [Nat.zero_add, List.nil_append]
    change Except.ok (ushort _, _) = _
    rw [hushort]
  · rw [sqzCompressLength, compressLengthLoop_eq, hcontrols, lengthBlock_cut hfit hlt, Nat.zero_add]
    exact congrArg _ hushort
  · rw [length_flatMap_packed, hcut]
  · intro room hroom
    have hunpack := sqzDecompress_packed (encodable_cut space hfit) hroom
    rw [hcut] at hunpack
    rw [hunpack, ← List.prefix_iff_eq_take.mp hinitial]

/-- Eight bytes in three: the repeat, and a zero for the byte that remains -/
theorem sqzCompress_fills_three :
    ∃ r out, sqzCompress (sqzLength [7, 7, 7, 7, 1, 2, 3, 4]).1.blocks [7, 7, 7, 7, 1, 2, 3, 4] 3 =
        .ok (r, out) ∧
      sqzCompressLength (sqzLength [7, 7, 7, 7, 1, 2, 3, 4]).1.blocks 3 = .ok r ∧
      out.length = 3 ∧ r ≤ 8 ∧ ∀ room, r ≤ room →
        sqzDecompress out 3 room = .ok ([7, 7, 7, 7, 1, 2, 3, 4].take r) :=
  (sqzCompress_fills [7, 7, 7, 7, 1, 2, 3, 4] (by decide) 3 (by decide)).2

end Firebird.Sqz
