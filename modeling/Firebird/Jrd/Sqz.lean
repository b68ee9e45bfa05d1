import Firebird.Lib.RunLength

/-! # Record compression (`jrd/sqz.cpp`)

`SQZ_length` cuts a record image into literal stretches and repeats and leaves
one control byte for each in a chain of `Dcc` blocks; `SQZ_fast` copies the
record along such a chain, `SQZ_decompress` undoes it. Pointers into a buffer
are the bytes from the pointer to the end of the buffer.
-/

namespace Firebird

/-- `SCHAR`: a signed byte. -/
abbrev SCHAR := Int8

/-- Conversion to `USHORT`. -/
def ushort (n : ℕ) : ℕ := n % 65536

theorem ushort_of_le {n : ℕ} (h : n ≤ 65535) : ushort n = n := Nat.mod_eq_of_lt (by omega)

namespace Sqz

/-! ## Control chains -/

/-- `sizeof(dcc->dcc_string)` -/
def dccSize : ℕ := 128

/-- A chain of `Dcc` blocks being filled: the control strings of the blocks that
are full, and the bytes from `dcc_string` to `control` of the last one. -/
structure Chain where
  prior : List (List SCHAR)
  dcc : List SCHAR
  prior_full : ∀ b ∈ prior, b.length = dccSize
  dcc_lt : dcc.length < dccSize

/-- The chain `SQZ_length` starts from. -/
def Chain.empty : Chain := ⟨[], [], by simp, by simp [dccSize]⟩

/-- `*control++ = c`, followed by the step to a new block when this one is full. -/
def Chain.put (ch : Chain) (c : SCHAR) : Chain :=
  if h : ch.dcc.length + 1 = dccSize then
    ⟨ch.prior ++ [ch.dcc ++ [c]], [], by
      intro b hb
      rcases List.mem_append.mp hb with hb | hb
      · exact ch.prior_full b hb
      · simpa [List.mem_singleton.mp hb] using h, by simp [dccSize]⟩
  else
    ⟨ch.prior, ch.dcc ++ [c], ch.prior_full, by
      have := ch.dcc_lt
      simp only [List.length_append, List.length_cons, List.length_nil]
      omega⟩

/-- The control strings along `dcc_next`; `dcc_end` closes the last one. -/
def Chain.blocks (ch : Chain) : List (List SCHAR) := ch.prior ++ [ch.dcc]

/-- All control bytes of a chain. -/
def Chain.controls (ch : Chain) : List SCHAR := ch.blocks.flatten

def Chain.putAll (ch : Chain) (cs : List SCHAR) : Chain := cs.foldl Chain.put ch

@[simp] theorem controls_empty : Chain.empty.controls = [] := rfl

@[simp] theorem controls_put (ch : Chain) (c : SCHAR) :
    (ch.put c).controls = ch.controls ++ [c] := by
  rw [Chain.put]
  split <;> simp [Chain.controls, Chain.blocks]

@[simp] theorem controls_putAll (ch : Chain) (cs : List SCHAR) :
    (ch.putAll cs).controls = ch.controls ++ cs := by
  induction cs generalizing ch with
  | nil => simp [Chain.putAll]
  | cons c cs ih =>
      have : (ch.putAll (c :: cs)) = (ch.put c).putAll cs := rfl
      rw [this, ih]
      simp

/-! ## `SQZ_length` -/

/-- The scan for three equal bytes, `do … while (--max > 1)`: `some (data - start)`
when it breaks at them. -/
def scanLoop (data : List SCHAR) : ℕ → ℕ → Option ℕ
  | 0, _ => none
  | max + 1, n =>
      if data[0]? ≠ data[1]? ∨ data[0]? ≠ data[2]? then
        if max > 1 then scanLoop data.tail max (n + 1) else none
      else some n

/-- The length of the run that cannot be compressed; `count` is all that is left. -/
def literalCount (data : List SCHAR) (count : ℕ) : ℕ :=
  if count - 1 > 1 then (scanLoop data (count - 1) 0).getD count else count

/-- `while (count) { max = MIN(count, 127); … }` -/
def putLiterals (count : ℕ) (dcc : Chain) (length : ℕ) : Chain × ℕ :=
  if count = 0 then (dcc, length)
  else
    let max := min count 127
    putLiterals (count - max) (dcc.put (Int8.ofNat max)) (length + (1 + max))
termination_by count

/-- `do { if (*data != c) break; ++data; } while (--max)`: the value of `data - start`. -/
def equalLoop (c : SCHAR) (data : List SCHAR) : ℕ → ℕ
  | 0 => 0
  | max + 1 =>
      if data.head? ≠ some c then 0
      else if max = 0 then 1
      else equalLoop c data.tail max + 1

theorem equalLoop_pos {data : List SCHAR} {max : ℕ} (hd : data ≠ []) (h : 0 < max) :
    0 < equalLoop (data.headD 0) data max := by
  obtain ⟨c, rest, rfl⟩ := List.exists_cons_of_ne_nil hd
  obtain ⟨m, rfl⟩ : ∃ m, max = m + 1 := ⟨max - 1, by omega⟩
  rw [equalLoop, if_neg (by simp)]
  split <;> omega

/-- Nothing to copy literally means that three equal bytes stand here. -/
theorem literalCount_pos {data : List SCHAR} (hd : ushort data.length ≠ 0)
    (h : (data.drop (literalCount data (ushort data.length))).length < 3) :
    0 < literalCount data (ushort data.length) := by
  by_contra hz
  have hz : literalCount data (ushort data.length) = 0 := by omega
  have hle : ushort data.length ≤ data.length := Nat.mod_le _ _
  rw [hz, List.drop_zero] at h
  rw [literalCount, if_neg (by omega)] at hz
  exact hd hz

theorem drop_run_lt {data : List SCHAR} {n : ℕ} (h : min 128 (data.drop n).length ≥ 3) :
    ((data.drop n).drop (equalLoop ((data.drop n).headD 0) (data.drop n)
      (min 128 (data.drop n).length))).length < data.length := by
  have hne : data.drop n ≠ [] := List.ne_nil_of_length_pos (by omega)
  have hrun := equalLoop_pos hne (by omega : 0 < min 128 (data.drop n).length)
  have hdrop : (data.drop n).length = data.length - n := List.length_drop ..
  rw [List.length_drop]
  omega

theorem drop_literal_lt {data : List SCHAR} (hd : ushort data.length ≠ 0)
    (h : ¬min 128 (data.drop (literalCount data (ushort data.length))).length ≥ 3) :
    (data.drop (literalCount data (ushort data.length))).length < data.length := by
  have hpos := literalCount_pos hd (by omega)
  have hlen : 0 < data.length := by
    rcases data with _ | ⟨a, t⟩
    · simp [ushort] at hd
    · simp
  rw [List.length_drop]
  omega

/-- The main loop, `while ((count = end - data)) …`. -/
def lengthLoop (data : List SCHAR) (dcc : Chain) (length : ℕ) : Chain × ℕ :=
  if _ : ushort data.length = 0 then (dcc, length)
  else
    let count := literalCount data (ushort data.length)
    let (dcc, length) := putLiterals count dcc length
    if _ : min 128 (data.drop count).length ≥ 3 then
      let run := equalLoop ((data.drop count).headD 0) (data.drop count)
        (min 128 (data.drop count).length)
      lengthLoop ((data.drop count).drop run) (dcc.put (Int8.ofInt (-run))) (length + 2)
    else lengthLoop (data.drop count) dcc length
termination_by data.length
decreasing_by
  · exact drop_run_lt (by assumption)
  · exact drop_literal_lt (by assumption) (by assumption)

/-- `SQZ_length`: the control chain, and the compressed length as a `USHORT`. -/
def sqzLength (data : List SCHAR) : Chain × ℕ :=
  let (dcc, length) := lengthLoop data Chain.empty 0
  (dcc, ushort length)

/-! ## `SQZ_fast` -/

/-- The inner loop over one control string: the bytes written and the advanced
`input`; `none` when `input` would be read beyond its end. -/
def fastBlock : List SCHAR → List SCHAR → Option (List SCHAR × List SCHAR)
  | [], input => some ([], input)
  | length :: control, input =>
      if length.toInt < 0 then do
        let c ← input.head?
        let (output, input) ← fastBlock control (input.drop (-length.toInt).toNat)
        some (length :: c :: output, input)
      else if input.length < length.toInt.toNat then none
      else do
        let (output, input') ← fastBlock control (input.drop length.toInt.toNat)
        some (length :: (input.take length.toInt.toNat ++ output), input')

/-- `SQZ_fast`: the bytes written to `output`. -/
def sqzFast : List (List SCHAR) → List SCHAR → Option (List SCHAR)
  | [], _ => some []
  | dcc :: next, input => do
      let (output, input) ← fastBlock dcc input
      let rest ← sqzFast next input
      some (output ++ rest)

/-! ## `SQZ_decompress` -/

/-- Ways for a routine not to return. -/
inductive Abort where
  | bugcheck (msg : ℕ)
  | readBeyond
deriving DecidableEq, Repr

/-- The loop of `SQZ_decompress`. `left` is `last - input`, `output` what is
written so far, `space` is `output_end - output` at the start. -/
def decompressLoop (input : List SCHAR) (left : ℤ) (output : List SCHAR) (space : ℕ) :
    Except Abort (List SCHAR) :=
  if left ≤ 0 then
    if output.length > space then .error (.bugcheck 179) else .ok output
  else
    match input with
    | [] => .error .readBeyond
    | l :: input =>
        if l.toInt < 0 then
          match input with
          | [] => .error .readBeyond
          | c :: input =>
              if output.length + (-l.toInt).toNat > space then .error (.bugcheck 179)
              else decompressLoop input (left - 2)
                (output ++ List.replicate (-l.toInt).toNat c) space
        else if output.length + l.toInt.toNat > space then .error (.bugcheck 179)
        else if input.length < l.toInt.toNat then .error .readBeyond
        else decompressLoop (input.drop l.toInt.toNat) (left - 1 - l.toInt)
          (output ++ input.take l.toInt.toNat) space
termination_by input.length
decreasing_by all_goals simp only [List.length_drop, List.length_cons]; omega

/-- `SQZ_decompress`: what stands in the output buffer up to the returned address. -/
def sqzDecompress (input : List SCHAR) (length space : ℕ) : Except Abort (List SCHAR) :=
  decompressLoop input length [] space

/-! ## The control chain is the greedy segmentation -/

open RunLength (Seg segments litLen runLen expand size)

/-- Literal stretches of at most 127 bytes, repeats of at most 128. -/
def limits : RunLength.Limits := ⟨127, 128, by decide, by decide⟩

/-- The control byte of a segment. -/
def ctl : Seg SCHAR → SCHAR
  | .lit bs => Int8.ofNat bs.length
  | .rep n _ => Int8.ofInt (-n)

/-- The compressed form of a segment. -/
def packed : Seg SCHAR → List SCHAR
  | .lit bs => Int8.ofNat bs.length :: bs
  | .rep n b => [Int8.ofInt (-n), b]

theorem scanLoop_eq (data : List SCHAR) (n : ℕ) (h : 3 ≤ data.length) :
    scanLoop data (data.length - 1) n =
      if litLen data < data.length then some (n + litLen data) else none := by
  induction data using RunLength.litLen_induction generalizing n with
  | run a l => simp [scanLoop, litLen]
  | lit a b c l hn ih =>
      have htest : (a :: b :: c :: l)[0]? ≠ (a :: b :: c :: l)[1]? ∨
          (a :: b :: c :: l)[0]? ≠ (a :: b :: c :: l)[2]? := by
        simp only [List.getElem?_cons_zero, List.getElem?_cons_succ, ne_eq, Option.some.injEq]
        exact Decidable.not_and_iff_or_not.mp hn
      have hlen : (a :: b :: c :: l).length - 1 = l.length + 1 + 1 := by simp
      rw [hlen, scanLoop, if_pos htest, litLen, if_neg hn, List.tail_cons]
      cases l with
      | nil => simp [litLen]
      | cons d l =>
          have hrec := ih (n + 1) (by simp)
          simp only [List.length_cons, Nat.add_sub_cancel] at hrec ⊢
          rw [if_pos (by omega), hrec]
          split <;> split <;> first | omega | simp; omega | rfl
  | short l hl => exact absurd h (by omega)

theorem litLen_of_short {l : List SCHAR} (h : l.length < 3) : litLen l = l.length := by
  match l with
  | [] => rfl
  | [_] => rfl
  | [_, _] => rfl
  | _ :: _ :: _ :: _ => simp at h; omega

theorem literalCount_eq (data : List SCHAR) : literalCount data data.length = litLen data := by
  rw [literalCount]
  split
  · rw [scanLoop_eq data 0 (by omega)]
    have := RunLength.litLen_le data
    split
    · simp
    · simp only [Option.getD_none]
      omega
  · rw [litLen_of_short (by omega)]

theorem equalLoop_eq (c : SCHAR) (data : List SCHAR) (max : ℕ) :
    equalLoop c data max = runLen c max data := by
  induction max generalizing data with
  | zero => simp [equalLoop, runLen]
  | succ max ih =>
      cases data with
      | nil => simp [equalLoop, runLen]
      | cons a t =>
          by_cases h : a = c
          · cases max with
            | zero => simp [equalLoop, runLen, h]
            | succ m => simp [equalLoop, runLen, h] at ih ⊢; simpa using ih t
          · simp [equalLoop, runLen, h]

theorem putLiterals_zero (dcc : Chain) (length : ℕ) : putLiterals 0 dcc length = (dcc, length) := by
  rw [putLiterals, if_pos rfl]

theorem putLiterals_pos {count : ℕ} (h : count ≠ 0) (dcc : Chain) (length : ℕ) :
    putLiterals count dcc length = putLiterals (count - min limits.maxLit count)
      (dcc.put (Int8.ofNat (min limits.maxLit count))) (length + (1 + min limits.maxLit count)) := by
  rw [putLiterals, if_neg h, Nat.min_comm]
  rfl

/-- `putLiterals` emits the literal chunks at the head of the segmentation. -/
theorem putLiterals_eq (data : List SCHAR) (dcc : Chain) (length : ℕ) :
    ∃ lits, segments limits data = lits ++ segments limits (data.drop (litLen data)) ∧
      putLiterals (litLen data) dcc length = (dcc.putAll (lits.map ctl), length + size lits) := by
  induction data using @RunLength.segments_induction SCHAR _ limits generalizing dcc length with
  | nil => exact ⟨[], by simp, putLiterals_zero dcc length⟩
  | lit l hl hn ih =>
      have hle := RunLength.litLen_le l
      rw [RunLength.litLen_drop_of_le (by omega), List.drop_drop,
        Nat.add_sub_cancel' (Nat.min_le_right ..)] at ih
      obtain ⟨lits, hseg, hput⟩ := ih (dcc.put (Int8.ofNat (min limits.maxLit (litLen l))))
        (length + (1 + min limits.maxLit (litLen l)))
      have hlen : (l.take (min limits.maxLit (litLen l))).length = min limits.maxLit (litLen l) := by
        rw [List.length_take]
        omega
      refine ⟨.lit (l.take (min limits.maxLit (litLen l))) :: lits, ?_, ?_⟩
      · rw [RunLength.segments_lit limits hl hn, hseg, List.cons_append]
      · rw [putLiterals_pos hn, hput, List.map_cons, RunLength.size_cons, Seg.size, ctl, hlen]
        simp only [Chain.putAll, List.foldl_cons, Prod.mk.injEq, true_and]
        omega
  | rep c t ih => exact ⟨[], by simp [litLen], by simp [litLen, putLiterals_zero, Chain.putAll]⟩

/-- The main loop leaves one control byte for every segment. -/
theorem lengthLoop_eq (data : List SCHAR) (dcc : Chain) (length : ℕ) (h : data.length ≤ 65535) :
    lengthLoop data dcc length =
      (dcc.putAll ((segments limits data).map ctl), length + size (segments limits data)) := by
  induction hn : data.length using Nat.strong_induction_on generalizing data dcc length with
  | _ n ih =>
      subst hn
      obtain ⟨lits, hseg, hput⟩ := putLiterals_eq data dcc length
      have hle := RunLength.litLen_le data
      rw [lengthLoop, ushort_of_le h]
      by_cases hz : data.length = 0
      · rw [dif_pos hz, List.length_eq_zero_iff.mp hz]
        simp [Chain.putAll]
      simp only [dif_neg hz, literalCount_eq, hput]
      rcases Nat.lt_or_ge (litLen data) data.length with hlt | hge
      · -- the scan stopped at three equal bytes
        obtain ⟨c, t, ht⟩ := RunLength.litLen_drop hlt
        have hmin : runLen c (min 128 (c :: c :: c :: t).length) (c :: c :: c :: t) =
            runLen c limits.maxRep (c :: c :: c :: t) :=
          RunLength.runLen_min_length c limits.maxRep _
        have h3 := RunLength.three_le_runLen limits c t
        have hshort : ((c :: c :: c :: t).drop (runLen c limits.maxRep (c :: c :: c :: t))).length <
            data.length := by
          have := congrArg List.length ht
          rw [List.length_drop] at this ⊢
          omega
        simp only [ht, equalLoop_eq, List.headD_cons, hmin]
        rw [dif_pos (by simp), ih _ hshort _ _ _ (by omega) rfl, hseg, ht,
          RunLength.segments_rep]
        simp only [List.map_append, List.map_cons, ctl, RunLength.size_append, RunLength.size_cons,
          Seg.size, Chain.putAll, List.foldl_append, List.foldl_cons, Prod.mk.injEq, true_and]
        omega
      · have hnil : data.drop (litLen data) = [] := List.drop_of_length_le hge
        rw [hnil, RunLength.segments_nil, List.append_nil] at hseg
        simp only [hnil, List.length_nil]
        rw [dif_neg (by simp), ih 0 (by omega) _ _ _ (by simp) rfl, hseg]
        simp [Chain.putAll]

/-- `SQZ_length` in closed form. -/
theorem sqzLength_eq {data : List SCHAR} (h : data.length ≤ 65535) :
    (sqzLength data).1.controls = (segments limits data).map ctl ∧
      (sqzLength data).2 = ushort (size (segments limits data)) := by
  simp [sqzLength, lengthLoop_eq data Chain.empty 0 h]

/-! ## Compressing and decompressing a segmentation -/

/-- A segment that a control byte can describe; an empty literal is one of them. -/
def Encodable : Seg SCHAR → Prop
  | .lit bs => bs.length ≤ 127
  | .rep n _ => 0 < n ∧ n ≤ 128

theorem encodable_of_fits {s : Seg SCHAR} (h : s.Fits limits) : Encodable s := by
  cases s with
  | lit bs => exact h.2
  | rep n b => exact ⟨by have := h.1; omega, h.2⟩

theorem toInt_ctl_lit {bs : List SCHAR} (h : Encodable (.lit bs)) :
    (ctl (.lit bs)).toInt = bs.length :=
  Int8.toInt_ofNat_of_lt (by have : bs.length ≤ 127 := h; omega)

theorem toInt_ctl_rep {n : ℕ} {b : SCHAR} (h : Encodable (.rep n b)) :
    (ctl (.rep n b)).toInt = -n :=
  Int8.toInt_ofInt_of_le (by have : n ≤ 128 := h.2; omega) (by omega)

theorem length_packed (s : Seg SCHAR) : (packed s).length = s.size := by
  cases s <;> simp [packed, Seg.size]

theorem length_flatMap_packed (ss : List (Seg SCHAR)) : (ss.flatMap packed).length = size ss := by
  induction ss with
  | nil => rfl
  | cons s ss ih => simp [length_packed, ih]

theorem fastBlock_append (cs ds input : List SCHAR) :
    fastBlock (cs ++ ds) input = (do
      let (out, input) ← fastBlock cs input
      let (out', input) ← fastBlock ds input
      some (out ++ out', input)) := by
  induction cs generalizing input with
  | nil => simp [fastBlock]
  | cons c cs ih =>
      simp only [List.cons_append, fastBlock]
      split
      · cases input.head? <;> simp [ih, Option.bind_assoc]
      · split
        · rfl
        · simp [ih, Option.bind_assoc]

/-- `SQZ_fast` does not see where one block of the chain ends. -/
theorem sqzFast_eq (blocks : List (List SCHAR)) (input : List SCHAR) :
    sqzFast blocks input = (fastBlock blocks.flatten input).map Prod.fst := by
  induction blocks generalizing input with
  | nil => simp [sqzFast, fastBlock]
  | cons b blocks ih =>
      rw [sqzFast, List.flatten_cons, fastBlock_append]
      cases h : fastBlock b input with
      | none => simp
      | some r =>
          simp only [ih, Option.bind_eq_bind, Option.bind_some]
          cases fastBlock blocks.flatten r.2 <;> simp

/-- Copying along the control bytes of a segmentation packs its segments. -/
theorem fastBlock_map_ctl {ss : List (Seg SCHAR)} (h : ∀ s ∈ ss, Encodable s)
    (rest : List SCHAR) :
    fastBlock (ss.map ctl) (expand ss ++ rest) = some (ss.flatMap packed, rest) := by
  induction ss with
  | nil => simp [fastBlock]
  | cons s ss ih =>
      have hs := h s List.mem_cons_self
      have ih := ih fun t ht => h t (List.mem_cons_of_mem s ht)
      cases s with
      | lit bs =>
          have hi := toInt_ctl_lit hs
          rw [List.map_cons, fastBlock, if_neg (by omega), hi]
          simp [Seg.expand, ih, packed, ctl]
      | rep n b =>
          have hi := toInt_ctl_rep hs
          have hn : 0 < n := hs.1
          obtain ⟨m, rfl⟩ : ∃ m, n = m + 1 := ⟨n - 1, by omega⟩
          rw [List.map_cons, fastBlock, if_pos (by omega), hi]
          simp [Seg.expand, List.replicate_succ, ih, packed, ctl]

/-- One literal string of the input. -/
theorem decompressLoop_lit {bs : List SCHAR} (h : Encodable (.lit bs)) (input output : List SCHAR)
    (left space : ℕ) (hs : output.length + bs.length ≤ space) :
    decompressLoop (packed (.lit bs) ++ input) ((Seg.lit bs).size + left : ℕ) output space =
      decompressLoop input left (output ++ bs) space := by
  have hi : (Int8.ofNat bs.length).toInt = bs.length := toInt_ctl_lit h
  rw [packed, List.cons_append, decompressLoop.eq_def, if_neg (by simp only [Seg.size]; omega)]
  simp only [hi, Int.toNat_natCast]
  rw [if_neg (by omega), if_neg (by omega), if_neg (by simp), List.drop_left, List.take_left]
  congr 1
  simp only [Seg.size]
  omega

/-- One repeat of the input. -/
theorem decompressLoop_rep {n : ℕ} {b : SCHAR} (h : Encodable (.rep n b))
    (input output : List SCHAR) (left space : ℕ) (hs : output.length + n ≤ space) :
    decompressLoop (packed (.rep n b) ++ input) ((Seg.rep n b).size + left : ℕ) output space =
      decompressLoop input left (output ++ List.replicate n b) space := by
  have hi : (Int8.ofInt (-n)).toInt = -n := toInt_ctl_rep h
  have hn : 0 < n := h.1
  rw [packed, List.cons_append, List.cons_append, List.nil_append, decompressLoop.eq_def,
    if_neg (by simp only [Seg.size]; omega)]
  simp only [hi, neg_neg, Int.toNat_natCast]
  rw [if_pos (by omega), if_neg (by omega)]
  congr 1
  simp only [Seg.size]
  omega

/-- `SQZ_decompress` works off packed segments one by one. -/
theorem decompressLoop_packed {ss : List (Seg SCHAR)} (h : ∀ s ∈ ss, Encodable s)
    (rest output : List SCHAR) (left space : ℕ) (hs : output.length + (expand ss).length ≤ space) :
    decompressLoop (ss.flatMap packed ++ rest) (size ss + left : ℕ) output space =
      decompressLoop rest left (output ++ expand ss) space := by
  induction ss generalizing output with
  | nil => simp
  | cons s ss ih =>
      have hseg := h s List.mem_cons_self
      have ih := ih fun t ht => h t (List.mem_cons_of_mem s ht)
      rw [RunLength.expand_cons, List.length_append] at hs
      rw [List.flatMap_cons, List.append_assoc, RunLength.size_cons, Nat.add_assoc,
        RunLength.expand_cons, ← List.append_assoc output]
      cases s with
      | lit bs =>
          rw [Seg.expand] at hs
          rw [decompressLoop_lit hseg _ _ _ _ (by omega),
            ih _ (by rw [List.length_append]; omega), Seg.expand]
      | rep n b =>
          rw [Seg.expand, List.length_replicate] at hs
          rw [decompressLoop_rep hseg _ _ _ _ (by omega),
            ih _ (by rw [List.length_append, List.length_replicate]; omega), Seg.expand]

/-- Packed segments decompress to what they expand to. -/
theorem sqzDecompress_packed {ss : List (Seg SCHAR)} (h : ∀ s ∈ ss, Encodable s) {space : ℕ}
    (hs : (expand ss).length ≤ space) :
    sqzDecompress (ss.flatMap packed) (size ss) space = .ok (expand ss) := by
  have hloop := decompressLoop_packed h [] [] 0 space (by simpa using hs)
  rw [List.append_nil, Nat.add_zero] at hloop
  rw [sqzDecompress, hloop, decompressLoop.eq_def, if_pos (by simp), if_neg (by simpa using hs),
    List.nil_append]

/-! ## Round trip -/

/-- What `SQZ_fast` writes for a record along the chain of `SQZ_length`. -/
theorem sqzFast_sqzLength {data : List SCHAR} (h : data.length ≤ 65535) :
    sqzFast (sqzLength data).1.blocks data = some ((segments limits data).flatMap packed) := by
  have hfit : ∀ s ∈ segments limits data, Encodable s := fun s hs =>
    encodable_of_fits (RunLength.segments_fit limits data s hs)
  have hcopy := fastBlock_map_ctl hfit []
  rw [List.append_nil, RunLength.expand_segments] at hcopy
  rw [sqzFast_eq, ← Chain.controls, (sqzLength_eq h).1, hcopy]
  rfl

/-- The value of `SQZ_length` is the number of bytes `SQZ_fast` writes, and
`SQZ_decompress` of exactly these bytes, into a buffer of the length of the
record, gives the record back and stops at its end. -/
def RoundTrips (data : List SCHAR) : Prop :=
  ∃ out, sqzFast (sqzLength data).1.blocks data = some out ∧
    (sqzLength data).2 = out.length ∧
    sqzDecompress out (sqzLength data).2 data.length = .ok data

/-- Compressed size of a record, from the lengths of its maximal runs of equal
bytes: a run of three bytes or more takes two bytes for every 128 begun (its last
one or two bytes excepted), the bytes between take one each and one more for
every 127 begun. -/
def packedSize (data : List SCHAR) : ℕ := RunLength.runsSize limits 0 (RunLength.runs data)

/-- A record makes the round trip exactly when its compressed size is a `USHORT`. -/
theorem sqz_round_trip_iff {data : List SCHAR} (h : data.length ≤ 65535) :
    RoundTrips data ↔ packedSize data ≤ 65535 := by
  have hsize : size (segments limits data) = packedSize data := RunLength.size_segments limits data
  have hfast := sqzFast_sqzLength h
  have hlen := length_flatMap_packed (segments limits data)
  constructor
  · rintro ⟨out, hout, hret, -⟩
    have hout : out = (segments limits data).flatMap packed := by
      simpa using hout.symm.trans hfast
    rw [(sqzLength_eq h).2, hout, hlen, hsize] at hret
    have : ushort (packedSize data) < 65536 := Nat.mod_lt _ (by decide)
    omega
  · intro hle
    have hret : (sqzLength data).2 = size (segments limits data) := by
      rw [(sqzLength_eq h).2, ushort_of_le (by omega)]
    refine ⟨_, hfast, by rw [hret, hlen], ?_⟩
    have hfit : ∀ s ∈ segments limits data, Encodable s := fun s hs =>
      encodable_of_fits (RunLength.segments_fit limits data s hs)
    have hexp := RunLength.expand_segments limits data
    rw [hret, sqzDecompress_packed hfit (by rw [hexp]), hexp]

theorem sqz_round_trip_short : RoundTrips [1, 1, 1, 1, 2, 3] :=
  (sqz_round_trip_iff (by decide)).mpr (by decide)

/-- A record without two equal neighbours. -/
def alternating (n : ℕ) : List SCHAR := (List.range n).map fun i => Int8.ofNat (i % 2)

theorem length_alternating (n : ℕ) : (alternating n).length = n := by simp [alternating]

theorem getElem?_alternating {n i : ℕ} (h : i < n) :
    (alternating n)[i]? = some (Int8.ofNat (i % 2)) := by
  rw [alternating, List.getElem?_map, List.getElem?_range h, Option.map_some]

theorem litLen_alternating (n : ℕ) : litLen (alternating n) = n := by
  have hlen := length_alternating n
  by_contra hne
  have hlt : litLen (alternating n) < (alternating n).length := by
    have := RunLength.litLen_le (alternating n)
    omega
  obtain ⟨c, t, ht⟩ := RunLength.litLen_drop hlt
  generalize litLen (alternating n) = k at *
  have hk : k + 3 ≤ n := by
    have := congrArg List.length ht
    simp only [List.length_drop, List.length_cons] at this
    omega
  have h0 : (alternating n)[k]? = some c := by
    rw [← Nat.add_zero k, ← List.getElem?_drop, ht, List.getElem?_cons_zero]
  have h1 : (alternating n)[k + 1]? = some c := by
    rw [← List.getElem?_drop, ht, List.getElem?_cons_succ, List.getElem?_cons_zero]
  rw [getElem?_alternating (by omega), Option.some.injEq] at h0 h1
  rcases Nat.mod_two_eq_zero_or_one k with hm | hm
  · rw [hm] at h0
    rw [(by omega : (k + 1) % 2 = 1), ← h0] at h1
    exact absurd h1 (by decide)
  · rw [hm] at h0
    rw [(by omega : (k + 1) % 2 = 0), ← h0] at h1
    exact absurd h1 (by decide)

/-- A record of 65535 bytes without repeats takes 66052 bytes, which is no `USHORT`. -/
theorem sqz_round_trip_fails :
    (alternating 65535).length = 65535 ∧ ¬RoundTrips (alternating 65535) := by
  have hlen := length_alternating 65535
  refine ⟨hlen, fun h => ?_⟩
  have hle := (sqz_round_trip_iff (by omega)).mp h
  rw [packedSize, ← RunLength.size_segments, RunLength.size_segments_lit, litLen_alternating] at hle
  have : RunLength.litSize limits 65535 = 66052 := by decide
  omega

end Sqz
end Firebird
