import Firebird.Lib.Delta
import Firebird.Lib.Outcome
import Firebird.Jrd.Sqz

/-! # Difference records (`jrd/sqz.cpp`)

`SQZ_differences` writes a script that turns one record image into another,
`SQZ_apply_differences` runs it over a record buffer. The output buffer is kept
as the cells from its start to `out`; a cell that is reserved but not written
is `none`, so that the writes of a run can be read off.
-/

namespace Firebird.Sqz

open Delta (Op span splice Makes)

/-- `MAX_DIFFERENCES`, the longest string of differences that may be applied. -/
def maxDifferences : ℕ := 1024

/-! ## `SQZ_differences` -/

/-- The output buffer from its start to `out`. -/
abbrev Cells := List (Option SCHAR)

/-- `STUFF(val)`; running out of room ends `SQZ_differences`. -/
def stuff (length : ℕ) (out : Cells) (val : SCHAR) : Except Cells Cells :=
  if out.length < length then .ok (out ++ [some val]) else .error out

/-- The scan of differing bytes, `left` being `yellow - rec1 + 1`: how many there
are, and the output behind them. -/
def mismatchLoop (length : ℕ) (rec1 rec2 : List SCHAR) (out : Cells) :
    ℕ → Except Cells (ℕ × Cells)
  | 0 => .ok (0, out)
  | left + 1 =>
      if rec1[0]? ≠ rec2[0]? ∨ (rec1[1]? ≠ rec2[1]? ∧ left ≠ 0) then do
        let out ← stuff length out (rec2.headD 0)
        let r ← mismatchLoop length rec1.tail rec2.tail out left
        .ok (r.1 + 1, r.2)
      else .ok (0, out)

/-- The scan of equal bytes: how many of the `left` next ones agree. -/
def matchLoop (rec1 rec2 : List SCHAR) : ℕ → ℕ
  | 0 => 0
  | left + 1 => if rec1[0]? = rec2[0]? then matchLoop rec1.tail rec2.tail left + 1 else 0

/-- `while (l < -127) { STUFF(-127); l += 127; } if (l) { STUFF(l); }`, for `-l`. -/
def stuffMatch (length : ℕ) (l : ℕ) (out : Cells) : Except Cells Cells :=
  if 127 < l then do
    let out ← stuff length out (Int8.ofInt (-127))
    stuffMatch length (l - 127) out
  else if l ≠ 0 then stuff length out (Int8.ofInt (-l))
  else .ok out
termination_by l

/-- Every cell written lies in the buffer of `length` bytes. -/
def InBounds (length : ℕ) (out : Cells) : Prop :=
  ∀ (i : ℕ) (v : SCHAR), out[i]? = some (some v) → i < length

theorem inBounds_of_length_le {length : ℕ} {out : Cells} (h : out.length ≤ length) :
    InBounds length out := by
  intro i v hi
  have := (List.getElem?_eq_some_iff.mp hi).1
  omega

theorem inBounds_reserve {length : ℕ} {out : Cells} (h : InBounds length out) :
    InBounds length (out ++ [none]) := by
  intro i v hi
  rcases Nat.lt_or_ge i out.length with hlt | hge
  · rw [List.getElem?_append_left hlt] at hi
    exact h i v hi
  · rw [List.getElem?_append_right hge] at hi
    rcases hk : i - out.length with _ | k <;> simp [hk] at hi

theorem stuff_spec {length : ℕ} {out : Cells} (val : SCHAR) (h : InBounds length out) :
    Outcome.Holds (fun o => o = out ++ [some val] ∧ o.length ≤ length) (InBounds length)
      (stuff length out val) := by
  rw [stuff]
  split
  · rw [Outcome.holds_ok, List.length_append]
    exact ⟨rfl, by assumption⟩
  · exact h

/-- The bytes passed are copied, and at least one is when the first two differ. -/
theorem mismatchLoop_spec {length : ℕ} {rec1 rec2 : List SCHAR} {out : Cells} {left : ℕ}
    (hout : InBounds length out) (h2 : left ≤ rec2.length) :
    Outcome.Holds (fun r => r.1 ≤ left ∧ r.2 = out ++ (rec2.take r.1).map some ∧
        (0 < r.1 → r.2.length ≤ length) ∧
        (1 < left → rec1[0]? ≠ rec2[0]? ∨ rec1[1]? ≠ rec2[1]? → 0 < r.1))
      (InBounds length) (mismatchLoop length rec1 rec2 out left) := by
  induction left generalizing rec1 rec2 out with
  | zero => simp [mismatchLoop]
  | succ left ih =>
      rw [mismatchLoop]
      split
      · obtain ⟨b, rec2, rfl⟩ := List.exists_cons_of_length_pos (by omega : 0 < rec2.length)
        refine (stuff_spec _ hout).bind ?_
        rintro o ⟨rfl, hlen⟩
        refine (ih (inBounds_of_length_le hlen) (by simpa using h2)).bind ?_
        rintro ⟨n, o⟩ ⟨hn, ho, hpos, -⟩
        simp only at hn ho hpos
        subst ho
        refine ⟨by simpa using hn, by simp, fun _ => ?_, fun _ _ => Nat.succ_pos n⟩
        rcases Nat.eq_zero_or_pos n with rfl | hn0
        · simpa using hlen
        · exact hpos hn0
      · rename_i hsame
        refine ⟨by omega, by simp, by simp, fun hleft hdiff => ?_⟩
        exact absurd (hdiff.imp id fun h => ⟨h, by omega⟩) hsame

theorem mismatchLoop_pos {length : ℕ} {rec1 rec2 : List SCHAR} {out out' : Cells} {left n : ℕ}
    (hleft : 1 < left) (hdiff : rec1[0]? ≠ rec2[0]? ∨ rec1[1]? ≠ rec2[1]?)
    (h : mismatchLoop length rec1 rec2 out left = .ok (n, out')) : 0 < n := by
  obtain ⟨m, rfl⟩ : ∃ m, left = m + 1 := ⟨left - 1, by omega⟩
  rw [mismatchLoop, if_pos (hdiff.imp id fun h => ⟨h, by omega⟩)] at h
  refine @Outcome.Holds.of_ok _ _ (fun r => 0 < r.1) (fun _ => True) _ ?_ _ h
  exact (Outcome.holds_true _).bind fun _ _ => (Outcome.holds_true _).bind fun r _ =>
    Nat.succ_pos r.1

theorem matchLoop_pos {rec1 rec2 : List SCHAR} {left : ℕ} (hleft : 0 < left)
    (h : rec1[0]? = rec2[0]?) : 0 < matchLoop rec1 rec2 left := by
  obtain ⟨m, rfl⟩ : ∃ m, left = m + 1 := ⟨left - 1, by omega⟩
  rw [matchLoop, if_pos h]
  omega

/-- `while (end1 - rec1 > 2) …`, `left` being `end1 - rec1`. -/
def commonLoop (length : ℕ) (rec1 rec2 : List SCHAR) (left : ℕ) (out : Cells) :
    Except Cells (List SCHAR × Cells) :=
  if _ : 2 < left then
    if _ : rec1[0]? ≠ rec2[0]? ∨ rec1[1]? ≠ rec2[1]? then
      -- `p = out++`
      let p := out.length
      match _ : mismatchLoop length rec1 rec2 (out ++ [none]) (min left 127) with
      | .error out => .error out
      | .ok (n, out) =>
          commonLoop length (rec1.drop n) (rec2.drop n) (left - n)
            (out.set p (some (Int8.ofNat (out.length - p - 1))))
    else
      let l := matchLoop rec1 rec2 left
      match stuffMatch length l out with
      | .error out => .error out
      | .ok out => commonLoop length (rec1.drop l) (rec2.drop l) (left - l) out
  else .ok (rec2, out)
termination_by left
decreasing_by
  · rename_i hdiff h
    have := mismatchLoop_pos (by omega) hdiff h
    omega
  · rename_i hsame
    have := matchLoop_pos (by omega : 0 < left) (not_not.mp (not_or.mp hsame).1)
    omega

/-- `while (rec2 < yellow) { STUFF(*rec2++); }` -/
def copyLoop (length : ℕ) : List SCHAR → Cells → Except Cells Cells
  | [], out => .ok out
  | b :: bs, out => do
      let out ← stuff length out b
      copyLoop length bs out

/-- `while (rec2 < end2) …` -/
def tailLoop (length : ℕ) (rec2 : List SCHAR) (out : Cells) : Except Cells Cells :=
  if rec2 = [] then .ok out
  else do
    let p := out.length
    let out ← copyLoop length (rec2.take 127) (out ++ [none])
    tailLoop length (rec2.drop 127) (out.set p (some (Int8.ofNat (out.length - p - 1))))
termination_by rec2.length
decreasing_by
  have := List.length_pos_of_ne_nil (by assumption)
  simp only [List.length_drop]
  omega

/-- `SQZ_differences`: the value returned, and the output buffer. -/
def sqzDifferences (rec1 rec2 : List SCHAR) (length : ℕ) : ℕ × Cells :=
  let common := min rec1.length rec2.length
  match commonLoop length rec1 rec2 common [] >>= fun r => tailLoop length r.1 r.2 with
  | .ok out => (ushort out.length, out)
  | .error out => (32000, out)

/-! ## `SQZ_apply_differences` -/

/-- The loop of `SQZ_apply_differences`: `left` is `end - differences`, `p` an
offset into the record. -/
def applyLoop (differences : List SCHAR) (left : ℤ) (p : ℕ) (data : List SCHAR) :
    Except Abort (ℤ × ℕ × List SCHAR) :=
  if 0 < left ∧ p < data.length then
    match differences with
    | [] => .error .readBeyond
    | l :: differences =>
        if l.toInt > 0 then
          if p + l.toInt.toNat > data.length then .error (.bugcheck 177)
          else if differences.length < l.toInt.toNat then .error .readBeyond
          else
            applyLoop (differences.drop l.toInt.toNat) (left - 1 - l.toInt) (p + l.toInt.toNat)
              (data.take p ++ differences.take l.toInt.toNat ++ data.drop (p + l.toInt.toNat))
        else applyLoop differences (left - 1) (p + (-l.toInt).toNat) data
  else .ok (left, p, data)
termination_by differences.length
decreasing_by all_goals simp only [List.length_drop, List.length_cons]; omega

/-- `SQZ_apply_differences`: the length returned and the record afterwards. -/
def sqzApplyDifferences (data differences : List SCHAR) (len : ℕ) :
    Except Abort (ℕ × List SCHAR) :=
  if len > maxDifferences then .error (.bugcheck 176)
  else do
    let (left, p, data) ← applyLoop differences len 0 data
    let length := ushort p
    if length > data.length ∨ 0 < left then .error (.bugcheck 177) else .ok (length, data)

/-! ## The cells written are a script -/

/-- The bytes of an instruction. -/
def opBytes : Op SCHAR → List SCHAR
  | .copy bs => Int8.ofNat bs.length :: bs
  | .skip n => [Int8.ofInt (-n)]

/-- Instructions that fit a control byte. -/
def Stored (op : Op SCHAR) : Prop := 0 < op.span ∧ op.span ≤ 127

/-- The script `ops` stands behind `out`, within a buffer of `length` bytes. -/
structure Written (length : ℕ) (out out' : Cells) (ops : List (Op SCHAR)) : Prop where
  cells : out' = out ++ (ops.flatMap opBytes).map some
  stored : ∀ op ∈ ops, Stored op
  length_le : out'.length ≤ length

theorem written_nil {length : ℕ} {out : Cells} (h : out.length ≤ length) :
    Written length out out [] := ⟨by simp, by simp, h⟩

theorem Written.append {length : ℕ} {out out' out'' : Cells} {ops ops' : List (Op SCHAR)}
    (h : Written length out out' ops) (h' : Written length out' out'' ops') :
    Written length out out'' (ops ++ ops') := by
  refine ⟨?_, ?_, h'.length_le⟩
  · rw [h'.cells, h.cells, List.flatMap_append, List.map_append, List.append_assoc]
  · intro op hop
    rcases List.mem_append.mp hop with hop | hop
    · exact h.stored op hop
    · exact h'.stored op hop

/-- A block of literal bytes, once its length is patched in. -/
theorem written_copy {length : ℕ} {out : Cells} {bs : List SCHAR} (hb : Stored (.copy bs))
    (hl : (out ++ [none] ++ bs.map some).length ≤ length) :
    Written length out ((out ++ [none] ++ bs.map some).set out.length
      (some (Int8.ofNat ((out ++ [none] ++ bs.map some).length - out.length - 1)))) [.copy bs] := by
  have hlen : (out ++ [none] ++ bs.map some).length - out.length - 1 = bs.length := by
    simp only [List.length_append, List.length_cons, List.length_nil, List.length_map]
    omega
  refine ⟨?_, by simpa using hb, by simpa using hl⟩
  rw [hlen]
  simp [opBytes, List.append_assoc]

theorem written_skip {length : ℕ} {out : Cells} {n : ℕ} (hn : Stored (.skip n))
    (hl : (out ++ [some (Int8.ofInt (-n))]).length ≤ length) :
    Written length out (out ++ [some (Int8.ofInt (-n))]) [.skip n] :=
  ⟨by simp [opBytes], by simpa using hn, hl⟩

theorem stuffMatch_spec {length l : ℕ} {out : Cells} (hout : out.length ≤ length) :
    Outcome.Holds (fun o => ∃ ops, Written length out o ops ∧
        ∀ (s : List SCHAR) ops' old new, s.length = l → Makes ops' old new →
          Makes (ops ++ ops') (s ++ old) (s ++ new))
      (InBounds length) (stuffMatch length l out) := by
  induction l using Nat.strong_induction_on generalizing out with
  | _ l ih =>
      rw [stuffMatch]
      split
      · refine (stuff_spec _ (inBounds_of_length_le hout)).bind ?_
        rintro o ⟨rfl, ho⟩
        refine (ih (l - 127) (by omega) ho).mono ?_ fun _ h => h
        rintro o ⟨ops, hw, hmk⟩
        refine ⟨.skip 127 :: ops, ?_, ?_⟩
        · have hskip : Stored (.skip 127) := ⟨by decide, by decide⟩
          exact (written_skip hskip ho).append hw
        · intro s ops' old new hs hops
          have htake : (s.take 127).length = 127 := by rw [List.length_take]; omega
          have hrest := hmk (s.drop 127) ops' old new (by rw [List.length_drop]; omega) hops
          have hall := @Delta.makes_skip _ _ (s.take 127) _ _ hrest
          simpa only [htake, ← List.append_assoc, List.take_append_drop, List.cons_append] using hall
      · split
        · refine (stuff_spec _ (inBounds_of_length_le hout)).mono ?_ fun _ h => h
          rintro o ⟨rfl, ho⟩
          refine ⟨[.skip l], written_skip ⟨Nat.pos_of_ne_zero (by assumption), by
            simp only [Op.span]; omega⟩ ho, ?_⟩
          rintro s ops' old new rfl hops
          exact Delta.makes_skip hops
        · refine ⟨[], written_nil hout, ?_⟩
          intro s ops' old new hs hops
          obtain rfl := List.length_eq_zero_iff.mp (by omega : s.length = 0)
          simpa using hops

theorem matchLoop_le (rec1 rec2 : List SCHAR) (left : ℕ) : matchLoop rec1 rec2 left ≤ left := by
  induction left generalizing rec1 rec2 with
  | zero => simp [matchLoop]
  | succ left ih =>
      rw [matchLoop]
      split
      · have := ih rec1.tail rec2.tail
        omega
      · omega

theorem matchLoop_take (rec1 rec2 : List SCHAR) (left : ℕ) (h1 : left ≤ rec1.length)
    (h2 : left ≤ rec2.length) :
    rec1.take (matchLoop rec1 rec2 left) = rec2.take (matchLoop rec1 rec2 left) := by
  induction left generalizing rec1 rec2 with
  | zero => simp [matchLoop]
  | succ left ih =>
      obtain ⟨a, rec1, rfl⟩ := List.exists_cons_of_length_pos (by omega : 0 < rec1.length)
      obtain ⟨b, rec2, rfl⟩ := List.exists_cons_of_length_pos (by omega : 0 < rec2.length)
      rw [matchLoop]
      split
      · rename_i heq
        obtain rfl : a = b := by simpa using heq
        simpa using ih rec1 rec2 (by simpa using h1) (by simpa using h2)
      · rfl

/-- `ops` has been written for the first `n` bytes of both records. -/
structure Passed (length : ℕ) (rec1 rec2 : List SCHAR) (out out' : Cells) (n : ℕ)
    (ops : List (Op SCHAR)) : Prop where
  written : Written length out out' ops
  makes : ∀ ops' new, Makes ops' (rec1.drop n) new →
    Makes (ops ++ ops') rec1 (rec2.take n ++ new)

theorem passed_zero {length : ℕ} {rec1 rec2 : List SCHAR} {out : Cells} (h : out.length ≤ length) :
    Passed length rec1 rec2 out out 0 [] := ⟨written_nil h, fun _ _ h => by simpa using h⟩

theorem Passed.trans {length n m : ℕ} {rec1 rec2 : List SCHAR} {out out' out'' : Cells}
    {ops ops' : List (Op SCHAR)} (h : Passed length rec1 rec2 out out' n ops)
    (h' : Passed length (rec1.drop n) (rec2.drop n) out' out'' m ops') :
    Passed length rec1 rec2 out out'' (n + m) (ops ++ ops') := by
  refine ⟨h.written.append h'.written, ?_⟩
  intro rest new hrest
  rw [← List.drop_drop] at hrest
  rw [List.append_assoc, List.take_add, List.append_assoc]
  exact h.makes _ _ (h'.makes rest new hrest)

/-- A block of differing bytes. -/
theorem passed_mismatch {length left n : ℕ} {rec1 rec2 : List SCHAR} {out o : Cells}
    (hout : out.length ≤ length) (h2 : min left 127 ≤ rec2.length) (hleft : 1 < left)
    (hdiff : rec1[0]? ≠ rec2[0]? ∨ rec1[1]? ≠ rec2[1]?)
    (h : mismatchLoop length rec1 rec2 (out ++ [none]) (min left 127) = .ok (n, o)) :
    n ≤ left ∧ Passed length rec1 rec2 out
      (o.set out.length (some (Int8.ofNat (o.length - out.length - 1)))) n
      [.copy (rec2.take n)] := by
  obtain ⟨hn, ho, hlen, hpos⟩ :=
    (mismatchLoop_spec (inBounds_reserve (inBounds_of_length_le hout)) h2).of_ok h
  simp only at hn ho hlen hpos
  subst ho
  have hn0 : 0 < n := hpos (by omega) hdiff
  have hbs : (rec2.take n).length = n := by rw [List.length_take]; omega
  refine ⟨by omega, written_copy (by simp only [Stored, Op.span]; omega) (hlen hn0), ?_⟩
  intro ops' new hops
  exact Delta.makes_copy (by rwa [hbs])

/-- A stretch of equal bytes. -/
theorem passed_match {length l : ℕ} {rec1 rec2 : List SCHAR} {out o : Cells}
    (hout : out.length ≤ length) (h1 : l ≤ rec1.length) (htake : rec1.take l = rec2.take l)
    (h : stuffMatch length l out = .ok o) : ∃ ops, Passed length rec1 rec2 out o l ops := by
  obtain ⟨ops, hw, hmk⟩ := (stuffMatch_spec hout).of_ok h
  refine ⟨ops, hw, ?_⟩
  intro ops' new hops
  have := hmk (rec1.take l) ops' (rec1.drop l) new (by rw [List.length_take]; omega) hops
  rwa [List.take_append_drop, htake] at this

theorem commonLoop_spec {length left : ℕ} {rec1 rec2 : List SCHAR} {out : Cells}
    (hout : out.length ≤ length) (h1 : left ≤ rec1.length) (h2 : left ≤ rec2.length) :
    Outcome.Holds
      (fun r => ∃ n ops, r.1 = rec2.drop n ∧ Passed length rec1 rec2 out r.2 n ops)
      (InBounds length) (commonLoop length rec1 rec2 left out) := by
  induction left using Nat.strong_induction_on generalizing rec1 rec2 out with
  | _ left ih =>
      -- both branches pass some bytes and go on behind them
      have hnext : ∀ n o ops, 0 < n → n ≤ left → Passed length rec1 rec2 out o n ops →
          Outcome.Holds
            (fun r => ∃ n ops, r.1 = rec2.drop n ∧ Passed length rec1 rec2 out r.2 n ops)
            (InBounds length)
            (commonLoop length (rec1.drop n) (rec2.drop n) (left - n) o) := by
        intro n o ops hn hnl hp
        refine (ih (left - n) (by omega) hp.written.length_le (by rw [List.length_drop]; omega)
          (by rw [List.length_drop]; omega)).mono ?_ fun _ h => h
        rintro r ⟨m, ops', hr, hp'⟩
        exact ⟨n + m, ops ++ ops', by rw [hr, List.drop_drop], hp.trans hp'⟩
      rw [commonLoop]
      split
      · rename_i hleft
        split
        · rename_i hdiff
          dsimp only
          split
          · rename_i heq
            exact (mismatchLoop_spec (inBounds_reserve (inBounds_of_length_le hout))
              (by omega)).of_error heq
          · rename_i n o heq
            obtain ⟨hn, hp⟩ := passed_mismatch hout (by omega) (by omega) hdiff heq
            exact hnext n _ _ (mismatchLoop_pos (by omega) hdiff heq) hn hp
        · rename_i hsame
          have hle := matchLoop_le rec1 rec2 left
          have hpos := matchLoop_pos (by omega : 0 < left) (not_not.mp (not_or.mp hsame).1)
          dsimp only
          split
          · rename_i heq
            exact (stuffMatch_spec hout).of_error heq
          · rename_i o heq
            obtain ⟨ops, hp⟩ := passed_match hout (by omega) (matchLoop_take rec1 rec2 left h1 h2) heq
            exact hnext _ o ops hpos hle hp
      · exact ⟨0, [], by simp, passed_zero hout⟩

theorem copyLoop_spec {length : ℕ} {bs : List SCHAR} {out : Cells} (hout : InBounds length out) :
    Outcome.Holds (fun o => o = out ++ bs.map some ∧ (bs ≠ [] → o.length ≤ length))
      (InBounds length) (copyLoop length bs out) := by
  induction bs generalizing out with
  | nil => simp [copyLoop]
  | cons b bs ih =>
      rw [copyLoop]
      refine (stuff_spec _ hout).bind ?_
      rintro o ⟨rfl, ho⟩
      refine (ih (inBounds_of_length_le ho)).mono ?_ fun _ h => h
      rintro o ⟨rfl, hle⟩
      refine ⟨by simp, fun _ => ?_⟩
      rcases bs with _ | ⟨c, bs⟩
      · simpa using ho
      · exact hle (by simp)

theorem tailLoop_spec {length : ℕ} {rec2 : List SCHAR} {out : Cells} (hout : out.length ≤ length) :
    Outcome.Holds (fun o => ∃ ops, Written length out o ops ∧ ∀ old, Makes ops old rec2)
      (InBounds length) (tailLoop length rec2 out) := by
  induction hn : rec2.length using Nat.strong_induction_on generalizing rec2 out with
  | _ n ih =>
      rw [tailLoop]
      split
      · subst_vars
        exact ⟨[], written_nil hout, Delta.makes_nil⟩
      · rename_i hne
        have hpos := List.length_pos_of_ne_nil hne
        have hbs : (rec2.take 127).length = min 127 rec2.length := List.length_take
        refine (copyLoop_spec (inBounds_reserve (inBounds_of_length_le hout))).bind ?_
        rintro o ⟨rfl, ho⟩
        have hw := written_copy (by simp only [Stored, Op.span]; omega)
          (ho (by rw [← List.length_pos_iff]; omega))
        refine (ih (n - 127) (by omega) hw.length_le (by rw [List.length_drop]; omega)).mono ?_
          fun _ h => h
        rintro o ⟨ops, hw', hmk⟩
        refine ⟨.copy (rec2.take 127) :: ops, hw.append hw', fun old => ?_⟩
        have := Delta.makes_copy (hmk (old.drop (rec2.take 127).length))
        rwa [List.take_append_drop] at this

/-! ## Applying the script -/

theorem toInt_opBytes_copy {bs : List SCHAR} (h : Stored (.copy bs)) :
    (Int8.ofNat bs.length).toInt = bs.length :=
  Int8.toInt_ofNat_of_lt (by have : bs.length ≤ 127 := h.2; omega)

theorem toInt_opBytes_skip {n : ℕ} (h : Stored (.skip n)) : (Int8.ofInt (-n)).toInt = -n :=
  Int8.toInt_ofInt_of_le (by have : n ≤ 127 := h.2; omega) (by omega)

theorem applyLoop_copy {bs : List SCHAR} (h : Stored (.copy bs)) (rest data : List SCHAR)
    (left p : ℕ) (hp : p + bs.length ≤ data.length) :
    applyLoop (opBytes (.copy bs) ++ rest) ((opBytes (.copy bs)).length + left : ℕ) p data =
      applyLoop rest left (p + bs.length) (data.take p ++ bs ++ data.drop (p + bs.length)) := by
  have hpos : 0 < bs.length := h.1
  have hint := toInt_opBytes_copy h
  rw [opBytes, List.cons_append, applyLoop, if_pos ⟨by simp only [List.length_cons]; omega, by omega⟩]
  simp only [hint, Int.toNat_natCast]
  rw [if_pos (by omega), if_neg (by omega), if_neg (by rw [List.length_append]; omega)]
  have hleft : (((Int8.ofNat bs.length :: bs).length + left : ℕ) : ℤ) - 1 - bs.length = left := by
    simp only [List.length_cons]
    omega
  rw [hleft, List.drop_left, List.take_left]

theorem applyLoop_skip {n : ℕ} (h : Stored (.skip n)) (rest data : List SCHAR) (left p : ℕ)
    (hp : p + n ≤ data.length) :
    applyLoop (opBytes (.skip n) ++ rest) ((opBytes (.skip n)).length + left : ℕ) p data =
      applyLoop rest left (p + n) data := by
  have hpos : 0 < n := h.1
  have hint := toInt_opBytes_skip h
  rw [opBytes, List.cons_append, applyLoop, if_pos ⟨by simp only [List.length_cons]; omega, by omega⟩]
  simp only [hint, neg_neg, Int.toNat_natCast, List.nil_append]
  have hleft : (([Int8.ofInt (-n)].length + left : ℕ) : ℤ) - 1 = left := by
    simp only [List.length_cons, List.length_nil]
    omega
  rw [if_neg (by omega), hleft]

theorem applyLoop_nil (p : ℕ) (data : List SCHAR) :
    applyLoop [] (0 : ℕ) p data = .ok (0, p, data) := by
  rw [applyLoop, if_neg (by simp)]
  rfl

/-- Running the bytes of a script over a record is splicing. -/
theorem applyLoop_script {ops : List (Op SCHAR)} (h : ∀ op ∈ ops, Stored op) (p : ℕ)
    (data : List SCHAR) (hp : p + span ops ≤ data.length) :
    applyLoop (ops.flatMap opBytes) (ops.flatMap opBytes).length p data =
      .ok (0, p + span ops, data.take p ++ splice ops (data.drop p)) := by
  induction ops generalizing p data with
  | nil =>
      rw [List.flatMap_nil, List.length_nil, applyLoop_nil, splice, List.take_append_drop,
        Delta.span_nil, Nat.add_zero]
  | cons op ops ih =>
      have hop := h op (by simp)
      have hops : ∀ op ∈ ops, Stored op := fun o ho => h o (by simp [ho])
      rw [Delta.span_cons] at hp
      rw [List.flatMap_cons, List.length_append]
      cases op with
      | copy bs =>
          simp only [Op.span] at hp
          rw [applyLoop_copy hop _ _ _ _ (by omega)]
          have htake : (data.take p ++ bs).length = p + bs.length := by
            rw [List.length_append, List.length_take]
            omega
          rw [ih hops _ _ (by rw [List.length_append, htake, List.length_drop]; omega),
            List.take_left' htake, List.drop_left' htake, splice, List.drop_drop, List.append_assoc,
            Delta.span_cons, Op.span, Nat.add_assoc]
      | skip n =>
          simp only [Op.span] at hp
          rw [applyLoop_skip hop _ _ _ _ (by omega), ih hops _ _ (by omega), splice, List.drop_drop,
            List.take_add, List.append_assoc, Delta.span_cons, Op.span, Nat.add_assoc]

/-! ## Main results -/

/-- The bytes that stand in the output buffer. -/
def written (out : Cells) : List SCHAR := out.reduceOption

/-- `SQZ_differences` runs out of room, or it returns the length of a string that
turns every record buffer beginning with `rec1` into one beginning with `rec2`;
nothing is written beyond the output buffer. -/
def Reproduces (rec1 rec2 : List SCHAR) (length : ℕ) : Prop :=
  InBounds length (sqzDifferences rec1 rec2 length).2 ∧
    ((sqzDifferences rec1 rec2 length).1 = 32000 ∨
      (sqzDifferences rec1 rec2 length).1 ≤ length ∧
        ((sqzDifferences rec1 rec2 length).1 ≤ maxDifferences →
          ∀ data, rec1 <+: data → rec2.length ≤ data.length → data.length ≤ 65535 →
            sqzApplyDifferences data (written (sqzDifferences rec1 rec2 length).2)
                (sqzDifferences rec1 rec2 length).1 =
              .ok (rec2.length, rec2 ++ data.drop rec2.length)))

/-- What `SQZ_differences` leaves in the output buffer. -/
theorem sqzDifferences_spec (rec1 rec2 : List SCHAR) (length : ℕ) :
    (sqzDifferences rec1 rec2 length).1 = 32000 ∧
        InBounds length (sqzDifferences rec1 rec2 length).2 ∨
      ∃ ops, Written length [] (sqzDifferences rec1 rec2 length).2 ops ∧ Makes ops rec1 rec2 ∧
        (sqzDifferences rec1 rec2 length).1 =
          ushort (sqzDifferences rec1 rec2 length).2.length := by
  have hrun : Outcome.Holds (fun o => ∃ ops, Written length [] o ops ∧ Makes ops rec1 rec2)
      (InBounds length)
      (commonLoop length rec1 rec2 (min rec1.length rec2.length) [] >>= fun r =>
        tailLoop length r.1 r.2) := by
    refine (commonLoop_spec (by simp) (Nat.min_le_left ..) (Nat.min_le_right ..)).bind ?_
    rintro ⟨rest, out⟩ ⟨n, ops, hrest, hp⟩
    refine (tailLoop_spec hp.written.length_le).mono ?_ fun _ h => h
    rintro out' ⟨ops', hw, hmk⟩
    refine ⟨ops ++ ops', hp.written.append hw, ?_⟩
    have := hp.makes ops' rest (hmk _)
    simp only at hrest
    rwa [hrest, List.take_append_drop] at this
  rw [sqzDifferences]
  split
  · rename_i heq
    obtain ⟨ops, hw, hmk⟩ := hrun.of_ok heq
    exact .inr ⟨ops, hw, hmk, rfl⟩
  · rename_i heq
    exact .inl ⟨rfl, hrun.of_error heq⟩

theorem sqzApplyDifferences_script {ops : List (Op SCHAR)} {rec1 rec2 data : List SCHAR}
    (hops : ∀ op ∈ ops, Stored op) (hmk : Makes ops rec1 rec2)
    (hlen : (ops.flatMap opBytes).length ≤ maxDifferences) (h1 : rec1 <+: data)
    (h2 : rec2.length ≤ data.length) (hd : data.length ≤ 65535) :
    sqzApplyDifferences data (ops.flatMap opBytes) (ops.flatMap opBytes).length =
      .ok (rec2.length, rec2 ++ data.drop rec2.length) := by
  have hloop := applyLoop_script hops 0 data (by rw [hmk.span_eq]; omega)
  rw [hmk.span_eq, Nat.zero_add, List.take_zero, List.nil_append, List.drop_zero,
    hmk.splice_buffer h1] at hloop
  have hlen2 : (rec2 ++ data.drop rec2.length).length = data.length := by
    rw [List.length_append, List.length_drop]
    omega
  rw [sqzApplyDifferences, if_neg (by omega), hloop]
  simp only [bind, Except.bind]
  rw [ushort_of_le (by omega), if_neg (by omega)]

/-- For every buffer size the writes stay inside the buffer and the value returned
fits it; and as long as the string is no longer than a `USHORT` can tell, which a
buffer of up to 65535 bytes guarantees, it reproduces `rec2`. -/
theorem sqz_differences_reproduces (rec1 rec2 : List SCHAR) (length : ℕ) :
    InBounds length (sqzDifferences rec1 rec2 length).2 ∧
      ((sqzDifferences rec1 rec2 length).1 = 32000 ∨
        (sqzDifferences rec1 rec2 length).1 ≤ length) ∧
      ((sqzDifferences rec1 rec2 length).2.length ≤ 65535 ∨ length ≤ 65535 →
        Reproduces rec1 rec2 length) := by
  rcases sqzDifferences_spec rec1 rec2 length with ⟨hret, hin⟩ | ⟨ops, hw, hmk, hret⟩
  · exact ⟨hin, .inl hret, fun _ => ⟨hin, .inl hret⟩⟩
  · have hin := inBounds_of_length_le hw.length_le
    have hle : (sqzDifferences rec1 rec2 length).1 ≤ length :=
      hret ▸ (Nat.mod_le _ _).trans hw.length_le
    refine ⟨hin, .inr hle, fun hshort => ⟨hin, .inr ⟨hle, ?_⟩⟩⟩
    intro hmax data h1 h2 hd
    have hbytes : written (sqzDifferences rec1 rec2 length).2 = ops.flatMap opBytes := by
      show List.filterMap id _ = _
      simp [hw.cells]
    have hcount : (sqzDifferences rec1 rec2 length).1 = (ops.flatMap opBytes).length := by
      have hcells : (sqzDifferences rec1 rec2 length).2.length = (ops.flatMap opBytes).length := by
        rw [hw.cells, List.nil_append, List.length_map]
      have := hw.length_le
      rw [hret, ushort_of_le (by omega), hcells]
    rw [hbytes, hcount]
    exact sqzApplyDifferences_script hw.stored hmk (by omega) h1 h2 hd

/-! ## A string of 65536 bytes -/

theorem copyLoop_of_le {length : ℕ} {bs : List SCHAR} {out : Cells}
    (h : out.length + bs.length ≤ length) : copyLoop length bs out = .ok (out ++ bs.map some) := by
  induction bs generalizing out with
  | nil => simp [copyLoop]
  | cons b bs ih =>
      simp only [List.length_cons] at h
      have hrest : copyLoop length bs (out ++ [some b]) = .ok (out ++ [some b] ++ bs.map some) :=
        ih (by rw [List.length_append, List.length_singleton]; omega)
      rw [copyLoop, stuff, if_pos (by omega), List.map_cons, List.append_cons out _ (bs.map some)]
      exact hrest

/-- Each block of 127 bytes of the tail takes 128. -/
theorem tailLoop_blocks {length k : ℕ} {rec2 : List SCHAR} {out : Cells}
    (hrec : rec2.length = 127 * k) (h : out.length + 128 * k ≤ length) :
    ∃ o, tailLoop length rec2 out = .ok o ∧ o.length = out.length + 128 * k := by
  induction k generalizing rec2 out with
  | zero =>
      obtain rfl := List.length_eq_zero_iff.mp hrec
      exact ⟨out, by rw [tailLoop, if_pos rfl], by omega⟩
  | succ k ih =>
      have hne : rec2 ≠ [] := List.ne_nil_of_length_pos (by omega)
      have hlen : (out ++ [none] ++ (rec2.take 127).map some).length = out.length + 128 := by
        simp only [List.length_append, List.length_map, List.length_take, List.length_singleton]
        omega
      rw [tailLoop, if_neg hne, copyLoop_of_le (by
        rw [List.length_append, List.length_singleton, List.length_take]; omega)]
      obtain ⟨o, ho, holen⟩ := @ih (rec2.drop 127)
        ((out ++ [none] ++ (rec2.take 127).map some).set out.length (some (Int8.ofNat
          ((out ++ [none] ++ (rec2.take 127).map some).length - out.length - 1))))
        (by rw [List.length_drop]; omega) (by rw [List.length_set, hlen]; omega)
      exact ⟨o, ho, by rw [holen, List.length_set]; omega⟩

theorem sqzApplyDifferences_zero (data differences : List SCHAR) :
    sqzApplyDifferences data differences 0 = .ok (0, data) := by
  have hloop : applyLoop differences (0 : ℕ) 0 data = .ok (0, 0, data) := by
    rw [applyLoop.eq_def, if_neg (by simp)]
    rfl
  rw [sqzApplyDifferences, if_neg (by simp), hloop]
  simp [bind, Except.bind, ushort]

/-- 512 full blocks make 65536 bytes, which are returned as 0. -/
theorem not_reproduces_blocks {rec2 : List SCHAR} (h : rec2.length = 127 * 512) :
    ¬Reproduces [] rec2 65536 := by
  obtain ⟨o, ho, hlen⟩ := @tailLoop_blocks 65536 512 rec2 [] h (by simp)
  have hrun : sqzDifferences [] rec2 65536 = (ushort o.length, o) := by
    rw [sqzDifferences, List.length_nil, Nat.zero_min, commonLoop, dif_neg (by omega)]
    simp only [bind, Except.bind, ho]
  have hzero : ushort o.length = 0 := by rw [hlen]; rfl
  rw [hzero] at hrun
  rintro ⟨-, hres⟩
  rw [hrun] at hres
  rcases hres with hfull | ⟨-, happly⟩
  · exact absurd hfull (by simp)
  · have := happly (Nat.zero_le _) rec2 List.nil_prefix (le_refl _) (by omega)
    rw [sqzApplyDifferences_zero, Except.ok.injEq, Prod.mk.injEq] at this
    omega

/-- An empty record, and one of 65024 bytes. -/
theorem sqz_differences_wraps : ¬Reproduces [] (List.replicate 65024 (1 : SCHAR)) 65536 :=
  not_reproduces_blocks List.length_replicate

end Firebird.Sqz
