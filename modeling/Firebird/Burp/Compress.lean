import Mathlib.Data.Int.Notation
import Mathlib.Tactic.Ring
import Firebird.Lib.Bytes

/-! # Compressed backup records (`burp/backup.epp`, `burp/restore.epp`)

`compress` writes literal stretches and repeats, each behind a byte with its length: positive for a
stretch, negative for a repeat. `decompress` fills a buffer from them, and clips what would go
behind its end. Pointers are the bytes from the pointer on.
-/

namespace Firebird.Burp

/-- `(UCHAR) (c)` -/
def uchar (c : ℤ) : UCHAR := ⟨(c % 256).toNat, by omega⟩

/-- `(SCHAR) c` -/
def schar (c : UCHAR) : ℤ := if c.val < 128 then c.val else (c.val : ℤ) - 256

/-! ## `compress` -/

/-- The bytes before three equal ones, `q - p - 2`, or all of them -/
def literalRun : List UCHAR → ℕ
  | a :: b :: c :: rest => if a ≠ b ∨ b ≠ c then literalRun (b :: c :: rest) + 1 else 0
  | rest => rest.length

example : literalRun [1, 2, 2, 2] = 1 := by simp [literalRun]

/-- `for (q = p; q < end && *q == *p; q++)` -/
def equalRun (c : UCHAR) : List UCHAR → ℕ
  | [] => 0
  | x :: rest => if x = c then equalRun c rest + 1 else 0

/-- The stretch in pieces of 127 bytes, and the pointer behind it -/
def putLiterals (run : ℕ) (p : List UCHAR) : List UCHAR × List UCHAR :=
  if 127 < run then
    let r := putLiterals (run - 127) (p.drop 127)
    (uchar 127 :: p.take 127 ++ r.1, r.2)
  else if run ≠ 0 then (uchar run :: p.take run, p.drop run)
  else ([], p)
termination_by run

example : putLiterals 1 [7, 8] = ([1, 7], [8]) := by simp [putLiterals, uchar]

/-- The repeat in pieces of 127 bytes -/
def putRepeats (run : ℕ) (c : UCHAR) : List UCHAR :=
  if 127 < run then uchar (-127) :: c :: putRepeats (run - 127) c
  else if run ≠ 0 then [uchar (-run), c]
  else []
termination_by run

example : putRepeats 3 7 = [253, 7] := by simp [putRepeats, uchar]

/-- The loop of `compress`; `run` is a `USHORT`. `none` is a loop that goes on. -/
def compressLoop : ℕ → List UCHAR → Option (List UCHAR)
  | _, [] => some []
  | 0, _ :: _ => none
  | k + 1, p@(_ :: _) =>
      let r := putLiterals (literalRun p % 65536) p
      let c := r.2.headD 0
      let run := equalRun c r.2 % 65536
      let q := if run ≠ 0 then r.2.drop (equalRun c r.2) else r.2
      (compressLoop k q).map (r.1 ++ putRepeats run c ++ ·)

/-- `compress`, the bytes it puts. A turn of the loop moves the pointer. -/
def compress (data : List UCHAR) : Option (List UCHAR) := compressLoop data.length data

/-! ## `decompress` -/

/-- What `decompress` leaves: the buffer, the bytes not read yet, and the number of adjustment
messages -/
structure Restored where
  buffer : List UCHAR
  rest : List UCHAR
  messages : ℕ
  deriving DecidableEq

/-- The loop of `decompress`. Each turn reads a byte. `none` is a read behind what was written. -/
def decompressLoop (length : ℕ) : ℕ → Restored → Option Restored
  | 0, r => if r.buffer.length < length then none else some r
  | k + 1, r =>
      if r.buffer.length < length then
        match r.rest with
        | [] => none
        | b :: rest =>
            let count := schar b
            let left : ℤ := length - r.buffer.length
            if 0 < count then
              let n := (if left < count then left else count).toNat
              let messages := if left < count then r.messages + 1 else r.messages
              if rest.length < n then none
              else decompressLoop length k ⟨r.buffer ++ rest.take n, rest.drop n, messages⟩
            else if count < 0 then
              let n := (if left + count < 0 then left else -count).toNat
              let messages := if left + count < 0 then r.messages + 1 else r.messages
              match rest with
              | [] => none
              | c :: rest =>
                  decompressLoop length k ⟨r.buffer ++ List.replicate n c, rest, messages⟩
            else decompressLoop length k ⟨r.buffer, rest, r.messages⟩
      else some r

/-- `decompress`; the error for a pointer behind the end is `none`, too. -/
def decompress (length : ℕ) (stream : List UCHAR) : Option Restored :=
  match decompressLoop length stream.length ⟨[], stream, 0⟩ with
  | none => none
  | some r => if length < r.buffer.length then none else some r

/-! ## Lengths -/

theorem val_uchar (n : ℤ) : ((uchar n).val : ℤ) = n % 256 :=
  Int.toNat_of_nonneg (Int.emod_nonneg n (by decide))

theorem schar_uchar {n : ℤ} (hlow : -127 ≤ n) (hhigh : n ≤ 127) : schar (uchar n) = n := by
  have hval := val_uchar n
  rw [schar]
  split <;> omega

theorem literalRun_le (p : List UCHAR) : literalRun p ≤ p.length := by
  induction p using literalRun.induct with
  | case1 a b c rest h ih =>
      rw [literalRun, if_pos h]
      exact Nat.succ_le_succ ih
  | case2 a b c rest h =>
      rw [literalRun, if_neg h]
      exact Nat.zero_le _
  | case3 p h =>
      rw [literalRun]
      exact h

theorem equalRun_le (c : UCHAR) (p : List UCHAR) : equalRun c p ≤ p.length := by
  induction p with
  | nil => exact le_rfl
  | cons x rest ih =>
      rw [equalRun]
      split
      · exact Nat.succ_le_succ ih
      · exact Nat.zero_le _

/-- A repeat is made of equal bytes. -/
theorem replicate_equalRun (c : UCHAR) (p : List UCHAR) :
    List.replicate (equalRun c p) c = p.take (equalRun c p) := by
  induction p with
  | nil => rfl
  | cons x rest ih =>
      rw [equalRun]
      split
      · rename_i heq
        rw [List.replicate_succ, List.take_succ_cons, ih, heq]
      · rfl

/-- Wherever the pointer stands, there is at least one equal byte. -/
theorem equalRun_pos {p : List UCHAR} (hp : p ≠ []) : 0 < equalRun (p.headD 0) p := by
  cases p with
  | nil => exact absurd rfl hp
  | cons x rest =>
      rw [List.headD_cons, equalRun, if_pos rfl]
      exact Nat.succ_pos _

/-! ## Round trip -/

/-- The bytes `out` are read as the bytes `x`, wherever they stand. -/
def Restores (out x : List UCHAR) : Prop :=
  ∀ (length k : ℕ) (buffer rest : List UCHAR) (messages : ℕ),
    buffer.length + x.length ≤ length → out.length + rest.length ≤ k →
      ∃ k', rest.length ≤ k' ∧
        decompressLoop length k ⟨buffer, out ++ rest, messages⟩ =
          decompressLoop length k' ⟨buffer ++ x, rest, messages⟩

theorem restores_nil : Restores [] [] := by
  intro length k buffer rest messages _ hk
  refine ⟨k, by simpa using hk, ?_⟩
  rw [List.nil_append, List.append_nil]

theorem Restores.append {out out' x x' : List UCHAR} (h : Restores out x) (h' : Restores out' x') :
    Restores (out ++ out') (x ++ x') := by
  intro length k buffer rest messages hlength hk
  rw [List.length_append] at hlength hk
  obtain ⟨k₁, hk₁, heq₁⟩ := h length k buffer (out' ++ rest) messages (by omega)
    (by rw [List.length_append]; omega)
  rw [List.length_append] at hk₁
  obtain ⟨k₂, hk₂, heq₂⟩ := h' length k₁ (buffer ++ x) rest messages
    (by rw [List.length_append]; omega) hk₁
  refine ⟨k₂, hk₂, ?_⟩
  rw [List.append_assoc, heq₁, heq₂, List.append_assoc]

/-- A stretch -/
theorem restores_literal {x : List UCHAR} (hpos : x ≠ []) (hx : x.length ≤ 127) :
    Restores (uchar x.length :: x) x := by
  intro length k buffer rest messages hlength hk
  have hlen : 0 < x.length := List.length_pos_iff.mpr hpos
  rw [List.length_cons] at hk
  obtain ⟨k, rfl⟩ : ∃ k', k = k' + 1 := ⟨k - 1, by omega⟩
  refine ⟨k, by omega, ?_⟩
  refine (if_pos (by dsimp only; omega)).trans ?_
  simp only [List.cons_append, schar_uchar (by omega : -127 ≤ (x.length : ℤ)) (by omega)]
  have hroom : ¬(length : ℤ) - buffer.length < x.length := by omega
  have hthere : ¬(x ++ rest).length < x.length := by
    rw [List.length_append]
    omega
  simp only [if_neg hroom, Int.toNat_natCast]
  rw [if_pos (by omega), if_neg hthere, List.take_left, List.drop_left]

/-- A repeat -/
theorem restores_repeat {n : ℕ} (c : UCHAR) (hpos : 0 < n) (hn : n ≤ 127) :
    Restores [uchar (-n), c] (List.replicate n c) := by
  intro length k buffer rest messages hlength hk
  rw [List.length_replicate] at hlength
  rw [List.length_cons, List.length_singleton] at hk
  obtain ⟨k, rfl⟩ : ∃ k', k = k' + 1 := ⟨k - 1, by omega⟩
  refine ⟨k, by omega, ?_⟩
  refine (if_pos (by dsimp only; omega)).trans ?_
  simp only [List.cons_append, List.nil_append, schar_uchar (by omega : -127 ≤ -(n : ℤ)) (by omega)]
  rw [if_neg (by omega), if_pos (by omega), if_neg (by omega), if_neg (by omega), neg_neg,
    Int.toNat_natCast]

theorem restores_putRepeats (run : ℕ) (c : UCHAR) :
    Restores (putRepeats run c) (List.replicate run c) := by
  induction run using Nat.strong_induction_on with
  | h run ih =>
      rw [putRepeats]
      split
      · rename_i hlong
        have hfirst := restores_repeat c (by decide : 0 < 127) le_rfl
        have hall := hfirst.append (ih (run - 127) (by omega))
        rwa [List.replicate_append_replicate, Nat.add_sub_cancel' hlong.le] at hall
      · split
        · exact restores_repeat c (by omega) (by omega)
        · rename_i hzero
          rw [not_not.mp hzero]
          exact restores_nil

theorem restores_putLiterals {run : ℕ} {p : List UCHAR} (h : run ≤ p.length) :
    Restores (putLiterals run p).1 (p.take run) ∧ (putLiterals run p).2 = p.drop run := by
  induction run using Nat.strong_induction_on generalizing p with
  | h run ih =>
      have hpiece : ∀ n, 0 < n → n ≤ 127 → n ≤ p.length →
          Restores (uchar n :: p.take n) (p.take n) := by
        intro n hpos hn hle
        have hlen : (p.take n).length = n := List.length_take_of_le hle
        have hliteral := @restores_literal (p.take n) (List.ne_nil_of_length_pos (by omega))
          (by omega)
        rwa [hlen] at hliteral
      rw [putLiterals]
      split
      · rename_i hlong
        obtain ⟨hrest, hdrop⟩ := ih (run - 127) (by omega) (p := p.drop 127)
          (by rw [List.length_drop]; omega)
        have hsplit : p.take run = p.take 127 ++ (p.drop 127).take (run - 127) := by
          rw [← List.take_add, Nat.add_sub_cancel' hlong.le]
        constructor
        · rw [hsplit]
          exact (hpiece 127 (by decide) le_rfl (by omega)).append hrest
        · rw [hdrop, List.drop_drop, Nat.add_sub_cancel' hlong.le]
      · split
        · exact ⟨hpiece run (by omega) (by omega) h, rfl⟩
        · rename_i hzero
          rw [not_not.mp hzero]
          exact ⟨restores_nil, rfl⟩

/-- The loop of `compress` ends, and what it puts is read as the data. -/
theorem compressLoop_restores {k : ℕ} {p : List UCHAR} (hk : p.length ≤ k) (hp : p.length ≤ 65535) :
    ∃ out, compressLoop k p = some out ∧ Restores out p := by
  induction k generalizing p with
  | zero =>
      obtain rfl : p = [] := List.length_eq_zero_iff.mp (by omega)
      exact ⟨[], rfl, restores_nil⟩
  | succ k ih =>
      cases p with
      | nil => exact ⟨[], rfl, restores_nil⟩
      | cons a t =>
          rw [compressLoop]
          generalize hwhole : a :: t = p at hk hp ⊢
          have hne : p ≠ [] := hwhole ▸ List.cons_ne_nil a t
          have hlen : 0 < p.length := List.length_pos_iff.mpr hne
          have hle := literalRun_le p
          rw [Nat.mod_eq_of_lt (by omega)]
          obtain ⟨hliterals, hbehind⟩ := restores_putLiterals hle
          rw [hbehind]
          generalize hq : p.drop (literalRun p) = q
          have hqlen : q.length = p.length - literalRun p := by rw [← hq, List.length_drop]
          have hequal := equalRun_le (q.headD 0) q
          rw [Nat.mod_eq_of_lt (by omega)]
          -- the pointer behind the repeat; at the end there is none
          have hmoved : (if equalRun (q.headD 0) q ≠ 0 then q.drop (equalRun (q.headD 0) q) else q) =
              q.drop (equalRun (q.headD 0) q) := by
            split
            · rfl
            · rename_i hzero
              rw [not_not.mp hzero, List.drop_zero]
          have hshorter : (q.drop (equalRun (q.headD 0) q)).length < p.length := by
            rw [List.length_drop]
            by_cases hend : q = []
            · rw [hend, List.length_nil]
              omega
            · have hpos := equalRun_pos hend
              omega
          obtain ⟨out, hout, hrest⟩ := ih (p := q.drop (equalRun (q.headD 0) q)) (by omega)
            (by omega)
          refine ⟨(putLiterals (literalRun p) p).1 ++
            putRepeats (equalRun (q.headD 0) q) (q.headD 0) ++ out, ?_, ?_⟩
          · rw [hmoved, hout]
            rfl
          · have hrepeats := restores_putRepeats (equalRun (q.headD 0) q) (q.headD 0)
            rw [replicate_equalRun] at hrepeats
            have hall := (hliterals.append hrepeats).append hrest
            have hpieces : p.take (literalRun p) ++ q.take (equalRun (q.headD 0) q) ++
                q.drop (equalRun (q.headD 0) q) = p := by
              rw [List.append_assoc, List.take_append_drop, ← hq, List.take_append_drop]
            rwa [hpieces] at hall

/-- What `compress` writes for up to 65535 bytes, `decompress` reads as these bytes: it reads no
byte behind them, and adjusts nothing. -/
theorem compress_round_trip (data : List UCHAR) (h : data.length ≤ 65535) :
    ∃ out, compress data = some out ∧ ∀ rest : List UCHAR,
      decompress data.length (out ++ rest) = some ⟨data, rest, 0⟩ := by
  obtain ⟨out, hout, hrestores⟩ := compressLoop_restores le_rfl h
  refine ⟨out, hout, fun rest => ?_⟩
  obtain ⟨k, -, heq⟩ := hrestores data.length (out ++ rest).length [] rest 0
    (by rw [List.length_nil]; omega) (List.length_append ..).ge
  have hend : decompressLoop data.length k ⟨[] ++ data, rest, 0⟩ = some ⟨data, rest, 0⟩ := by
    cases k with
    | zero => exact if_neg (Nat.lt_irrefl _)
    | succ k => exact if_neg (Nat.lt_irrefl _)
  rw [decompress, heq, hend]
  exact if_neg (Nat.lt_irrefl _)

/-- A stretch and a repeat -/
theorem compress_round_trip_four :
    ∃ out, compress [1, 2, 2, 2] = some out ∧ ∀ rest : List UCHAR,
      decompress 4 (out ++ rest) = some ⟨[1, 2, 2, 2], rest, 0⟩ :=
  compress_round_trip [1, 2, 2, 2] (by decide)

end Firebird.Burp
