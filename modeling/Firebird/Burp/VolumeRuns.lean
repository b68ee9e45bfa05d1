import Firebird.Burp.Volumes

/-! # Runs of a backup

Bytes are given one by one and in blocks, in any order, with any results of the system calls.
-/

namespace Firebird.Burp.Mvol

open Outcome
open Transition (System Reachable)

namespace State

variable {c : Config} {st : State} {given bytes : List UCHAR} {rs : List Results} {k : ℕ}

/-! ## Blocks -/

theorem Inv.copy (h : Inv c st given) (hle : (bytes.length : ℤ) ≤ st.cnt) :
    Inv c (st.copy bytes) (given ++ bytes) := by
  have hcnt := h.cnt_eq
  have hptr := h.ptr_le
  refine ⟨h.split, h.start, ⟨?_, ?_⟩, ?_, h.size, ?_⟩
  · show c.header ≤ st.ptr + bytes.length
    omega
  · show st.ptr + bytes.length ≤ st.start + st.size
    omega
  · show st.cnt - bytes.length = st.start + st.size - (st.ptr + bytes.length : ℕ)
    push_cast
    omega
  · have hbuffered : (st.copy bytes).buffered c = st.buffered c ++ bytes := by
      show (st.buf.store st.ptr bytes).load c.header (st.ptr + bytes.length - c.header) = _
      have hparts : st.ptr + bytes.length - c.header = (st.ptr - c.header) + bytes.length := by
        omega
      rw [hparts, Memory.load_add, Nat.add_sub_cancel' hptr.1, Memory.load_store,
        Memory.load_store_of_disjoint (.inl (by omega))]
      rfl
    show st.written c ++ (st.copy bytes).buffered c = _
    rw [hbuffered, ← List.append_assoc, h.data]

/-- Each `MVOL_write` of a block meets the condition. -/
def BlockSound (c : Config) : ℕ → State → List UCHAR → List Results → Prop
  | 0, _, _, _ => True
  | _ + 1, _, [], _ => True
  | k + 1, st, b :: bytes, rs =>
      if st.cnt ≤ 0 then
        match rs with
        | [] => True
        | r :: rs => Sound c st r.1 ∧ ∀ st', st.mvolWrite c b r.1 r.2 = .ok st' →
            BlockSound c k (st'.copy (bytes.take (min bytes.length st'.cnt.toNat)))
              (bytes.drop (min bytes.length st'.cnt.toNat)) rs
      else
        BlockSound c k (st.copy ((b :: bytes).take (min (bytes.length + 1) st.cnt.toNat)))
          ((b :: bytes).drop (min (bytes.length + 1) st.cnt.toNat)) rs

theorem Inv.cnt_nonneg (h : Inv c st given) : 0 ≤ st.cnt := by
  have hcnt := h.cnt_eq
  have hptr := h.ptr_le
  omega

/-- A buffer that is full is a number of blocks. -/
theorem Inv.dvd_of_full (h : Inv c st given) (hfull : st.cnt ≤ 0) : 512 ∣ st.ptr - st.start := by
  have hcnt := h.cnt_eq
  have hnonneg := h.cnt_nonneg
  have hsize : st.ptr - st.start = st.size := by omega
  rw [hsize]
  exact h.size.1

/-- The first `n` of the bytes, and the others -/
theorem Inv.copy_take (h : Inv c st given) (n : ℕ) :
    Inv c (st.copy (bytes.take (min n st.cnt.toNat)))
      (given ++ bytes.take (min n st.cnt.toNat)) := by
  refine h.copy ?_
  have hnonneg := h.cnt_nonneg
  rw [List.length_take]
  omega

theorem Inv.writeBlock_holds (h : Inv c st given) (hheader : c.header ≤ 512)
    (hs : BlockSound c k st bytes rs) :
    Outcome.Holds (fun st' => Inv c st' (given ++ bytes)) (· ≠ Stop.undefined)
      (writeBlock c k st bytes rs) := by
  induction k generalizing st given bytes rs with
  | zero =>
      rw [writeBlock]
      split
      · rename_i hnil
        rw [hnil.1, List.append_nil]
        exact h
      · exact nofun
  | succ k ih =>
      cases bytes with
      | nil =>
          rw [writeBlock, List.append_nil]
          split
          · exact h
          · exact nofun
      | cons b bytes =>
          rw [writeBlock.eq_def]
          dsimp only
          rw [BlockSound.eq_def] at hs
          dsimp only at hs
          split
          · rename_i hfull
            rw [if_pos hfull] at hs
            cases rs with
            | nil => exact nofun
            | cons r rs =>
                obtain ⟨hsound, hrest⟩ := hs
                have hwrite := @Inv.mvolWrite_holds c st r.1 r.2 given b h hheader hsound
                dsimp only
                cases hrun : st.mvolWrite c b r.1 r.2 with
                | error e => exact hwrite.of_error hrun
                | ok st' =>
                    obtain ⟨pad, -, hpad, hinv⟩ := hwrite.of_ok hrun
                    rw [hpad (h.dvd_of_full hfull), List.append_nil] at hinv
                    have hblock := ih (hinv.copy_take bytes.length) (hrest st' hrun)
                    rw [List.append_assoc, List.append_assoc, List.take_append_drop] at hblock
                    exact hblock
          · rename_i hfull
            rw [if_neg hfull] at hs
            have hblock := ih (h.copy_take (bytes.length + 1)) hs
            rw [List.append_assoc, List.take_append_drop] at hblock
            exact hblock

/-- Each turn of the loop takes a byte, so that more turns than there are bytes do nothing. -/
theorem writeBlock_fuel (hk : bytes.length ≤ k) {k' : ℕ} (hk' : bytes.length ≤ k') :
    writeBlock c k st bytes rs = writeBlock c k' st bytes rs := by
  induction k generalizing k' st bytes rs with
  | zero =>
      obtain rfl := List.eq_nil_of_length_eq_zero (Nat.le_zero.mp hk)
      cases k' with
      | zero => rfl
      | succ k' => simp [writeBlock]
  | succ k ih =>
      cases bytes with
      | nil =>
          cases k' with
          | zero => simp [writeBlock]
          | succ k' => rfl
      | cons b bytes =>
          obtain ⟨k', rfl⟩ : ∃ m, k' = m + 1 := ⟨k' - 1, by rw [List.length_cons] at hk'; omega⟩
          rw [List.length_cons] at hk hk'
          rw [writeBlock.eq_def, writeBlock.eq_def]
          dsimp only
          split
          · cases rs with
            | nil => rfl
            | cons r rs =>
                dsimp only
                cases st.mvolWrite c b r.1 r.2 with
                | error e => rfl
                | ok st' =>
                    refine ih ?_ ?_ <;> rw [List.length_drop] <;> omega
          · refine ih ?_ ?_ <;> rw [List.length_drop, List.length_cons] <;> omega

/-- `MVOL_write_block` -/
def mvolWriteBlock (c : Config) (st : State) (bytes : List UCHAR) (rs : List Results) :
    Except Stop State :=
  writeBlock c bytes.length st bytes rs

end State

/-! ## Runs -/

open State

/-- A call that gives bytes to the backup, with the results of the system calls in it -/
inductive Op where
  | write (b : UCHAR) (results : List Transfer) (tries : List Try)
  | block (bytes : List UCHAR) (rs : List Results)

namespace Op

def bytes : Op → List UCHAR
  | write b _ _ => [b]
  | block bytes _ => bytes

def run (c : Config) (st : State) : Op → Except Stop State
  | write b results tries => st.mvolWrite c b results tries
  | block bytes rs => st.mvolWriteBlock c bytes rs

/-- The condition of each call of `MVOL_write` -/
def Meets (c : Config) (st : State) : Op → Prop
  | write _ results _ => Sound c st results
  | block bytes rs => BlockSound c bytes.length st bytes rs

/-- The buffer is written as a number of blocks, so that no padding goes with it. -/
def Full (st : State) : Op → Prop
  | write _ _ _ => 512 ∣ st.ptr - st.start
  | block _ _ => True

end Op

/-- The state that `MVOL_init_write` leaves: the header is in the buffer. -/
def start (c : Config) (buf : Memory UCHAR) : State where
  buf := buf
  start := 0
  ptr := c.header
  cnt := c.ioSize - c.header
  size := c.ioSize
  actualSize := c.ioSize * c.blkFactor
  volumeCount := 1
  emptyFile := true
  files := c.files
  closed := []
  current := []

/-- A backup, with the bytes given so far -/
def backup (c : Config) : System (State × List UCHAR) Op where
  init s := ∃ buf, s = (start c buf, [])
  step s op s' := op.run c s.1 = .ok s'.1 ∧ s'.2 = s.2 ++ op.bytes

variable {c : Config} {s s' : State × List UCHAR} {op : Op}

theorem start_inv (hheader : c.header ≤ 512) (buf : Memory UCHAR) :
    Inv c (start c buf) [] := by
  have hsize := c.size_le
  have hstream : (start c buf).stream c = [] := by
    unfold State.stream
    split <;> rfl
  have hpast : (start c buf).past c = [] := by
    unfold State.past
    split <;> rfl
  refine ⟨rfl, .inl ⟨rfl, hstream⟩, ⟨le_rfl, ?_⟩, ?_, ⟨c.block, ?_, hsize, ?_⟩, ?_⟩
  · show c.header ≤ 0 + c.ioSize
    omega
  · show (c.ioSize : ℤ) - c.header = (0 : ℕ) + c.ioSize - c.header
    omega
  · exact Nat.dvd_mul_right_of_dvd c.block _
  · exact Nat.le_mul_of_pos_right _ c.factor_pos
  · rw [State.written, State.buffered, hstream, hpast]
    show [] ++ List.drop c.header [] ++ buf.load c.header (c.header - c.header) = []
    rw [Nat.sub_self, Memory.load_zero, List.drop_nil]
    rfl

/-- One call -/
theorem Op.run_holds (hheader : c.header ≤ 512) (h : Inv c s.1 s.2) (hmeets : op.Meets c s.1) :
    Outcome.Holds (fun st => ∃ given pad, pad.length < 512 ∧ (op.Full s.1 → pad = []) ∧
        given ++ op.bytes = s.2 ++ pad ++ op.bytes ∧ Inv c st (given ++ op.bytes))
      (· ≠ Stop.undefined) (op.run c s.1) := by
  cases op with
  | write b results tries =>
      refine (h.mvolWrite_holds hheader hmeets).mono ?_ fun _ he => he
      rintro st ⟨pad, hpad, hfull, hinv⟩
      exact ⟨s.2 ++ pad, pad, hpad, hfull, rfl, hinv⟩
  | block bytes rs =>
      refine (h.writeBlock_holds hheader hmeets).mono ?_ fun _ he => he
      intro st hinv
      exact ⟨s.2, [], by decide, fun _ => rfl, by rw [List.append_nil], hinv⟩

theorem one_block_le : 1024 ≤ 1024 := Nat.le_refl 1024

/-- A backup to one volume, with a header of the volume number only -/
def oneVolume : Config where
  header := 4
  volume := 0
  ioSize := 1024
  blkFactor := 1
  files := none
  volume_le := by decide
  block := by decide
  size_le := one_block_le
  factor_pos := Nat.one_pos

end Firebird.Burp.Mvol
