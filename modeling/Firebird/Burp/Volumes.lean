import Firebird.Burp.Mvol

/-! # What a backup has written

The bytes given are those in the volumes, without the headers, and those in the buffer.
-/

namespace Firebird.Burp.Mvol

open Outcome

namespace State

variable {c : Config} {st : State} {results : List Transfer} {tries : List Try}
  {ptr left n : ℕ} {full : Bool}

/-! ## The bytes of the volumes -/

/-- The data of the volumes that are full -/
def past (c : Config) (st : State) : List UCHAR :=
  if c.files.isSome then [] else st.closed.flatMap fun bytes => bytes.drop c.header

/-- What is in this volume. Split files are one volume, with the header at the start. -/
def stream (c : Config) (st : State) : List UCHAR :=
  if c.files.isSome then st.closed.flatten ++ st.current else st.current

/-- The data in the volumes -/
def written (c : Config) (st : State) : List UCHAR := st.past c ++ (st.stream c).drop c.header

/-- The data in the buffer -/
def buffered (c : Config) (st : State) : List UCHAR := st.buf.load c.header (st.ptr - c.header)

theorem load_drop (m : Memory UCHAR) (a n k : ℕ) : (m.load a n).drop k = m.load (a + k) (n - k) := by
  rcases Nat.le_total k n with hle | hle
  · obtain ⟨d, rfl⟩ := Nat.exists_eq_add_of_le hle
    rw [Memory.load_add, List.drop_append_of_le_length (by rw [Memory.length_load]),
      List.drop_eq_nil_of_le (by rw [Memory.length_load]), List.nil_append, Nat.add_sub_cancel_left]
  · rw [List.drop_eq_nil_of_le (by rwa [Memory.length_load]), Nat.sub_eq_zero_of_le hle,
      Memory.load_zero]

/-! ## The loop of `MVOL_write` -/

/-- The bytes that calls of `write` have taken -/
def moved : List Transfer → ℕ
  | [] => 0
  | .count n :: results => n + moved results
  | .failed :: results => moved results

/-- What a part of the loop leaves: `r` is the state, the pointer and the bytes left. -/
structure Wrote (c : Config) (st : State) (ptr left : ℕ) (results : List Transfer)
    (r : State × ℕ × ℕ) : Prop where
  moved_add : moved results + r.2.2 = left
  ptr_eq : r.2.1 = ptr + moved results
  buf_eq : r.1.buf = st.buf
  stream_eq : r.1.stream c = st.stream c ++ st.buf.load ptr (moved results)
  past_eq : r.1.past c = st.past c
  sizes : r.1.size = st.size ∧ r.1.actualSize = st.actualSize
  split : r.1.files.isSome = st.files.isSome
  start_eq : r.1.start = if results = [] then st.start else c.header
  full : r.2.2 ≠ 0 → c.files = none ∧ .count 0 ∈ results

theorem stream_switch (h : c.files.isSome = true) : st.switch.stream c = st.stream c := by
  rw [stream, stream, if_pos h, if_pos h, switch]
  simp

theorem past_switch (h : c.files.isSome = true) : st.switch.past c = st.past c := by
  rw [past, past, if_pos h, if_pos h]

/-- The next file goes on where the last one ends. -/
theorem nextFile_eq (h : st.files.isSome = c.files.isSome) :
    st.nextFile.buf = st.buf ∧ st.nextFile.stream c = st.stream c ∧
      st.nextFile.past c = st.past c ∧
      (st.nextFile.size = st.size ∧ st.nextFile.actualSize = st.actualSize) ∧
      st.nextFile.files.isSome = st.files.isSome ∧ st.nextFile.start = st.start := by
  unfold nextFile
  split
  · rename_i next rest hfiles
    have hsplit : c.files.isSome = true := by rw [← h, hfiles]; rfl
    exact ⟨rfl, stream_switch hsplit, past_switch hsplit, ⟨rfl, rfl⟩, by rw [hfiles]; rfl, rfl⟩
  · rename_i hfiles
    exact ⟨rfl, rfl, rfl, ⟨rfl, rfl⟩, by rw [hfiles]; rfl, rfl⟩
  · exact ⟨rfl, rfl, rfl, ⟨rfl, rfl⟩, rfl, rfl⟩

theorem request_le (st : State) (left : ℕ) : st.request left ≤ left := by
  unfold request
  split
  · split <;> omega
  · exact le_rfl

/-- One `write` that has taken bytes, or another file, before the rest of the loop -/
theorem Wrote.step {st' : State} {k : ℕ} {r : State × ℕ × ℕ}
    (h : Wrote c st' (ptr + k) (left - k) results r) (hk : k ≤ left)
    (hbuf : st'.buf = st.buf)
    (hstream : st'.stream c = st.stream c ++ st.buf.load ptr k) (hpast : st'.past c = st.past c)
    (hsizes : st'.size = st.size ∧ st'.actualSize = st.actualSize)
    (hsplit : st'.files.isSome = st.files.isSome) (hstart : st'.start = c.header) :
    Wrote c st ptr left (.count k :: results) r where
  moved_add := by
    have := h.moved_add
    rw [moved]
    omega
  ptr_eq := by rw [h.ptr_eq, moved, Nat.add_assoc]
  buf_eq := h.buf_eq.trans hbuf
  stream_eq := by
    rw [h.stream_eq, hstream, hbuf, moved, Memory.load_add, List.append_assoc]
  past_eq := h.past_eq.trans hpast
  sizes := ⟨h.sizes.1.trans hsizes.1, h.sizes.2.trans hsizes.2⟩
  split := h.split.trans hsplit
  start_eq := by
    rw [h.start_eq, if_neg (List.cons_ne_nil _ _), hstart, ite_self]
  full := fun hne => ⟨(h.full hne).1, List.mem_cons_of_mem _ (h.full hne).2⟩

/-- The loop, when no `write` fails -/
theorem writeLoop_holds (hsplit : st.files.isSome = c.files.isSome) (hno : .failed ∉ results) :
    Outcome.Holds (Wrote c st ptr left results) (· ≠ Stop.undefined)
      (writeLoop c results st ptr left) := by
  induction results generalizing st ptr left with
  | nil =>
      rw [writeLoop]
      split
      · rename_i hzero
        subst hzero
        refine ⟨rfl, rfl, rfl, ?_, rfl, ⟨rfl, rfl⟩, rfl, ?_, fun h => absurd rfl h⟩
        · exact (List.append_nil _).symm
        · exact (if_pos rfl).symm
      · exact nofun
  | cons result results ih =>
      have hrest : .failed ∉ results := fun h => hno (List.mem_cons_of_mem _ h)
      obtain ⟨hbuf, hstream, hpast, hsizes, hfiles, -⟩ := nextFile_eq hsplit
      cases result with
      | failed => exact absurd List.mem_cons_self hno
      | count n =>
          rw [writeLoop]
          split
          · exact nofun
          dsimp only
          split
          · exact nofun
          rename_i hn
          have hle : n ≤ left := (Nat.le_of_not_lt hn).trans (request_le _ _)
          -- the bytes are in the volume
          have htaken : State.stream c { st.nextFile with
              current := st.nextFile.current ++ st.nextFile.buf.load ptr n
              start := c.header } = st.stream c ++ st.buf.load ptr n := by
            rw [← hstream, ← hbuf]
            unfold stream
            split
            · exact (List.append_assoc _ _ _).symm
            · rfl
          split
          · have haccount : (st.nextFile.files.map fun f =>
                (if f.1 < left then 0 else f.1 - left, f.2)).isSome = c.files.isSome := by
              rw [Option.isSome_map, hfiles, hsplit]
            refine (ih haccount hrest).mono (fun r hr => ?_) fun _ he => he
            refine hr.step hle hbuf htaken hpast hsizes ?_ rfl
            exact haccount.trans hsplit.symm
          · rename_i hzero
            obtain rfl : n = 0 := not_not.mp hzero
            split
            · -- the next file
              rename_i length next rest hnext
              have hc : c.files.isSome = true := by
                rw [← hsplit, ← hfiles, hnext]
                rfl
              refine Outcome.Holds.mono (ih ?_ hrest) (fun r hr => ?_) fun _ he => he
              · exact hc.symm
              refine Wrote.step (k := 0) hr hle hbuf ?_ ?_ hsizes ?_ rfl
              · exact (stream_switch hc).trans htaken
              · exact (past_switch hc).trans hpast
              · exact hc.symm.trans hsplit.symm
            · exact nofun
            · rename_i hnone
              split
              · rename_i hnil
                subst hnil
                have hc : c.files = none := by
                  refine Option.not_isSome_iff_eq_none.mp ?_
                  rw [← hsplit, ← hfiles, hnone]
                  exact Bool.false_ne_true
                exact ⟨Nat.zero_add _, rfl, hbuf, htaken, hpast, hsizes, hfiles, rfl,
                  fun _ => ⟨hc, List.mem_cons_self⟩⟩
              · exact nofun

/-! ## The next volume -/

/-- What opening a volume keeps, and what is in it then -/
structure Opened (c : Config) (st : State) (full : Bool) (st' : State) : Prop where
  load_eq : ∀ a n, c.header ≤ a → st'.buf.load a n = st.buf.load a n
  closed_eq : st'.closed = st.closed
  current_eq : st'.current = if full then st'.buf.load 0 st.size else st.current
  sizes : st'.size = st.size ∧ st'.actualSize = st.actualSize
  files_eq : st'.files = st.files

theorem openVolume_holds :
    Outcome.Holds (Opened c st full) (· ≠ Stop.undefined) (openVolume c full tries st) := by
  induction tries generalizing st with
  | nil => exact nofun
  | cons t tries ih =>
      cases t with
      | noFile => exact ih
      | file result =>
          -- the number of the volume is in the header
          have hload : ∀ a n, c.header ≤ a →
              (st.buf.store c.volume (vaxInteger st.volumeCount)).load a n = st.buf.load a n := by
            intro a n ha
            refine Memory.load_store_of_disjoint (.inr ?_)
            exact c.volume_le.trans ha
          rw [openVolume]
          split
          · rename_i haccepted
            split
            · unfold writeHeader at haccepted ⊢
              dsimp only at haccepted ⊢
              cases full with
              | false =>
                  rw [if_neg Bool.false_ne_true]
                  exact ⟨hload, rfl, rfl, ⟨rfl, rfl⟩, rfl⟩
              | true =>
                  rw [if_pos rfl] at haccepted ⊢
                  split at haccepted
                  · rename_i hcount
                    rw [if_pos hcount]
                    exact ⟨hload, rfl, rfl, ⟨rfl, rfl⟩, rfl⟩
                  · cases haccepted
            · exact nofun
          · rename_i hrejected
            refine (@ih (st.writeHeader c full result).2).mono ?_ fun _ he => he
            intro st' h
            unfold writeHeader at h hrejected
            dsimp only at h hrejected
            cases full with
            | false => exact absurd rfl hrejected
            | true =>
                rw [if_pos rfl] at h hrejected
                split at h
                · rename_i hcount
                  rw [if_pos hcount] at hrejected
                  exact absurd rfl hrejected
                · exact ⟨fun a n ha => (h.load_eq a n ha).trans (hload a n ha), h.closed_eq,
                    h.current_eq, h.sizes, h.files_eq⟩

theorem memcpy_holds {m : Memory UCHAR} {dst src : ℕ} (h : n = 0 ∨ dst + n ≤ src) :
    Outcome.Holds (fun m' => m'.load dst n = m.load src n ∧
        ∀ a k, a + k ≤ dst ∨ dst + n ≤ a → m'.load a k = m.load a k) (· ≠ Stop.undefined)
      (memcpy m dst src n) := by
  rw [memcpy, if_pos (by rcases h with h | h <;> simp [h])]
  have hlen := Memory.length_load m src n
  refine ⟨?_, fun a k ha => Memory.load_store_of_disjoint (by rwa [hlen])⟩
  have hload := Memory.load_store m dst (m.load src n)
  rwa [hlen] at hload

/-- A volume that is full: what is left to write stands behind the header, or has been written to
the next volume as far as a block goes. -/
theorem moveRemainder_holds {total : ℕ} (hc : c.files = none)
    (hsame : left = total → ptr = c.header) (hmove : left ≠ total → c.header + left ≤ ptr)
    (hleft : left ≤ st.size) (hheader : 2 * c.header ≤ st.size) (hpos : 0 < c.header) :
    Outcome.Holds (fun r => r.1.written c ++ r.1.buf.load c.header (r.1.start + r.2 - c.header) =
          st.written c ++ st.buf.load ptr left ∧
        ((r.1.start = 0 ∧ r.1.stream c = []) ∨
          (r.1.start = c.header ∧ c.header ≤ (r.1.stream c).length)) ∧
        c.header ≤ r.1.start + r.2 ∧ r.2 < st.size ∧
        (r.1.size = st.size ∧ r.1.actualSize = st.actualSize) ∧ r.1.files = st.files)
      (· ≠ Stop.undefined) (st.moveRemainder c tries total ptr left) := by
  have hsplit : ¬c.files.isSome = true := by
    rw [hc]
    exact Bool.false_ne_true
  -- the remainder is moved behind the header
  have hbuf : Outcome.Holds (fun m => m.load c.header left = st.buf.load ptr left)
      (· ≠ Stop.undefined)
      (if left ≠ total then memcpy st.buf c.header ptr left else .ok st.buf) := by
    split
    · rename_i hne
      exact (memcpy_holds (.inr (hmove hne))).mono (fun m h => h.1) fun _ he => he
    · rename_i heq
      rw [hsame (not_not.mp heq)]
      exact rfl
  unfold moveRemainder
  refine hbuf.bind fun buf hbuf => ?_
  dsimp only
  refine (openVolume_holds (c := c)).bind fun st' hst' => ?_
  obtain ⟨hload, hclosed, hcurrent, hsizes, hfiles⟩ := hst'
  have hrest : st'.buf.load c.header left = st.buf.load ptr left :=
    (hload _ _ le_rfl).trans hbuf
  have hpast : st'.past c = st.written c := by
    rw [past, if_neg hsplit, hclosed, written, past, if_neg hsplit, stream, if_neg hsplit]
    simp [switch]
  have hstream : st'.stream c = st'.current := if_neg hsplit
  split
  · rename_i hfull
    rw [hfull, if_pos rfl] at hcurrent
    have hle : st.size ≤ left + c.header := of_decide_eq_true hfull
    have hsize : st'.size = st.size := hsizes.1
    change st'.current = st'.buf.load 0 st.size at hcurrent
    refine (memcpy_holds (.inr (by omega))).bind fun buf' hbuf' => ?_
    refine ⟨?_, .inr ⟨rfl, ?_⟩, Nat.le_add_right _ _, ?_, hsizes, hfiles⟩
    · -- the block that has been written, and what is behind it
      show st'.past c ++ (st'.stream c).drop c.header ++
        buf'.load c.header (c.header + (left + c.header - st'.size) - c.header) = _
      have hblock : left = (st.size - c.header) + (left + c.header - st.size) := by omega
      have hbehind : c.header + (st.size - c.header) = st.size := by omega
      rw [Nat.add_sub_cancel_left, hbuf'.1, hpast, hstream, hcurrent, load_drop, Nat.zero_add,
        List.append_assoc, ← hrest, hsize]
      conv_rhs => rw [hblock, Memory.load_add, hbehind]
    · show c.header ≤ (st'.stream c).length
      rw [hstream, hcurrent, Memory.length_load]
      omega
    · show left + c.header - st'.size < st.size
      omega
  · rename_i hfull
    have hfalse : decide (st.size ≤ left + c.header) = false := Bool.eq_false_iff.mpr hfull
    rw [hfalse, if_neg Bool.false_ne_true] at hcurrent
    have hempty : st'.current = [] := hcurrent
    refine ⟨?_, .inl ⟨rfl, hstream.trans hempty⟩, ?_, ?_, hsizes, hfiles⟩
    · show st'.past c ++ (st'.stream c).drop c.header ++
        st'.buf.load c.header (0 + (left + c.header) - c.header) = _
      rw [hpast, hstream, hempty, List.drop_nil, List.append_nil, Nat.zero_add,
        Nat.add_sub_cancel, hrest]
    · show c.header ≤ 0 + (left + c.header)
      omega
    · exact Nat.lt_of_not_le (of_decide_eq_false hfalse)

/-! ## Calls -/

/-- The bytes given are in the volumes and in the buffer. -/
structure Inv (c : Config) (st : State) (given : List UCHAR) : Prop where
  split : st.files.isSome = c.files.isSome
  start : (st.start = 0 ∧ st.stream c = []) ∨
    (st.start = c.header ∧ c.header ≤ (st.stream c).length)
  ptr_le : c.header ≤ st.ptr ∧ st.ptr ≤ st.start + st.size
  cnt_eq : st.cnt = st.start + st.size - st.ptr
  size : 512 ∣ st.size ∧ 512 ∣ st.actualSize ∧ 1024 ≤ st.size ∧ st.size ≤ st.actualSize
  data : st.written c ++ st.buffered c = given

/-- No `write` fails, and when a volume is full, all of its header has been written to it and the
remainder does not overlap with where it goes. -/
def Sound (c : Config) (st : State) (results : List Transfer) : Prop :=
  .failed ∉ results ∧
    (c.files = none → .count 0 ∈ results →
      (st.start = 0 → c.header ≤ moved results) ∧
        (moved results = 0 ∨
          c.header + upToBlock (st.ptr - st.start) ≤ st.start + 2 * moved results))

theorem upToBlock_spec (n : ℕ) : n ≤ upToBlock n ∧ upToBlock n < n + 512 ∧
    (512 ∣ n → upToBlock n = n) ∧ ∀ m, 512 ∣ m → n ≤ m → upToBlock n ≤ m := by
  unfold upToBlock
  refine ⟨by omega, by omega, fun h => by omega, fun m h hle => by omega⟩

variable {given : List UCHAR} {b : UCHAR}

/-- All that is to be written, with the padding of the block -/
theorem Inv.data_block (h : Inv c st given) :
    ∃ pad, pad.length < 512 ∧ (512 ∣ st.ptr - st.start → pad = []) ∧
      st.past c ++ (st.stream c ++ st.buf.load st.start (upToBlock (st.ptr - st.start))).drop
        c.header = given ++ pad := by
  obtain ⟨hle, hlt, hblock, -⟩ := upToBlock_spec (st.ptr - st.start)
  have hptr := h.ptr_le.1
  refine ⟨st.buf.load st.ptr (upToBlock (st.ptr - st.start) - (st.ptr - st.start)), ?_, ?_, ?_⟩
  · rw [Memory.length_load]
    omega
  · intro hdvd
    rw [hblock hdvd, Nat.sub_self, Memory.load_zero]
  · rw [← h.data, written, buffered]
    rcases h.start with ⟨hstart, hstream⟩ | ⟨hstart, hstream⟩
    · rw [hstart, Nat.sub_zero] at hle hlt ⊢
      rw [hstream, List.nil_append, load_drop, List.drop_nil, List.append_nil, List.append_assoc,
        Nat.zero_add]
      congr 1
      have hparts : upToBlock st.ptr - c.header =
          (st.ptr - c.header) + (upToBlock st.ptr - st.ptr) := by omega
      rw [hparts, Memory.load_add, Nat.add_sub_cancel' hptr]
    · rw [hstart] at hle hlt ⊢
      rw [List.drop_append_of_le_length hstream, List.append_assoc, List.append_assoc]
      congr 2
      have hparts : upToBlock (st.ptr - c.header) =
          (st.ptr - c.header) + (upToBlock (st.ptr - c.header) - (st.ptr - c.header)) := by omega
      conv_lhs => rw [hparts]
      rw [Memory.load_add, Nat.add_sub_cancel' hptr]

/-- What a call of `MVOL_write` has done when it puts its byte behind the `left` bytes that are
still to be written -/
structure Flushed (c : Config) (st : State) (r : State × ℕ) : Prop where
  data : r.1.written c ++ r.1.buf.load c.header (r.1.start + r.2 - c.header) =
    st.past c ++ (st.stream c ++ st.buf.load st.start (upToBlock (st.ptr - st.start))).drop c.header
  start : (r.1.start = 0 ∧ r.1.stream c = []) ∨
    (r.1.start = c.header ∧ c.header ≤ (r.1.stream c).length)
  header_le : c.header ≤ r.1.start + r.2
  lt : r.2 < st.size
  actualSize : r.1.actualSize = st.actualSize
  split : r.1.files.isSome = st.files.isSome

theorem header_pos (c : Config) : 0 < c.header := by
  have := c.volume_le
  omega

/-- All bytes have been written. -/
theorem Inv.flushed_all (h : Inv c st given) {r : State × ℕ × ℕ}
    (hr : Wrote c st st.start (upToBlock (st.ptr - st.start)) results r) (hzero : r.2.2 = 0) :
    Flushed c st (r.1, 0) := by
  obtain ⟨hle, -⟩ := upToBlock_spec (st.ptr - st.start)
  have hptr := h.ptr_le.1
  have hpos := header_pos c
  have hmoved : moved results = upToBlock (st.ptr - st.start) := by
    have := hr.moved_add
    omega
  have hstart : r.1.start = c.header := by
    rw [hr.start_eq]
    split
    · rename_i hnil
      rw [hnil, moved] at hmoved
      rcases h.start with ⟨hstart, -⟩ | ⟨hstart, -⟩
      · omega
      · exact hstart
    · rfl
  have hstream := hr.stream_eq
  rw [hmoved] at hstream
  refine ⟨?_, .inr ⟨hstart, ?_⟩, ?_, ?_, hr.sizes.2, hr.split⟩
  · show r.1.written c ++ r.1.buf.load c.header (r.1.start + 0 - c.header) = _
    rw [hstart, Nat.add_zero, Nat.sub_self, Memory.load_zero, List.append_nil, written,
      hr.past_eq, hstream]
  · show c.header ≤ (r.1.stream c).length
    rw [hstream, List.length_append, Memory.length_load]
    rcases h.start with ⟨hstart, -⟩ | ⟨-, hlen⟩
    · rw [hstart] at hle ⊢
      omega
    · omega
  · exact hstart.ge
  · have := h.size.2.2.1
    show 0 < st.size
    omega

/-- The volume is full. -/
theorem Inv.flushed_moved (h : Inv c st given) (hheader : c.header ≤ 512)
    (hs : Sound c st results) {r : State × ℕ × ℕ}
    (hr : Wrote c st st.start (upToBlock (st.ptr - st.start)) results r) (hleft : r.2.2 ≠ 0) :
    Outcome.Holds (Flushed c st) (· ≠ Stop.undefined)
      (r.1.moveRemainder c tries (upToBlock (st.ptr - st.start)) r.2.1 r.2.2) := by
  obtain ⟨-, -, -, hblock⟩ := upToBlock_spec (st.ptr - st.start)
  have hsize := hblock st.size h.size.1 (by have := h.ptr_le.2; omega)
  have hle := h.size.2.2.1
  have hpos := header_pos c
  obtain ⟨hc, hmem⟩ := hr.full hleft
  obtain ⟨hbegun, hmove⟩ := hs.2 hc hmem
  have hmoved := hr.moved_add
  have hptr := hr.ptr_eq
  have hrsize := hr.sizes.1
  -- the header of this volume has been written
  have hlen : c.header ≤ (st.stream c ++ st.buf.load st.start (moved results)).length := by
    rw [List.length_append, Memory.length_load]
    rcases h.start with ⟨hzero, -⟩ | ⟨-, hlen⟩
    · exact (hbegun hzero).trans (Nat.le_add_left _ _)
    · omega
  have hsame : r.2.2 = upToBlock (st.ptr - st.start) → r.2.1 = c.header := by
    intro heq
    rcases h.start with ⟨hzero, -⟩ | ⟨hone, -⟩
    · have := hbegun hzero
      omega
    · omega
  refine (moveRemainder_holds hc hsame (fun hne => ?_) ?_ ?_ hpos).mono ?_
    fun _ he => he
  · omega
  · omega
  · omega
  · rintro r' ⟨hdata, hstart', hheader', hlt, hsizes, hfiles⟩
    refine ⟨hdata.trans ?_, hstart', hheader', hlt.trans_eq hrsize,
      hsizes.2.trans hr.sizes.2, hfiles ▸ hr.split⟩
    rw [written, hr.past_eq, hr.stream_eq, hr.buf_eq, hptr, ← hmoved, Memory.load_add,
      ← List.append_assoc (st.stream c), List.drop_append_of_le_length hlen, List.append_assoc]

/-- One call of `MVOL_write` -/
theorem Inv.mvolWrite_holds (h : Inv c st given) (hheader : c.header ≤ 512)
    (hs : Sound c st results) :
    Outcome.Holds (fun st' => ∃ pad, pad.length < 512 ∧ (512 ∣ st.ptr - st.start → pad = []) ∧
        Inv c st' (given ++ pad ++ [b])) (· ≠ Stop.undefined)
      (st.mvolWrite c b results tries) := by
  unfold mvolWrite
  refine (writeLoop_holds h.split hs.1).bind fun r hr => ?_
  have hflushed : Outcome.Holds (Flushed c st) (· ≠ Stop.undefined)
      (if r.2.2 ≠ 0 then r.1.moveRemainder c tries (upToBlock (st.ptr - st.start)) r.2.1 r.2.2
        else if tries = [] then .ok (r.1, 0) else .error .pending) := by
    split
    · rename_i hleft
      exact h.flushed_moved hheader hs hr hleft
    · rename_i hzero
      split
      · exact h.flushed_all hr (not_not.mp hzero)
      · exact nofun
  refine hflushed.bind fun r' hr' => ?_
  obtain ⟨pad, hpad, hdvd, hblock⟩ := h.data_block
  obtain ⟨st', left⟩ := r'
  obtain ⟨hdata, hstart, hle, hlt, hactual, hsplit⟩ := hr'
  have hsize := h.size
  dsimp only at hdata hstart hle hlt hactual hsplit
  refine ⟨pad, hpad, hdvd, hsplit.trans h.split, hstart, ⟨?_, ?_⟩, ?_, ?_, ?_⟩
  · show c.header ≤ st'.start + left + 1
    omega
  · show st'.start + left + 1 ≤ st'.start + st'.actualSize
    omega
  · show (st'.actualSize : ℤ) - 1 - left = st'.start + st'.actualSize - (st'.start + left + 1 : ℕ)
    push_cast
    omega
  · show 512 ∣ st'.actualSize ∧ 512 ∣ st'.actualSize ∧ 1024 ≤ st'.actualSize ∧
      st'.actualSize ≤ st'.actualSize
    rw [hactual]
    exact ⟨hsize.2.1, hsize.2.1, hsize.2.2.1.trans hsize.2.2.2, le_rfl⟩
  · -- the byte stands behind what is left
    have hstored : (st'.buf.store (st'.start + left) [b]).load c.header
        (st'.start + left + 1 - c.header) =
          st'.buf.load c.header (st'.start + left - c.header) ++ [b] := by
      have hparts : st'.start + left + 1 - c.header = (st'.start + left - c.header) + 1 := by omega
      rw [hparts, Memory.load_add, Nat.add_sub_cancel' hle,
        Memory.load_store_of_disjoint (.inl (by omega))]
      exact congrArg _ (Memory.load_store _ _ [b])
    show st'.written c ++ (st'.buf.store (st'.start + left) [b]).load c.header
      (st'.start + left + 1 - c.header) = _
    rw [hstored, ← List.append_assoc, hdata, hblock]

end State

end Firebird.Burp.Mvol
