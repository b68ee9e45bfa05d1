import Firebird.Lib.Bytes
import Firebird.Lib.Memory
import Firebird.Lib.Outcome
import Firebird.Lib.Transition

/-! # Writing a backup

The bytes of a backup go through a buffer to volumes, or to the files of a split backup. The buffer
begins with the header of a volume, and a block is written from the header or from the data behind
it. The results of the system calls are given with the operation; a pattern of results that is not
that of one call is `pending`.
-/

namespace Firebird.Burp.Mvol

/-- The header, the sizes and the lengths of the split files -/
structure Config where
  /-- `mvol_io_data - mvol_io_header` -/
  header : ℕ
  /-- `mvol_io_volume - mvol_io_header` -/
  volume : ℕ
  ioSize : ℕ
  blkFactor : ℕ
  files : Option (ℕ × List ℕ)
  volume_le : volume + 4 ≤ header
  block : 512 ∣ ioSize
  size_le : 1024 ≤ ioSize
  factor_pos : 0 < blkFactor

/-- The result of `write` -/
inductive Transfer where
  | count (n : ℕ)
  | failed
  deriving DecidableEq

/-- A file that has been named for the next volume: the result of `open`, and that of writing a
full buffer with the header to it -/
inductive Try where
  | noFile
  | file (header : Transfer)
  deriving DecidableEq

inductive Stop where
  | raised
  | undefined
  | pending
  deriving DecidableEq

/-- The fields of `TGBL`, and what has been written to each volume -/
structure State where
  /-- The bytes from `mvol_io_header` on -/
  buf : Memory UCHAR
  /-- `mvol_io_buffer - mvol_io_header` -/
  start : ℕ
  /-- `io_ptr - mvol_io_header` -/
  ptr : ℕ
  cnt : ℤ
  size : ℕ
  actualSize : ℕ
  volumeCount : ℕ
  emptyFile : Bool
  files : Option (ℕ × List ℕ)
  closed : List (List UCHAR)
  current : List UCHAR

/-- `BURP_UP_TO_BLOCK` -/
def upToBlock (n : ℕ) : ℕ := (n + 511) / 512 * 512

/-- `memcpy`, which is not defined for areas that overlap -/
def memcpy (m : Memory UCHAR) (dst src n : ℕ) : Except Stop (Memory UCHAR) :=
  if n = 0 ∨ dst + n ≤ src ∨ src + n ≤ dst then .ok (m.store dst (m.load src n))
  else .error .undefined

/-- The number of a volume as in the header, the low byte first -/
def vaxInteger (n : ℕ) : List UCHAR :=
  [⟨n % 256, Bytes.mod_lt _⟩, ⟨n / 256 % 256, Bytes.mod_lt _⟩, ⟨n / 65536 % 256, Bytes.mod_lt _⟩,
    ⟨n / 16777216 % 256, Bytes.mod_lt _⟩]

namespace State

variable (c : Config) (st : State)

/-! ## Volumes -/

/-- The bytes go to another volume. -/
def switch : State := { st with closed := st.closed ++ [st.current], current := [] }

/-- `write_header`, for a volume that is not the first one -/
def writeHeader (full : Bool) (result : Transfer) : Bool × State :=
  let st := { st with buf := st.buf.store c.volume (vaxInteger st.volumeCount) }
  if full then
    if result = .count st.size then
      (true, { st with current := st.buf.load 0 st.size, emptyFile := false })
    else (false, st)
  else (true, st)

/-- The loop of `next_volume` -/
def openVolume (full : Bool) : List Try → State → Except Stop State
  | [], _ => .error .pending
  | .noFile :: tries, st => openVolume full tries st
  | .file result :: tries, st =>
      let r := st.writeHeader c full result
      if r.1 then if tries = [] then .ok r.2 else .error .pending
      else openVolume full tries r.2

/-- `next_volume` -/
def nextVolume (full : Bool) (tries : List Try) : Except Stop State :=
  let st := { st.switch with
    volumeCount := if st.emptyFile then st.volumeCount else st.volumeCount + 1
    emptyFile := true }
  openVolume c full tries st

/-! ## `MVOL_write` -/

/-- Split files: the next file when the length of this one is used up -/
def nextFile : State :=
  match st.files with
  | some (0, next :: rest) => { st.switch with files := some (next, rest) }
  | some (0, []) => { st with files := some (4294967295, []) }
  | _ => st

/-- The length that `write` is called with -/
def request (left : ℕ) : ℕ :=
  match st.files with
  | some (length, _) => if length < left then length else left
  | none => left

/-- What has been taken off the length of a split file, when something has been written -/
def account (left : ℕ) : State :=
  { st with
    emptyFile := false
    files := st.files.map fun f => (if f.1 < left then 0 else f.1 - left, f.2) }

/-- The loop, from `ptr` on with `left` bytes to write; when a volume is full it ends with bytes
left. The results of `write` are assigned to an unsigned variable. -/
def writeLoop : List Transfer → State → ℕ → ℕ → Except Stop (State × ℕ × ℕ)
  | [], st, ptr, left => if left = 0 then .ok (st, ptr, 0) else .error .pending
  | result :: results, st, ptr, left =>
      if left = 0 then .error .pending
      else
        let st := st.nextFile
        match result with
        | .failed =>
            -- the largest `ULONG` is not 0, and is cut to `left`
            writeLoop results { st.account left with start := c.header } (ptr + left) 0
        | .count n =>
            if st.request left < n then .error .pending
            else
              let st := { st with
                current := st.current ++ st.buf.load ptr n
                start := c.header }
              if n ≠ 0 then writeLoop results (st.account left) (ptr + n) (left - n)
              else
                -- nothing has been written: `errno` is not looked at
                match st.files with
                | some (length, next :: rest) =>
                    writeLoop results
                      { st.switch with files := some ((next + length) % 4294967296, rest) } ptr left
                | some (_, []) => .error .raised
                | none => if results = [] then .ok (st, ptr, left) else .error .pending

/-- The remainder goes behind the header of a new volume. -/
def moveRemainder (tries : List Try) (total ptr left : ℕ) : Except Stop (State × ℕ) := do
  let buf ← (if left ≠ total then memcpy st.buf c.header ptr left else .ok st.buf)
  let left := left + c.header
  let full := decide (st.size ≤ left)
  let st ← ({ st with buf := buf } : State).nextVolume c full tries
  if full then
    let buf ← memcpy st.buf c.header st.size (left - st.size)
    return ({ st with buf := buf, start := c.header }, left - st.size)
  else return ({ st with start := 0 }, left)

/-- `MVOL_write`, with the results of the calls of `write` and of the files that are named -/
def mvolWrite (b : UCHAR) (results : List Transfer) (tries : List Try) : Except Stop State := do
  let total := upToBlock (st.ptr - st.start)
  let r ← writeLoop c results st st.start total
  let (st, left) ←
    (if r.2.2 ≠ 0 then r.1.moveRemainder c tries total r.2.1 r.2.2
    else if tries = [] then .ok (r.1, 0) else .error .pending)
  return { st with
    buf := st.buf.store (st.start + left) [b]
    ptr := st.start + left + 1
    size := st.actualSize
    cnt := st.actualSize - 1 - left }

/-- The results of the calls that one `MVOL_write` makes -/
abbrev Results := List Transfer × List Try

/-- Bytes copied to the buffer -/
def copy (bytes : List UCHAR) : State :=
  { st with
    buf := st.buf.store st.ptr bytes
    ptr := st.ptr + bytes.length
    cnt := st.cnt - bytes.length }

/-- `MVOL_write_block`, with the results for each time the buffer is full; at least one byte is
taken in each turn of the loop. -/
def writeBlock : ℕ → State → List UCHAR → List Results → Except Stop State
  | 0, st, bytes, rs => if bytes = [] ∧ rs = [] then .ok st else .error .pending
  | _ + 1, st, [], rs => if rs = [] then .ok st else .error .pending
  | k + 1, st, b :: bytes, rs =>
      if st.cnt ≤ 0 then
        match rs with
        | [] => .error .pending
        | r :: rs => do
            let st ← st.mvolWrite c b r.1 r.2
            let n := min bytes.length st.cnt.toNat
            writeBlock k (st.copy (bytes.take n)) (bytes.drop n) rs
      else
        let n := min (bytes.length + 1) st.cnt.toNat
        writeBlock k (st.copy ((b :: bytes).take n)) ((b :: bytes).drop n) rs

end State

end Firebird.Burp.Mvol
