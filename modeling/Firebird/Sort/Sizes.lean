import Mathlib.Tactic.Ring
import Firebird.Lib.Outcome
import Firebird.Sort.Space

/-! # Sizes of sort records and buffers (`merge_runs`, `SORT_sort` in `jrd/sort.cpp`)

Pointers have 32 bits. The length of a record passes through variables of 16 bits: `gen_sort` admits
it, `SORT_init` rounds it up to longwords and adds one for the back pointer, which `merge_runs` and
`SORT_sort` take away again before they divide the sort memory among the runs.
-/

namespace Firebird.Sort.Sizes

open Scratch Extent

/-- What a `USHORT` holds of a number -/
def ushort (n : ℕ) : ℕ := n % 65536

theorem ushort_eq {n : ℕ} (h : n < 65536) : ushort n = n := Nat.mod_eq_of_lt h

/-- An `SSHORT` with the bits of a `USHORT`, as a `ULONG` -/
def sshort (n : ℕ) : ℕ := if n < 32768 then n else n + 4294901760

inductive Fault where
  | divideByZero
  /-- `isc_sort_rec_size_err` -/
  | sortRecSizeErr (map_length : ℕ)
deriving DecidableEq

def div (a b : ℕ) : Except Fault ℕ := if b = 0 then .error .divideByZero else .ok (a / b)

def ROUNDUP (n b : ℕ) : ℕ := (n + b - 1) / b * b

def MAX_SORT_RECORD : ℕ := 65535

/-- `SIZEOF_SR_BCKPTR_IN_LONGS` -/
def BCKPTR : ℕ := 1

def SORT_BUFFER_CHUNK_SIZE : ℕ := 4096

def MIN_SORT_BUFFER_SIZE : ℕ := SORT_BUFFER_CHUNK_SIZE * 4

def MAX_SORT_BUFFER_SIZE : ℕ := SORT_BUFFER_CHUNK_SIZE * 32

/-- A sort context block -/
structure Scb where
  longs : ℕ
  sizeMemory : ℕ

/-- The check at the end of `gen_sort`, and `smb_length` -/
def gen_sort (map_length : ℕ) : Except Fault ℕ :=
  if map_length > MAX_SORT_RECORD then .error (.sortRecSizeErr map_length)
  else .ok (ushort map_length)

/-- What `SORT_init` makes of the length, where `size_memory` is what the loop over the sizes of the
memory ends with -/
def SORT_init (record_length size_memory : ℕ) : Scb :=
  ⟨ushort (ROUNDUP (record_length + 4) 4 / 4), size_memory⟩

/-- The back pointer is taken away. -/
def Scb.bare (scb : Scb) : ℕ := ushort (scb.longs + 65536 - BCKPTR)

/-- The buffer of a run: a part of the sort memory, or one that is allocated for it -/
inductive RunBuffer where
  | carved (e : Extent)
  | allocated (length : ℕ)
deriving DecidableEq

def RunBuffer.length : RunBuffer → ℕ
  | .carved e => e.length
  | .allocated length => length

/-- The loop over the runs in `merge_runs`: the buffers and the rest of the sort memory -/
def divvy (rec_size size : ℕ) : ℕ → ℕ → List RunBuffer × ℕ
  | 0, buffer => ([], buffer)
  | n + 1, buffer =>
    if size = 0 then
      (.allocated (rec_size * 2) :: (divvy rec_size size n buffer).1,
        (divvy rec_size size n buffer).2)
    else
      (.carved ⟨buffer, size⟩ :: (divvy rec_size size n (buffer + size)).1,
        (divvy rec_size size n (buffer + size)).2)

/-- What `merge_runs` computes before it merges: the size of a record in bytes, the buffers of the
runs, and the one of the run they are merged to -/
structure Plan where
  recSize : ℕ
  runs : List RunBuffer
  tempRun : RunBuffer
deriving DecidableEq

def merge_runs (scb : Scb) (n : ℕ) : Except Fault Plan :=
  let rec_size := ushort (scb.bare * 4)
  (div scb.sizeMemory rec_size).bind fun records =>
    (div (ushort records) (ushort (2 * n))).bind fun share =>
      let (runs, buffer) := divvy rec_size (rec_size * share) n 0
      .ok ⟨rec_size, runs, .carved ⟨buffer, records * rec_size - buffer⟩⟩

/-- The two loops over the runs in `SORT_sort` -/
def allot (size : ℕ) : ℕ → ℕ → ℕ → List RunBuffer
  | 0, _, _ => []
  | runs + 1, 0, buffer => .allocated size :: allot size runs 0 buffer
  | runs + 1, count + 1, buffer => .carved ⟨buffer, size⟩ :: allot size runs count (buffer + size)

/-- The buffers of `SORT_sort`, in longwords -/
def SORT_sort (scb : Scb) (run_count : ℕ) : Except Fault (List RunBuffer) :=
  let temp := scb.sizeMemory / 4
  (div temp (ulong (scb.bare * run_count))).bind fun count =>
    if count ≠ 0 then .ok (allot (ulong (count * sshort scb.bare)) run_count run_count 0)
    else
      (div temp scb.bare).bind fun count => .ok (allot (sshort scb.bare) run_count count 0)

/-! ## What has to hold -/

/-- The parts of the sort memory -/
def carved (bs : List RunBuffer) : List Extent :=
  bs.filterMap fun
    | .carved e => some e
    | .allocated _ => none

/-- No buffer is empty, each one is for a whole number of records, and the buffers in the sort
memory lie in it and apart from each other. -/
def Sound (memory record : ℕ) (bs : List RunBuffer) : Prop :=
  (∀ b ∈ bs, 0 < b.length ∧ record ∣ b.length) ∧ Within 0 memory (carved bs)

/-- The loop over the sizes of the memory ends with such a size. -/
def MemorySize (m : ℕ) : Prop :=
  MIN_SORT_BUFFER_SIZE ≤ m ∧ m ≤ MAX_SORT_BUFFER_SIZE ∧ SORT_BUFFER_CHUNK_SIZE ∣ m

instance (m : ℕ) : Decidable (MemorySize m) := inferInstanceAs (Decidable (_ ∧ _))

/-- A record in longwords, without the back pointer -/
def recordLongs (record_length : ℕ) : ℕ := ROUNDUP record_length 4 / 4

def MergeSound (record_length m n : ℕ) : Prop :=
  ∃ p, merge_runs (SORT_init record_length m) n = .ok p ∧
    p.recSize = ROUNDUP record_length 4 ∧
      Sound m (ROUNDUP record_length 4) (p.runs ++ [p.tempRun])

def SortSound (record_length m run_count : ℕ) : Prop :=
  ∃ bs, SORT_sort (SORT_init record_length m) run_count = .ok bs ∧
    Sound (m / 4) (recordLongs record_length) bs

/-! ## The loops over the runs -/

theorem div_zero (a : ℕ) : div a 0 = .error .divideByZero := rfl

theorem div_of_pos {b : ℕ} (a : ℕ) (h : b ≠ 0) : div a b = .ok (a / b) := if_neg h

section

variable {rec_size size m : ℕ}

theorem divvy_succ (hs : size ≠ 0) (n buffer : ℕ) : divvy rec_size size (n + 1) buffer =
    (.carved ⟨buffer, size⟩ :: (divvy rec_size size n (buffer + size)).1,
      (divvy rec_size size n (buffer + size)).2) := if_neg hs

/-- Without a share every run gets its own buffer. -/
theorem divvy_zero (n buffer : ℕ) :
    divvy rec_size 0 n buffer = (List.replicate n (.allocated (rec_size * 2)), buffer) := by
  induction n with
  | zero => rfl
  | succ n ih =>
    unfold divvy
    rw [if_pos rfl, ih, List.replicate_succ]

theorem divvy_end (hs : size ≠ 0) (n buffer : ℕ) :
    (divvy rec_size size n buffer).2 = buffer + n * size := by
  induction n generalizing buffer with
  | zero =>
    rw [Nat.zero_mul]
    rfl
  | succ n ih =>
    rw [divvy_succ hs, ih, Nat.succ_mul, Nat.add_assoc, Nat.add_comm size]

theorem divvy_within (rec_size : ℕ) (hs : size ≠ 0) (n buffer : ℕ) :
    Within buffer (buffer + n * size) (carved (divvy rec_size size n buffer).1) := by
  induction n generalizing buffer with
  | zero => exact within_nil
  | succ n ih =>
    rw [divvy_succ hs]
    have hrest := ih (buffer + size)
    rw [Nat.add_assoc, ← Nat.add_comm (n * size), ← Nat.succ_mul] at hrest
    exact (within_singleton le_rfl).append hrest (Nat.le_add_right _ _)
      (Nat.add_le_add_left (Nat.le_mul_of_pos_left _ n.succ_pos) _)

theorem divvy_length (hs : size ≠ 0) (n buffer : ℕ) :
    ∀ b ∈ (divvy rec_size size n buffer).1, b.length = size := by
  induction n generalizing buffer with
  | zero => exact List.forall_mem_nil _
  | succ n ih =>
    rw [divvy_succ hs, List.forall_mem_cons]
    exact ⟨rfl, ih _⟩

theorem allot_length (runs count buffer : ℕ) :
    ∀ b ∈ allot size runs count buffer, b.length = size := by
  induction runs generalizing count buffer with
  | zero =>
    rw [allot]
    exact List.forall_mem_nil _
  | succ runs ih =>
    cases count with
    | zero =>
      rw [allot, List.forall_mem_cons]
      exact ⟨rfl, ih _ _⟩
    | succ count =>
      rw [allot, List.forall_mem_cons]
      exact ⟨rfl, ih _ _⟩

theorem allot_within (runs count buffer : ℕ) :
    Within buffer (buffer + count * size) (carved (allot size runs count buffer)) := by
  induction runs generalizing count buffer with
  | zero =>
    rw [allot]
    exact within_nil
  | succ runs ih =>
    cases count with
    | zero =>
      rw [allot]
      exact ih 0 buffer
    | succ count =>
      rw [allot]
      have hrest := ih count (buffer + size)
      rw [Nat.add_assoc, ← Nat.add_comm (count * size), ← Nat.succ_mul] at hrest
      exact (within_singleton le_rfl).append hrest (Nat.le_add_right _ _)
        (Nat.add_le_add_left (Nat.le_mul_of_pos_left _ count.succ_pos) _)

/-- Buffers for all runs take their sum of the sort memory. -/
theorem allot_sum (runs buffer : ℕ) :
    ((carved (allot size runs runs buffer)).map Extent.length).sum = runs * size := by
  induction runs generalizing buffer with
  | zero =>
    rw [allot, Nat.zero_mul]
    rfl
  | succ runs ih =>
    rw [allot, Nat.succ_mul, Nat.add_comm (runs * size)]
    exact congrArg (size + ·) (ih (buffer + size))

end

/-! ## The sizes of a record -/

section

variable {record_length m : ℕ}

theorem ROUNDUP_eq : ROUNDUP record_length 4 = recordLongs record_length * 4 := by
  unfold recordLongs ROUNDUP
  omega

theorem recordLongs_eq : recordLongs record_length = (record_length + 3) / 4 := by
  unfold recordLongs ROUNDUP
  omega

theorem bare_eq (h : record_length ≤ MAX_SORT_RECORD) :
    (SORT_init record_length m).bare = recordLongs record_length := by
  unfold MAX_SORT_RECORD at h
  unfold Scb.bare SORT_init ushort ROUNDUP BCKPTR
  rw [recordLongs_eq]
  simp only
  omega

theorem recordLongs_pos (h : 0 < record_length) : 0 < recordLongs record_length := by
  rw [recordLongs_eq]
  omega

theorem recordLongs_le (h : record_length ≤ MAX_SORT_RECORD) :
    recordLongs record_length ≤ 16384 := by
  unfold MAX_SORT_RECORD at h
  rw [recordLongs_eq]
  omega

end

/-! ## The results -/

theorem sound_of_length {memory record size : ℕ} {bs : List RunBuffer}
    (hlen : ∀ b ∈ bs, b.length = size) (hpos : 0 < size) (hdvd : record ∣ size)
    (hw : Within 0 memory (carved bs)) : Sound memory record bs := by
  refine ⟨fun b hb => ?_, hw⟩
  rw [hlen b hb]
  exact ⟨hpos, hdvd⟩

/-- The buffers of the runs are sound, with or without a share. -/
theorem divvy_sound {r : ℕ} (hr : 0 < r) (n share : ℕ) :
    Sound (n * share * r) r (divvy r (r * share) n 0).1 ∧
      (divvy r (r * share) n 0).2 = n * share * r := by
  by_cases hs : share = 0
  · -- each run has a buffer for two records that is its own
    subst hs
    rw [Nat.mul_zero, Nat.mul_zero, divvy_zero, Nat.zero_mul]
    refine ⟨⟨fun b hb => ?_, ?_⟩, rfl⟩
    · rw [(List.mem_replicate.mp hb).2]
      exact ⟨Nat.mul_pos hr two_pos, Nat.dvd_mul_right r 2⟩
    · have hcarved : carved (List.replicate n (.allocated (r * 2))) = [] := by
        unfold carved
        rw [List.filterMap_eq_nil_iff]
        intro b hb
        rw [(List.mem_replicate.mp hb).2]
      rw [hcarved]
      exact within_nil
  · have hsize : r * share ≠ 0 := Nat.mul_ne_zero hr.ne' hs
    have hend : n * (r * share) = n * share * r := by ring
    rw [divvy_end hsize, ← hend, Nat.zero_add]
    refine ⟨sound_of_length (divvy_length hsize n 0) (Nat.pos_of_ne_zero hsize)
      (Nat.dvd_mul_right r share) ?_, rfl⟩
    have hwithin := divvy_within r hsize n 0
    rwa [Nat.zero_add] at hwithin

/-- The buffers of `merge_runs`, where the memory is for `q` records of `r` bytes -/
theorem plan_sound_iff {memory r q n share : ℕ} (hr : 0 < r) (hq : q * r ≤ memory) :
    Sound memory r ((divvy r (r * share) n 0).1 ++
        [.carved ⟨(divvy r (r * share) n 0).2, q * r - (divvy r (r * share) n 0).2⟩]) ↔
      n * share < q := by
  obtain ⟨⟨hlen, hwithin⟩, hend⟩ := divvy_sound hr n share
  rw [hend]
  constructor
  · rintro ⟨hpos, -⟩
    have hlast : 0 < q * r - n * share * r :=
      (hpos _ (List.mem_append_right _ (List.mem_singleton_self _))).1
    exact Nat.lt_of_mul_lt_mul_right (Nat.lt_of_sub_pos hlast)
  · intro hlt
    have hmid : n * share * r ≤ q * r := Nat.mul_le_mul_right r hlt.le
    constructor
    · intro b hb
      rcases List.mem_append.mp hb with hb | hb
      · exact hlen b hb
      · rw [List.mem_singleton.mp hb]
        refine ⟨Nat.sub_pos_of_lt (Nat.mul_lt_mul_of_pos_right hlt hr), ?_⟩
        exact Nat.dvd_sub (Nat.dvd_mul_left r q) (Nat.dvd_mul_left r _)
    · unfold carved at hwithin ⊢
      rw [List.filterMap_append]
      have hlast : n * share * r + (q * r - n * share * r) ≤ memory := by omega
      exact hwithin.append (within_singleton hlast) (Nat.zero_le _) (hmid.trans hq)

/-- The shares of `n` runs in a memory for `q` records, where twice their number is in a `USHORT` -/
theorem shares_lt_iff {q n : ℕ} (hq : q ≤ 32768) (hn : n < 65536) (h : 2 * n % 65536 ≠ 0) :
    n * (q / (2 * n % 65536)) < q ↔ 0 < q ∧ (n < 32768 ∨ q < 2 * n - 65536) := by
  have hdiv : (2 * n % 65536) * (q / (2 * n % 65536)) ≤ q := Nat.mul_div_le q _
  have hzero : q / (2 * n % 65536) = 0 ↔ q < 2 * n % 65536 := by
    rw [Nat.div_eq_zero_iff]
    omega
  generalize q / (2 * n % 65536) = share at *
  by_cases hsmall : n < 32768
  · have htwice : 2 * (n * share) ≤ q := by
      rwa [Nat.mod_eq_of_lt (by omega), Nat.mul_assoc] at hdiv
    omega
  · -- a share is beyond the memory for that many runs
    have hlarge : share ≠ 0 → 32768 ≤ n * share := by
      intro hs
      exact (Nat.not_lt.mp hsmall).trans (Nat.le_mul_of_pos_right n (Nat.pos_of_ne_zero hs))
    have hnone : share = 0 → n * share = 0 := by
      rintro rfl
      rfl
    omega

/-- `merge_runs` shares out the memory rightly, unless the size of a record is beyond a `USHORT`,
the memory is for no record, or twice the number of runs is beyond a `USHORT`. -/
theorem merge_runs_sound_iff {record_length m n : ℕ} (h0 : 0 < record_length)
    (h : record_length ≤ MAX_SORT_RECORD) (hm : MemorySize m) (hn : n < 65536) :
    MergeSound record_length m n ↔
      record_length ≤ 65532 ∧ ROUNDUP record_length 4 ≤ m ∧ n % 32768 ≠ 0 ∧
        (n < 32768 ∨ m / ROUNDUP record_length 4 < 2 * n - 65536) := by
  have hpos := recordLongs_pos h0
  have hle := recordLongs_le h
  have hmax : m ≤ 131072 := hm.2.1
  have hlen : record_length ≤ 65532 ↔ recordLongs record_length < 16384 := by
    rw [recordLongs_eq]
    omega
  unfold MergeSound merge_runs
  dsimp only
  rw [bare_eq h, show (SORT_init record_length m).sizeMemory = m from rfl, ROUNDUP_eq, hlen]
  generalize recordLongs record_length = l at *
  by_cases hl : l = 16384
  · -- the size of the record is 0 in a `USHORT`
    subst hl
    rw [show ushort (16384 * 4) = 0 from rfl, div_zero]
    constructor
    · rintro ⟨p, hp, -⟩
      cases hp
    · rintro ⟨hlt, -⟩
      omega
  · have hr : ushort (l * 4) = l * 4 := ushort_eq (by omega)
    have hr0 : 0 < l * 4 := by omega
    rw [hr, div_of_pos m hr0.ne', Outcome.ok_bind]
    have hqle : m / (l * 4) ≤ 32768 := by
      refine (Nat.div_le_div hmax (by omega : 4 ≤ l * 4) (by decide)).trans ?_
      decide
    have hq : m / (l * 4) * (l * 4) ≤ m := Nat.div_mul_le_self m _
    have hfit : l * 4 ≤ m ↔ 0 < m / (l * 4) := (Nat.div_pos_iff.trans (and_iff_right hr0)).symm
    rw [hfit]
    generalize m / (l * 4) = q at *
    rw [ushort_eq (by omega : q < 65536)]
    unfold ushort
    by_cases hw : 2 * n % 65536 = 0
    · -- twice the number of runs is 0 in a `USHORT`
      rw [hw, div_zero]
      constructor
      · rintro ⟨p, hp, -⟩
        cases hp
      · rintro ⟨-, -, hne, -⟩
        omega
    · rw [div_of_pos q hw, Outcome.ok_bind]
      refine Outcome.exists_ok_iff.trans ((and_iff_right rfl).trans ?_)
      rw [plan_sound_iff hr0 hq, shares_lt_iff hqle hn hw]
      omega

/-- Buffers for all runs are in the memory just when their sum is. -/
theorem allot_sound_iff {memory l k runs : ℕ} (hl : 0 < l) (hk : 0 < k) :
    Sound memory l (allot (k * l) runs runs 0) ↔ runs * (k * l) ≤ memory := by
  constructor
  · rintro ⟨-, happart, hin⟩
    have hsum := sum_length_le 0 memory happart hin
    rwa [allot_sum] at hsum
  · intro hle
    apply sound_of_length (allot_length runs runs 0) (Nat.mul_pos hk hl) (Nat.dvd_mul_left l k)
    exact (allot_within runs runs 0).mono le_rfl (by rwa [Nat.zero_add])

/-- `SORT_sort` shares out the memory rightly, unless the product of the size of a record and the
number of runs is beyond a `ULONG`. -/
theorem SORT_sort_sound_iff {record_length m run_count : ℕ} (h0 : 0 < record_length)
    (h : record_length ≤ MAX_SORT_RECORD) (hm : MemorySize m) :
    SortSound record_length m run_count ↔
      (0 < recordLongs record_length * run_count ∧
          recordLongs record_length * run_count < 4294967296) ∨
        m / 4 < recordLongs record_length * run_count % 4294967296 := by
  have hpos := recordLongs_pos h0
  have hle := recordLongs_le h
  have hmax : m / 4 ≤ 32768 := Nat.div_le_of_le_mul hm.2.1
  unfold SortSound SORT_sort
  dsimp only
  rw [bare_eq h, show (SORT_init record_length m).sizeMemory = m from rfl]
  generalize recordLongs record_length = l at *
  generalize m / 4 = temp at *
  have hsshort : sshort l = l := if_pos (by omega)
  rw [hsshort]
  unfold ulong
  generalize hd : l * run_count % 4294967296 = d
  by_cases hd0 : d = 0
  · -- the divisor is 0
    rw [hd0, div_zero]
    constructor
    · rintro ⟨bs, hbs, -⟩
      cases hbs
    · rintro (⟨hlo, hhi⟩ | hlt)
      · rw [Nat.mod_eq_of_lt hhi] at hd
        omega
      · omega
  · rw [div_of_pos temp hd0, Outcome.ok_bind]
    by_cases hcount : temp / d = 0
    · -- a buffer of one record for each run
      rw [if_neg (not_not.mpr hcount), div_of_pos temp hpos.ne', Outcome.ok_bind]
      have hlt : temp < d := by
        rw [Nat.div_eq_zero_iff] at hcount
        omega
      apply iff_of_true _ (.inr hlt)
      refine ⟨_, rfl, sound_of_length (allot_length _ _ _) hpos dvd_rfl ?_⟩
      refine (allot_within _ _ _).mono le_rfl ?_
      rw [Nat.zero_add]
      exact Nat.div_mul_le_self temp l
    · rw [if_pos hcount]
      have hk : 0 < temp / d := Nat.pos_of_ne_zero hcount
      have hdle : d * (temp / d) ≤ temp := Nat.mul_div_le temp d
      generalize temp / d = k at *
      have hwrap : k * l % 4294967296 = k * l := by
        apply Nat.mod_eq_of_lt
        have hkle : k ≤ 32768 := (Nat.le_mul_of_pos_left k (Nat.pos_of_ne_zero hd0)).trans
          (hdle.trans hmax)
        calc k * l ≤ 32768 * 16384 := Nat.mul_le_mul hkle hle
          _ < 4294967296 := by decide
      rw [hwrap]
      rw [Outcome.exists_ok_iff, allot_sound_iff hpos hk]
      -- the count is that of the divisor, which is the product where nothing is lost
      have hprod : run_count * (k * l) = l * run_count * k := by ring
      rw [hprod]
      have hdtemp : d ≤ temp := (Nat.le_mul_of_pos_right d hk).trans hdle
      constructor
      · intro hfit
        left
        have hone : l * run_count ≤ l * run_count * k := Nat.le_mul_of_pos_right _ hk
        have hbound : l * run_count < 4294967296 := by omega
        rw [Nat.mod_eq_of_lt hbound] at hd
        omega
      · rintro (⟨-, hhi⟩ | hlt)
        · rw [Nat.mod_eq_of_lt hhi] at hd
          rw [hd]
          exact hdle
        · omega

theorem gen_sort_ok {map_length record_length : ℕ} (h : gen_sort map_length = .ok record_length) :
    map_length ≤ MAX_SORT_RECORD ∧ map_length = record_length := by
  unfold gen_sort at h
  split at h
  · cases h
  · next hle =>
    rw [Nat.not_lt] at hle
    refine ⟨hle, ?_⟩
    rw [← Except.ok.inj h, ushort_eq (Nat.lt_succ_of_le hle)]

/-- For a record that is admitted, `merge_runs` for `n` runs and `SORT_sort` for `run_count` runs
share out the memory rightly just when nothing is lost in a `USHORT` or a `ULONG`. -/
theorem sort_sizes_sound_iff {map_length record_length m n run_count : ℕ} (h0 : 0 < map_length)
    (h : gen_sort map_length = .ok record_length) (hm : MemorySize m) (hn : n < 65536) :
    (MergeSound record_length m n ∧ SortSound record_length m run_count) ↔
      (record_length ≤ 65532 ∧ ROUNDUP record_length 4 ≤ m ∧ n % 32768 ≠ 0 ∧
          (n < 32768 ∨ m / ROUNDUP record_length 4 < 2 * n - 65536)) ∧
        ((0 < recordLongs record_length * run_count ∧
            recordLongs record_length * run_count < 4294967296) ∨
          m / 4 < recordLongs record_length * run_count % 4294967296) := by
  obtain ⟨hle, rfl⟩ := gen_sort_ok h
  rw [merge_runs_sound_iff h0 hle hm hn, SORT_sort_sound_iff h0 hle hm]

theorem sort_sizes_sound_hundred : MergeSound 100 131072 8 ∧ SortSound 100 131072 3 := by
  have hm : MemorySize 131072 := by decide
  have hlen : gen_sort 100 = .ok 100 := by decide
  have hn : 8 < 65536 := by decide
  refine (sort_sizes_sound_iff (by decide) hlen hm hn).mpr ?_
  decide

/-- A record of 65534 bytes is admitted, and `merge_runs` divides by zero. -/
theorem merge_runs_divides_by_zero :
    gen_sort 65534 = .ok 65534 ∧
      merge_runs (SORT_init 65534 131072) 8 = .error .divideByZero ∧
        ¬(MergeSound 65534 131072 8 ∧ SortSound 65534 131072 8) := by
  have herr : merge_runs (SORT_init 65534 131072) 8 = .error .divideByZero := by decide
  refine ⟨by decide, herr, ?_⟩
  rintro ⟨⟨p, hp, -⟩, -⟩
  rw [herr] at hp
  cases hp

end Firebird.Sort.Sizes
