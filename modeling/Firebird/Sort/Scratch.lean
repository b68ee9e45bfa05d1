import Mathlib.Data.List.TakeWhile
import Firebird.Lib.Transition
import Firebird.Sort.Space

/-! # The runs of a sort (`SORT_put`, `put_run` and `merge_runs` in `jrd/sort.cpp`)

Each memoryful of records is written to a work file as a run. Eight runs of the same depth are
merged to one, and the space that they had is given back. One step is what is done between two
calls of `find_file_space` and `free_file_space`.
-/

namespace Firebird.Scratch

open Extent

def MAX_SORT_BUFFER_SIZE : ℕ := 131072
def RUN_GROUP : ℕ := 8
def MAX_MERGE_LEVEL : ℕ := 2

/-- The length of a record in longwords, less the back pointer, and the size of the sort memory.
The size of a record fits in a `USHORT`. -/
structure Layout where
  longs : ℕ
  sizeMemory : ℕ
  longs_pos : 0 < longs
  longs_lt : longs < 16384
  sizeMemory_le : sizeMemory ≤ MAX_SORT_BUFFER_SIZE

/-- The bytes of a record, `rec_size` -/
def Layout.recSize (L : Layout) : ℕ := 4 * L.longs

/-- `run` -/
structure Run where
  records : ℕ
  depth : ℕ
  sfb : ℕ
  seek : ℕ
  size : ℕ
  deriving DecidableEq, Repr

/-- What the sort is about to do: take records in `SORT_put`, look for runs to merge, merge the
first `n` runs, pass through the runs that have been merged, or nothing more that has to do with
space. -/
inductive Phase
  | filling
  | checking
  | merging (temp : Run) (n : ℕ)
  | releasing (temp : Run) (group : List Run)
  | done
  deriving DecidableEq, Repr

/-- `scb`. In the final pass of `merge_runs` the runs that have been merged are not among `runs`
but with the phase. -/
structure Scb where
  files : List Sfb
  runs : List Run
  phase : Phase
  deriving DecidableEq, Repr

/-- What happens: `put_run` is called by `SORT_put` or `SORT_sort`, with the records that are left
of those in memory, the runs are looked at, the records of a group have been merged, with those
that are left, or the space of a run is released. -/
inductive Action
  | put (records : ℕ) (dls : Dls)
  | sort (records : ℕ) (dls : Dls)
  | check (dls : Dls)
  | merged (records : ℕ)
  | release
  deriving DecidableEq, Repr

variable (L : Layout)

/-- `put_run`: the new run, and what is done next -/
def putRun (s : Scb) (records : ℕ) (dls : Dls) (phase : Phase) : Scb :=
  let size := ulong (records * L.recSize)
  match findFileSpace s.files size dls with
  | (files, none) => { s with files, phase := .done }
  | (files, some (sfb, seek)) =>
      { files, runs := ⟨records, 0, sfb, seek, size⟩ :: s.runs, phase }

/-- The runs at the front that have the depth of the first one -/
def countRuns : List Run → ℕ
  | [] => 0
  | run :: next => (next.takeWhile fun r => r.depth = run.depth).length + 1

/-- The loop in `SORT_put`, and `merge_runs` up to the call of `find_file_space` -/
def check (s : Scb) (dls : Dls) : Scb :=
  match s.runs with
  | [] => { s with phase := .filling }
  | run :: _ =>
      if run.depth = MAX_MERGE_LEVEL ∨ countRuns s.runs < RUN_GROUP then
        { s with phase := .filling }
      else
        let size := (s.runs.take (countRuns s.runs)).foldl (fun size run => ulong (size + run.size)) 0
        match findFileSpace s.files size dls with
        | (files, none) => { s with files, phase := .done }
        | (files, some (sfb, seek)) =>
            { s with files, phase := .merging ⟨0, 0, sfb, seek, size⟩ (countRuns s.runs) }

/-- The bytes of the buffer of a run when `n` runs are merged: two records if there is not room
for a record of each run in the sort memory -/
def Layout.bufferSize (n : ℕ) : ℕ :=
  let size := L.recSize * (L.sizeMemory / L.recSize / (2 * n))
  if size = 0 then L.recSize * 2 else size

/-- `get_merge` reads a run: a buffer full, or what remains, until no records remain. -/
def readRun (n : ℕ) : ℕ → Run → Run
  | 0, run => run
  | fuel + 1, run =>
      if run.records = 0 then run
      else
        let l := min (L.bufferSize n) (ulong (run.records * L.recSize))
        readRun n fuel { run with seek := ulong (run.seek + l), records := run.records - l / L.recSize }

/-- `merge_runs` after the records have been written: the end of the space that has not been
needed is returned. -/
def merged (s : Scb) (temp : Run) (n records : ℕ) : Scb :=
  let seek := ulong (temp.seek + records * L.recSize)
  let group := (s.runs.take n).map fun run => readRun L n run.records run
  if usub seek temp.seek < temp.size then
    { files := freeFileSpace s.files temp.sfb seek (usub (ulong (temp.seek + temp.size)) seek),
      runs := s.runs.drop n,
      phase := .releasing { temp with records, size := usub seek temp.seek } group }
  else { s with runs := s.runs.drop n, phase := .releasing { temp with records } group }

/-- One turn of the final pass of `merge_runs`, and after the last one the new run -/
def release (s : Scb) (temp run : Run) (group : List Run) : Scb :=
  let files := freeFileSpace s.files run.sfb (usub run.seek run.size) run.size
  if group = [] then
    { files, runs := { temp with depth := run.depth + 1 } :: s.runs, phase := .checking }
  else { s with files, phase := .releasing temp group }

/-- What can be merged of so many records: `get_merge` returns each record once, except that one
may be rejected in favour of an equal one. -/
def CanMerge (total records : ℕ) : Prop := records ≤ total ∧ (0 < total → 0 < records)

instance (total records : ℕ) : Decidable (CanMerge total records) :=
  inferInstanceAs (Decidable (_ ∧ _))

/-- One step -/
def step (s : Scb) : Action → Option Scb
  | .put records dls =>
      if s.phase = .filling ∧ records * L.recSize ≤ L.sizeMemory then
        some (putRun L s records dls .checking)
      else none
  | .sort records dls =>
      if s.phase = .filling ∧ s.runs ≠ [] ∧ records * L.recSize ≤ L.sizeMemory then
        some (putRun L s records dls .done)
      else none
  | .check dls => if s.phase = .checking then some (check s dls) else none
  | .merged records =>
      match s.phase with
      | .merging temp n =>
          if CanMerge ((s.runs.take n).map Run.records).sum records then
            some (merged L s temp n records)
          else none
      | _ => none
  | .release =>
      match s.phase with
      | .releasing temp (run :: group) => some (release s temp run group)
      | _ => none

/-- A sort starts with no files and no runs. -/
def init : Scb := ⟨[], [], .filling⟩

/-- The runs of `SORT_put` and `SORT_sort` on one sort -/
def system : Transition.System Scb Action where
  init s := s = init
  step s a s' := step L s a = some s'

/-- The space of a run -/
def Run.region (run : Run) : ℕ × Extent := (run.sfb, ⟨run.seek, run.size⟩)

/-- The space of a run that has been read, and now ends where the next read would be -/
def Run.regionRead (run : Run) : ℕ × Extent := (run.sfb, ⟨run.seek - run.size, run.size⟩)

/-- The space that is taken -/
def Scb.taken (s : Scb) : List (ℕ × Extent) :=
  match s.phase with
  | .merging temp _ => temp.region :: s.runs.map Run.region
  | .releasing temp group =>
      temp.region :: (group.map Run.regionRead ++ s.runs.map Run.region)
  | _ => s.runs.map Run.region

/-! ## Runs -/

variable {L} {s : Scb} {run : Run} {runs group rest : List Run} {n d : ℕ}

namespace Layout

theorem recSize_pos (L : Layout) : 0 < L.recSize := Nat.mul_pos (by decide) L.longs_pos

/-- A buffer is for a number of records. -/
theorem exists_bufferSize (L : Layout) (n : ℕ) : ∃ c, 0 < c ∧ L.bufferSize n = c * L.recSize := by
  rw [bufferSize]
  split
  · exact ⟨2, by decide, Nat.mul_comm _ _⟩
  · rename_i hne
    exact ⟨_, Nat.pos_of_ne_zero (Nat.ne_zero_of_mul_ne_zero_right hne), Nat.mul_comm _ _⟩

end Layout

/-- All records are read, one buffer after the other. -/
theorem readRun_eq {fuel : ℕ} (hfuel : run.records ≤ fuel)
    (hlt : run.seek + run.records * L.recSize < 4294967296) :
    readRun L n fuel run =
      { run with seek := run.seek + run.records * L.recSize, records := 0 } := by
  obtain ⟨c, hc, hbuffer⟩ := L.exists_bufferSize n
  induction fuel generalizing run with
  | zero =>
      obtain ⟨records, depth, sfb, seek, size⟩ := run
      obtain rfl : records = 0 := Nat.le_zero.mp hfuel
      simp only [readRun, Nat.zero_mul, Nat.add_zero]
  | succ fuel ih =>
      obtain ⟨records, depth, sfb, seek, size⟩ := run
      dsimp only at hfuel hlt ih ⊢
      rw [readRun]
      dsimp only
      split
      · rename_i hzero
        subst hzero
        simp only [Nat.zero_mul, Nat.add_zero]
      · -- the buffer takes `k` of the records
        obtain ⟨k, hk⟩ : ∃ k, min c records = k := ⟨_, rfl⟩
        have hkle : k ≤ records := hk ▸ Nat.min_le_right c records
        have hsum : k * L.recSize + (records - k) * L.recSize = records * L.recSize := by
          rw [← Nat.add_mul, Nat.add_sub_cancel' hkle]
        rw [hbuffer, ulong_eq (by omega), Nat.mul_min_mul_right, hk,
          Nat.mul_div_cancel _ L.recSize_pos, ulong_eq (by omega)]
        rw [ih (by dsimp only; omega) (by dsimp only; omega)]
        dsimp only
        rw [Nat.add_assoc, hsum]

variable (L) in
/-- What is known of a run: its size is that of its records, and a run of some depth is no longer
than so many memoryfuls. -/
structure Run.Sound (run : Run) : Prop where
  records_pos : 0 < run.records
  size_eq : run.size = run.records * L.recSize
  size_le : run.size ≤ 8 ^ run.depth * MAX_SORT_BUFFER_SIZE
  depth_le : run.depth ≤ MAX_MERGE_LEVEL

/-- The runs of a depth -/
def depthCount (d : ℕ) (runs : List Run) : ℕ := runs.countP fun run => run.depth = d

/-- Runs that are deeper are older. -/
def Deepening (runs : List Run) : Prop := runs.Pairwise fun a b => a.depth ≤ b.depth

/-- The runs that `countRuns` counts are all those of their depth. -/
theorem countRuns_spec (h : Deepening (run :: runs)) :
    ∃ group rest, run :: runs = group ++ rest ∧ group.length = countRuns (run :: runs) ∧
      (∀ r ∈ group, r.depth = run.depth) ∧ ∀ r ∈ rest, run.depth < r.depth := by
  obtain ⟨hfirst, hrest⟩ := List.pairwise_cons.mp h
  refine ⟨run :: runs.takeWhile fun r => r.depth = run.depth,
    runs.dropWhile fun r => r.depth = run.depth, ?_, rfl, ?_, ?_⟩
  · rw [List.cons_append, List.takeWhile_append_dropWhile]
  · rintro r (_ | ⟨_, hr⟩)
    · rfl
    · simpa using List.mem_takeWhile_imp hr
  · intro r hr
    obtain ⟨first, tail, hdrop⟩ := List.exists_cons_of_ne_nil (List.ne_nil_of_mem hr)
    have hsub : (first :: tail).Sublist runs := hdrop ▸ List.dropWhile_sublist _
    have hne : first.depth ≠ run.depth := by
      have := List.head?_dropWhile_not (fun r : Run => decide (r.depth = run.depth)) runs
      simpa [hdrop] using this
    have hle := hfirst first (hsub.subset List.mem_cons_self)
    rw [hdrop] at hr
    rcases List.mem_cons.mp hr with rfl | hr
    · omega
    · have := List.rel_of_pairwise_cons (hrest.sublist hsub) hr
      omega

/-! ## The invariant -/

variable (L) in
/-- What is known of the runs in each phase -/
def Scb.PhaseSound (s : Scb) : Prop :=
  match s.phase with
  | .filling => ∀ d < MAX_MERGE_LEVEL, depthCount d s.runs < RUN_GROUP
  | .checking =>
      ∃ run runs, s.runs = run :: runs ∧
        ∀ d < MAX_MERGE_LEVEL, depthCount d s.runs < RUN_GROUP ∨
          d = run.depth ∧ depthCount d s.runs = RUN_GROUP
  | .merging temp n =>
      ∃ d group rest, d < MAX_MERGE_LEVEL ∧ s.runs = group ++ rest ∧ group.length = n ∧
        n = RUN_GROUP ∧ (∀ run ∈ group, run.depth = d) ∧ (∀ run ∈ rest, d < run.depth) ∧
        (∀ d < MAX_MERGE_LEVEL, depthCount d rest < RUN_GROUP) ∧
        temp.size = (group.map Run.records).sum * L.recSize
  | .releasing temp group =>
      ∃ d, d < MAX_MERGE_LEVEL ∧ group ≠ [] ∧ (∀ run ∈ s.runs, d < run.depth) ∧
        (∀ d < MAX_MERGE_LEVEL, depthCount d s.runs < RUN_GROUP) ∧
        (∀ run ∈ group, run.depth = d ∧ run.size ≤ run.seek ∧ run.seek < 4294967296) ∧
        Run.Sound L { temp with depth := d + 1 }
  | .done => True

variable (L) in
/-- The invariant -/
structure Scb.Sound (s : Scb) : Prop where
  files : FilesKept s.taken s.files
  runs : ∀ run ∈ s.runs, run.Sound L
  deepening : Deepening s.runs
  phase : s.PhaseSound L

/-- A state in which nothing more is done -/
theorem Scb.Sound.stop {files : List Sfb} (h : s.Sound L)
    (hfiles : FilesKept (s.runs.map Run.region) files) :
    Scb.Sound L { s with files, phase := .done } where
  files := hfiles
  runs := h.runs
  deepening := h.deepening
  phase := trivial

theorem depthCount_cons (d : ℕ) :
    depthCount d (run :: runs) = depthCount d runs + if run.depth = d then 1 else 0 := by
  simp only [depthCount, List.countP_cons, decide_eq_true_eq]

theorem depthCount_append (d : ℕ) :
    depthCount d (group ++ rest) = depthCount d group + depthCount d rest :=
  List.countP_append

theorem depthCount_eq_zero (h : ∀ run ∈ runs, run.depth ≠ d) : depthCount d runs = 0 := by
  rw [depthCount, List.countP_eq_zero]
  intro run hrun
  simpa using h run hrun

theorem depthCount_eq_length (h : ∀ run ∈ runs, run.depth = d) : depthCount d runs = runs.length := by
  rw [depthCount, List.countP_eq_length]
  intro run hrun
  simpa using h run hrun

/-- `put_run` -/
theorem sound_putRun (h : s.Sound L) (hphase : s.phase = .filling) {records : ℕ}
    (hmemory : records * L.recSize ≤ L.sizeMemory) (hpos : 0 < records) (dls : Dls) {next : Phase}
    (hnext : next = .checking ∨ next = .done) : (putRun L s records dls next).Sound L := by
  have hle : records * L.recSize ≤ MAX_SORT_BUFFER_SIZE := hmemory.trans L.sizeMemory_le
  have hsize : 0 < records * L.recSize := Nat.mul_pos hpos L.recSize_pos
  have htaken : s.taken = s.runs.map Run.region := by rw [Scb.taken, hphase]
  have hfound := (htaken ▸ h.files).findFileSpace hsize (hle.trans (by decide)) dls
  have hcounts : ∀ d < MAX_MERGE_LEVEL, depthCount d s.runs < RUN_GROUP := by
    have hs := h.phase
    rwa [Scb.PhaseSound, hphase] at hs
  rw [putRun, ulong_eq (lt_of_le_of_lt hle (by decide))]
  obtain ⟨⟨files, found⟩, heq⟩ : ∃ r, findFileSpace s.files (records * L.recSize) dls = r := ⟨_, rfl⟩
  rw [heq] at hfound ⊢
  cases found with
  | none => exact h.stop hfound
  | some place =>
      obtain ⟨sfb, seek⟩ := place
      refine ⟨?_, ?_, ?_, ?_⟩
      · rcases hnext with rfl | rfl
        · exact hfound
        · exact hfound
      · rintro run (_ | ⟨_, hrun⟩)
        · exact ⟨hpos, rfl, by simpa using hle, Nat.zero_le _⟩
        · exact h.runs run hrun
      · exact .cons (fun run _ => Nat.zero_le run.depth) h.deepening
      · rcases hnext with rfl | rfl
        · refine ⟨_, _, rfl, fun d hd => ?_⟩
          have := hcounts d hd
          rw [depthCount_cons]
          dsimp only
          split
          · omega
          · exact .inl this
        · trivial

/-- The size of the run that is made of others: no sum of `run_size`s wraps. -/
theorem foldl_size_eq (hsound : ∀ run ∈ runs, run.Sound L) {acc : ℕ}
    (hlt : acc + (runs.map Run.records).sum * L.recSize < 4294967296) :
    runs.foldl (fun size run => ulong (size + run.size)) acc =
      acc + (runs.map Run.records).sum * L.recSize := by
  induction runs generalizing acc with
  | nil => rw [List.foldl_nil, List.map_nil, List.sum_nil, Nat.zero_mul, Nat.add_zero]
  | cons run runs ih =>
      have hsize := (hsound run List.mem_cons_self).size_eq
      rw [List.map_cons, List.sum_cons, Nat.add_mul] at hlt ⊢
      rw [List.foldl_cons, hsize, ulong_eq (by omega),
        ih (fun run hrun => hsound run (List.mem_cons_of_mem _ hrun)) (by omega), Nat.add_assoc]

/-- The runs of a group are no longer than so many memoryfuls. -/
theorem sum_size_le (hsound : ∀ run ∈ group, run.Sound L) (hdepth : ∀ run ∈ group, run.depth = d) :
    (group.map Run.records).sum * L.recSize ≤ group.length * (8 ^ d * MAX_SORT_BUFFER_SIZE) := by
  induction group with
  | nil => rw [List.map_nil, List.sum_nil, Nat.zero_mul, List.length_nil, Nat.zero_mul]
  | cons run group ih =>
      have hle := (hsound run List.mem_cons_self).size_le
      rw [(hsound run List.mem_cons_self).size_eq, hdepth run List.mem_cons_self] at hle
      have hrest := ih (fun run hrun => hsound run (List.mem_cons_of_mem _ hrun))
        fun run hrun => hdepth run (List.mem_cons_of_mem _ hrun)
      rw [List.map_cons, List.sum_cons, Nat.add_mul, List.length_cons, Nat.succ_mul]
      omega

theorem sum_records_pos (hsound : ∀ run ∈ group, run.Sound L) (hne : group ≠ []) :
    0 < (group.map Run.records).sum := by
  obtain ⟨run, rest, rfl⟩ := List.exists_cons_of_ne_nil hne
  have := (hsound run List.mem_cons_self).records_pos
  rw [List.map_cons, List.sum_cons]
  omega

theorem sum_size_le_small (hsound : ∀ run ∈ group, run.Sound L)
    (hdepth : ∀ run ∈ group, run.depth = d) (hd : d < MAX_MERGE_LEVEL)
    (hlength : group.length = RUN_GROUP) :
    (group.map Run.records).sum * L.recSize ≤ 8 ^ (d + 1) * MAX_SORT_BUFFER_SIZE ∧
      8 ^ (d + 1) * MAX_SORT_BUFFER_SIZE ≤ 8388608 := by
  have hle := sum_size_le hsound hdepth
  rw [hlength, RUN_GROUP] at hle
  refine ⟨by rwa [Nat.pow_succ', Nat.mul_assoc], ?_⟩
  calc
    8 ^ (d + 1) * MAX_SORT_BUFFER_SIZE ≤ 8 ^ 2 * MAX_SORT_BUFFER_SIZE :=
      Nat.mul_le_mul_right _ (Nat.pow_le_pow_right (by decide) hd)
    _ = 8388608 := by decide

/-- Where no group is to be merged -/
theorem sound_filling (h : s.Sound L) (htaken : s.taken = s.runs.map Run.region)
    (hcounts : ∀ d < MAX_MERGE_LEVEL, depthCount d s.runs < RUN_GROUP) :
    Scb.Sound L { s with phase := .filling } where
  files := by
    have hfiles := h.files
    rwa [htaken] at hfiles
  runs := h.runs
  deepening := h.deepening
  phase := hcounts

/-- The loop in `SORT_put` -/
theorem sound_check (h : s.Sound L) (hphase : s.phase = .checking) (dls : Dls) :
    (check s dls).Sound L := by
  have htaken : s.taken = s.runs.map Run.region := by rw [Scb.taken, hphase]
  have hs := h.phase
  rw [Scb.PhaseSound, hphase] at hs
  obtain ⟨run, runs, hruns, hcounts⟩ := hs
  have hdeep := h.deepening
  rw [hruns] at hdeep
  obtain ⟨group, rest, heq, hlength, hgroup, hrest⟩ := countRuns_spec hdeep
  have hdepth : depthCount run.depth s.runs = countRuns s.runs := by
    rw [hruns, heq, depthCount_append, depthCount_eq_length hgroup,
      depthCount_eq_zero fun r hr => (hrest r hr).ne', hlength, ← heq, Nat.add_zero]
  rw [check]
  split
  · rename_i hnil
    rw [hruns] at hnil
    cases hnil
  rename_i run' runs' hruns'
  obtain ⟨rfl, rfl⟩ := List.cons.inj (hruns.symm.trans hruns')
  split
  · rename_i hstop
    refine sound_filling h htaken fun d hd => ?_
    rcases hcounts d hd with hlt | ⟨rfl, hcount⟩
    · exact hlt
    · rcases hstop with hmax | hfew
      · omega
      · omega
  · rename_i hmerge
    rw [not_or, Nat.not_lt] at hmerge
    have hd : run.depth < MAX_MERGE_LEVEL :=
      lt_of_le_of_ne (h.runs run (hruns ▸ List.mem_cons_self)).depth_le hmerge.1
    have hcount : countRuns s.runs = RUN_GROUP := by
      rcases hcounts _ hd with hlt | ⟨-, hcount⟩
      · omega
      · omega
    have hsplit : s.runs = group ++ rest := hruns.trans heq
    have hn : group.length = countRuns s.runs := by rw [hlength, hruns]
    have htake : s.runs.take (countRuns s.runs) = group := by
      rw [hsplit, ← hsplit, ← hn, hsplit, List.take_left]
    have hsound : ∀ r ∈ group, r.Sound L := fun r hr =>
      h.runs r (hsplit ▸ List.mem_append_left _ hr)
    obtain ⟨hle, hsmall⟩ := sum_size_le_small hsound hgroup hd (hn.trans hcount)
    have hpos : 0 < (group.map Run.records).sum * L.recSize :=
      Nat.mul_pos (sum_records_pos hsound (by rintro rfl; cases hn.trans hcount)) L.recSize_pos
    have hfound := (htaken ▸ h.files).findFileSpace hpos
      (hle.trans (hsmall.trans (by decide))) dls
    rw [htake, foldl_size_eq hsound (by omega), Nat.zero_add]
    obtain ⟨⟨files, found⟩, hres⟩ :
        ∃ r, findFileSpace s.files ((group.map Run.records).sum * L.recSize) dls = r := ⟨_, rfl⟩
    rw [hres] at hfound
    dsimp only
    rw [hres]
    cases found with
    | none => exact h.stop hfound
    | some place =>
        obtain ⟨sfb, seek⟩ := place
        refine ⟨hfound, h.runs, h.deepening, run.depth, group, rest, hd, hsplit, hn, hcount, hgroup,
          hrest, fun d hd => ?_, rfl⟩
        rcases hcounts d hd with hlt | ⟨rfl, -⟩
        · rw [hsplit, depthCount_append] at hlt
          omega
        · rw [depthCount_eq_zero fun r hr => (hrest r hr).ne']
          exact Nat.zero_lt_succ 7

/-- The runs of a group after `get_merge` has read them -/
theorem map_readRun_eq {taken : List (ℕ × Extent)} {files : List Sfb} (h : FilesKept taken files)
    (htaken : ∀ run ∈ group, run.region ∈ taken) (hsound : ∀ run ∈ group, run.Sound L) :
    (group.map fun run => readRun L n run.records run) =
      group.map fun run => { run with seek := run.seek + run.size, records := 0 } := by
  apply List.map_congr_left
  intro run hrun
  have hstop := h.stop_le (htaken run hrun)
  have hsize := (hsound run hrun).size_eq
  have hlt : run.seek + run.size < 4294967296 := lt_of_le_of_lt hstop (by decide)
  rw [readRun_eq (Nat.le_refl _) (by rwa [← hsize]), ← hsize]

/-- The state in which the space of a group that has been read is to be released -/
theorem sound_releasing {files : List Sfb} {temp : Run} (hd : d < MAX_MERGE_LEVEL)
    (hgroup : ∀ run ∈ group, run.depth = d) (hrest : ∀ run ∈ rest, d < run.depth)
    (hcounts : ∀ d < MAX_MERGE_LEVEL, depthCount d rest < RUN_GROUP) (hne : group ≠ [])
    (hruns : ∀ run ∈ group ++ rest, run.Sound L) (hdeep : Deepening (group ++ rest))
    (hfiles : FilesKept (temp.region :: (group ++ rest).map Run.region) files)
    (htemp : Run.Sound L { temp with depth := d + 1 }) :
    Scb.Sound L ⟨files, rest, .releasing temp
      (group.map fun run => { run with seek := run.seek + run.size, records := 0 })⟩ where
  files := by
    have hread : (group.map fun run => { run with seek := run.seek + run.size, records := 0 }).map
        Run.regionRead = group.map Run.region := by
      rw [List.map_map]
      apply List.map_congr_left
      intro run _
      simp only [Function.comp_apply, Run.regionRead, Run.region, Nat.add_sub_cancel]
    rw [Scb.taken]
    dsimp only
    rwa [hread, ← List.map_append]
  runs run hrun := hruns run (List.mem_append_right _ hrun)
  deepening := (List.pairwise_append.mp hdeep).2.1
  phase := by
    refine ⟨d, hd, fun hnil => hne (List.map_eq_nil_iff.mp hnil), hrest, hcounts, ?_, htemp⟩
    intro run hrun
    obtain ⟨run', hrun', rfl⟩ := List.mem_map.mp hrun
    have hmem : run'.region ∈ temp.region :: (group ++ rest).map Run.region :=
      List.mem_cons_of_mem _ (List.mem_map_of_mem (List.mem_append_left _ hrun'))
    exact ⟨hgroup run' hrun', Nat.le_add_left _ _,
      lt_of_le_of_lt (hfiles.stop_le hmem) (by decide)⟩

/-- The merge of a group -/
theorem sound_merged (h : s.Sound L) {temp : Run} (hphase : s.phase = .merging temp n)
    {records : ℕ} (hcan : CanMerge ((s.runs.take n).map Run.records).sum records) :
    (merged L s temp n records).Sound L := by
  have htaken : s.taken = temp.region :: s.runs.map Run.region := by rw [Scb.taken, hphase]
  have hfiles := h.files
  rw [htaken] at hfiles
  have hs := h.phase
  rw [Scb.PhaseSound, hphase] at hs
  obtain ⟨d, group, rest, hd, hsplit, rfl, hn, hgroup, hrest, hcounts, hsize⟩ := hs
  have hsound : ∀ r ∈ group, r.Sound L := fun r hr =>
    h.runs r (hsplit ▸ List.mem_append_left _ hr)
  have hne : group ≠ [] := by
    rintro rfl
    cases hn
  obtain ⟨hle, hsmall⟩ := sum_size_le_small hsound hgroup hd hn
  have hdeep := h.deepening
  have hruns := h.runs
  rw [merged]
  rw [hsplit] at hfiles hcan hdeep hruns ⊢
  rw [List.take_left] at hcan ⊢
  rw [List.drop_left]
  obtain ⟨hkept, hpos⟩ := hcan
  replace hpos := hpos (sum_records_pos hsound hne)
  have hbytes : records * L.recSize ≤ temp.size := hsize ▸ Nat.mul_le_mul_right _ hkept
  have hbytes0 : 0 < records * L.recSize := Nat.mul_pos hpos L.recSize_pos
  have hstop : temp.seek + temp.size ≤ MAX_TEMPFILE_SIZE := hfiles.stop_le List.mem_cons_self
  have hlt : temp.seek + temp.size < 4294967296 := lt_of_le_of_lt hstop (by decide)
  have hread := map_readRun_eq (n := group.length) hfiles
    (fun run hrun => List.mem_cons_of_mem _ (List.mem_map_of_mem (List.mem_append_left _ hrun)))
    hsound
  rw [ulong_eq (by omega : temp.seek + records * L.recSize < 4294967296), ulong_eq hlt,
    usub_eq (by omega) (by omega), usub_eq (by omega) hlt, Nat.add_sub_cancel_left, hread]
  split
  · -- the end of the space is returned
    rename_i hless
    refine sound_releasing hd hgroup hrest hcounts hne hruns hdeep ?_
      ⟨hpos, rfl, by dsimp only; omega, hd⟩
    have hcut : temp.size = records * L.recSize + (temp.size - records * L.recSize) := by omega
    rw [Run.region, hcut] at hfiles
    have hfree := (hfiles.split hbytes0 (by omega)).freeFileSpace
    rwa [Nat.add_sub_add_left]
  · refine sound_releasing hd hgroup hrest hcounts hne hruns hdeep hfiles
      ⟨hpos, ?_, by dsimp only; omega, hd⟩
    dsimp only
    omega

/-- One turn of the final pass -/
theorem sound_release (h : s.Sound L) {temp : Run}
    (hphase : s.phase = .releasing temp (run :: group)) : (release s temp run group).Sound L := by
  have htaken : s.taken =
      temp.region :: run.regionRead :: (group.map Run.regionRead ++ s.runs.map Run.region) := by
    rw [Scb.taken, hphase]
    rfl
  have hs := h.phase
  rw [Scb.PhaseSound, hphase] at hs
  obtain ⟨d, hd, -, hdeeper, hcounts, hgroup, htemp⟩ := hs
  obtain ⟨hdepth, hle, hlt⟩ := hgroup run List.mem_cons_self
  have hfiles := (htaken ▸ h.files).perm (List.Perm.swap _ _ _)
  have hfree := FilesKept.freeFileSpace hfiles
  rw [release, usub_eq hle hlt]
  split
  · rename_i hnil
    subst hnil
    refine ⟨hfree, ?_, ?_, ?_⟩
    · rintro r (_ | ⟨_, hr⟩)
      · rwa [hdepth]
      · exact h.runs r hr
    · exact .cons (fun r hr => hdepth ▸ hdeeper r hr) h.deepening
    · refine ⟨_, _, rfl, fun e he => ?_⟩
      have := hcounts e he
      rw [depthCount_cons]
      dsimp only
      split
      · omega
      · exact .inl this
  · rename_i hne
    exact ⟨hfree, h.runs, h.deepening, d, hd, hne, hdeeper, hcounts,
      fun r hr => hgroup r (List.mem_cons_of_mem _ hr), htemp⟩

/-! ## Main result -/

/-- A run that is put has a record. The duplicates pass of `sort` compares the last record with
`high_key` too, so that none is left of a memoryful of records all of whose keys are all ones. -/
def NotEmptied (_ : Scb) : Action → Prop
  | .put records _ | .sort records _ => 0 < records
  | _ => True

theorem sound_step {s' : Scb} {a : Action} (h : s.Sound L) (hstep : step L s a = some s')
    (ha : NotEmptied s a) : s'.Sound L := by
  cases a with
  | put records dls =>
      rw [step, Option.ite_none_right_eq_some] at hstep
      obtain ⟨⟨hphase, hmemory⟩, hs'⟩ := hstep
      cases hs'
      exact sound_putRun h hphase hmemory ha dls (.inl rfl)
  | sort records dls =>
      rw [step, Option.ite_none_right_eq_some] at hstep
      obtain ⟨⟨hphase, -, hmemory⟩, hs'⟩ := hstep
      cases hs'
      exact sound_putRun h hphase hmemory ha dls (.inr rfl)
  | check dls =>
      rw [step, Option.ite_none_right_eq_some] at hstep
      obtain ⟨hphase, hs'⟩ := hstep
      cases hs'
      exact sound_check h hphase dls
  | merged records =>
      rw [step] at hstep
      split at hstep
      · rename_i temp n hphase
        rw [Option.ite_none_right_eq_some] at hstep
        obtain ⟨hcan, hs'⟩ := hstep
        cases hs'
        exact sound_merged h hphase hcan
      · cases hstep
  | release =>
      rw [step] at hstep
      split at hstep
      · rename_i temp run group hphase
        cases hstep
        exact sound_release h hphase
      · cases hstep

theorem sound_init : init.Sound L where
  files := .nil
  runs := nofun
  deepening := .nil
  phase := fun _ _ => Nat.zero_lt_succ 7

theorem sound_of_reachable (h : Transition.Reachable ((system L).restrict NotEmptied) s) :
    s.Sound L := by
  refine h.invariant ?_ ?_
  · rintro s rfl
    exact sound_init
  · rintro s a s' hs ⟨hstep, ha⟩
    exact sound_step hs hstep ha

/-- What is required of the space of a file: what is taken of it and what is free are apart from
each other, lie in the file and cover it, and the free space is in descending order. -/
structure SpaceKept (live : List Extent) (sfb : Sfb) : Prop where
  apart : (live ++ sfb.fileSpace.map Wfs.extent).Pairwise Apart
  inside : ∀ a ∈ live ++ sfb.fileSpace.map Wfs.extent, a.stop ≤ sfb.fileSize
  covered : ∀ p < sfb.fileSize,
    ∃ a ∈ live ++ sfb.fileSpace.map Wfs.extent, a.offset ≤ p ∧ p < a.stop
  descending : sfb.fileSpace.Pairwise fun a b => b.position < a.position

theorem Kept.spaceKept {live : List Extent} {sfb : Sfb} (h : Kept live sfb)
    (hpos : ∀ a ∈ live, 0 < a.length) : SpaceKept live sfb where
  apart := h.tiles.pairwise
  inside a ha := h.tiles.stop_le ha <| by
    rcases List.mem_append.mp ha with ha | ha
    · exact hpos a ha
    · obtain ⟨space, hspace, rfl⟩ := List.mem_map.mp ha
      exact h.noneEmpty space hspace
  covered p hp := h.tiles.covers hp
  descending := by
    refine h.descends.imp_of_mem fun ha hb hab => ?_
    have := h.noneEmpty _ hb
    omega

/-- If no run is empty, no space of a work file is shared or lost. -/
theorem space_kept (h : Transition.Reachable ((system L).restrict NotEmptied) s) {i : ℕ} {sfb : Sfb}
    (hsfb : s.files[i]? = some sfb) : SpaceKept (liveIn s.taken i) sfb := by
  have hfiles := (sound_of_reachable h).files
  refine (hfiles.kept i sfb hsfb).spaceKept fun a ha => ?_
  obtain ⟨r, hr, rfl⟩ := List.mem_map.mp ha
  exact (hfiles.inFiles r (List.mem_of_mem_filter hr)).2

/-! ## A run with records in each memoryful, and one without -/

theorem oneLong_lt : 1 < 16384 := by decide

theorem oneLong_le : 16384 ≤ MAX_SORT_BUFFER_SIZE := by decide

/-- Records of one longword -/
def oneLong : Layout := ⟨1, 16384, Nat.one_pos, oneLong_lt, oneLong_le⟩

/-- There is always room at the end of the last file. -/
def roomy : Dls := ⟨true, true, true, true⟩

/-- Eight memoryfuls with so many records that are left, merged to a run of `n` records -/
def oneGroup (records : List ℕ) (n : ℕ) : List Action :=
  (records.flatMap fun m => [.put m roomy, .check roomy]) ++
    .merged n :: List.replicate 8 .release ++ [.check roomy]

instance (s : Scb) (a : Action) : Decidable (NotEmptied s a) :=
  match a with
  | .put records _ => inferInstanceAs (Decidable (0 < records))
  | .sort records _ => inferInstanceAs (Decidable (0 < records))
  | .check _ => .isTrue trivial
  | .merged _ => .isTrue trivial
  | .release => .isTrue trivial

/-- A group of eight runs -/
theorem space_kept_oneGroup : ∃ s sfb,
    Transition.Reachable ((system oneLong).restrict NotEmptied) s ∧ s.files[0]? = some sfb ∧
      sfb = ⟨64, [⟨56, 8⟩, ⟨0, 32⟩]⟩ ∧ SpaceKept (liveIn s.taken 0) sfb := by
  have hrun : (oneGroup [1, 1, 1, 1, 1, 1, 1, 1] 6).foldlM (step oneLong) init =
      some ⟨[⟨64, [⟨56, 8⟩, ⟨0, 32⟩]⟩], [⟨6, 1, 0, 32, 24⟩], .filling⟩ := by decide +kernel
  have hall : ∀ a ∈ oneGroup [1, 1, 1, 1, 1, 1, 1, 1] 6, NotEmptied init a := by decide
  have hreach := Transition.Reachable.of_foldlM (S := (system oneLong).restrict NotEmptied)
    (fun a ha t t' ht => ⟨ht, hall a ha⟩) (.init rfl) hrun
  exact ⟨_, _, hreach, rfl, rfl, space_kept hreach rfl⟩

/-- In the second group the first memoryful is of records all of whose keys are all ones. -/
def emptied : List Action :=
  oneGroup [1, 1, 1, 1, 1, 1, 1, 1] 6 ++ oneGroup [0, 2, 1, 1, 1, 2, 2, 2] 11 ++
    oneGroup [1, 2, 1, 2, 1, 2, 2, 2] 13

/-- After an empty run has been released, pieces of free space are out of order. -/
theorem space_disordered : ∃ s sfb, Transition.Reachable (system oneLong) s ∧
    s.files[0]? = some sfb ∧ ¬SpaceKept (liveIn s.taken 0) sfb := by
  have hrun : (emptied.foldlM (step oneLong) init).map Scb.files =
      some [⟨176, [⟨116, 8⟩, ⟨60, 12⟩, ⟨64, 0⟩, ⟨56, 4⟩, ⟨0, 32⟩]⟩] := by decide +kernel
  obtain ⟨s, hs, hfiles⟩ := Option.map_eq_some_iff.mp hrun
  refine ⟨s, _, Transition.Reachable.of_foldlM (fun _ _ _ _ ht => ht) (.init rfl) hs,
    by rw [hfiles]; rfl, ?_⟩
  intro h
  have hdescending := h.descending
  revert hdescending
  decide

end Firebird.Scratch
