import Mathlib.Algebra.Order.BigOperators.Group.List
import Firebird.Jrd.Sqz

/-! # Records that do not fit on a page (`jrd/dpm.epp`)

`store_big_record` writes the compressed record from its end: it walks the
control chain and the record image backwards and fills tail pages until what is
left fits on one page with the record header; that part is compressed anew.
`VIO_data` reads the pieces along the fragment pointers.
-/

namespace Firebird.Dpm

open Sqz (Chain Abort dccSize sqzLength sqzFast sqzDecompress)

/-! ## Pages -/

/-- `sizeof(struct dpg)`, `RHD_SIZE`, `RHDF_SIZE`, in bytes. -/
def sizeofDpg : ℕ := 28
def rhdSize : ℕ := 13
def rhdfSize : ℕ := 22

def minPageSize : ℕ := 1024
def maxPageSize : ℕ := 16384

theorem min_le_1024 : minPageSize ≤ 1024 := by decide

theorem le_max_1024 : 1024 ≤ maxPageSize := by decide

/-- The database block, as far as the page size goes. -/
structure Dbb where
  pageSize : ℕ
  min_le : minPageSize ≤ pageSize
  le_max : pageSize ≤ maxPageSize

/-- `max_data` -/
def Dbb.maxData (dbb : Dbb) : ℕ := dbb.pageSize - (sizeofDpg + rhdfSize)

theorem Dbb.one_lt_maxData (dbb : Dbb) : 1 < dbb.maxData := by
  have : 1024 ≤ dbb.pageSize := dbb.min_le
  simp only [maxData, sizeofDpg, rhdfSize]
  omega

/-- A fragment on a tail page: `dpg_length` of its line, `rhd_incomplete` in its
`rhdf_flags`, `rhdf_f_page`, and the bytes written at `rhdf_data`. -/
structure Fragment where
  dpgLength : ℕ
  incomplete : Bool
  fPage : ℕ
  data : List SCHAR
deriving DecidableEq, Repr

/-- The pages that hold fragments, the last one written first. -/
abbrev Pages := List (ℕ × Fragment)

/-- `DPM_allocate`: hands out pages that are not in use. -/
structure PageSource where
  allocate : Pages → ℕ
  fresh : ∀ pages, ∀ p ∈ pages, p.1 ≠ allocate pages
  ne_zero : ∀ pages, allocate pages ≠ 0

/-! ## `store_big_record` -/

/-- `dcc` and `control`: the control strings of the blocks before `dcc`, and the
bytes from `dcc_string` to `control`. -/
structure Cursor where
  prior : List (List SCHAR)
  control : List SCHAR
  prior_full : ∀ b ∈ prior, b.length = dccSize

/-- The end of the last block of a chain. -/
def Cursor.ofChain (dcc : Chain) : Cursor := ⟨dcc.prior, dcc.dcc, dcc.prior_full⟩

/-- All control bytes in front of the cursor. -/
def Cursor.controls (c : Cursor) : List SCHAR := c.prior.flatten ++ c.control

/-- `*--control`, stepping to the prior block when this one is exhausted; `none`
when there is none. -/
def Cursor.fetch (c : Cursor) : Option (SCHAR × Cursor) :=
  if c.control = [] then do
    let dcc ← c.prior.getLast?
    let count ← dcc.getLast?
    some (count, ⟨c.prior.dropLast, dcc.dropLast, fun b hb =>
      c.prior_full b (List.dropLast_subset _ hb)⟩)
  else do
    let count ← c.control.getLast?
    some (count, ⟨c.prior, c.control.dropLast, c.prior_full⟩)

theorem Cursor.fetch_append {c : Cursor} {cs : List SCHAR} {x : SCHAR}
    (h : c.controls = cs ++ [x]) : ∃ c', c.fetch = some (x, c') ∧ c'.controls = cs := by
  rcases c with ⟨prior, control, hfull⟩
  simp only [controls] at h
  rcases List.eq_nil_or_concat control with rfl | ⟨control, y, rfl⟩
  · rw [List.append_nil] at h
    rcases List.eq_nil_or_concat prior with rfl | ⟨prior, b, rfl⟩
    · simp at h
    · have hb : b.length = dccSize := hfull b (by simp)
      rcases List.eq_nil_or_concat b with rfl | ⟨b, y, rfl⟩
      · simp [dccSize] at hb
      · rw [List.concat_eq_append, List.concat_eq_append, List.flatten_append, List.flatten_singleton,
          ← List.append_assoc] at h
        obtain ⟨hcs, hx⟩ := List.append_inj' h rfl
        obtain rfl : y = x := by simpa using hx
        exact ⟨⟨prior, b, fun d hd => hfull d (by simp [hd])⟩, by simp [fetch], hcs⟩
  · rw [List.concat_eq_append, ← List.append_assoc] at h
    obtain ⟨hcs, hx⟩ := List.append_inj' h rfl
    obtain rfl : y = x := by simpa using hx
    exact ⟨⟨prior, control, hfull⟩, by simp [fetch], hcs⟩

theorem Cursor.controls_eq_nil_of_fetch {c : Cursor} (h : c.controls = []) : c.fetch = none := by
  rcases c with ⟨prior, control, hfull⟩
  simp only [controls, List.append_eq_nil_iff, List.flatten_eq_nil_iff] at h
  obtain ⟨hprior, rfl⟩ := h
  rcases List.eq_nil_or_concat prior with rfl | ⟨prior, b, rfl⟩
  · simp [fetch]
  · obtain rfl := hprior b (by simp)
    simp [fetch]

/-- Each step back consumes a control byte. -/
theorem Cursor.fetch_lt {c c' : Cursor} {x : SCHAR} (h : c.fetch = some (x, c')) :
    c'.controls.length < c.controls.length := by
  rcases List.eq_nil_or_concat c.controls with hnil | ⟨cs, y, hcs⟩
  · rw [controls_eq_nil_of_fetch hnil] at h
    simp at h
  · rw [List.concat_eq_append] at hcs
    obtain ⟨d, hd, hdc⟩ := fetch_append hcs
    rw [h, Option.some.injEq, Prod.mk.injEq] at hd
    rw [hd.2, hdc, hcs, List.length_append, List.length_singleton]
    omega

/-- `do *--out = *--in; while (--n);` -/
def copyBack : ℕ → List SCHAR → List SCHAR → Option (List SCHAR × List SCHAR)
  | 0, input, out => some (input, out)
  | n + 1, input, out => do
      let b ← input.getLast?
      copyBack n input.dropLast (b :: out)

/-- What `store_big_record` keeps from page to page: its place in the control
chain, the record up to `in`, and the residual count. -/
structure Progress where
  control : Cursor
  input : List SCHAR
  count : ℤ

/-- `while (length > 1) …`: where it stops, the bytes left on the page and those
from `out` to its end; `none` when something is read that is not there. -/
def fillLoop (st : Progress) (length : ℕ) (out : List SCHAR) :
    Option (Progress × ℕ × List SCHAR) :=
  if 1 < length then
    if 0 < st.count then
      let l := min st.count.toNat (length - 1)
      match copyBack l st.input out with
      | none => none
      | some (input, out) =>
          fillLoop ⟨st.control, input, st.count - l⟩ (length - (l + 1)) (Int8.ofNat l :: out)
    else
      match _ : st.control.fetch with
      | none => none
      | some (count, control) =>
          if count.toInt < 0 then
            match st.input.getLast? with
            | none => none
            | some b =>
                fillLoop ⟨control, st.input.take (st.input.length - (-count.toInt).toNat), count.toInt⟩
                  (length - 2) (count :: b :: out)
          else fillLoop ⟨control, st.input, count.toInt⟩ length out
  else some (st, length, out)
termination_by length + st.control.controls.length
decreasing_by
  · omega
  · have := Cursor.fetch_lt (by assumption)
    omega
  · have := Cursor.fetch_lt (by assumption)
    omega

/-- `while (size > max_data) …`: the progress, `prior` and the pages at its end. -/
def tailLoop (dbb : Dbb) (source : PageSource) (st : Progress) (size prior : ℕ) (pages : Pages) :
    Option (Progress × ℕ × Pages) :=
  if _ : size > dbb.maxData then
    match fillLoop st dbb.maxData [] with
    | none => none
    | some (st, length, out) =>
        let page := source.allocate pages
        -- an odd byte left is fudged, a run that goes on takes another control byte
        let out := if length ≠ 0 then 0 :: out else out
        let size := size - dbb.maxData + if length ≠ 0 ∨ 0 < st.count then 1 else 0
        tailLoop dbb source st size page
          ((page, ⟨dbb.maxData + rhdfSize, prior != 0, prior, out⟩) :: pages)
  else some (st, prior, pages)
termination_by size
decreasing_by
  have := dbb.one_lt_maxData
  split <;> omega

/-- The record header with the head: `rhdf_f_page`, the size computed for it, and
the bytes at `rhdf_data`. -/
structure Head where
  fPage : ℕ
  size : ℕ
  data : List SCHAR
deriving DecidableEq, Repr

/-- `store_big_record` -/
def storeBigRecord (dbb : Dbb) (source : PageSource) (record : List SCHAR) (headDcc : Chain)
    (size : ℕ) (pages : Pages) : Option (Head × Pages) := do
  let (st, prior, pages) ← tailLoop dbb source ⟨Cursor.ofChain headDcc, record, 0⟩ size 0 pages
  let (dcc, size) := sqzLength st.input
  let data ← sqzFast dcc.blocks record
  some (⟨prior, size, data⟩, pages)

/-! ## Filling a page -/

open RunLength (Seg segments expand size litOf CutPoint)
open Sqz (limits ctl packed Encodable)

/-- The pass over the segments `segs` of a record stands behind `ss` and the
beginning `p` of a literal segment: what is left to be stored is their expansion. -/
structure At (segs : List (Seg SCHAR)) (st : Progress) (ss : List (Seg SCHAR)) (p : List SCHAR) :
    Prop where
  controls : st.control.controls = ss.map ctl
  input : st.input = expand ss ++ p
  count : st.count.toNat = p.length
  cut : ∃ ts, segs = ss ++ ts ∧ CutPoint p ts

theorem copyBack_append (x s out : List SCHAR) :
    copyBack s.length (x ++ s) out = some (x, s ++ out) := by
  induction s using List.reverseRecOn generalizing out with
  | nil => simp [copyBack]
  | append_singleton s b ih =>
      rw [List.length_append, List.length_singleton, copyBack, ← List.append_assoc,
        List.getLast?_concat]
      simpa using ih (b :: out)

theorem At.length_le {segs ss : List (Seg SCHAR)} {st : Progress} {p : List SCHAR}
    (h : At segs st ss p) (hfit : ∀ s ∈ segs, Encodable s) : p.length ≤ 127 := by
  obtain ⟨ts, rfl, rfl | ⟨s, ts', rfl, hps⟩⟩ := h.cut
  · simp
  · have hs : s.length ≤ 127 := hfit (.lit s) (by simp)
    exact hps.length_le.trans hs

/-- Copying the last `q` bytes of the residual run. -/
theorem fillLoop_copy {segs ss : List (Seg SCHAR)} {st : Progress} {p q : List SCHAR} {length : ℕ}
    (out : List SCHAR) (h : At segs st ss (p ++ q)) (hlen : 1 < length)
    (hq : q.length = min (p ++ q).length (length - 1)) (hpos : 0 < q.length) :
    ∃ st', At segs st' ss p ∧
      fillLoop st length out = fillLoop st' (length - (q.length + 1)) (packed (.lit q) ++ out) := by
  have hcount := h.count
  have hl : min st.count.toNat (length - 1) = q.length := by rw [hcount, hq]
  have hcopy := copyBack_append (expand ss ++ p) q out
  rw [List.append_assoc, ← h.input] at hcopy
  refine ⟨⟨st.control, expand ss ++ p, st.count - q.length⟩, ⟨h.controls, rfl, ?_, ?_⟩, ?_⟩
  · rw [List.length_append] at hcount
    simp only
    omega
  · obtain ⟨ts, hts, hcut⟩ := h.cut
    refine ⟨ts, hts, ?_⟩
    rcases hcut with hnil | ⟨s, ts', rfl, hps⟩
    · exact .inl (List.append_eq_nil_iff.mp hnil).1
    · exact .inr ⟨s, ts', rfl, (List.prefix_append p q).trans hps⟩
  · rw [fillLoop, if_pos hlen, if_pos (by rw [List.length_append] at hcount; omega)]
    simp only [hl, hcopy]
    rfl

/-- Fetching the control byte of a literal segment. -/
theorem fillLoop_lit {segs ss : List (Seg SCHAR)} {st : Progress} {s : List SCHAR} {length : ℕ}
    (out : List SCHAR) (h : At segs st (ss ++ [.lit s]) []) (hs : Encodable (.lit s))
    (hlen : 1 < length) :
    ∃ st', At segs st' ss s ∧ fillLoop st length out = fillLoop st' length out := by
  have hcount : st.count ≤ 0 := by have := h.count; simp at this; omega
  obtain ⟨c, hfetch, hc⟩ := Cursor.fetch_append (by rw [h.controls, List.map_append]; rfl)
  have hint := Sqz.toInt_ctl_lit hs
  refine ⟨⟨c, st.input, (ctl (.lit s)).toInt⟩, ⟨hc, ?_, ?_, ?_⟩, ?_⟩
  · rw [h.input]
    simp [Seg.expand]
  · simp [hint]
  · obtain ⟨ts, hts, -⟩ := h.cut
    exact ⟨.lit s :: ts, by simp [hts], .inr ⟨s, ts, rfl, List.prefix_rfl⟩⟩
  · rw [fillLoop, if_pos hlen, if_neg (by omega)]
    split
    · simp_all
    · rename_i heq
      rw [hfetch, Option.some.injEq, Prod.mk.injEq] at heq
      obtain ⟨rfl, rfl⟩ := heq
      rw [if_neg (by omega)]

/-- Fetching the control byte of a repeat. -/
theorem fillLoop_rep {segs ss : List (Seg SCHAR)} {st : Progress} {n : ℕ} {b : SCHAR} {length : ℕ}
    (out : List SCHAR) (h : At segs st (ss ++ [.rep n b]) []) (hs : Encodable (.rep n b))
    (hlen : 1 < length) :
    ∃ st', At segs st' ss [] ∧
      fillLoop st length out = fillLoop st' (length - 2) (packed (.rep n b) ++ out) := by
  have hcount : st.count ≤ 0 := by have := h.count; simp at this; omega
  obtain ⟨c, hfetch, hc⟩ := Cursor.fetch_append (by rw [h.controls, List.map_append]; rfl)
  have hint := Sqz.toInt_ctl_rep hs
  have hn : 0 < n := hs.1
  have hinput : st.input = expand ss ++ List.replicate n b := by
    rw [h.input]
    simp [Seg.expand]
  have hlast : st.input.getLast? = some b := by
    obtain ⟨m, rfl⟩ : ∃ m, n = m + 1 := ⟨n - 1, by omega⟩
    rw [hinput, List.replicate_succ', ← List.append_assoc, List.getLast?_concat]
  have htake : st.input.take (st.input.length - (-(ctl (.rep n b)).toInt).toNat) = expand ss := by
    rw [hint, hinput, List.length_append, List.length_replicate, neg_neg, Int.toNat_natCast,
      Nat.add_sub_cancel, List.take_left]
  refine ⟨⟨c, expand ss, (ctl (.rep n b)).toInt⟩, ⟨hc, by simp, ?_, ?_⟩, ?_⟩
  · simp [hint]
  · obtain ⟨ts, hts, -⟩ := h.cut
    exact ⟨.rep n b :: ts, by simp [hts], .inl rfl⟩
  · rw [fillLoop, if_pos hlen, if_neg (by omega)]
    split
    · simp_all
    · rename_i heq
      rw [hfetch, Option.some.injEq, Prod.mk.injEq] at heq
      obtain ⟨rfl, rfl⟩ := heq
      rw [if_pos (by omega), hlast, htake]
      rfl

/-- Filling a page: the segments `us` are on the page, `ss'` and `p'` are left. A
literal that is cut leaves no room on the page and takes one more control byte. -/
structure Filled (segs ss : List (Seg SCHAR)) (p : List SCHAR) (length : ℕ) (st' : Progress)
    (length' : ℕ) (ss' : List (Seg SCHAR)) (p' : List SCHAR) (us : List (Seg SCHAR)) : Prop where
  progress : At segs st' ss' p'
  encodable : ∀ u ∈ us, Encodable u
  expand_eq : expand ss ++ p = expand ss' ++ p' ++ expand us
  length_le : length' ≤ 1
  length_eq : length' + size us = length
  size_eq : size (ss' ++ litOf p') + size us = size (ss ++ litOf p) + if p' = [] then 0 else 1
  full : p' ≠ [] → length' = 0

/-- One more segment, stored before the others. -/
theorem Filled.snoc {segs ss ss₁ ss' us : List (Seg SCHAR)} {p p₁ p' : List SCHAR}
    {length length₁ length' : ℕ} {st' : Progress} {u : Seg SCHAR}
    (h : Filled segs ss₁ p₁ length₁ st' length' ss' p' us) (hu : Encodable u)
    (hexp : expand ss ++ p = expand ss₁ ++ p₁ ++ u.expand) (hlen : length = length₁ + u.size)
    (hsize : size (ss ++ litOf p) = size (ss₁ ++ litOf p₁) + u.size) :
    Filled segs ss p length st' length' ss' p' (us ++ [u]) := by
  have hus : size (us ++ [u]) = size us + u.size := by simp
  refine ⟨h.progress, ?_, ?_, h.length_le, ?_, ?_, h.full⟩
  · intro v hv
    rcases List.mem_append.mp hv with hv | hv
    · exact h.encodable v hv
    · rwa [List.mem_singleton.mp hv]
  · rw [hexp, h.expand_eq]
    simp
  · have := h.length_eq
    omega
  · have := h.size_eq
    omega

@[simp] theorem size_litOf (p : List SCHAR) :
    size (litOf p) = if p = [] then 0 else p.length + 1 := by
  rw [litOf]
  split <;> simp [Seg.size]

theorem fillLoop_done (st : Progress) {length : ℕ} (out : List SCHAR) (h : length ≤ 1) :
    fillLoop st length out = some (st, length, out) := by
  rw [fillLoop, if_neg (by omega)]

/-- The page is filled, up to one byte, from the end of what is left. -/
theorem fillLoop_spec {segs : List (Seg SCHAR)} (hfit : ∀ s ∈ segs, s.Fits limits)
    {ss : List (Seg SCHAR)} {st : Progress} {p : List SCHAR} {length : ℕ} (out : List SCHAR)
    (hat : At segs st ss p) (hsize : length ≤ size (ss ++ litOf p)) (hlen : 1 < length ∨ p = []) :
    ∃ st' length' ss' p' us, fillLoop st length out = some (st', length', us.flatMap packed ++ out) ∧
      Filled segs ss p length st' length' ss' p' us := by
  induction hn : length + ss.length using Nat.strong_induction_on
    generalizing ss st p length out with
  | _ n ih =>
      subst hn
      have henc : ∀ s ∈ segs, Encodable s := fun s hs => Sqz.encodable_of_fits (hfit s hs)
      rcases Nat.lt_or_ge 1 length with h1 | h1
      · by_cases hp : p = []
        · subst hp
          rcases List.eq_nil_or_concat ss with rfl | ⟨ss, s, rfl⟩
          · simp at hsize
            omega
          rw [List.concat_eq_append] at hat hsize ih ⊢
          have hmem : s ∈ segs := by
            obtain ⟨ts, rfl, -⟩ := hat.cut
            simp
          rw [List.length_append, List.length_singleton] at ih
          cases s with
          | lit s =>
              have hs : s ≠ [] := List.ne_nil_of_length_pos (hfit _ hmem).1
              have hcost : size (ss ++ litOf s) = size (ss ++ [.lit s] ++ litOf []) := by
                simp [hs, Seg.size]
              obtain ⟨st₁, hat₁, heq⟩ := fillLoop_lit out hat (henc _ hmem) h1
              obtain ⟨st', length', ss', p', us, hfill, h⟩ :=
                ih _ (by omega) out hat₁ (by rw [hcost]; exact hsize) (.inl h1) rfl
              refine ⟨st', length', ss', p', us, heq.trans hfill, h.progress, h.encodable, ?_,
                h.length_le, h.length_eq, by rw [h.size_eq, hcost], h.full⟩
              rw [← h.expand_eq]
              simp [Seg.expand]
          | rep k b =>
              obtain ⟨st₁, hat₁, heq⟩ := fillLoop_rep out hat (henc _ hmem) h1
              have hcost : size (ss ++ [.rep k b] ++ litOf []) = size (ss ++ litOf []) + 2 := by
                simp [Seg.size]
              obtain ⟨st', length', ss', p', us, hfill, h⟩ :=
                ih (length - 2 + ss.length) (by omega) (packed (.rep k b) ++ out) hat₁ (by omega)
                  (.inr rfl) rfl
              refine ⟨st', length', ss', p', us ++ [.rep k b], ?_,
                h.snoc (henc (.rep k b) hmem) ?_ ?_ ?_⟩
              · rw [heq, hfill]
                simp
              · simp
              · simp only [Seg.size]
                omega
              · rw [hcost, Seg.size]
        · have hplen := hat.length_le henc
          have hpos := List.length_pos_of_ne_nil hp
          have hcost : size (ss ++ litOf p) = size ss + (p.length + 1) := by simp [hp]
          rcases Nat.lt_or_ge (length - 1) p.length with hcut | hall
          · -- the run is cut: its last `length - 1` bytes fill the page
            have hq : (p.drop (p.length - (length - 1))).length = length - 1 := by
              rw [List.length_drop]
              omega
            have htake : (p.take (p.length - (length - 1))).length = p.length - (length - 1) := by
              rw [List.length_take]
              omega
            have hsplit := List.take_append_drop (p.length - (length - 1)) p
            generalize p.take (p.length - (length - 1)) = p₁ at *
            generalize p.drop (p.length - (length - 1)) = q at *
            subst hsplit
            have hp₁ : p₁ ≠ [] := List.ne_nil_of_length_pos (by omega)
            obtain ⟨st', hat', heq⟩ := fillLoop_copy out hat h1 (by omega) (by omega)
            refine ⟨st', 0, ss, p₁, [.lit q], ?_, hat', ?_, ?_, by omega, ?_, ?_, fun _ => rfl⟩
            · rw [heq, hq, Nat.sub_add_cancel (by omega), Nat.sub_self,
                fillLoop_done _ _ (by omega)]
              simp
            · intro u hu
              rw [List.mem_singleton.mp hu]
              rw [List.length_append] at hplen
              exact (by omega : q.length ≤ 127)
            · simp [Seg.expand]
            · simp only [RunLength.size_cons, RunLength.size_nil, Seg.size]
              omega
            · rw [hcost, if_neg hp₁]
              simp [hp₁, Seg.size]
              omega
          · -- the rest of the run is copied
            obtain ⟨st₁, hat₁, heq⟩ := @fillLoop_copy segs ss st [] p length out hat h1
              (by rw [List.nil_append]; omega) hpos
            have hnil : size (ss ++ litOf []) = size ss := by simp
            obtain ⟨st', length', ss', p', us, hfill, h⟩ :=
              ih (length - (p.length + 1) + ss.length) (by omega) (packed (.lit p) ++ out) hat₁
                (by omega) (.inr rfl) rfl
            refine ⟨st', length', ss', p', us ++ [.lit p], ?_,
              h.snoc (show Encodable (.lit p) from hplen) ?_ ?_ ?_⟩
            · rw [heq, hfill]
              simp
            · simp [Seg.expand]
            · simp only [Seg.size]
              omega
            · rw [hcost, hnil, Seg.size]
      · obtain rfl : p = [] := hlen.resolve_left (by omega)
        exact ⟨st, length, ss, [], [], by rw [fillLoop_done _ _ h1]; simp, hat, by simp, by simp, h1,
          by simp, by simp, by simp⟩

/-! ## The chain of fragments -/

/-- The fragments along `rhdf_f_page`, starting from a header with the given flag
and pointer; `none` when a page is missing or the fuel runs out. -/
def fragments (pages : Pages) : ℕ → Bool → ℕ → Option (List (ℕ × Fragment))
  | _, false, _ => some []
  | 0, true, _ => none
  | fuel + 1, true, fPage => do
      let f ← pages.lookup fPage
      let rest ← fragments pages fuel f.incomplete f.fPage
      some ((fPage, f) :: rest)

/-- `SQZ_decompress` of one piece after the other. -/
def decompressAll : List (List SCHAR) → ℕ → Except Abort (List SCHAR)
  | [], _ => .ok []
  | input :: rest, space => do
      let out ← sqzDecompress input input.length space
      let out' ← decompressAll rest (space - out.length)
      .ok (out ++ out')

/-- The fragments hang together: `fPage` names the first one, the last one is complete. -/
def Linked : ℕ → List (ℕ × Fragment) → Prop
  | fPage, [] => fPage = 0
  | fPage, (page, f) :: rest =>
      fPage = page ∧ page ≠ 0 ∧ f.incomplete = (f.fPage != 0) ∧ Linked f.fPage rest

theorem linked_ne_zero {fPage : ℕ} {tails : List (ℕ × Fragment)} (h : Linked fPage tails) :
    (fPage != 0) = !tails.isEmpty := by
  rcases tails with _ | ⟨⟨page, f⟩, rest⟩
  · have hzero : fPage = 0 := h
    simp [hzero]
  · have hpage : fPage ≠ 0 := h.1 ▸ h.2.1
    simpa using hpage

theorem fragments_linked {pages tails : Pages} {fPage : ℕ} (h : Linked fPage tails)
    (hlook : ∀ t ∈ tails, pages.lookup t.1 = some t.2) :
    fragments pages tails.length (!tails.isEmpty) fPage = some tails := by
  induction tails generalizing fPage with
  | nil => rfl
  | cons t rest ih =>
      obtain ⟨page, f⟩ := t
      obtain ⟨rfl, -, hinc, hrest⟩ := h
      have hf : pages.lookup fPage = some f := hlook (fPage, f) (by simp)
      have hrec := ih hrest fun t ht => hlook t (by simp [ht])
      rw [← linked_ne_zero hrest, ← hinc] at hrec
      simp [fragments, hf, hrec]

theorem decompressAll_packed {uss : List (List (Seg SCHAR))} {space : ℕ}
    (h : ∀ us ∈ uss, ∀ u ∈ us, Encodable u) (hs : (expand uss.flatten).length ≤ space) :
    decompressAll (uss.map (List.flatMap packed)) space = .ok (expand uss.flatten) := by
  induction uss generalizing space with
  | nil => rfl
  | cons us uss ih =>
      rw [List.flatten_cons, RunLength.expand_append, List.length_append] at hs
      have hfirst := Sqz.sqzDecompress_packed (h us (by simp)) (by omega : (expand us).length ≤ space)
      have hrest := @ih (space - (expand us).length) (fun vs hvs => h vs (by simp [hvs])) (by omega)
      rw [List.map_cons, decompressAll, Sqz.length_flatMap_packed, hfirst]
      simp only [bind, Except.bind]
      rw [hrest, List.flatten_cons, RunLength.expand_append]

/-! ## The run over the record -/

/-- Some tail pages have been written: they hold the segments `uss`, the rest of
the record is in front of `in`, and `size` is what it takes. -/
structure Stored (dbb : Dbb) (record : List SCHAR) (pages₀ : Pages) (st : Progress)
    (sz prior : ℕ) (pages : Pages) (ss : List (Seg SCHAR)) (p : List SCHAR)
    (tails : List (ℕ × Fragment)) (uss : List (List (Seg SCHAR))) : Prop where
  progress : At (segments limits record) st ss p
  size_eq : sz = size (ss ++ litOf p)
  pages_eq : pages = tails ++ pages₀
  linked : Linked prior tails
  lookup : ∀ t ∈ tails, pages.lookup t.1 = some t.2
  data : tails.map (fun t => t.2.data) = uss.map (List.flatMap packed)
  encodable : ∀ us ∈ uss, ∀ u ∈ us, Encodable u
  full : ∀ t ∈ tails, t.2.data.length = dbb.maxData ∧ t.2.dpgLength = dbb.maxData + rhdfSize
  record_eq : record = expand ss ++ p ++ expand uss.flatten

/-- One more page. -/
theorem Stored.step {dbb : Dbb} {record : List SCHAR} {pages₀ pages : Pages} {st : Progress}
    {sz prior : ℕ} {ss : List (Seg SCHAR)} {p : List SCHAR} {tails : List (ℕ × Fragment)}
    {uss : List (List (Seg SCHAR))} (source : PageSource)
    (h : Stored dbb record pages₀ st sz prior pages ss p tails uss) (hsz : sz > dbb.maxData) :
    ∃ st' length out ss' p' us, fillLoop st dbb.maxData [] = some (st', length, out) ∧
      Stored dbb record pages₀ st'
        (sz - dbb.maxData + if length ≠ 0 ∨ 0 < st'.count then 1 else 0) (source.allocate pages)
        ((source.allocate pages, ⟨dbb.maxData + rhdfSize, prior != 0, prior,
          if length ≠ 0 then 0 :: out else out⟩) :: pages)
        ss' p' ((source.allocate pages, ⟨dbb.maxData + rhdfSize, prior != 0, prior,
          if length ≠ 0 then 0 :: out else out⟩) :: tails) (us :: uss) := by
  have hmax := dbb.one_lt_maxData
  obtain ⟨st', length, ss', p', us, hfill, hf⟩ := fillLoop_spec (RunLength.segments_fit limits record)
    [] h.progress (by rw [← h.size_eq]; omega) (.inl hmax)
  rw [List.append_nil] at hfill
  have hle := hf.length_le
  have hlen := hf.length_eq
  have hcost := hf.size_eq
  have hfull := hf.full
  -- the odd byte is an empty literal
  have hdata : (if length ≠ 0 then 0 :: us.flatMap packed else us.flatMap packed) =
      ((if length ≠ 0 then [Seg.lit []] else []) ++ us).flatMap packed := by
    split <;> rfl
  have hodd : size ((if length ≠ 0 then [Seg.lit ([] : List SCHAR)] else []) ++ us) =
      dbb.maxData := by
    rw [RunLength.size_append]
    split <;> simp [Seg.size] <;> omega
  have hcount : 0 < st'.count ↔ p' ≠ [] := by
    have := hf.progress.count
    rw [← List.length_pos_iff]
    omega
  refine ⟨st', length, us.flatMap packed, ss', p',
    (if length ≠ 0 then [Seg.lit []] else []) ++ us, hfill, ⟨hf.progress, ?_, ?_, ?_, ?_, ?_, ?_, ?_, ?_⟩⟩
  · have hsize := h.size_eq
    by_cases hp : p' = []
    · have hno : ¬0 < st'.count := fun hc => hcount.mp hc hp
      rw [if_pos hp] at hcost
      split <;> omega
    · rw [if_neg hp] at hcost
      rw [if_pos (.inr (hcount.mpr hp))]
      have := hfull hp
      omega
  · rw [h.pages_eq, List.cons_append]
  · exact ⟨rfl, source.ne_zero pages, rfl, h.linked⟩
  · intro t ht
    rcases List.mem_cons.mp ht with rfl | ht
    · simp
    · have hne : t.1 ≠ source.allocate pages :=
        source.fresh pages t (by rw [h.pages_eq]; exact List.mem_append_left _ ht)
      rw [List.lookup_cons, beq_false_of_ne hne]
      exact h.lookup t ht
  · rw [List.map_cons, List.map_cons, h.data, ← hdata]
  · intro vs hvs v hv
    rcases List.mem_cons.mp hvs with rfl | hvs
    · rcases List.mem_append.mp hv with hv | hv
      · split at hv
        · rw [List.mem_singleton.mp hv]
          exact Nat.zero_le _
        · simp at hv
      · exact hf.encodable v hv
    · exact h.encodable vs hvs v hv
  · intro t ht
    rcases List.mem_cons.mp ht with rfl | ht
    · refine ⟨?_, rfl⟩
      simp only
      rw [hdata, Sqz.length_flatMap_packed, hodd]
    · exact h.full t ht
  · have hnil : expand (if length ≠ 0 then [Seg.lit ([] : List SCHAR)] else []) = [] := by
      split <;> rfl
    rw [List.flatten_cons, RunLength.expand_append, RunLength.expand_append, hnil, List.nil_append,
      ← List.append_assoc, ← hf.expand_eq]
    exact h.record_eq

theorem tailLoop_spec {dbb : Dbb} {record : List SCHAR} {pages₀ pages : Pages} {st : Progress}
    {sz prior : ℕ} {ss : List (Seg SCHAR)} {p : List SCHAR} {tails : List (ℕ × Fragment)}
    {uss : List (List (Seg SCHAR))} (source : PageSource)
    (h : Stored dbb record pages₀ st sz prior pages ss p tails uss) :
    ∃ st' sz' prior' pages' ss' p' tails' uss',
      tailLoop dbb source st sz prior pages = some (st', prior', pages') ∧ sz' ≤ dbb.maxData ∧
        Stored dbb record pages₀ st' sz' prior' pages' ss' p' tails' uss' := by
  induction hn : sz using Nat.strong_induction_on
    generalizing st sz prior pages ss p tails uss with
  | _ n ih =>
      subst hn
      rw [tailLoop]
      split
      · rename_i hsz
        obtain ⟨st', length, out, ss', p', us, hfill, h'⟩ := h.step source hsz
        rw [hfill]
        have hmax := dbb.one_lt_maxData
        exact ih _ (by split <;> omega) h' rfl
      · exact ⟨st, sz, prior, pages, ss, p, tails, uss, rfl, by omega, h⟩

/-! ## Main results -/

/-- `DPM_store` takes this way: the compressed record does not fit on a page. -/
def IsBig (dbb : Dbb) (record : List SCHAR) : Prop :=
  (sqzLength record).2 > dbb.pageSize - (sizeofDpg + rhdSize)

/-- No record of 64000 bytes makes the 16-bit size wrap. -/
theorem size_segments_le_ushort {record : List SCHAR} (h : record.length ≤ 64000) :
    size (segments limits record) ≤ 65535 := by
  have hle := RunLength.size_segments_le limits record
  have hlit : RunLength.litSize limits record.length =
      record.length + (record.length + 126) / 127 := rfl
  omega

theorem stored_zero (dbb : Dbb) (pages : Pages) {record : List SCHAR} (h : record.length ≤ 64000) :
    Stored dbb record pages ⟨Cursor.ofChain (sqzLength record).1, record, 0⟩ (sqzLength record).2 0
      pages (segments limits record) [] [] [] := by
  obtain ⟨hcontrols, hsize⟩ := Sqz.sqzLength_eq (by omega : record.length ≤ 65535)
  have hexp := RunLength.expand_segments limits record
  refine ⟨⟨?_, by simp [hexp], by simp, [], by simp, .inl rfl⟩, ?_, rfl, rfl, by simp, rfl, by simp,
    by simp, by simp [hexp]⟩
  · rw [← hcontrols]
    simp [Cursor.controls, Cursor.ofChain, Chain.controls, Chain.blocks]
  · rw [hsize, ushort_of_le (size_segments_le_ushort h)]
    simp

/-- The head is recompressed to what the tail pages have left of the segmentation. -/
theorem Stored.head {dbb : Dbb} {record : List SCHAR} {pages₀ pages : Pages} {st : Progress}
    {sz prior : ℕ} {ss : List (Seg SCHAR)} {p : List SCHAR} {tails : List (ℕ × Fragment)}
    {uss : List (List (Seg SCHAR))}
    (h : Stored dbb record pages₀ st sz prior pages ss p tails uss) (hlen : record.length ≤ 64000) :
    segments limits st.input = ss ++ litOf p ∧ (sqzLength st.input).2 = sz ∧
      sqzFast (sqzLength st.input).1.blocks record = some ((ss ++ litOf p).flatMap packed) := by
  obtain ⟨ts, hts, hcut⟩ := h.progress.cut
  have hseg : segments limits st.input = ss ++ litOf p := by
    rw [h.progress.input, RunLength.segments_cut limits hts hcut]
  have hrecord : record = st.input ++ expand uss.flatten := by
    rw [h.progress.input]
    exact h.record_eq
  have hinput : st.input.length ≤ 64000 := by
    have := congrArg List.length hrecord
    rw [List.length_append] at this
    omega
  obtain ⟨hcontrols, hsize⟩ := Sqz.sqzLength_eq (by omega : st.input.length ≤ 65535)
  refine ⟨hseg, ?_, ?_⟩
  · rw [hsize, ushort_of_le (size_segments_le_ushort hinput), hseg, h.size_eq]
  · have henc : ∀ s ∈ segments limits st.input, Encodable s := fun s hs =>
      Sqz.encodable_of_fits (RunLength.segments_fit limits st.input s hs)
    have hblocks : (sqzLength st.input).1.blocks.flatten = (segments limits st.input).map ctl :=
      hcontrols
    have hfast := Sqz.fastBlock_map_ctl henc (expand uss.flatten)
    rw [RunLength.expand_segments, ← hrecord] at hfast
    rw [Sqz.sqzFast_eq, hblocks, hfast, hseg]
    rfl

/-- What `store_big_record` leaves behind. -/
theorem storeBigRecord_spec (dbb : Dbb) (source : PageSource) {record : List SCHAR} (pages : Pages)
    (hlen : record.length ≤ 64000) (hbig : IsBig dbb record) :
    ∃ st sz prior ss p tails uss,
      storeBigRecord dbb source record (sqzLength record).1 (sqzLength record).2 pages =
        some (⟨prior, sz, (ss ++ litOf p).flatMap packed⟩, tails ++ pages) ∧
      sz ≤ dbb.maxData ∧ tails ≠ [] ∧ segments limits st.input = ss ++ litOf p ∧
      Stored dbb record pages st sz prior (tails ++ pages) ss p tails uss := by
  obtain ⟨st, sz, prior, pages', ss, p, tails, uss, hrun, hsz, h⟩ :=
    tailLoop_spec source (stored_zero dbb pages hlen)
  obtain rfl := h.pages_eq
  obtain ⟨hseg, hsize, hfast⟩ := h.head hlen
  refine ⟨st, sz, prior, ss, p, tails, uss, ?_, hsz, ?_, hseg, h⟩
  · rw [storeBigRecord, hrun]
    simp only [Option.bind_eq_bind, Option.bind_some]
    rw [hfast, hsize]
    rfl
  · -- the record is too big for the loop to leave it alone
    rintro rfl
    have huss : uss = [] := by simpa using h.data.symm
    have hall : st.input = record := by
      rw [h.progress.input, h.record_eq, huss]
      simp
    rw [IsBig, ← hall, hsize] at hbig
    simp only [Dbb.maxData, sizeofDpg, rhdSize, rhdfSize] at hbig hsz
    omega

/-- All segments stored, the head's first. -/
theorem Stored.segments {dbb : Dbb} {record : List SCHAR} {pages₀ pages : Pages} {st : Progress}
    {sz prior : ℕ} {ss : List (Seg SCHAR)} {p : List SCHAR} {tails : List (ℕ × Fragment)}
    {uss : List (List (Seg SCHAR))}
    (h : Stored dbb record pages₀ st sz prior pages ss p tails uss)
    (hseg : segments limits st.input = ss ++ litOf p) :
    (∀ us ∈ (ss ++ litOf p) :: uss, ∀ u ∈ us, Encodable u) ∧
      expand ((ss ++ litOf p) :: uss).flatten = record := by
  constructor
  · intro us hus u hu
    rcases List.mem_cons.mp hus with rfl | hus
    · rw [← hseg] at hu
      exact Sqz.encodable_of_fits (RunLength.segments_fit limits st.input u hu)
    · exact h.encodable us hus u hu
  · rw [List.flatten_cons, RunLength.expand_append, ← hseg, RunLength.expand_segments,
      h.progress.input]
    exact h.record_eq.symm

/-- Every tail page is filled, the pointers lead from the head through the tail
pages, the pieces decompress to the record in that order, and the head fits. -/
theorem store_big_record_lossless (dbb : Dbb) (source : PageSource) (record : List SCHAR)
    (pages : Pages) (hlen : record.length ≤ 64000) (hbig : IsBig dbb record) :
    ∃ head tails, storeBigRecord dbb source record (sqzLength record).1 (sqzLength record).2 pages =
        some (head, tails ++ pages) ∧
      (∀ t ∈ tails, t.2.data.length = dbb.maxData) ∧
      fragments (tails ++ pages) tails.length true head.fPage = some tails ∧
      decompressAll (head.data :: tails.map fun t => t.2.data) record.length = .ok record ∧
      head.size ≤ dbb.maxData ∧ head.data.length = head.size := by
  obtain ⟨st, sz, prior, ss, p, tails, uss, hrun, hsz, hne, hseg, h⟩ :=
    storeBigRecord_spec dbb source pages hlen hbig
  obtain ⟨henc, hexp⟩ := h.segments hseg
  refine ⟨_, tails, hrun, fun t ht => (h.full t ht).1, ?_, ?_, hsz, ?_⟩
  · have hfrag := fragments_linked h.linked h.lookup
    rwa [show (!tails.isEmpty) = true by simpa using hne] at hfrag
  · have hdec := decompressAll_packed henc (le_of_eq (congrArg List.length hexp))
    rwa [hexp, List.map_cons, ← h.data] at hdec
  · rw [Sqz.length_flatMap_packed]
    exact h.size_eq.symm

/-- A page source that never looks back. -/
def PageSource.ascending : PageSource where
  allocate pages := (pages.map Prod.fst).sum + 1
  fresh pages p hp := by
    have := List.single_le_sum (fun _ _ => Nat.zero_le _) p.1 (List.mem_map.mpr ⟨p, hp, rfl⟩)
    omega
  ne_zero _ := Nat.succ_ne_zero _

theorem size_segments_alternating (n : ℕ) :
    size (segments limits (Sqz.alternating n)) = RunLength.litSize limits n := by
  rw [RunLength.size_segments_lit, Sqz.litLen_alternating, List.drop_of_length_le
    (by rw [Sqz.length_alternating]), RunLength.segments_nil, RunLength.size_nil, Nat.add_zero]

/-- 3000 incompressible bytes on pages of 1024. -/
theorem store_big_record_lossless_alternating :
    ∃ head tails, storeBigRecord ⟨1024, by decide, by decide⟩ .ascending (Sqz.alternating 3000)
        (sqzLength (Sqz.alternating 3000)).1 (sqzLength (Sqz.alternating 3000)).2 [] =
        some (head, tails ++ []) ∧
      (∀ t ∈ tails, t.2.data.length = 974) ∧
      fragments (tails ++ []) tails.length true head.fPage = some tails ∧
      decompressAll (head.data :: tails.map fun t => t.2.data) (Sqz.alternating 3000).length =
        .ok (Sqz.alternating 3000) ∧
      head.size ≤ 974 ∧ head.data.length = head.size := by
  have hlen := Sqz.length_alternating 3000
  refine store_big_record_lossless ⟨1024, by decide, by decide⟩ .ascending (Sqz.alternating 3000) []
    (by omega) ?_
  rw [IsBig, (Sqz.sqzLength_eq (by omega)).2, size_segments_alternating]
  decide

/-! ## Reading the record -/

/-- The bytes of a `SLONG`. -/
def longBytes (n : ℕ) : List SCHAR := (List.range 4).map fun i => Int8.ofNat (n / 256 ^ i)

/-- `get_header` on a fragment: `rpb_address` and `rpb_length`. A fragment that is
complete is read from `rhd_data` on, over the alignment gap, `rhdf_f_page` and
`rhdf_f_line`. -/
def getHeader (f : Fragment) : List SCHAR × ℕ :=
  if f.incomplete then (f.data, f.dpgLength - rhdfSize)
  else ([0, 0, 0] ++ longBytes f.fPage ++ [0, 0] ++ f.data, f.dpgLength - rhdSize)

/-- `while (rpb->rpb_flags & rpb_incomplete) …` of `VIO_data`; `none` when the fuel
runs out. -/
def dataLoop (pages : Pages) : ℕ → Bool → ℕ → List SCHAR → ℕ → Option (Except Abort (List SCHAR))
  | _, false, _, tail, _ => some (.ok tail)
  | 0, true, _, _, _ => none
  | fuel + 1, true, fPage, tail, space =>
      match pages.lookup fPage with
      | none => some (.error (.bugcheck 248))
      | some f =>
          match sqzDecompress (getHeader f).1 (getHeader f).2 (space - tail.length) with
          | .error e => some (.error e)
          | .ok out => dataLoop pages fuel f.incomplete f.fPage (tail ++ out) space

/-- `VIO_data` for a record stored whole; the head is always incomplete. -/
def vioData (pages : Pages) (fuel : ℕ) (head : Head) (fmtLength : ℕ) :
    Option (Except Abort (List SCHAR)) :=
  match sqzDecompress head.data head.size fmtLength with
  | .error e => some (.error e)
  | .ok tail => do
      let r ← dataLoop pages fuel true head.fPage tail fmtLength
      some (r >>= fun data => if fmtLength ≠ data.length then .error (.bugcheck 183) else .ok data)

/-- The bytes in front of `rhdf_data` read as empty literals on the last page. -/
theorem sqzDecompress_getHeader {dbb : Dbb} {f : Fragment} {us : List (Seg SCHAR)} {space : ℕ}
    (hinc : f.incomplete = (f.fPage != 0)) (hdata : f.data = us.flatMap packed)
    (hfull : f.data.length = dbb.maxData ∧ f.dpgLength = dbb.maxData + rhdfSize)
    (henc : ∀ u ∈ us, Encodable u) (hs : (expand us).length ≤ space) :
    sqzDecompress (getHeader f).1 (getHeader f).2 space = .ok (expand us) := by
  have hsize : size us = dbb.maxData := by rw [← Sqz.length_flatMap_packed, ← hdata, hfull.1]
  rw [getHeader]
  by_cases hz : f.fPage = 0
  · have hgap : [0, 0, 0] ++ longBytes f.fPage ++ [0, 0] ++ f.data =
        (List.replicate 9 (Seg.lit ([] : List SCHAR)) ++ us).flatMap packed := by
      rw [hz, List.flatMap_append, hdata]
      rfl
    have hlen : f.dpgLength - rhdSize =
        size (List.replicate 9 (Seg.lit ([] : List SCHAR)) ++ us) := by
      rw [RunLength.size_append, hsize, hfull.2]
      simp only [rhdSize, rhdfSize]
      have : size (List.replicate 9 (Seg.lit ([] : List SCHAR))) = 9 := rfl
      omega
    have hexp : expand (List.replicate 9 (Seg.lit ([] : List SCHAR)) ++ us) = expand us := by
      rw [RunLength.expand_append]
      rfl
    rw [if_neg (by simp [hinc, hz]), hgap, hlen, ← hexp]
    refine Sqz.sqzDecompress_packed ?_ (by rwa [hexp])
    intro u hu
    rcases List.mem_append.mp hu with hu | hu
    · rw [List.eq_of_mem_replicate hu]
      exact Nat.zero_le _
    · exact henc u hu
  · rw [if_pos (by simp [hinc, hz]), hfull.2, Nat.add_sub_cancel, ← hsize, hdata]
    exact Sqz.sqzDecompress_packed henc hs

theorem dataLoop_linked {dbb : Dbb} {pages tails : Pages} {uss : List (List (Seg SCHAR))}
    {fPage space : ℕ} (tail : List SCHAR) (h : Linked fPage tails)
    (hlook : ∀ t ∈ tails, pages.lookup t.1 = some t.2)
    (hdata : tails.map (fun t => t.2.data) = uss.map (List.flatMap packed))
    (hfull : ∀ t ∈ tails, t.2.data.length = dbb.maxData ∧ t.2.dpgLength = dbb.maxData + rhdfSize)
    (henc : ∀ us ∈ uss, ∀ u ∈ us, Encodable u)
    (hs : tail.length + (expand uss.flatten).length ≤ space) :
    dataLoop pages tails.length (!tails.isEmpty) fPage tail space =
      some (.ok (tail ++ expand uss.flatten)) := by
  induction tails generalizing fPage uss tail with
  | nil =>
      obtain rfl : uss = [] := by simpa using hdata.symm
      simp [dataLoop]
  | cons t rest ih =>
      obtain ⟨page, f⟩ := t
      obtain ⟨rfl, -, hinc, hrest⟩ := h
      rcases uss with _ | ⟨us, uss⟩
      · simp at hdata
      rw [List.map_cons, List.map_cons, List.cons.injEq] at hdata
      rw [List.flatten_cons, RunLength.expand_append, List.length_append] at hs
      have hf : pages.lookup fPage = some f := hlook (fPage, f) (by simp)
      have hdec := sqzDecompress_getHeader hinc hdata.1 (hfull (fPage, f) (by simp))
        (henc us (by simp)) (by omega : (expand us).length ≤ space - tail.length)
      have hrec := ih (tail ++ expand us) hrest (fun t ht => hlook t (by simp [ht])) hdata.2
        (fun t ht => hfull t (by simp [ht])) (fun vs hvs => henc vs (by simp [hvs]))
        (by rw [List.length_append]; omega)
      rw [← linked_ne_zero hrest, ← hinc] at hrec
      simp only [List.length_cons, List.isEmpty_cons, Bool.not_false, dataLoop, hf, hdec, hrec]
      rw [List.flatten_cons, RunLength.expand_append, List.append_assoc]

/-- `VIO_data` reads back what `store_big_record` wrote. -/
theorem vioData_storeBigRecord (dbb : Dbb) (source : PageSource) (record : List SCHAR)
    (pages : Pages) (hlen : record.length ≤ 64000) (hbig : IsBig dbb record) :
    ∃ head pages' fuel,
      storeBigRecord dbb source record (sqzLength record).1 (sqzLength record).2 pages =
        some (head, pages') ∧ vioData pages' fuel head record.length = some (.ok record) := by
  obtain ⟨st, sz, prior, ss, p, tails, uss, hrun, hsz, hne, hseg, h⟩ :=
    storeBigRecord_spec dbb source pages hlen hbig
  obtain ⟨henc, hexp⟩ := h.segments hseg
  rw [List.flatten_cons, RunLength.expand_append] at hexp
  have hsum := congrArg List.length hexp
  rw [List.length_append] at hsum
  have hhead := Sqz.sqzDecompress_packed (henc _ (by simp))
    (by omega : (expand (ss ++ litOf p)).length ≤ record.length)
  rw [← h.size_eq] at hhead
  have hloop := dataLoop_linked (expand (ss ++ litOf p)) h.linked h.lookup h.data h.full
    h.encodable hsum.le
  rw [hexp, show (!tails.isEmpty) = true by simpa using hne] at hloop
  refine ⟨_, _, tails.length, hrun, ?_⟩
  simp only [vioData, hhead, hloop, Option.bind_eq_bind, Option.bind_some]
  simp [bind, Except.bind]

theorem vioData_storeBigRecord_alternating :
    ∃ head pages' fuel, storeBigRecord ⟨1024, by decide, by decide⟩ .ascending
        (Sqz.alternating 3000) (sqzLength (Sqz.alternating 3000)).1
        (sqzLength (Sqz.alternating 3000)).2 [] = some (head, pages') ∧
      vioData pages' fuel head (Sqz.alternating 3000).length = some (.ok (Sqz.alternating 3000)) := by
  have hlen := Sqz.length_alternating 3000
  refine vioData_storeBigRecord ⟨1024, by decide, by decide⟩ .ascending (Sqz.alternating 3000) []
    (by omega) ?_
  rw [IsBig, (Sqz.sqzLength_eq (by omega)).2, size_segments_alternating]
  decide

end Firebird.Dpm
