import Mathlib.Data.List.Basic
import Mathlib.Data.List.GetD
import Mathlib.Data.List.Nodup
import Mathlib.Order.Nat
import Firebird.Lib.Transition

/-! # Page inventory (`jrd/pag.cpp`)

Each page inventory page (PIP) has one bit for each of `pgc_ppp` pages, set while
the page is free. The last bit of a PIP is the page of the next one: when
`PAG_allocate` takes it, it formats that page and starts over.
-/

namespace Firebird.Pag

/-- The page control block: `pgc_bytes` bytes of bits on each PIP. -/
structure Pgc where
  bytes : ℕ
  pos : 0 < bytes

/-- `pgc_ppp`, pages per PIP. -/
def Pgc.ppp (pgc : Pgc) : ℕ := pgc.bytes * 8

/-- `pgc_pip`, the first PIP. -/
def pgcPip : ℕ := 1

theorem Pgc.eight_le_ppp (pgc : Pgc) : 8 ≤ pgc.ppp := by
  have := pgc.pos
  rw [ppp]
  omega

/-! ## Page inventory pages -/

/-- `pip_min` and `pip_bits`. -/
structure Pip (pgc : Pgc) where
  pipMin : ℕ
  pipBits : List (BitVec 8)
  length_eq : pipBits.length = pgc.bytes

variable {pgc : Pgc}

/-- The page of a relative bit is free. -/
def Pip.free (pip : Pip pgc) (bit : ℕ) : Bool := (pip.pipBits.getD (bit / 8) 0).getLsbD (bit % 8)

/-- `*bytes &= ~bit` -/
def Pip.clear (pip : Pip pgc) (bit : ℕ) : Pip pgc where
  pipMin := pip.pipMin
  pipBits := pip.pipBits.modify (bit / 8) (· &&& ~~~BitVec.twoPow 8 (bit % 8))
  length_eq := by rw [List.length_modify, pip.length_eq]

/-- `pip_bits[relative_bit >> 3] |= 1 << (relative_bit & 7)`, and `pip_min`. -/
def Pip.set (pip : Pip pgc) (bit : ℕ) : Pip pgc where
  pipMin := min pip.pipMin bit
  pipBits := pip.pipBits.modify (bit / 8) (· ||| BitVec.twoPow 8 (bit % 8))
  length_eq := by rw [List.length_modify, pip.length_eq]

theorem Pip.getD_modify (pip : Pip pgc) {bit : ℕ} (h : bit < pgc.ppp) (f : BitVec 8 → BitVec 8)
    (k : ℕ) : (pip.pipBits.modify (bit / 8) f).getD k 0 =
      if bit / 8 = k then f (pip.pipBits.getD k 0) else pip.pipBits.getD k 0 := by
  have hlt : bit / 8 < pip.pipBits.length := by
    rw [pip.length_eq]
    rw [Pgc.ppp] at h
    omega
  rw [List.getD_eq_getElem?_getD, List.getElem?_modify, List.getD_eq_getElem?_getD]
  split
  · subst_vars
    rw [List.getElem?_eq_getElem hlt]
    rfl
  · simp

theorem Pip.free_clear (pip : Pip pgc) {bit : ℕ} (h : bit < pgc.ppp) (k : ℕ) :
    (pip.clear bit).free k ↔ pip.free k ∧ k ≠ bit := by
  rw [free, clear, getD_modify pip h, free]
  split
  · have hlt : k % 8 < 8 := Nat.mod_lt _ (by decide)
    by_cases hk : k = bit
    · simp [hk, Nat.mod_lt bit (by decide : 8 > 0)]
    · have hne : k % 8 ≠ bit % 8 := by omega
      simp [hlt, hk, hne]
  · have hk : k ≠ bit := by omega
    simp [hk]

theorem Pip.free_set (pip : Pip pgc) {bit : ℕ} (h : bit < pgc.ppp) (k : ℕ) :
    (pip.set bit).free k ↔ pip.free k ∨ k = bit := by
  rw [free, set, getD_modify pip h, free]
  split
  · have hlt : k % 8 < 8 := Nat.mod_lt _ (by decide)
    by_cases hk : k = bit
    · simp [hk, Nat.mod_lt bit (by decide : 8 > 0)]
    · have hne : k % 8 ≠ bit % 8 := by omega
      simp [hlt, hk, hne]
  · have hk : k ≠ bit := by omega
    simp [hk]

/-- A PIP with all bits set, on a page that `CCH_fake` has cleared. -/
def Pip.fresh (pgc : Pgc) : Pip pgc where
  pipMin := 0
  pipBits := List.replicate pgc.bytes 0xff
  length_eq := List.length_replicate

theorem Pip.free_fresh {bit : ℕ} (h : bit < pgc.ppp) : (Pip.fresh pgc).free bit := by
  have hlt : bit / 8 < pgc.bytes := by rw [Pgc.ppp] at h; omega
  have hones : ∀ i < 8, (0xff : BitVec 8).getLsbD i = true := by decide
  rw [free, fresh, List.getD_replicate _ hlt]
  exact hones _ (Nat.mod_lt _ (by decide))

/-- `PAG_format_pip`: `pip_min = 4` and `pip_bits[0] &= ~(1 | 2 | 4)`. -/
def formatPip (pgc : Pgc) : Pip pgc where
  pipMin := 4
  pipBits := (Pip.fresh pgc).pipBits.modify 0 (· &&& ~~~(1 ||| 2 ||| 4))
  length_eq := by rw [List.length_modify, (Pip.fresh pgc).length_eq]

theorem formatPip_eq (pgc : Pgc) :
    (formatPip pgc).pipBits = ((((Pip.fresh pgc).clear 0).clear 1).clear 2).pipBits := by
  obtain ⟨n, hn⟩ : ∃ n, pgc.bytes = n + 1 := ⟨pgc.bytes - 1, by have := pgc.pos; omega⟩
  simp only [formatPip, Pip.clear, Pip.fresh, hn, List.replicate_succ, List.modify_zero_cons]
  rfl

theorem free_formatPip {bit : ℕ} (h : bit < pgc.ppp) : (formatPip pgc).free bit ↔ 3 ≤ bit := by
  have h8 := pgc.eight_le_ppp
  have hall := Pip.free_fresh h
  rw [Pip.free, formatPip_eq, ← Pip.free, Pip.free_clear _ (by omega), Pip.free_clear _ (by omega),
    Pip.free_clear _ (by omega)]
  simp only [hall, true_and]
  omega

/-! ## `PAG_allocate` and `PAG_release_page` -/

/-- `for (bytes = …; bytes < end; bytes++)`, from byte `k` on. `fake` tells for which
pages `CCH_fake` returns a buffer, `base` is `sequence * pgc_ppp`. -/
def scanBytes (fake : ℕ → Bool) (base : ℕ) : List (BitVec 8) → ℕ → Option ℕ
  | [], _ => none
  | byte :: bytes, k =>
      match (List.range 8).find? fun i => byte.getLsbD i && fake (8 * k + i + base) with
      | some i => some (8 * k + i)
      | none => scanBytes fake base bytes (k + 1)

/-- The relative bit found on a PIP. -/
def Pip.scan (pip : Pip pgc) (fake : ℕ → Bool) (base : ℕ) : Option ℕ :=
  scanBytes fake base (pip.pipBits.drop (pip.pipMin >>> 3)) (pip.pipMin >>> 3)

/-- The PIPs, by sequence, and `pgc_high_water`. -/
structure State (pgc : Pgc) where
  pips : List (Pip pgc)
  highWater : ℕ

/-- `for (sequence = …;; sequence++)`, over the PIPs from `sequence` on; behind the
last one `CCH_FETCH` finds no PIP and the call fails. -/
def findPage (fake : ℕ → Bool) : List (Pip pgc) → ℕ → Option (ℕ × ℕ)
  | [], _ => none
  | pip :: pips, sequence =>
      match pip.scan fake (sequence * pgc.ppp) with
      | some bit => some (sequence, bit)
      | none => findPage fake pips (sequence + 1)

/-- The state after `*bytes &= ~bit`. -/
def State.take (s : State pgc) (sequence bit : ℕ) : State pgc where
  pips := s.pips.modify sequence (·.clear bit)
  highWater := sequence

/-- Formats the PIP with the given sequence. -/
def State.extend (s : State pgc) (sequence : ℕ) : State pgc where
  pips := s.pips.take sequence ++ Pip.fresh pgc :: s.pips.drop (sequence + 1)
  highWater := s.highWater

/-- `PAG_allocate`, with the answers of `CCH_fake` for each of its invocations: the
page returned, if one is, and the state. -/
def pagAllocate : List (ℕ → Bool) → State pgc → Option ℕ × State pgc
  | [], s => (none, s)
  | fake :: fakes, s =>
      match findPage fake (s.pips.drop s.highWater) s.highWater with
      | none => (none, s)
      | some (sequence, bit) =>
          if bit ≠ pgc.ppp - 1 then (some (bit + sequence * pgc.ppp), s.take sequence bit)
          else pagAllocate fakes ((s.take sequence bit).extend (sequence + 1))

/-- `PAG_release_page` -/
def pagReleasePage (number : ℕ) (s : State pgc) : State pgc where
  pips := s.pips.modify (number / pgc.ppp) (·.set (number % pgc.ppp))
  highWater := min s.highWater (number / pgc.ppp)

/-! ## What the scan finds -/

theorem Pip.lt_of_free {pip : Pip pgc} {bit : ℕ} (h : pip.free bit) : bit < pgc.ppp := by
  by_contra hge
  have hlen : pip.pipBits.length ≤ bit / 8 := by
    rw [pip.length_eq]
    rw [Pgc.ppp] at hge
    omega
  rw [free, List.getD_eq_default _ _ hlen] at h
  simp at h

theorem scanBytes_some {fake : ℕ → Bool} {base : ℕ} {bytes : List (BitVec 8)} {k bit : ℕ}
    (h : scanBytes fake base bytes k = some bit) :
    k ≤ bit / 8 ∧ (bytes.getD (bit / 8 - k) 0).getLsbD (bit % 8) ∧ fake (bit + base) := by
  induction bytes generalizing k with
  | nil => simp [scanBytes] at h
  | cons byte bytes ih =>
      rw [scanBytes] at h
      split at h
      · rename_i i hfind
        obtain rfl : 8 * k + i = bit := by simpa using h
        have hi := List.mem_range.mp (List.mem_of_find?_eq_some hfind)
        have hp := List.find?_some hfind
        have hdiv : (8 * k + i) / 8 = k := by omega
        have hmod : (8 * k + i) % 8 = i := by omega
        rw [hdiv, hmod, Nat.sub_self]
        simpa using hp
      · obtain ⟨hk, hbit, hfake⟩ := ih h
        refine ⟨by omega, ?_, hfake⟩
        have hsub : bit / 8 - k = bit / 8 - (k + 1) + 1 := by omega
        rwa [hsub, List.getD_cons_succ]

theorem scanBytes_isSome {fake : ℕ → Bool} {base : ℕ} {bytes : List (BitVec 8)} {k bit : ℕ}
    (hk : k ≤ bit / 8) (hbit : (bytes.getD (bit / 8 - k) 0).getLsbD (bit % 8))
    (hfake : fake (bit + base)) : (scanBytes fake base bytes k).isSome := by
  induction bytes generalizing k with
  | nil => simp at hbit
  | cons byte bytes ih =>
      rw [scanBytes]
      split
      · rfl
      · rename_i hfind
        rcases Nat.eq_or_lt_of_le hk with rfl | hlt
        · have hno := List.find?_eq_none.mp hfind (bit % 8)
            (List.mem_range.mpr (Nat.mod_lt _ (by decide)))
          rw [Nat.sub_self, List.getD_cons_zero] at hbit
          have hsum : 8 * (bit / 8) + bit % 8 = bit := Nat.div_add_mod bit 8
          rw [hsum, hbit, hfake] at hno
          exact absurd rfl hno
        · refine ih hlt ?_
          have hsub : bit / 8 - k = bit / 8 - (k + 1) + 1 := by omega
          rwa [hsub, List.getD_cons_succ] at hbit

theorem Pip.getD_drop_min (pip : Pip pgc) {bit : ℕ} (h : pip.pipMin >>> 3 ≤ bit / 8) :
    (pip.pipBits.drop (pip.pipMin >>> 3)).getD (bit / 8 - pip.pipMin >>> 3) 0 =
      pip.pipBits.getD (bit / 8) 0 := by
  rw [List.getD_eq_getElem?_getD, List.getElem?_drop, Nat.add_sub_cancel' h,
    List.getD_eq_getElem?_getD]

theorem Pip.scan_some {pip : Pip pgc} {fake : ℕ → Bool} {base bit : ℕ}
    (h : pip.scan fake base = some bit) : pip.free bit ∧ fake (bit + base) := by
  obtain ⟨hk, hbit, hfake⟩ := scanBytes_some h
  rw [pip.getD_drop_min hk] at hbit
  exact ⟨hbit, hfake⟩

/-- The scan starts at a byte, so `pip_min` has to be right up to the byte only. -/
theorem Pip.scan_isSome {pip : Pip pgc} {fake : ℕ → Bool} {base bit : ℕ}
    (hmin : pip.pipMin / 8 ≤ bit / 8) (hfree : pip.free bit) (hfake : fake (bit + base)) :
    (pip.scan fake base).isSome := by
  have hmin : pip.pipMin >>> 3 ≤ bit / 8 := by rwa [Nat.shiftRight_eq_div_pow]
  refine scanBytes_isSome hmin ?_ hfake
  rw [pip.getD_drop_min hmin]
  exact hfree

theorem findPage_some {fake : ℕ → Bool} {pips : List (Pip pgc)} {k sequence bit : ℕ}
    (h : findPage fake pips k = some (sequence, bit)) :
    k ≤ sequence ∧ ∃ pip, pips[sequence - k]? = some pip ∧ pip.free bit := by
  induction pips generalizing k with
  | nil => simp [findPage] at h
  | cons pip pips ih =>
      rw [findPage] at h
      split at h
      · rename_i hscan
        simp only [Option.some.injEq, Prod.mk.injEq] at h
        obtain ⟨rfl, rfl⟩ := h
        exact ⟨Nat.le_refl _, pip, by simp, (Pip.scan_some hscan).1⟩
      · obtain ⟨hk, pip', hget, hfree⟩ := ih h
        refine ⟨by omega, pip', ?_, hfree⟩
        have hsub : sequence - k = sequence - (k + 1) + 1 := by omega
        rwa [hsub, List.getElem?_cons_succ]

/-! ## Runs -/

/-- A state, the pages handed out and not released, and all pages handed out so far. -/
structure World (pgc : Pgc) where
  state : State pgc
  held : List ℕ
  issued : List ℕ

/-- The calls; `fakes` are the answers of `CCH_fake` during one. -/
inductive Call where
  | allocate (fakes : List (ℕ → Bool))
  | release (n : ℕ)

/-- Runs from the state that `PAG_format_pip` leaves. Only pages that are handed out
are released. -/
def inventory (pgc : Pgc) : Transition.System (World pgc) Call where
  init w := w = ⟨⟨[formatPip pgc], 0⟩, [], []⟩
  step w call w' :=
    match call with
    | .allocate fakes =>
        let r := pagAllocate fakes w.state
        w' = ⟨r.2, r.1.toList ++ w.held, r.1.toList ++ w.issued⟩
    | .release n => n ∈ w.held ∧ w' = ⟨pagReleasePage n w.state, w.held.erase n, w.issued⟩

/-- The page of a PIP other than the first. -/
def pipPage (pgc : Pgc) (sequence : ℕ) : ℕ := sequence * pgc.ppp - 1

/-- The pages whose bits are clear: the three of `PAG_format_pip`, those handed out,
and the successor of a PIP. -/
def Taken (w : World pgc) (sequence bit : ℕ) : Prop :=
  bit + sequence * pgc.ppp < 3 ∨ bit + sequence * pgc.ppp ∈ w.held ∨
    (bit = pgc.ppp - 1 ∧ sequence + 1 < w.state.pips.length)

structure Inv (w : World pgc) : Prop where
  nodup : w.held.Nodup
  three_le : ∀ n ∈ w.held, 3 ≤ n
  not_pip : ∀ n ∈ w.held, ∀ k, n ≠ pipPage pgc k
  in_range : ∀ n ∈ w.held, n / pgc.ppp < w.state.pips.length
  issued : ∀ n ∈ w.held, n ∈ w.issued
  clear_iff : ∀ (k : ℕ) (pip : Pip pgc), w.state.pips[k]? = some pip → ∀ bit < pgc.ppp,
    ¬pip.free bit ↔ Taken w k bit
  min_le : ∀ (k : ℕ) (pip : Pip pgc), w.state.pips[k]? = some pip → ∀ bit, pip.free bit →
    pip.pipMin ≤ bit ∨ (k = 0 ∧ bit = 3 ∧ 3 ∉ w.issued)
  early : 3 ∉ w.issued → ∃ pip, w.state.pips[0]? = some pip ∧ pip.free 3 ∧ pip.pipMin = 4

theorem inv_init {w : World pgc} (h : (inventory pgc).init w) : Inv w := by
  obtain rfl := h
  have h8 := pgc.eight_le_ppp
  have hpip : ∀ k pip, [formatPip pgc][k]? = some pip → k = 0 ∧ pip = formatPip pgc := by
    intro k pip hget
    rcases k with _ | k
    · exact ⟨rfl, by simpa using hget.symm⟩
    · simp at hget
  refine ⟨by simp, by simp, by simp, by simp, by simp, ?_, ?_, ?_⟩
  · intro k pip hget bit hbit
    obtain ⟨rfl, rfl⟩ := hpip k pip hget
    rw [free_formatPip hbit]
    simp [Taken]
  · intro k pip hget bit hfree
    obtain ⟨rfl, rfl⟩ := hpip k pip hget
    have := (free_formatPip (Pip.lt_of_free hfree)).mp hfree
    have hmin : (formatPip pgc).pipMin = 4 := rfl
    simp only [List.not_mem_nil, not_false_eq_true, and_true, true_and]
    omega
  · intro _
    exact ⟨formatPip pgc, by simp, (free_formatPip (by omega)).mpr (Nat.le_refl 3), rfl⟩

/-- Sequence and relative bit determine each other's page. -/
theorem page_inj {bit bit' k k' : ℕ} (h : bit < pgc.ppp) (h' : bit' < pgc.ppp) :
    bit + k * pgc.ppp = bit' + k' * pgc.ppp ↔ bit = bit' ∧ k = k' := by
  constructor
  · intro heq
    have hmod := congrArg (· % pgc.ppp) heq
    have hdiv := congrArg (· / pgc.ppp) heq
    have hpos : 0 < pgc.ppp := by omega
    simp only [Nat.add_mul_mod_self_right, Nat.mod_eq_of_lt h, Nat.mod_eq_of_lt h'] at hmod
    simp only [Nat.add_mul_div_right _ _ hpos, Nat.div_eq_of_lt h, Nat.div_eq_of_lt h'] at hdiv
    omega
  · rintro ⟨rfl, rfl⟩
    rfl

theorem eq_pipPage {bit k j : ℕ} (h : bit < pgc.ppp) (heq : bit + k * pgc.ppp = pipPage pgc j)
    (h3 : 3 ≤ bit + k * pgc.ppp) : bit = pgc.ppp - 1 := by
  rw [pipPage] at heq
  rcases j with _ | j
  · omega
  · have hlast : pgc.ppp - 1 < pgc.ppp := by omega
    rw [Nat.succ_mul] at heq
    exact ((page_inj h hlast).mp (by omega : bit + k * pgc.ppp = pgc.ppp - 1 + j * pgc.ppp)).1

theorem take_getElem? (s : State pgc) (sequence bit k : ℕ) :
    (s.take sequence bit).pips[k]? =
      if sequence = k then s.pips[k]?.map (·.clear bit) else s.pips[k]? := by
  rw [State.take, List.getElem?_modify]
  split <;> simp

/-- Clearing the bit of a page that is returned. -/
theorem Inv.take {w : World pgc} (h : Inv w) {sequence bit : ℕ} {pip : Pip pgc}
    (hpip : w.state.pips[sequence]? = some pip) (hfree : pip.free bit) (hbit : bit ≠ pgc.ppp - 1) :
    Inv ⟨w.state.take sequence bit, (bit + sequence * pgc.ppp) :: w.held,
      (bit + sequence * pgc.ppp) :: w.issued⟩ := by
  have hlt := Pip.lt_of_free hfree
  have hnot : ¬Taken w sequence bit := by
    rw [← h.clear_iff sequence pip hpip bit hlt]
    simpa using hfree
  rw [Taken] at hnot
  have hlen : (w.state.take sequence bit).pips.length = w.state.pips.length := List.length_modify ..
  have hget : ∀ k pip', (w.state.take sequence bit).pips[k]? = some pip' →
      ∃ old, w.state.pips[k]? = some old ∧ pip'.pipMin = old.pipMin ∧
        ∀ b, pip'.free b ↔ old.free b ∧ ¬(k = sequence ∧ b = bit) := by
    intro k pip' hk
    rw [take_getElem?] at hk
    split at hk
    · subst_vars
      obtain ⟨old, hold, rfl⟩ := Option.map_eq_some_iff.mp hk
      exact ⟨old, hold, rfl, fun b => by simp [Pip.free_clear _ hlt]⟩
    · rename_i hne
      exact ⟨pip', hk, rfl, fun b => by simp [Ne.symm hne]⟩
  refine ⟨?_, ?_, ?_, ?_, ?_, ?_, ?_, ?_⟩
  · exact List.nodup_cons.mpr ⟨fun hmem => hnot (.inr (.inl hmem)), h.nodup⟩
  · intro n hn
    rcases List.mem_cons.mp hn with rfl | hn
    · exact Nat.le_of_not_lt fun hlt3 => hnot (.inl hlt3)
    · exact h.three_le n hn
  · intro n hn k
    rcases List.mem_cons.mp hn with rfl | hn
    · exact fun heq => hbit (eq_pipPage hlt heq (Nat.le_of_not_lt fun hlt3 => hnot (.inl hlt3)))
    · exact h.not_pip n hn k
  · intro n hn
    rw [hlen]
    rcases List.mem_cons.mp hn with rfl | hn
    · rw [Nat.add_mul_div_right _ _ (by omega), Nat.div_eq_of_lt hlt, Nat.zero_add]
      exact (List.getElem?_eq_some_iff.mp hpip).1
    · exact h.in_range n hn
  · intro n hn
    rcases List.mem_cons.mp hn with rfl | hn
    · exact List.mem_cons_self ..
    · exact List.mem_cons_of_mem _ (h.issued n hn)
  · intro k pip' hk b hb
    obtain ⟨old, hold, -, hfree'⟩ := hget k pip' hk
    have hclear := h.clear_iff k old hold b hb
    rw [hfree' b]
    simp only [Taken, hlen, List.mem_cons, page_inj hb hlt] at hclear ⊢
    grind
  · intro k pip' hk b hb
    obtain ⟨old, hold, hmin, hfree'⟩ := hget k pip' hk
    obtain ⟨hb, hne⟩ := (hfree' b).mp hb
    rcases h.min_le k old hold b hb with hle | ⟨rfl, rfl, h3⟩
    · exact .inl (hmin ▸ hle)
    · refine .inr ⟨rfl, rfl, ?_⟩
      rw [List.mem_cons, not_or]
      refine ⟨fun heq => hne ?_, h3⟩
      have h8 := pgc.eight_le_ppp
      have hpage : 3 + 0 * pgc.ppp = bit + sequence * pgc.ppp := by omega
      have := (page_inj (by omega) hlt).mp hpage
      exact ⟨this.2, this.1⟩
  · intro h3
    rw [List.mem_cons, not_or] at h3
    obtain ⟨old, hold, hfree3, hmin⟩ := h.early h3.2
    refine ⟨if sequence = 0 then old.clear bit else old, ?_, ?_, ?_⟩
    · rw [take_getElem?, hold]
      split <;> rfl
    · split
      · rename_i hzero
        refine (Pip.free_clear old hlt 3).mpr ⟨hfree3, fun heq => h3.1 ?_⟩
        rw [hzero]
        omega
      · exact hfree3
    · split
      · exact hmin
      · exact hmin

theorem extend_pips {s : State pgc} {sequence bit : ℕ} (h : sequence + 1 = s.pips.length) :
    ((s.take sequence bit).extend (sequence + 1)).pips =
      (s.take sequence bit).pips ++ [Pip.fresh pgc] := by
  have hlen : (s.take sequence bit).pips.length = sequence + 1 := by
    rw [State.take, List.length_modify, h]
  rw [State.extend, List.take_of_length_le hlen.le, List.drop_of_length_le (by omega)]

/-- Turning the last page of a PIP into the next PIP. -/
theorem Inv.extend {w : World pgc} (h : Inv w) {sequence : ℕ} {pip : Pip pgc}
    (hpip : w.state.pips[sequence]? = some pip) (hfree : pip.free (pgc.ppp - 1)) :
    Inv ⟨(w.state.take sequence (pgc.ppp - 1)).extend (sequence + 1), w.held, w.issued⟩ := by
  have h8 := pgc.eight_le_ppp
  have hlt : pgc.ppp - 1 < pgc.ppp := by omega
  have hnot : ¬Taken w sequence (pgc.ppp - 1) := by
    rw [← h.clear_iff sequence pip hpip _ hlt]
    simpa using hfree
  have hin := (List.getElem?_eq_some_iff.mp hpip).1
  -- the PIP is the last one, for its successor's bit is still set
  have hlast : sequence + 1 = w.state.pips.length := by
    by_contra hne
    exact hnot (.inr (.inr ⟨rfl, by omega⟩))
  have hpips := @extend_pips pgc w.state sequence (pgc.ppp - 1) hlast
  have hold : (w.state.take sequence (pgc.ppp - 1)).pips.length = w.state.pips.length :=
    List.length_modify ..
  have hlen : ((w.state.take sequence (pgc.ppp - 1)).extend (sequence + 1)).pips.length =
      w.state.pips.length + 1 := by
    rw [hpips, List.length_append, hold, List.length_singleton]
  have hget : ∀ k pip',
      ((w.state.take sequence (pgc.ppp - 1)).extend (sequence + 1)).pips[k]? = some pip' →
      (∃ old, w.state.pips[k]? = some old ∧ pip'.pipMin = old.pipMin ∧ k < w.state.pips.length ∧
        ∀ b, pip'.free b ↔ old.free b ∧ ¬(k = sequence ∧ b = pgc.ppp - 1)) ∨
      (k = w.state.pips.length ∧ pip' = Pip.fresh pgc) := by
    intro k pip' hk
    rw [hpips] at hk
    rcases Nat.lt_or_ge k w.state.pips.length with hklt | hkge
    · rw [List.getElem?_append_left (by omega), take_getElem?] at hk
      split at hk
      · subst_vars
        obtain ⟨old, hold, rfl⟩ := Option.map_eq_some_iff.mp hk
        exact .inl ⟨old, hold, rfl, hklt, fun b => by simp [Pip.free_clear _ hlt]⟩
      · rename_i hne
        exact .inl ⟨pip', hk, rfl, hklt, fun b => by simp [Ne.symm hne]⟩
    · rw [List.getElem?_append_right (by omega), hold] at hk
      rcases hj : k - w.state.pips.length with _ | j
      · rw [hj] at hk
        exact .inr ⟨by omega, by simpa using hk.symm⟩
      · rw [hj] at hk
        simp at hk
  refine ⟨h.nodup, h.three_le, h.not_pip, ?_, h.issued, ?_, ?_, ?_⟩
  · intro n hn
    rw [hlen]
    have := h.in_range n hn
    omega
  · intro k pip' hk b hb
    rcases hget k pip' hk with ⟨old, hold, -, hklt, hfree'⟩ | ⟨rfl, rfl⟩
    · have hclear := h.clear_iff k old hold b hb
      rw [hfree' b]
      simp only [Taken, hlen] at hclear ⊢
      have hsucc : k + 1 < w.state.pips.length + 1 ↔
          k + 1 < w.state.pips.length ∨ k = sequence := by omega
      rw [hsucc]
      grind
    · have hmem : b + w.state.pips.length * pgc.ppp ∉ w.held := by
        intro hmem
        have := h.in_range _ hmem
        rw [Nat.add_mul_div_right _ _ (by omega), Nat.div_eq_of_lt hb] at this
        omega
      have hbig : pgc.ppp ≤ w.state.pips.length * pgc.ppp :=
        Nat.le_mul_of_pos_left _ (by omega)
      simp only [Taken, hlen, Pip.free_fresh hb]
      constructor
      · exact fun hno => absurd trivial hno
      · rintro (hsys | hmem' | ⟨-, hsucc⟩)
        · omega
        · exact absurd hmem' hmem
        · omega
  · intro k pip' hk b hb
    rcases hget k pip' hk with ⟨old, hold, hmin, -, hfree'⟩ | ⟨-, rfl⟩
    · rw [hmin]
      exact h.min_le k old hold b ((hfree' b).mp hb).1
    · exact .inl (Nat.zero_le _)
  · intro h3
    obtain ⟨old, hold, hfree3, hmin⟩ := h.early h3
    refine ⟨if sequence = 0 then old.clear (pgc.ppp - 1) else old, ?_, ?_, ?_⟩
    · rw [hpips, List.getElem?_append_left (by omega), take_getElem?, hold]
      split <;> rfl
    · split
      · exact (Pip.free_clear old hlt 3).mpr ⟨hfree3, by omega⟩
      · exact hfree3
    · split
      · exact hmin
      · exact hmin

/-- Setting the bit of a page that is handed out. -/
theorem Inv.release {w : World pgc} (h : Inv w) {n : ℕ} (hn : n ∈ w.held) :
    Inv ⟨pagReleasePage n w.state, w.held.erase n, w.issued⟩ := by
  have h8 := pgc.eight_le_ppp
  have hlt : n % pgc.ppp < pgc.ppp := Nat.mod_lt _ (by omega)
  have hpage : n % pgc.ppp + n / pgc.ppp * pgc.ppp = n := Nat.mod_add_div' n pgc.ppp
  have hlen : (pagReleasePage n w.state).pips.length = w.state.pips.length := List.length_modify ..
  have hget : ∀ k pip', (pagReleasePage n w.state).pips[k]? = some pip' →
      ∃ old, w.state.pips[k]? = some old ∧ (k = n / pgc.ppp → pip'.pipMin = min old.pipMin (n % pgc.ppp)) ∧
        (k ≠ n / pgc.ppp → pip'.pipMin = old.pipMin) ∧
        ∀ b, pip'.free b ↔ old.free b ∨ (k = n / pgc.ppp ∧ b = n % pgc.ppp) := by
    intro k pip' hk
    rw [pagReleasePage, List.getElem?_modify] at hk
    split at hk
    · subst_vars
      obtain ⟨old, hold, rfl⟩ := Option.map_eq_some_iff.mp hk
      exact ⟨old, hold, fun _ => rfl, fun hne => absurd rfl hne, fun b => by simp [Pip.free_set _ hlt]⟩
    · rename_i hne
      have hne : k ≠ n / pgc.ppp := fun heq => hne heq.symm
      exact ⟨pip', by simpa using hk, fun heq => absurd heq hne, fun _ => rfl, fun b => by simp [hne]⟩
  have hmem : ∀ m ∈ w.held.erase n, m ∈ w.held := fun m hm => List.mem_of_mem_erase hm
  refine ⟨h.nodup.erase n, fun m hm => h.three_le m (hmem m hm), fun m hm => h.not_pip m (hmem m hm),
    fun m hm => by rw [hlen]; exact h.in_range m (hmem m hm), fun m hm => h.issued m (hmem m hm),
    ?_, ?_, ?_⟩
  · intro k pip' hk b hb
    obtain ⟨old, hold, -, -, hfree'⟩ := hget k pip' hk
    have hclear := h.clear_iff k old hold b hb
    have h3 := h.three_le n hn
    have hpip : b + k * pgc.ppp = n → b = pgc.ppp - 1 → False := by
      intro heq hb'
      refine h.not_pip n hn (k + 1) ?_
      rw [pipPage, Nat.succ_mul]
      omega
    have hinj : b + k * pgc.ppp = n ↔ b = n % pgc.ppp ∧ k = n / pgc.ppp := by
      rw [← page_inj hb hlt, hpage]
    rw [hfree' b]
    simp only [Taken, hlen, h.nodup.mem_erase_iff] at hclear ⊢
    have hsys : b + k * pgc.ppp < 3 → b + k * pgc.ppp ≠ n := by omega
    grind
  · intro k pip' hk b hb
    obtain ⟨old, hold, hmin, hmin', hfree'⟩ := hget k pip' hk
    by_cases hkn : k = n / pgc.ppp
    · rw [hmin hkn]
      rcases (hfree' b).mp hb with hb | ⟨-, rfl⟩
      · rcases h.min_le k old hold b hb with hle | hearly
        · exact .inl ((Nat.min_le_left ..).trans hle)
        · exact .inr hearly
      · exact .inl (Nat.min_le_right ..)
    · rw [hmin' hkn]
      rcases (hfree' b).mp hb with hb | ⟨hkn', -⟩
      · exact h.min_le k old hold b hb
      · exact absurd hkn' hkn
  · intro h3
    obtain ⟨old, hold, hfree3, hmin⟩ := h.early h3
    have hne : n ≠ 3 := fun heq => h3 (heq ▸ h.issued n hn)
    have hthree := h.three_le n hn
    refine ⟨if n / pgc.ppp = 0 then old.set (n % pgc.ppp) else old, ?_, ?_, ?_⟩
    · rw [pagReleasePage, List.getElem?_modify, hold]
      split <;> rfl
    · split
      · exact (Pip.free_set old hlt 3).mpr (.inl hfree3)
      · exact hfree3
    · split
      · rename_i hzero
        have : n % pgc.ppp = n := by
          rw [hzero] at hpage
          omega
        have hset : (old.set (n % pgc.ppp)).pipMin = min old.pipMin (n % pgc.ppp) := rfl
        omega
      · exact hmin

/-- One invocation of `PAG_allocate` after the other. -/
theorem Inv.allocate {fakes : List (ℕ → Bool)} {w : World pgc} (h : Inv w) :
    Inv ⟨(pagAllocate fakes w.state).2, (pagAllocate fakes w.state).1.toList ++ w.held,
      (pagAllocate fakes w.state).1.toList ++ w.issued⟩ := by
  induction fakes generalizing w with
  | nil => exact h
  | cons fake fakes ih =>
      rw [pagAllocate]
      split
      · exact h
      · rename_i sequence bit hfind
        obtain ⟨hseq, pip, hpip, hfree⟩ := findPage_some hfind
        rw [List.getElem?_drop, Nat.add_sub_cancel' hseq] at hpip
        split
        · rename_i hbit
          exact h.take hpip hfree hbit
        · rename_i hbit
          obtain rfl : bit = pgc.ppp - 1 := not_not.mp hbit
          exact ih (h.extend hpip hfree)

theorem inv_step {w w' : World pgc} {call : Call} (h : Inv w)
    (hstep : (inventory pgc).step w call w') : Inv w' := by
  cases call with
  | allocate fakes =>
      obtain rfl := hstep
      exact h.allocate
  | release n =>
      obtain ⟨hn, rfl⟩ := hstep
      exact h.release hn

theorem inv_reachable {w : World pgc} (h : Transition.Reachable (inventory pgc) w) : Inv w :=
  h.invariant (fun _ => inv_init) (fun _ _ _ => inv_step)

/-! ## Main results -/

/-- No page is handed out twice, none is a PIP, the clear bits are the pages in use and
the PIP's successor, and the scan of a PIP finds a page when there is one to be had. -/
structure Safe (w : World pgc) : Prop where
  nodup : w.held.Nodup
  not_pip : ∀ n ∈ w.held, n ≠ pgcPip ∧ ∀ k, n ≠ pipPage pgc k
  clear_iff : ∀ (k : ℕ) (pip : Pip pgc), w.state.pips[k]? = some pip → ∀ bit < pgc.ppp,
    ¬pip.free bit ↔ Taken w k bit
  scan : ∀ (k : ℕ) (pip : Pip pgc), w.state.pips[k]? = some pip → ∀ fake bit, pip.free bit →
    fake (bit + k * pgc.ppp) = true → (pip.scan fake (k * pgc.ppp)).isSome

/-- `pip_min` is not above the lowest free page. -/
def MinLe (w : World pgc) : Prop :=
  ∀ (k : ℕ) (pip : Pip pgc), w.state.pips[k]? = some pip → ∀ bit, pip.free bit → pip.pipMin ≤ bit

theorem Inv.safe {w : World pgc} (h : Inv w) : Safe w := by
  refine ⟨h.nodup, fun n hn => ⟨?_, h.not_pip n hn⟩, h.clear_iff, ?_⟩
  · have := h.three_le n hn
    rw [pgcPip]
    omega
  · intro k pip hk fake bit hfree hfake
    refine Pip.scan_isSome ?_ hfree hfake
    rcases h.min_le k pip hk bit hfree with hle | ⟨rfl, rfl, h3⟩
    · exact Nat.div_le_div_right hle
    · obtain ⟨pip', hk', -, hmin⟩ := h.early h3
      rw [hk, Option.some.injEq] at hk'
      rw [hk', hmin]

theorem Inv.minLe_iff {w : World pgc} (h : Inv w) : MinLe w ↔ 3 ∈ w.issued := by
  constructor
  · intro hmin
    by_contra h3
    obtain ⟨pip, hk, hfree, hfour⟩ := h.early h3
    have := hmin 0 pip hk 3 hfree
    omega
  · intro h3 k pip hk bit hfree
    rcases h.min_le k pip hk bit hfree with hle | ⟨-, -, hno⟩
    · exact hle
    · exact absurd h3 hno

/-- In every state reached the inventory is safe, and `pip_min` is a lower bound of
the free pages exactly when page 3 has been handed out before. -/
theorem pag_inventory {w : World pgc} (h : Transition.Reachable (inventory pgc) w) :
    Safe w ∧ (Safe w ∧ MinLe w ↔ 3 ∈ w.issued) := by
  have hinv := inv_reachable h
  exact ⟨hinv.safe, by rw [hinv.minLe_iff]; exact and_iff_right hinv.safe⟩

/-- PIPs of two bytes: the first page handed out is page 3. -/
theorem pag_inventory_first :
    let w : World ⟨2, by decide⟩ := ⟨⟨[(formatPip _).clear 3], 0⟩, [3], [3]⟩
    Safe w ∧ MinLe w := by
  have hrun : (inventory ⟨2, by decide⟩).step ⟨⟨[formatPip _], 0⟩, [], []⟩
      (.allocate [fun _ => true]) ⟨⟨[(formatPip _).clear 3], 0⟩, [3], [3]⟩ := rfl
  exact (pag_inventory ((Transition.Reachable.init rfl).step hrun)).2.mpr (by decide)

/-- `PAG_format_pip` leaves bit 3 set under a `pip_min` of 4. -/
theorem pag_format_pip_min :
    ∃ w : World ⟨1004, by decide⟩, Transition.Reachable (inventory _) w ∧ ¬(Safe w ∧ MinLe w) := by
  refine ⟨⟨⟨[formatPip _], 0⟩, [], []⟩, .init rfl, ?_⟩
  rintro ⟨-, hmin⟩
  have := hmin 0 (formatPip _) rfl 3 ((free_formatPip (by decide)).mpr (by decide))
  exact absurd this (by decide)

end Firebird.Pag
