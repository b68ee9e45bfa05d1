import Firebird.Lib.Crumbs
import Mathlib.Tactic.Linarith

/-! # Transaction inventory pages (`jrd/tra.cpp`)

A transaction inventory page (TIP) holds the states of `pgc_tpt` transactions, two bits
each; page `sequence` starts with transaction `sequence * pgc_tpt`. A snapshot is a copy of
such bits from a number on that is rounded down to a multiple of four.
-/

namespace Firebird.Tra

/-- `tra_active`, `tra_limbo`, `tra_dead` and `tra_committed` -/
inductive TraState where
  | active | limbo | dead | committed
deriving DecidableEq, Repr

/-- The two bits of a state. -/
def TraState.bits : TraState → BitVec 8
  | .active => 0
  | .limbo => 1
  | .dead => 2
  | .committed => 3

/-- The state of two bits. -/
def TraState.ofBits (b : BitVec 8) : TraState :=
  if b = 0 then .active else if b = 1 then .limbo else if b = 2 then .dead else .committed

@[simp] theorem TraState.ofBits_bits (s : TraState) : ofBits s.bits = s := by
  cases s <;> rfl

theorem TraState.bits_and (s : TraState) : s.bits &&& 3 = s.bits := by
  cases s <;> rfl

/-- `committed` and `dead` transactions stay that way. -/
def TraState.final : TraState → Bool
  | .committed | .dead => true
  | .active | .limbo => false

/-- The page control block: `tip_transactions` of a page has `bytes` bytes. -/
structure Pgc where
  bytes : ℕ
  pos : 0 < bytes
  small : bytes ≤ 65535

/-- `pgc_tpt`, transactions per page -/
def Pgc.tpt (pgc : Pgc) : ℕ := pgc.bytes * 4

theorem Pgc.tpt_pos (pgc : Pgc) : 0 < pgc.tpt := Nat.mul_pos pgc.pos (by decide)

/-- `tip_transactions` of a page, and `tpc_transactions` of a cache block -/
structure Bits (pgc : Pgc) where
  bytes : List (BitVec 8)
  length_eq : bytes.length = pgc.bytes

variable {pgc : Pgc}

/-- A page that has just been allocated: all transactions are active. -/
def Bits.zero (pgc : Pgc) : Bits pgc := ⟨List.replicate pgc.bytes 0, List.length_replicate⟩

/-- `*address &= ~(TRA_MASK << shift); *address |= state << shift;` -/
def Bits.set (b : Bits pgc) (number : ℕ) (s : TraState) : Bits pgc where
  bytes := Crumbs.set b.bytes (number % pgc.tpt) s.bits
  length_eq := by rw [Crumbs.length_set, b.length_eq]

/-- The state of a transaction, on its page. -/
def Bits.state (b : Bits pgc) (number : ℕ) : TraState :=
  TraState.ofBits ((Crumbs.get? b.bytes (number % pgc.tpt)).getD 0)

theorem Pgc.mod_div_lt (pgc : Pgc) (number : ℕ) : number % pgc.tpt / 4 < pgc.bytes := by
  have h := Nat.mod_lt number pgc.tpt_pos
  rw [Pgc.tpt] at h ⊢
  omega

/-- A page has the bits of all its transactions. -/
theorem Bits.get?_eq (b : Bits pgc) (number : ℕ) :
    (Crumbs.get? b.bytes (number % pgc.tpt)).map TraState.ofBits = some (b.state number) := by
  have hlt : number % pgc.tpt / 4 < b.bytes.length := by
    rw [b.length_eq]
    exact pgc.mod_div_lt number
  obtain ⟨x, hx⟩ := Option.isSome_iff_exists.mp ((Crumbs.get?_isSome _).mpr hlt)
  rw [state, hx]
  rfl

theorem Bits.state_set (b : Bits pgc) (n : ℕ) (s : TraState) (m : ℕ) :
    (b.set n s).state m = if n % pgc.tpt = m % pgc.tpt then s else b.state m := by
  have hlt : n % pgc.tpt / 4 < b.bytes.length := by
    rw [b.length_eq]
    exact pgc.mod_div_lt n
  rw [state, set, Crumbs.get?_set _ _ s.bits_and hlt]
  split
  · simp
  · rfl

@[simp] theorem Bits.state_zero (n : ℕ) : (Bits.zero pgc).state n = .active := by
  rw [state, zero, Crumbs.get?_replicate (pgc.mod_div_lt n)]
  rfl

/-! ## `TRA_state` -/

/-- `TRA_state`, on a vector of bits that starts at `oldest`, rounded down. The subtraction
is unsigned; `none` is a read outside the vector. -/
def traState (v : List (BitVec 8)) (oldest number : ℕ) : Option TraState :=
  let base := oldest - oldest % 4
  let byte := (number + 2 ^ 32 - base) % 2 ^ 32 / 4
  v[byte]?.map fun b => TraState.ofBits (Crumbs.field b number)

/-- A number from the start of the vector on reads its bits. -/
theorem traState_eq (v : List (BitVec 8)) {base number : ℕ} (hbase : base % 4 = 0)
    (hle : base ≤ number) (hnumber : number < 2 ^ 31) :
    traState v base number = (Crumbs.get? v (number - base)).map TraState.ofBits := by
  have hoff : (number + 2 ^ 32 - base) % 2 ^ 32 = number - base := by omega
  have hshift : Crumbs.shift number = Crumbs.shift (number - base) := by
    rw [Crumbs.shift, Crumbs.shift]
    omega
  rw [traState, hbase, Nat.sub_zero, hoff, Crumbs.get?, Option.map_map]
  simp only [Crumbs.field, hshift]
  rfl

/-- Below the start of the vector the subtraction wraps, and the byte is far outside. -/
theorem traState_wraps (v : List (BitVec 8)) {base number : ℕ} (hbase : base % 4 = 0)
    (hlt : number < base) (hsmall : base < 2 ^ 31) (hv : v.length ≤ 65535) :
    traState v base number = none := by
  have hoff : (number + 2 ^ 32 - base) % 2 ^ 32 = number + 2 ^ 32 - base := by omega
  have hout : v.length ≤ (number + 2 ^ 32 - base) / 4 := by omega
  rw [traState, hbase, Nat.sub_zero, hoff, List.getElem?_eq_none hout]
  rfl

/-! ## Inventories -/

/-- The state of a transaction on the inventory pages. -/
def pageState (pages : List (Bits pgc)) (number : ℕ) : Option TraState :=
  pages[number / pgc.tpt]?.map (·.state number)

theorem pageState_isSome {pages : List (Bits pgc)} {number : ℕ} :
    (pageState pages number).isSome ↔ number / pgc.tpt < pages.length := by
  simp [pageState]

/-- The pages with the state of one transaction replaced. -/
def setPage (pages : List (Bits pgc)) (number : ℕ) (s : TraState) : List (Bits pgc) :=
  pages.modify (number / pgc.tpt) (·.set number s)

@[simp] theorem length_setPage (pages : List (Bits pgc)) (number : ℕ) (s : TraState) :
    (setPage pages number s).length = pages.length := List.length_modify ..

/-- Two transactions with one page and one place on it are the same. -/
theorem eq_of_div_mod {n m : ℕ} (hdiv : n / pgc.tpt = m / pgc.tpt)
    (hmod : n % pgc.tpt = m % pgc.tpt) : n = m := by
  rw [← Nat.div_add_mod n pgc.tpt, ← Nat.div_add_mod m pgc.tpt, hdiv, hmod]

theorem pageState_setPage {pages : List (Bits pgc)} {n : ℕ} (hn : n / pgc.tpt < pages.length)
    (s : TraState) (m : ℕ) :
    pageState (setPage pages n s) m = if n = m then some s else pageState pages m := by
  rw [pageState, setPage, List.getElem?_modify, pageState]
  by_cases hdiv : n / pgc.tpt = m / pgc.tpt
  · rw [← hdiv, List.getElem?_eq_getElem hn]
    simp only [if_true, Option.map_some]
    by_cases hnm : n = m
    · subst hnm
      simp [Bits.state_set]
    · have hmod : n % pgc.tpt ≠ m % pgc.tpt := fun h => hnm (eq_of_div_mod hdiv h)
      simp [hnm, Bits.state_set, hmod]
  · have hnm : n ≠ m := by
      rintro rfl
      exact hdiv rfl
    simp [hnm, hdiv]

/-- What `TRA_get_inventory` copies from page `sequence`, for the transactions from `base`
on: `TRANS_OFFSET (MIN (top + TRA_MASK - base, trans_per_tip - l))` bytes. -/
def copied (page : Bits pgc) (base top : ℕ) : List (BitVec 8) :=
  (page.bytes.drop (base % pgc.tpt / 4)).take (min (top + 3 - base) (pgc.tpt - base % pgc.tpt) / 4)

theorem length_copied (page : Bits pgc) (base top : ℕ) :
    (copied page base top).length = min (top + 3 - base) (pgc.tpt - base % pgc.tpt) / 4 := by
  have hlt := Nat.mod_lt base pgc.tpt_pos
  rw [copied, List.length_take, List.length_drop, page.length_eq]
  rw [Pgc.tpt] at hlt ⊢
  omega

/-- The copy has the states of the transactions of the page up to `top`. -/
theorem get?_copied (page : Bits pgc) {base top n : ℕ} (hbase : base % 4 = 0) (hle : base ≤ n)
    (htop : n < top) (hpage : n / pgc.tpt = base / pgc.tpt) :
    (Crumbs.get? (copied page base top) (n - base)).map TraState.ofBits = some (page.state n) := by
  have hn := Nat.div_add_mod n pgc.tpt
  have hb := Nat.div_add_mod base pgc.tpt
  have hlt := Nat.mod_lt n pgc.tpt_pos
  have hblt := Nat.mod_lt base pgc.tpt_pos
  rw [hpage] at hn
  have hsub : n - base = n % pgc.tpt - base % pgc.tpt := by omega
  have hmod4 : base % pgc.tpt % 4 = 0 := by
    rw [Pgc.tpt, Nat.mod_mod_of_dvd _ (Nat.dvd_mul_left ..), hbase]
  have hidx : 4 * (base % pgc.tpt / 4) + (n - base) = n % pgc.tpt := by omega
  have hin : (n - base) / 4 < min (top + 3 - base) (pgc.tpt - base % pgc.tpt) / 4 := by
    rw [Pgc.tpt] at *
    omega
  rw [copied, Crumbs.get?_take _ hin, Crumbs.get?_drop, hidx, Bits.get?_eq]

end Firebird.Tra
