import Firebird.Lib.Bytes
import Firebird.Lib.Memory

/-! # Index keys of dates and times (`compress` in `jrd/btr.cpp`)

The value is put into a union, its bytes are copied the highest one first, and the sign is
zapped: a negative value is complemented as a whole, as is right for a double, and the sign bit
of the others is flipped. Trailing zero bytes are chopped off.

Numbers that are not negative stay in order, and so do a negative one and another. Two
negative integers do not: complementing two's complement turns their order round.
-/

namespace Firebird.Btr

/-! ## The values -/

/-- The itypes whose values are integers -/
inductive Itype
  | sqlDate
  | sqlTime
  | timestamp2

/-- What `MOV_get_sql_date`, `MOV_get_sql_time` and `MOV_get_timestamp` return: an `SLONG`, a
`ULONG`, one of each -/
inductive Value : Itype → Type
  | date (date : BitVec 32) : Value .sqlDate
  | time (time : BitVec 32) : Value .sqlTime
  | timestamp (date time : BitVec 32) : Value .timestamp2

/-- `SECONDS_PER_DAY * ISC_TIME_SECONDS_PRECISION` -/
def ticksPerDay : ℕ := 24 * 60 * 60 * 10000

/-- `temp_sint64` -/
def sint64 (date time : BitVec 32) : BitVec 64 :=
  date.signExtend 64 * BitVec.ofNat 64 ticksPerDay + time.zeroExtend 64

/-- The integer that a value is -/
def Value.toInt : {itype : Itype} → Value itype → ℤ
  | _, .date d => d.toInt
  | _, .time t => t.toNat
  | _, .timestamp d t => d.toInt * ticksPerDay + t.toNat

/-! ## The key -/

/-- `temp_copy_length`, the bits of the member of `temp` that is set, `temp_is_negative` -/
structure Temp where
  copyLength : ℕ
  bits : ℕ
  isNegative : Bool

/-- The part of `compress` that depends on `itype` -/
def temp : {itype : Itype} → Value itype → Temp
  | _, .date d => ⟨4, d.toNat, decide (d.toInt < 0)⟩
  | _, .time t => ⟨4, t.toNat, false⟩
  | _, .timestamp d t => ⟨8, (sint64 d t).toNat, decide ((sint64 d t).toInt < 0)⟩

/-- The bytes of a number as they are laid down, the lowest one first -/
def bytes : ℕ → ℕ → List UCHAR
  | 0, _ => []
  | n + 1, u => ⟨u % 256, Bytes.mod_lt u⟩ :: bytes n (u / 256)

/-- `((SSHORT *) key->key_data)[i] = -((SSHORT *) key->key_data)[i] - 1` -/
def complementShort (m : Memory UCHAR) (i : ℕ) : Memory UCHAR :=
  let s := BitVec.ofNat 16 ((m (2 * i)).val + 256 * (m (2 * i + 1)).val)
  m.store (2 * i) (bytes 2 (-s - 1).toNat)

/-- The index of the last byte that is not chopped off, and one more -/
def chop (m : Memory UCHAR) : ℕ → ℕ
  | 0 => 1
  | p + 1 => if m (p + 1) = 0 then chop m p else p + 2

/-- `compress` on a little-endian machine, for an itype that is kept as an integer and a value
that is not missing. `keyData` is what `key->key_data` held before. -/
def compress {itype : Itype} (keyData : Memory UCHAR) (v : Value itype) : List UCHAR :=
  let temp := temp v
  let m := keyData.store 0 (bytes temp.copyLength temp.bits).reverse
  let m :=
    if temp.isNegative then (List.range 4).foldl complementShort m
    else m.store 0 [m 0 ^^^ 128]
  m.load 0 (chop m (temp.copyLength - 1))

/-! ## The bytes -/

theorem length_bytes (n u : ℕ) : (bytes n u).length = n := by
  induction n generalizing u with
  | zero => rfl
  | succ n ih => rw [bytes, List.length_cons, ih]

theorem ofDigits_bytes (n u : ℕ) : Bytes.ofDigits (bytes n u).reverse = u % 256 ^ n := by
  induction n generalizing u with
  | zero => rw [bytes, List.reverse_nil, Bytes.ofDigits, pow_zero, Nat.mod_one]
  | succ n ih =>
      rw [bytes, List.reverse_cons, Bytes.ofDigits_append, ih, pow_succ', Nat.mod_mul]
      simp only [List.length_singleton, Bytes.ofDigits, List.length_nil, pow_one, pow_zero]
      ring

theorem bytes_two (u : ℕ) :
    bytes 2 u = [⟨u % 256, Bytes.mod_lt u⟩, ⟨u / 256 % 256, Bytes.mod_lt _⟩] :=
  rfl

/-- `-x - 1` has the complements of the two bytes of `x`. -/
theorem bytes_complement (a b : UCHAR) :
    bytes 2 (-(BitVec.ofNat 16 (a.val + 256 * b.val)) - 1).toNat = [a.rev, b.rev] := by
  have ha := a.isLt
  have hb := b.isLt
  have hnot : (-(BitVec.ofNat 16 (a.val + 256 * b.val)) - 1).toNat = 65535 - (a.val + 256 * b.val) := by
    rw [BitVec.neg_eq_not_add]
    change (_ + 1#16 - 1#16).toNat = _
    rw [BitVec.add_sub_cancel, BitVec.toNat_not, BitVec.toNat_ofNat, Nat.mod_eq_of_lt (by omega)]
  rw [hnot, bytes_two]
  refine congrArg₂ _ (Fin.ext ?_) (congrArg (fun x => [x]) (Fin.ext ?_))
  · rw [Fin.val_rev]
    dsimp only
    omega
  · rw [Fin.val_rev]
    dsimp only
    omega

set_option maxRecDepth 1000 in
theorem xor_sign (x : UCHAR) : (x ^^^ 128).val = (x.val + 128) % 256 := by
  revert x
  decide

theorem complementShort_apply (m : Memory UCHAR) (i p : ℕ) :
    complementShort m i p = if p / 2 = i then (m p).rev else m p := by
  rw [complementShort, bytes_complement, Memory.store]
  by_cases hp : p / 2 = i
  · have hcases : p = 2 * i ∨ p = 2 * i + 1 := by omega
    rw [if_pos hp, if_pos (by omega)]
    rcases hcases with rfl | rfl
    · rw [Nat.sub_self]
      rfl
    · rw [Nat.add_sub_cancel_left]
      rfl
  · rw [if_neg hp]
    split
    · rw [List.getD_eq_getElem?_getD, List.getElem?_eq_none, Option.getD_none]
      change 2 ≤ p - 2 * i
      omega
    · rfl

theorem complement_apply (m : Memory UCHAR) (n p : ℕ) :
    (List.range n).foldl complementShort m p = if p / 2 < n then (m p).rev else m p := by
  induction n with
  | zero => rw [if_neg (Nat.not_lt_zero _), List.range_zero, List.foldl_nil]
  | succ n ih =>
      rw [List.range_succ, List.foldl_append, List.foldl_cons, List.foldl_nil,
        complementShort_apply, ih]
      by_cases hn : p / 2 = n
      · rw [if_pos hn, if_neg (by omega), if_pos (by omega)]
      · rw [if_neg hn]
        by_cases hlt : p / 2 < n
        · rw [if_pos hlt, if_pos (by omega)]
        · rw [if_neg hlt, if_neg (by omega)]

theorem ofDigits_rev (l : List UCHAR) :
    Bytes.ofDigits (l.map Fin.rev) + Bytes.ofDigits l + 1 = 256 ^ l.length := by
  induction l with
  | nil => rfl
  | cons x l ih =>
      have hx := x.isLt
      have hrev : (Fin.rev x).val + x.val = 255 := by
        rw [Fin.val_rev]
        omega
      rw [List.map_cons, Bytes.ofDigits, Bytes.ofDigits, List.length_map, List.length_cons, pow_succ]
      have hmul : (Fin.rev x).val * 256 ^ l.length + x.val * 256 ^ l.length =
          255 * 256 ^ l.length := by rw [← Nat.add_mul, hrev]
      omega

/-- The key is the first byte and what is left of the others. -/
theorem load_chop (m : Memory UCHAR) (p : ℕ) :
    m.load 0 (chop m p) = m 0 :: Bytes.strip (m.load 1 p) := by
  induction p with
  | zero => rfl
  | succ p ih =>
      have hload : m.load 1 (p + 1) = m.load 1 p ++ [m (p + 1)] := by
        rw [Memory.load_add, Nat.add_comm 1 p]
        rfl
      rw [chop, hload]
      split
      · rename_i hzero
        rw [hzero, Bytes.strip_snoc_zero, ih]
      · rename_i hne
        rw [Bytes.strip_snoc_of_ne hne, ← hload, show p + 2 = 1 + (p + 1) by omega, Memory.load_add]
        rfl

/-- The number that the bytes of the key are, before some are chopped off -/
def Temp.image (t : Temp) : ℕ :=
  if t.isNegative then 256 ^ t.copyLength - 1 - t.bits
  else (t.bits + 128 * 256 ^ (t.copyLength - 1)) % 256 ^ t.copyLength

theorem ofDigits_negative {m : Memory UCHAR} {n u : ℕ} (hn : n ≤ 8)
    (hu : Bytes.ofDigits (m.load 0 n) = u) :
    Bytes.ofDigits (((List.range 4).foldl complementShort m).load 0 n) = 256 ^ n - 1 - u := by
  have hload : ((List.range 4).foldl complementShort m).load 0 n = (m.load 0 n).map Fin.rev := by
    rw [Memory.load, Memory.load, List.map_map]
    refine List.map_congr_left fun i hi => ?_
    have hi := List.mem_range.mp hi
    rw [complement_apply, if_pos (by omega)]
    rfl
  have hsum := ofDigits_rev (m.load 0 n)
  rw [Memory.length_load, hu] at hsum
  rw [hload]
  omega

theorem ofDigits_positive {m : Memory UCHAR} {n u : ℕ} (hu : Bytes.ofDigits (m.load 0 (n + 1)) = u) :
    Bytes.ofDigits ((m.store 0 [m 0 ^^^ 128]).load 0 (n + 1)) =
      (u + 128 * 256 ^ n) % 256 ^ (n + 1) := by
  have hcons : ∀ m : Memory UCHAR, m.load 0 (n + 1) = m 0 :: m.load 1 n := by
    intro m
    rw [Nat.add_comm n 1, Memory.load_add]
    rfl
  have htail : (m.store 0 [m 0 ^^^ 128]).load 1 n = m.load 1 n :=
    Memory.load_store_of_disjoint (.inr (Nat.le_refl 1))
  have hfirst : m.store 0 [m 0 ^^^ 128] 0 = m 0 ^^^ 128 := rfl
  have hlt := Bytes.ofDigits_lt (m.load 1 n)
  rw [Memory.length_load] at hlt
  rw [hcons, Bytes.ofDigits, Memory.length_load] at hu
  rw [hcons, htail, Bytes.ofDigits, Memory.length_load, hfirst, xor_sign, ← hu, pow_succ']
  have hx := (m 0).isLt
  have hsplit : (m 0).val * 256 ^ n + Bytes.ofDigits (m.load 1 n) + 128 * 256 ^ n =
      256 ^ n * ((m 0).val + 128) + Bytes.ofDigits (m.load 1 n) := by ring
  rw [hsplit, Nat.mul_comm 256 (256 ^ n), Nat.mod_mul, Nat.mul_add_mod, Nat.mod_eq_of_lt hlt,
    Nat.mul_add_div (Nat.pow_pos (by decide)), Nat.div_eq_of_lt hlt, Nat.add_zero, Nat.mul_comm,
    Nat.add_comm]

/-! ## The order of the keys -/

variable {itype : Itype} {v v₁ v₂ : Value itype} {keyData keyData₁ keyData₂ : Memory UCHAR}

theorem temp_bounds (v : Value itype) :
    1 ≤ (temp v).copyLength ∧ (temp v).copyLength ≤ 8 ∧
      (temp v).bits < 256 ^ (temp v).copyLength := by
  cases v with
  | date date => exact ⟨Nat.le_of_ble_eq_true rfl, Nat.le_of_ble_eq_true rfl, date.isLt⟩
  | time time => exact ⟨Nat.le_of_ble_eq_true rfl, Nat.le_of_ble_eq_true rfl, time.isLt⟩
  | timestamp date time =>
      exact ⟨Nat.le_of_ble_eq_true rfl, Nat.le_of_ble_eq_true rfl, (sint64 date time).isLt⟩

theorem copyLength_eq (v₁ v₂ : Value itype) : (temp v₁).copyLength = (temp v₂).copyLength := by
  cases v₁ with
  | date date =>
      cases v₂
      rfl
  | time time =>
      cases v₂
      rfl
  | timestamp date time =>
      cases v₂
      rfl

/-- The key comes from as many bytes as the value has. -/
theorem compress_eq (keyData : Memory UCHAR) (v : Value itype) :
    ∃ (x : UCHAR) (l : List UCHAR), compress keyData v = x :: Bytes.strip l ∧
      l.length + 1 = (temp v).copyLength ∧ Bytes.ofDigits (x :: l) = (temp v).image := by
  obtain ⟨hpos, hle, hbits⟩ := temp_bounds v
  obtain ⟨n, hn⟩ := Nat.exists_eq_add_of_le' hpos
  have hstored : Bytes.ofDigits ((keyData.store 0
      (bytes (temp v).copyLength (temp v).bits).reverse).load 0 (temp v).copyLength) =
        (temp v).bits := by
    have hload := Memory.load_store keyData 0 (bytes (temp v).copyLength (temp v).bits).reverse
    rw [List.length_reverse, length_bytes] at hload
    rw [hload, ofDigits_bytes, Nat.mod_eq_of_lt hbits]
  have hcons : ∀ m : Memory UCHAR, m.load 0 (n + 1) = m 0 :: m.load 1 n := by
    intro m
    rw [Nat.add_comm n 1, Memory.load_add]
    rfl
  rw [compress, load_chop]
  refine ⟨_, _, rfl, ?_, ?_⟩
  · rw [Memory.length_load]
    omega
  · rw [show (temp v).copyLength - 1 = n by omega, ← hcons, Temp.image, ← hn]
    split
    · exact ofDigits_negative hle hstored
    · rw [hn] at hstored ⊢
      exact ofDigits_positive hstored

theorem compress_lt_iff :
    compress keyData₁ v₁ < compress keyData₂ v₂ ↔ (temp v₁).image < (temp v₂).image := by
  obtain ⟨x, l, hkey, hlen, himage⟩ := compress_eq keyData₁ v₁
  obtain ⟨y, m, hkey', hlen', himage'⟩ := compress_eq keyData₂ v₂
  have hlen : l.length = m.length := by
    have := copyLength_eq v₁ v₂
    omega
  rw [hkey, hkey', ← himage, ← himage', ← Bytes.lt_iff_ofDigits (congrArg (· + 1) hlen),
    List.cons_lt_cons_iff, List.cons_lt_cons_iff, Bytes.strip_lt_strip_iff hlen]

theorem compress_eq_of_image (h : (temp v₁).image = (temp v₂).image) :
    compress keyData₁ v₁ = compress keyData₂ v₂ := by
  rcases lt_trichotomy (compress keyData₁ v₁) (compress keyData₂ v₂) with hlt | heq | hgt
  · exact absurd h (Nat.ne_of_lt (Iff.mp compress_lt_iff hlt))
  · exact heq
  · exact absurd h.symm (Nat.ne_of_lt (Iff.mp compress_lt_iff hgt))

/-! ## The order of the values -/

/-- `temp_sint64` does not overflow. -/
theorem toInt_sint64 (date time : BitVec 32) :
    (sint64 date time).toInt = date.toInt * ticksPerDay + time.toNat := by
  have hdate := BitVec.toInt_lt (x := date)
  have hdate' := BitVec.le_toInt date
  have htime := time.isLt
  have hext : (date.signExtend 64).toInt = date.toInt :=
    BitVec.toInt_signExtend_of_le (by decide)
  have hnat : (time.zeroExtend 64).toNat = time.toNat := by
    rw [BitVec.zeroExtend, BitVec.toNat_setWidth, Nat.mod_eq_of_lt (by omega)]
  have hzero : (time.zeroExtend 64).toInt = time.toNat := by
    rw [BitVec.toInt_eq_toNat_of_lt (by omega), hnat]
  have hticks : (BitVec.ofNat 64 ticksPerDay).toInt = ticksPerDay := by decide
  rw [sint64, BitVec.toInt_add, BitVec.toInt_mul, hext, hzero, hticks]
  rw [show (ticksPerDay : ℤ) = 864000000 by rfl]
  rw [Int.bmod_eq_of_le (n := date.toInt * 864000000), Int.bmod_eq_of_le]
  all_goals omega

/-- A two's complement number: the negative ones are turned round and come first. -/
theorem image_signed {k n h : ℕ} (x : BitVec k) (hk : 2 ^ k = 2 * h) (hn : 256 ^ n = 2 * h)
    (hsign : 128 * 256 ^ (n - 1) = h) :
    ((Temp.image ⟨n, x.toNat, decide (x.toInt < 0)⟩ : ℕ) : ℤ) =
      if x.toInt < 0 then -1 - x.toInt else x.toInt + h := by
  have hlt := x.isLt
  have hint := x.toInt_eq_toNat_cond
  rw [hk] at hlt hint
  rw [Temp.image]
  dsimp only
  rw [hn, hsign]
  by_cases hneg : x.toInt < 0
  · rw [if_pos (decide_eq_true hneg), if_pos hneg]
    split at hint
    · omega
    · omega
  · have hpos : ¬decide (x.toInt < 0) = true := fun h => hneg (of_decide_eq_true h)
    rw [if_neg hpos, if_neg hneg]
    split at hint
    · rw [Nat.mod_eq_of_lt (by omega)]
      omega
    · omega

theorem image_unsigned (x : BitVec 32) :
    ((Temp.image ⟨4, x.toNat, false⟩ : ℕ) : ℤ) =
      if (x.toNat : ℤ) < 2147483648 then (x.toNat : ℤ) + 2147483648
      else (x.toNat : ℤ) - 2147483648 := by
  have hlt := x.isLt
  rw [Temp.image, if_neg Bool.false_ne_true, show 128 * 256 ^ (4 - 1) = 2147483648 by decide,
    show 256 ^ 4 = 4294967296 by decide]
  dsimp only
  split
  · omega
  · omega

/-- Of two different dates or timestamps at most one is negative; two times are both below
`2 ^ 31` or both not, as all times of a day are. -/
def Sorts : {itype : Itype} → Value itype → Value itype → Prop
  | .sqlDate, v₁, v₂ => v₁.toInt < 0 → v₂.toInt < 0 → v₁.toInt = v₂.toInt
  | .sqlTime, v₁, v₂ => v₁.toInt < 2147483648 ↔ v₂.toInt < 2147483648
  | .timestamp2, v₁, v₂ => v₁.toInt < 0 → v₂.toInt < 0 → v₁.toInt = v₂.toInt

/-- Where the keys of signed numbers are in order -/
theorem signed_lt_iff {x y h : ℤ} (hx : -h ≤ x) (hy : -h ≤ y) :
    (x < y ↔ (if x < 0 then -1 - x else x + h) < if y < 0 then -1 - y else y + h) ↔
      (x < 0 → y < 0 → x = y) := by
  split
  · split
    · omega
    · omega
  · split
    · omega
    · omega

/-- The keys are in order if what they come from is. -/
theorem inOrder_iff_image (h : v₁.toInt = v₂.toInt → (temp v₁).image = (temp v₂).image) :
    ((v₁.toInt < v₂.toInt ↔ compress keyData₁ v₁ < compress keyData₂ v₂) ∧
      (v₁.toInt = v₂.toInt → compress keyData₁ v₁ = compress keyData₂ v₂)) ↔
        (v₁.toInt < v₂.toInt ↔ ((temp v₁).image : ℤ) < (temp v₂).image) := by
  rw [compress_lt_iff, Nat.cast_lt]
  exact ⟨And.left, fun hlt => ⟨hlt, fun heq => compress_eq_of_image (h heq)⟩⟩

/-- **Date and time keys**: the keys of two values are in the order of the values if and only
if the values are not both negative (two dates or timestamps), or are on one side of `2 ^ 31`
(two times). -/
theorem compress_order_iff (keyData₁ keyData₂ : Memory UCHAR) (v₁ v₂ : Value itype) :
    ((v₁.toInt < v₂.toInt ↔ compress keyData₁ v₁ < compress keyData₂ v₂) ∧
      (v₁.toInt = v₂.toInt → compress keyData₁ v₁ = compress keyData₂ v₂)) ↔ Sorts v₁ v₂ := by
  cases v₁ with
  | date x =>
      cases v₂ with
      | date y =>
          have hx := image_signed (n := 4) (h := 2147483648) x (by decide) (by decide) (by decide)
          have hy := image_signed (n := 4) (h := 2147483648) y (by decide) (by decide) (by decide)
          rw [inOrder_iff_image]
          · simp only [temp, Value.toInt, hx, hy, Sorts]
            exact signed_lt_iff (BitVec.le_toInt x) (BitVec.le_toInt y)
          · intro heq
            have hxy : x.toInt = y.toInt := heq
            rw [BitVec.toInt_inj.mp hxy]
  | time x =>
      cases v₂ with
      | time y =>
          have hx := x.isLt
          have hy := y.isLt
          rw [inOrder_iff_image]
          · simp only [temp, Value.toInt, image_unsigned, Sorts]
            split
            · split
              · omega
              · omega
            · split
              · omega
              · omega
          · intro heq
            have hxy : (x.toNat : ℤ) = y.toNat := heq
            simp only [temp, Nat.cast_inj.mp hxy]
  | timestamp date time =>
      cases v₂ with
      | timestamp date' time' =>
          have hx := image_signed (n := 8) (h := 9223372036854775808) (sint64 date time)
            (by decide) (by decide) (by decide)
          have hy := image_signed (n := 8) (h := 9223372036854775808) (sint64 date' time')
            (by decide) (by decide) (by decide)
          rw [inOrder_iff_image]
          · simp only [temp, Value.toInt, hx, hy, Sorts, ← toInt_sint64]
            exact signed_lt_iff (BitVec.le_toInt _) (BitVec.le_toInt _)
          · intro heq
            have hxy : (sint64 date time).toInt = (sint64 date' time').toInt := by
              rw [toInt_sint64, toInt_sint64]
              exact heq
            simp only [temp, BitVec.toInt_inj.mp hxy]

/-- The 15th of November 1858 gets a key behind that of the 16th. -/
theorem compress_order_negative :
    ¬∀ (itype : Itype) (keyData : Memory UCHAR) (v₁ v₂ : Value itype),
      (v₁.toInt < v₂.toInt ↔ compress keyData v₁ < compress keyData v₂) ∧
        (v₁.toInt = v₂.toInt → compress keyData v₁ = compress keyData v₂) := by
  intro h
  have hdates := (h .sqlDate (fun _ => 0) (.date (-2)) (.date (-1))).1.mp (by decide)
  exact absurd hdates (by decide)

end Firebird.Btr
