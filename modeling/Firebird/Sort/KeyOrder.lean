import Firebird.Sort.Mangle

/-! # Mangled keys are in the order of the keys (`diddle_key` in `jrd/sort.cpp`)

The longwords of mangled keys are compared without signs. With their bytes turned round they are
compared byte by byte, and these bytes are the digits of the key with an offset that makes it
positive, or the bytes of a string.
-/

namespace Firebird.Sort

open Bytes (ofDigits)

/-! ## Values of keys -/

/-- The number with these digits, in two's complement -/
def signed (l : List UCHAR) : ℤ :=
  if l.getD 0 0 < 128 then ofDigits l else ofDigits l - 256 ^ l.length

/-- The number with this bit pattern, with a sign and a magnitude. Minus zero is just below zero. -/
def floating (l : List UCHAR) : ℤ :=
  if l.getD 0 0 < 128 then ofDigits l else 128 * 256 ^ (l.length - 1) - 1 - ofDigits l

namespace SKD

variable (k : SKD)

/-- The value of a key: a number, the date and the time of a timestamp, or the bytes of a string
up to the length of the key -/
def value (p : List UCHAR) : List ℤ :=
  match k.dtype with
  -- a time of day is far below what would make it negative
  | .long | .sqlDate | .sqlTime => [signed (p.take 4).reverse]
  | .ulong => [(ofDigits (p.take 4).reverse : ℤ)]
  | .short => [signed (p.take 2).reverse]
  | .ushort => [(ofDigits (p.take 2).reverse : ℤ)]
  | .int64 => [signed (p.take 8).reverse]
  | .float => [floating (p.take 4).reverse]
  | .double => [floating (p.take 8).reverse]
  | .timestamp2 => [signed (p.take 4).reverse, (ofDigits ((p.drop 4).take 4).reverse : ℤ)]
  | .varying => (k.pad (p.length - 2) (k.string p)).map fun x => (x.val : ℤ)
  | .cstring => (k.pad p.length (k.string p)).map fun x => (x.val : ℤ)
  | _ => p.map fun x => (x.val : ℤ)

/-- Values are compared part by part, and the other way round for a descending key. -/
def compare (p q : List UCHAR) : Ordering :=
  let o := (k.value p).compareLex cmp (k.value q)
  if k.descending then o.swap else o

end SKD

/-- Keys are compared one after the other. -/
def compareKeys (keys : List SKD) (record record' : SortRecord) : Ordering :=
  keys.foldr (fun k o =>
    (k.compare (record.load k.offset k.n) (record'.load k.offset k.n)).then o) .eq

/-- The longword of four bytes -/
def long (a b c d : UCHAR) : ULONG :=
  Fin.ofNat 4294967296 (a.val + 256 * b.val + 65536 * c.val + 16777216 * d.val)

/-- The longwords of some bytes -/
def longs : List UCHAR → List ULONG
  | a :: b :: c :: d :: p => long a b c d :: longs p
  | _ => []

/-- The longwords of the keys, key by key -/
def keyLongs (keys : List SKD) (record : SortRecord) : List ULONG :=
  keys.flatMap fun k => longs (record.load k.offset k.n)

/-- `scb_key_length` -/
def keyLength (keys : List SKD) : ℕ :=
  (keys.getLast?.map fun k => (k.offset.val + k.length.val + 3) / 4).getD 0

/-- From `a` on each key begins where the one before it ends. -/
def Contiguous : ℕ → List SKD → Prop
  | _, [] => True
  | a, k :: keys => k.offset.val = a ∧ Contiguous (a + k.n) keys

/-! ## Longwords and bytes -/

section

variable {p q l m : List UCHAR} {x y : UCHAR}

theorem longs_of_lt (h : p.length < 4) : longs p = [] := by
  rw [longs]
  rintro a b c d p rfl
  simp only [List.length_cons] at h
  omega

theorem length_longs : (longs p).length = p.length / 4 := by
  induction p using swapBytes.induct with
  | case1 a b c d p ih =>
      simp only [longs, List.length_cons, ih]
      omega
  | case2 p hp =>
      have hlt := length_lt_four hp
      rw [longs_of_lt hlt, List.length_nil]
      omega

theorem longs_append (h4 : 4 ∣ p.length) : longs (p ++ q) = longs p ++ longs q := by
  induction p using swapBytes.induct with
  | case1 a b c d p ih =>
      simp only [List.length_cons] at h4
      simp only [List.cons_append, longs, ih (by omega)]
  | case2 p hp =>
      have hlt := length_lt_four hp
      obtain rfl := List.length_eq_zero_iff.mp (show p.length = 0 by omega)
      rfl

theorem val_long (a b c d : UCHAR) : (long a b c d).val = ofDigits [d, c, b, a] := by
  have ha := a.isLt
  have hb := b.isLt
  have hc := c.isLt
  have hd := d.isLt
  change (a.val + 256 * b.val + 65536 * c.val + 16777216 * d.val) % 4294967296 = _
  simp only [ofDigits, List.length_cons, List.length_nil]
  omega

/-- Longwords are compared like their bytes from the highest one down. -/
theorem compareLex_longs (h : p.length = q.length) (h4 : 4 ∣ p.length) :
    (longs p).compareLex cmp (longs q) = (swapBytes p).compareLex cmp (swapBytes q) := by
  induction p using swapBytes.induct generalizing q with
  | case1 a b c d p ih =>
      obtain ⟨a', b', c', d', q, rfl⟩ := exists_longword (p := q) (by rw [← h]; simp)
      simp only [List.length_cons] at h h4
      have hlen : [d, c, b, a].length = [d', c', b', a'].length := rfl
      have hdigits : [d, c, b, a].compareLex cmp [d', c', b', a'] =
          cmp (long a b c d) (long a' b' c' d') := by
        rw [Bytes.compareLex_eq_ofDigits hlen, ← val_long, ← val_long]
        exact Lex.cmp_congr Fin.lt_def.symm Fin.lt_def.symm
      change _ = ([d, c, b, a] ++ swapBytes p).compareLex cmp ([d', c', b', a'] ++ swapBytes q)
      rw [longs, longs, List.compareLex_cons_cons, ih (by omega) (by omega),
        Lex.compareLex_append hlen, hdigits]
  | case2 p hp =>
      have hlt := length_lt_four hp
      have hzero : p.length = 0 := by omega
      obtain rfl := List.length_eq_zero_iff.mp hzero
      obtain rfl := List.length_eq_zero_iff.mp (h.symm.trans hzero)
      rfl

/-! ## Numbers -/

theorem cmp_complement (x y : UCHAR) : cmp (x ^^^ 255) (y ^^^ 255) = (cmp x y).swap := by
  have hx := x.isLt
  have hy := y.isLt
  rw [cmp_swap]
  refine Lex.cmp_congr ?_ ?_
  · rw [Fin.lt_def, Fin.lt_def, val_complement, val_complement]
    omega
  · rw [Fin.lt_def, Fin.lt_def, val_complement, val_complement]
    omega

theorem ofDigits_complementAll : ofDigits (complementAll l) = 256 ^ l.length - 1 - ofDigits l := by
  induction l with
  | nil => rfl
  | cons x l ih =>
      have hx := x.isLt
      have hl := Bytes.ofDigits_lt l
      rw [complementAll] at ih
      rw [complementAll, List.map_cons, ofDigits, ofDigits, ih, val_complement, List.length_map,
        List.length_cons, pow_succ, Nat.sub_mul]
      have hmul := Nat.mul_le_mul_right (256 ^ l.length) (Nat.le_of_lt_succ hx)
      omega

theorem ofDigits_flip : (ofDigits ((x ^^^ 128) :: l) : ℤ) = signed (x :: l) + 128 * 256 ^ l.length := by
  rw [signed, ofDigits, ofDigits, val_flip, List.length_cons, pow_succ]
  change _ = (if x < 128 then _ else _) + _
  by_cases hx : x.val < 128
  · rw [if_pos hx, if_pos (Fin.lt_def.mpr hx)]
    push_cast
    ring
  · rw [if_neg hx, if_neg fun h => hx (Fin.lt_def.mp h)]
    push_cast [Nat.cast_sub (not_lt.mp hx)]
    ring

/-- The digits that a floating point number is sorted by -/
def floatDigits (l : List UCHAR) : List UCHAR := if sign 0 l then complementAll l else flip 0 l

theorem ofDigits_floatDigits :
    (ofDigits (floatDigits (x :: l)) : ℤ) = floating (x :: l) + 128 * 256 ^ l.length := by
  have hlt := Bytes.ofDigits_lt (x :: l)
  rw [floatDigits, floating]
  change _ = (if x < 128 then _ else _) + _
  by_cases hx : x < 128
  · have hsign : sign 0 (x :: l) = false := decide_eq_false (not_le.mpr hx)
    have hflip : flip 0 (x :: l) = (x ^^^ 128) :: l := rfl
    have hsigned : signed (x :: l) = ofDigits (x :: l) := if_pos hx
    rw [if_pos hx, hsign, if_neg Bool.false_ne_true, hflip, ofDigits_flip, hsigned]
  · have hsign : sign 0 (x :: l) = true := decide_eq_true (not_lt.mp hx)
    rw [if_neg hx, hsign, if_pos rfl, ofDigits_complementAll]
    have hpow : (256 : ℤ) ^ l.length = ((256 ^ l.length : ℕ) : ℤ) := (Nat.cast_pow 256 _).symm
    rw [List.length_cons, pow_succ] at hlt ⊢
    rw [Nat.add_sub_cancel, hpow]
    omega

theorem compareLex_unsigned (h : l.length = m.length) :
    l.compareLex cmp m = [(ofDigits l : ℤ)].compareLex cmp [(ofDigits m : ℤ)] := by
  rw [Bytes.compareLex_eq_ofDigits h, Lex.compareLex_singleton]
  exact Lex.cmp_congr Int.ofNat_lt.symm Int.ofNat_lt.symm

/-- Digits with an offset are compared like the numbers. -/
theorem compareLex_offset {v w c : ℤ} (h : l.length = m.length) (hl : (ofDigits l : ℤ) = v + c)
    (hm : (ofDigits m : ℤ) = w + c) : l.compareLex cmp m = [v].compareLex cmp [w] := by
  rw [compareLex_unsigned h, hl, hm, Lex.compareLex_singleton, Lex.compareLex_singleton]
  exact Lex.cmp_congr (add_lt_add_iff_right c) (add_lt_add_iff_right c)

theorem compareLex_signed (h : l.length = m.length) :
    ((x ^^^ 128) :: l).compareLex cmp ((y ^^^ 128) :: m) =
      [signed (x :: l)].compareLex cmp [signed (y :: m)] := by
  have hlen : ((x ^^^ 128) :: l).length = ((y ^^^ 128) :: m).length := congrArg Nat.succ h
  exact compareLex_offset hlen ofDigits_flip (by rw [ofDigits_flip, h])

theorem compareLex_floating (h : l.length = m.length) :
    (floatDigits (x :: l)).compareLex cmp (floatDigits (y :: m)) =
      [floating (x :: l)].compareLex cmp [floating (y :: m)] := by
  have hlen : (floatDigits (x :: l)).length = (floatDigits (y :: m)).length := by
    have hdigits : ∀ l, (floatDigits l).length = l.length := fun l => by
      rw [floatDigits]
      split
      · exact length_complementAll
      · exact length_flip 0
    rw [hdigits, hdigits, List.length_cons, List.length_cons, h]
  exact compareLex_offset hlen ofDigits_floatDigits (by rw [ofDigits_floatDigits, h])

/-! ## Keys -/

variable {k : SKD}

/-- A key mangled as if it were ascending -/
def SKD.ascending (k : SKD) (p : List UCHAR) : List UCHAR :=
  let (p, complement) := k.switch true false p
  if complement then complementAll p else p

theorem mangle_true (hk : k.Sized) (hp : p.length = k.n) :
    k.mangle true p = if k.descending then complementAll (k.ascending p) else k.ascending p := by
  obtain ⟨dtype, descending, binary, length, offset, varyOffset⟩ := k
  cases descending with
  | false => rfl
  | true =>
      cases dtype with
      | quad | timestamp1 | dFloat => exact hk.elim
      | float =>
          obtain ⟨a, b, c, d, rfl⟩ := exists_of_length_four (hp.trans hk)
          by_cases hsign : 128 ≤ d <;>
            simp [SKD.mangle, SKD.ascending, SKD.switch, sign, hsign, flip, complementAll,
              complement_complement]
      | double =>
          obtain ⟨a, b, c, d, e, f, g, i, rfl⟩ := exists_of_length_eight (hp.trans hk)
          by_cases hsign : 128 ≤ i <;>
            simp [SKD.mangle, SKD.ascending, SKD.switch, sign, hsign, flip, swapLongs,
              complementAll, complement_complement]
      | _ => rfl

/-! ### Bytes and values, type by type -/

theorem padded_of_not_hasControl (hk : k.hasControl = false) (p : List UCHAR) : k.padded p = p := by
  rw [SKD.hasControl, decide_eq_false_iff_not, not_or] at hk
  rw [SKD.padded]
  split
  · exact absurd (by assumption) hk.1
  · exact absurd (by assumption) hk.2
  · rfl

section

variable {a b c d e f g i : UCHAR}

theorem digits_long (hk : k.dtype = .long ∨ k.dtype = .sqlTime ∨ k.dtype = .sqlDate) :
    swapBytes (k.ascending [a, b, c, d]) = [d ^^^ 128, c, b, a] ∧
      k.value [a, b, c, d] = [signed [d, c, b, a]] := by
  rw [SKD.ascending, SKD.switch, SKD.value]
  rcases hk with hk | hk | hk
  all_goals rw [hk]; exact ⟨rfl, rfl⟩

theorem digits_ulong (hk : k.dtype = .ulong) :
    swapBytes (k.ascending [a, b, c, d]) = [d, c, b, a] ∧
      k.value [a, b, c, d] = [(ofDigits [d, c, b, a] : ℤ)] := by
  rw [SKD.ascending, SKD.switch, SKD.value, hk]
  exact ⟨rfl, rfl⟩

theorem digits_short (hk : k.dtype = .short) :
    swapBytes (k.ascending [a, b, c, d]) = [d, c, b ^^^ 128, a] ∧
      k.value [a, b, c, d] = [signed [b, a]] := by
  rw [SKD.ascending, SKD.switch, SKD.value, hk]
  exact ⟨rfl, rfl⟩

theorem digits_ushort (hk : k.dtype = .ushort) :
    swapBytes (k.ascending [a, b, c, d]) = [d, c, b, a] ∧
      k.value [a, b, c, d] = [(ofDigits [b, a] : ℤ)] := by
  rw [SKD.ascending, SKD.switch, SKD.value, hk]
  exact ⟨rfl, rfl⟩

theorem digits_int64 (hk : k.dtype = .int64) :
    swapBytes (k.ascending [a, b, c, d, e, f, g, i]) = [i ^^^ 128, g, f, e, d, c, b, a] ∧
      k.value [a, b, c, d, e, f, g, i] = [signed [i, g, f, e, d, c, b, a]] := by
  rw [SKD.ascending, SKD.switch, SKD.value, hk]
  exact ⟨rfl, rfl⟩

theorem digits_timestamp2 (hk : k.dtype = .timestamp2) :
    swapBytes (k.ascending [a, b, c, d, e, f, g, i]) =
        [d ^^^ 128, c, b, a] ++ [i, g, f, e] ∧
      k.value [a, b, c, d, e, f, g, i] =
        [signed [d, c, b, a]] ++ [(ofDigits [i, g, f, e] : ℤ)] := by
  rw [SKD.ascending, SKD.switch, SKD.value, hk]
  exact ⟨rfl, rfl⟩

theorem digits_float (hk : k.dtype = .float) :
    swapBytes (k.ascending [a, b, c, d]) = floatDigits [d, c, b, a] ∧
      k.value [a, b, c, d] = [floating [d, c, b, a]] := by
  rw [SKD.ascending, SKD.switch, SKD.value, hk]
  refine ⟨?_, rfl⟩
  by_cases hsign : 128 ≤ d <;>
    simp [sign, hsign, floatDigits, flip, complementAll, swapBytes]

theorem digits_double (hk : k.dtype = .double) :
    swapBytes (k.ascending [a, b, c, d, e, f, g, i]) = floatDigits [i, g, f, e, d, c, b, a] ∧
      k.value [a, b, c, d, e, f, g, i] = [floating [i, g, f, e, d, c, b, a]] := by
  rw [SKD.ascending, SKD.switch, SKD.value, hk]
  refine ⟨?_, rfl⟩
  by_cases hsign : 128 ≤ i <;>
    simp [sign, hsign, floatDigits, flip, swapLongs, complementAll, swapBytes]

end

theorem ascending_string (hk : k.dtype = .text ∨ k.dtype = .bytes ∨ k.dtype = .varying ∨
    k.dtype = .cstring) : swapBytes (k.ascending p) = p := by
  rw [SKD.ascending, SKD.switch]
  rcases hk with hk | hk | hk | hk
  all_goals rw [hk]; exact swapBytes_swapBytes

theorem compareLex_val (h : l.length = m.length) :
    l.compareLex cmp m =
      (l.map fun x => (x.val : ℤ)).compareLex cmp (m.map fun x => (x.val : ℤ)) := by
  have hval : ∀ x y : UCHAR, cmp (x.val : ℤ) (y.val : ℤ) = cmp x y := fun x y =>
    Lex.cmp_congr (Int.ofNat_lt.trans Fin.lt_def.symm) (Int.ofNat_lt.trans Fin.lt_def.symm)
  exact (Lex.compareLex_map hval h).symm

/-- The bytes that a string is sorted by are those of its value. -/
theorem compareLex_string (hk : k.dtype = .text ∨ k.dtype = .bytes ∨ k.dtype = .varying ∨
    k.dtype = .cstring) (hp : k.Fits p) (hq : k.Fits q) (hlen : p.length = q.length) :
    (k.padded p).compareLex cmp (k.padded q) = (k.value p).compareLex cmp (k.value q) := by
  have hpad : (k.padded p).length = (k.padded q).length :=
    (length_padded hp).trans (hlen.trans (length_padded hq).symm)
  rcases hk with hk | hk | hk | hk
  · rw [SKD.padded, SKD.padded, SKD.value, SKD.value, hk]
    exact compareLex_val hlen
  · rw [SKD.padded, SKD.padded, SKD.value, SKD.value, hk]
    exact compareLex_val hlen
  · rw [SKD.padded, SKD.padded, hk] at hpad ⊢
    rw [SKD.value, SKD.value, hk]
    dsimp only at hpad ⊢
    rw [Lex.compareLex_append_left]
    refine compareLex_val ?_
    rw [List.length_append, List.length_append] at hpad
    exact Nat.add_left_cancel hpad
  · rw [SKD.padded, SKD.padded, hk] at hpad ⊢
    rw [SKD.value, SKD.value, hk]
    exact compareLex_val hpad

/-- The bytes that a number is sorted by are its digits, with the sign turned round. -/
theorem compareLex_number (hk : k.Sized)
    (hnot : ¬(k.dtype = .text ∨ k.dtype = .bytes ∨ k.dtype = .varying ∨ k.dtype = .cstring))
    (hp : k.Fits p) (hq : k.Fits q) (hpn : p.length = k.n) (hqn : q.length = k.n) :
    (swapBytes (k.ascending p)).compareLex cmp (swapBytes (k.ascending q)) =
      (k.value p).compareLex cmp (k.value q) := by
  rw [SKD.Sized] at hk
  rw [SKD.Fits] at hp hq
  cases hdtype : k.dtype with
  | quad | timestamp1 | dFloat =>
      rw [hdtype] at hk
      exact hk.elim
  | text | bytes | cstring | varying =>
      rw [hdtype] at hnot
      exact absurd (by decide) hnot
  | long | sqlTime | sqlDate =>
      rw [hdtype] at hk
      obtain ⟨a, b, c, d, rfl⟩ := exists_of_length_four (hpn.trans hk)
      obtain ⟨a', b', c', d', rfl⟩ := exists_of_length_four (hqn.trans hk)
      have hlen : [c, b, a].length = [c', b', a'].length := rfl
      have hlong : k.dtype = .long ∨ k.dtype = .sqlTime ∨ k.dtype = .sqlDate := by
        rw [hdtype]
        decide
      rw [(digits_long hlong).1, (digits_long hlong).1, (digits_long hlong).2,
        (digits_long hlong).2]
      exact compareLex_signed hlen
  | ulong =>
      rw [hdtype] at hk
      obtain ⟨a, b, c, d, rfl⟩ := exists_of_length_four (hpn.trans hk)
      obtain ⟨a', b', c', d', rfl⟩ := exists_of_length_four (hqn.trans hk)
      have hlen : [d, c, b, a].length = [d', c', b', a'].length := rfl
      rw [(digits_ulong hdtype).1, (digits_ulong hdtype).1, (digits_ulong hdtype).2,
        (digits_ulong hdtype).2]
      exact compareLex_unsigned hlen
  | short =>
      rw [hdtype] at hk
      obtain ⟨a, b, c, d, rfl⟩ := exists_of_length_four (hpn.trans hk)
      obtain ⟨a', b', c', d', rfl⟩ := exists_of_length_four (hqn.trans hk)
      rw [hdtype] at hp hq
      cases hp
      cases hq
      have hlen : [a].length = [a'].length := rfl
      rw [(digits_short hdtype).1, (digits_short hdtype).1, (digits_short hdtype).2,
        (digits_short hdtype).2]
      exact (Lex.compareLex_append_left [0, 0]).trans (compareLex_signed hlen)
  | ushort =>
      rw [hdtype] at hk
      obtain ⟨a, b, c, d, rfl⟩ := exists_of_length_four (hpn.trans hk)
      obtain ⟨a', b', c', d', rfl⟩ := exists_of_length_four (hqn.trans hk)
      rw [hdtype] at hp hq
      cases hp
      cases hq
      have hlen : [b, a].length = [b', a'].length := rfl
      rw [(digits_ushort hdtype).1, (digits_ushort hdtype).1, (digits_ushort hdtype).2,
        (digits_ushort hdtype).2]
      exact (Lex.compareLex_append_left [0, 0]).trans (compareLex_unsigned hlen)
  | float =>
      rw [hdtype] at hk
      obtain ⟨a, b, c, d, rfl⟩ := exists_of_length_four (hpn.trans hk)
      obtain ⟨a', b', c', d', rfl⟩ := exists_of_length_four (hqn.trans hk)
      have hlen : [c, b, a].length = [c', b', a'].length := rfl
      rw [(digits_float hdtype).1, (digits_float hdtype).1, (digits_float hdtype).2,
        (digits_float hdtype).2]
      exact compareLex_floating hlen
  | int64 =>
      rw [hdtype] at hk
      obtain ⟨a, b, c, d, e, f, g, i, rfl⟩ := exists_of_length_eight (hpn.trans hk)
      obtain ⟨a', b', c', d', e', f', g', i', rfl⟩ := exists_of_length_eight (hqn.trans hk)
      have hlen : [g, f, e, d, c, b, a].length = [g', f', e', d', c', b', a'].length := rfl
      rw [(digits_int64 hdtype).1, (digits_int64 hdtype).1, (digits_int64 hdtype).2,
        (digits_int64 hdtype).2]
      exact compareLex_signed hlen
  | timestamp2 =>
      rw [hdtype] at hk
      obtain ⟨a, b, c, d, e, f, g, i, rfl⟩ := exists_of_length_eight (hpn.trans hk)
      obtain ⟨a', b', c', d', e', f', g', i', rfl⟩ := exists_of_length_eight (hqn.trans hk)
      have hdate : [c, b, a].length = [c', b', a'].length := rfl
      have htime : [i, g, f, e].length = [i', g', f', e'].length := rfl
      have hlen : [d ^^^ 128, c, b, a].length = [d' ^^^ 128, c', b', a'].length := rfl
      have hvalue : [signed [d, c, b, a]].length = [signed [d', c', b', a']].length := by
        rw [List.length_singleton, List.length_singleton]
      rw [(digits_timestamp2 hdtype).1, (digits_timestamp2 hdtype).1, (digits_timestamp2 hdtype).2,
        (digits_timestamp2 hdtype).2, Lex.compareLex_append hlen, Lex.compareLex_append hvalue]
      exact congrArg₂ Ordering.then (compareLex_signed hdate) (compareLex_unsigned htime)
  | double =>
      rw [hdtype] at hk
      obtain ⟨a, b, c, d, e, f, g, i, rfl⟩ := exists_of_length_eight (hpn.trans hk)
      obtain ⟨a', b', c', d', e', f', g', i', rfl⟩ := exists_of_length_eight (hqn.trans hk)
      have hlen : [g, f, e, d, c, b, a].length = [g', f', e', d', c', b', a'].length := rfl
      rw [(digits_double hdtype).1, (digits_double hdtype).1, (digits_double hdtype).2,
        (digits_double hdtype).2]
      exact compareLex_floating hlen

/-- The bytes that a key is sorted by are in the order of its value. -/
theorem compareLex_ascending (hk : k.Sized) (hp : k.Fits p) (hq : k.Fits q) (hpn : p.length = k.n)
    (hqn : q.length = k.n) :
    (swapBytes (k.ascending (k.padded p))).compareLex cmp (swapBytes (k.ascending (k.padded q))) =
      (k.value p).compareLex cmp (k.value q) := by
  by_cases hstring : k.dtype = .text ∨ k.dtype = .bytes ∨ k.dtype = .varying ∨ k.dtype = .cstring
  · rw [ascending_string hstring, ascending_string hstring]
    exact compareLex_string hstring hp hq (hpn.trans hqn.symm)
  · have hcontrol : k.hasControl = false := decide_eq_false fun h => hstring (.inr (.inr h))
    rw [padded_of_not_hasControl hcontrol, padded_of_not_hasControl hcontrol]
    exact compareLex_number hk hstring hp hq hpn hqn

theorem length_ascending : (k.ascending p).length = p.length := by
  have h := length_switch (k := k) (p := p) true false
  rw [SKD.ascending]
  dsimp only
  split
  · rw [length_complementAll, h]
  · exact h

/-- The longwords of mangled keys are in the order of the keys. -/
theorem compareLex_mangle (hk : k.Sized) (hp : k.Fits p) (hq : k.Fits q) (hpn : p.length = k.n)
    (hqn : q.length = k.n) :
    (longs (k.mangle true (k.padded p))).compareLex cmp (longs (k.mangle true (k.padded q))) =
      k.compare p q := by
  have hlen : p.length = q.length := hpn.trans hqn.symm
  have hpad : (k.padded p).length = (k.padded q).length :=
    (length_padded hp).trans (hlen.trans (length_padded hq).symm)
  have hmangle : (k.mangle true (k.padded p)).length = (k.mangle true (k.padded q)).length := by
    rw [length_mangle, length_mangle, hpad]
  have h4 : 4 ∣ (k.mangle true (k.padded p)).length := by
    rw [length_mangle, length_padded hp, hpn]
    exact four_dvd_n
  rw [compareLex_longs hmangle h4, mangle_true hk ((length_padded hp).trans hpn),
    mangle_true hk ((length_padded hq).trans hqn), SKD.compare]
  have hascending := compareLex_ascending hk hp hq hpn hqn
  by_cases hdescending : k.descending = true
  · rw [if_pos hdescending, if_pos hdescending, if_pos hdescending, swapBytes_complementAll,
      swapBytes_complementAll, ← hascending]
    refine Lex.compareLex_map_swap cmp_complement ?_
    rw [length_swapBytes, length_swapBytes, length_ascending, length_ascending, hpad]
  · rw [if_neg hdescending, if_neg hdescending, if_neg hdescending]
    exact hascending

/-! ## Records -/

theorem compareLongs_eq {p q : List ULONG} (h : p.length = q.length) :
    compareLongs p.length p q = some (p.compareLex cmp q) := by
  induction p generalizing q with
  | nil =>
      obtain rfl := List.length_eq_zero_iff.mp h.symm
      rfl
  | cons x p ih =>
      cases q with
      | nil => cases h
      | cons y q =>
          rw [List.length_cons, compareLongs, List.compareLex_cons_cons]
          rcases lt_trichotomy x y with hxy | rfl | hyx
          · rw [if_neg hxy.ne, if_pos hxy, (cmp_eq_lt_iff x y).mpr hxy]
            rfl
          · rw [if_pos rfl, cmp_self_eq_eq]
            exact ih (Nat.succ.inj h)
          · rw [if_neg hyx.ne', if_neg (not_lt_of_gt hyx), (cmp_eq_gt_iff x y).mpr hyx]
            rfl

variable {keys : List SKD} {record record' r r' : SortRecord}

theorem compareLex_keyLongs (h : ∀ k ∈ keys, k.Sized) (hfits : Fits keys record)
    (hfits' : Fits keys record')
    (hr : ∀ k ∈ keys, k.Mangled (record.load k.offset k.n) r)
    (hr' : ∀ k ∈ keys, k.Mangled (record'.load k.offset k.n) r') :
    (keyLongs keys r).length = (keyLongs keys r').length ∧
      (keyLongs keys r).compareLex cmp (keyLongs keys r') = compareKeys keys record record' := by
  induction keys with
  | nil => exact ⟨rfl, rfl⟩
  | cons k keys ih =>
      have hk := List.mem_cons_self (a := k) (l := keys)
      obtain ⟨ihlen, ih⟩ := ih (fun k' hk' => h k' (List.mem_cons_of_mem k hk'))
        (fun k' hk' => hfits k' (List.mem_cons_of_mem k hk'))
        (fun k' hk' => hfits' k' (List.mem_cons_of_mem k hk'))
        (fun k' hk' => hr k' (List.mem_cons_of_mem k hk'))
        (fun k' hk' => hr' k' (List.mem_cons_of_mem k hk'))
      have hlen : (longs (r.load k.offset k.n)).length = (longs (r'.load k.offset k.n)).length := by
        rw [length_longs, length_longs, Memory.length_load, Memory.length_load]
      have hkey := compareLex_mangle (h k hk) (hfits k hk) (hfits' k hk) (Memory.length_load _ _ _)
        (Memory.length_load _ _ _)
      rw [← (hr k hk).1, ← (hr' k hk).1] at hkey
      constructor
      · rw [keyLongs, keyLongs, List.flatMap_cons, List.flatMap_cons, List.length_append,
          List.length_append, hlen]
        exact congrArg _ ihlen
      · rw [keyLongs, keyLongs, List.flatMap_cons, List.flatMap_cons, Lex.compareLex_append hlen,
          hkey]
        exact congrArg _ ih

/-! ### Keys one after the other -/

theorem keyLength_eq {a : ℕ} (h : Contiguous a keys) (ha : 4 ∣ a) (hne : keys ≠ []) :
    4 * keyLength keys = a + (keys.map SKD.n).sum := by
  induction keys generalizing a with
  | nil => exact absurd rfl hne
  | cons k keys ih =>
      obtain ⟨hoffset, hrest⟩ := h
      have hn : 4 ∣ k.n := four_dvd_n
      cases keys with
      | nil =>
          change 4 * ((k.offset.val + k.length.val + 3) / 4) = a + (k.n + 0)
          rw [SKD.n, hoffset]
          omega
      | cons k' keys =>
          have hlast : keyLength (k :: k' :: keys) = keyLength (k' :: keys) := by
            rw [keyLength, List.getLast?_cons_cons]
            rfl
          rw [hlast, ih hrest (by omega) (List.cons_ne_nil _ _), List.map_cons (l := k' :: keys),
            List.sum_cons, Nat.add_assoc]

theorem keyLongs_eq_load {a : ℕ} (h : Contiguous a keys) :
    keyLongs keys record = longs (record.load a (keys.map SKD.n).sum) := by
  induction keys generalizing a with
  | nil => rfl
  | cons k keys ih =>
      obtain ⟨rfl, hrest⟩ := h
      have h4 : 4 ∣ (record.load k.offset k.n).length := by
        rw [Memory.length_load]
        exact four_dvd_n
      rw [List.map_cons, List.sum_cons, Memory.load_add, longs_append h4, ← ih hrest]
      rfl

/-- The longwords of keys that fill the record from its start are what `DO_32_COMPARE` compares. -/
theorem keyLongs_eq (h : Contiguous 0 keys) :
    keyLongs keys record = longs (record.load 0 (4 * keyLength keys)) := by
  by_cases hne : keys = []
  · rw [hne]
    rfl
  · rw [keyLength_eq h (Nat.dvd_zero 4) hne, Nat.zero_add]
    exact keyLongs_eq_load h

end

/-- A flag, a descending varying, a double and a cstring of octets -/
def fourKeys : List SKD :=
  [⟨.text, false, false, 1, 0, 0⟩, ⟨.varying, true, false, 8, 4, 28⟩,
    ⟨.double, false, false, 8, 12, 0⟩, ⟨.cstring, true, true, 5, 20, 30⟩]

theorem forall_fourKeys {P : SKD → Prop} (h₀ : P ⟨.text, false, false, 1, 0, 0⟩)
    (h₁ : P ⟨.varying, true, false, 8, 4, 28⟩) (h₂ : P ⟨.double, false, false, 8, 12, 0⟩)
    (h₃ : P ⟨.cstring, true, true, 5, 20, 30⟩) : ∀ k ∈ fourKeys, P k := by
  intro k hk
  rw [fourKeys, List.mem_cons, List.mem_cons, List.mem_cons, List.mem_singleton] at hk
  rcases hk with rfl | rfl | rfl | rfl
  · exact h₀
  · exact h₁
  · exact h₂
  · exact h₃

theorem layout_fourKeys : Layout fourKeys where
  sized := forall_fourKeys trivial trivial rfl trivial
  apart := forall_fourKeys nofun (fun _ => .inl (by decide)) nofun (fun _ => .inl (by decide))
  disjoint := by
    simp [fourKeys, SKD.Part, SKD.n, SKD.hasControl]
    and_intros
    all_goals intros
    all_goals omega

/-- `AB`, -1.0 and `C` -/
def minusOne : SortRecord := fun a =>
  [0, 0, 0, 0, 2, 0, 65, 66, 9, 9, 9, 9, 0, 0, 0, 0, 0, 0, 240, 191, 67, 0, 9, 9, 9, 9, 9, 9].getD a 0

/-- `AB `, -2.0 and `C` -/
def minusTwo : SortRecord := fun a =>
  [0, 0, 0, 0, 3, 0, 65, 66, 32, 9, 9, 9, 0, 0, 0, 0, 0, 0, 0, 192, 67, 0, 9, 9, 9, 9, 9, 9].getD a 0

end Firebird.Sort
