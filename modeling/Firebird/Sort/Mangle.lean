import Mathlib.Algebra.Group.Nat.Defs
import Firebird.Lib.Bytes
import Firebird.Lib.Lex
import Firebird.Lib.Memory
import Firebird.Sort.Quick

/-! # The mangling of sort keys (`diddle_key` in `jrd/sort.cpp`)

`diddle_key` brings the keys of a record into a form that is sorted by comparing longwords, and
back. This is the version for platforms with the low byte first and IEEE floating point.
-/

namespace Firebird.Sort

/-- An unsigned word -/
abbrev USHORT := Fin 65536

instance USHORT.neZero : NeZero 65536 := ⟨by decide⟩

/-- `skd_dtype` -/
inductive SkdDtype where
  | long
  | ulong
  | short
  | ushort
  | text
  | float
  | double
  | quad
  | timestamp1
  | bytes
  | dFloat
  | varying
  | cstring
  | sqlTime
  | sqlDate
  | timestamp2
  | int64
deriving DecidableEq

/-- `struct skd`, with `SKD_descending` and `SKD_binary` of the flags -/
structure SKD where
  dtype : SkdDtype
  descending : Bool
  binary : Bool
  length : USHORT
  offset : USHORT
  varyOffset : USHORT

/-- A sort record, byte by byte -/
abbrev SortRecord := Memory UCHAR

/-! ## Bytes of a key -/

/-- `p[i] ^= 1 << 7` -/
def flip (i : ℕ) (p : List UCHAR) : List UCHAR := p.modify i (· ^^^ 128)

/-- The loop that turns the longwords round -/
def swapBytes : List UCHAR → List UCHAR
  | a :: b :: c :: d :: p => d :: c :: b :: a :: swapBytes p
  | p => p

example : swapBytes [1, 2, 3, 4, 5] = [4, 3, 2, 1, 5] := by simp [swapBytes]

/-- `SWAP_LONGS(lwp[0], lwp[1], lw)` -/
def swapLongs (p : List UCHAR) : List UCHAR := (p.drop 4).take 4 ++ p.take 4 ++ p.drop 8

/-- `do *p++ ^= -1; while (--n);` -/
def complementAll (p : List UCHAR) : List UCHAR := p.map (· ^^^ 255)

/-- `p[i] >> 7` -/
def sign (i : ℕ) (p : List UCHAR) : Bool := 128 ≤ p.getD i 0

/-- `*(USHORT *) p` -/
def ushortAt (p : List UCHAR) : ℕ := (p.getD 0 0).val + 256 * (p.getD 1 0).val

/-- The bytes of a word -/
def ushortBytes (l : ℕ) : List UCHAR := [Fin.ofNat 256 l, Fin.ofNat 256 (l / 256)]

/-- `strlen`, `none` if there is no end within the key -/
def strlen (p : List UCHAR) : Option ℕ := p.findIdx? (· = 0)

/-- `*(p + l) = c`, `none` if that is not in the key -/
def poke (p : List UCHAR) (l : ℕ) (c : UCHAR) : Option (List UCHAR) :=
  if l < p.length then some (p.set l c) else none

/-- `memset(p + l, c, n - l)`, `none` if that is not in the key -/
def fillFrom (p : List UCHAR) (l : ℕ) (c : UCHAR) : Option (List UCHAR) :=
  if l ≤ p.length then some (p.take l ++ List.replicate (p.length - l) c) else none

namespace SKD

variable (k : SKD)

/-- `n = ROUNDUP(key->skd_length, sizeof(SLONG))` -/
def n : ℕ := (k.length.val + 3) / 4 * 4

/-- `fill_char` -/
def fillChar : UCHAR := if k.binary then 0 else 32

/-- `SKD_varying` and `SKD_cstring` have their length put elsewhere. -/
def hasControl : Bool := k.dtype = .varying ∨ k.dtype = .cstring

/-! ## `diddle_key` -/

/-- The control information of a varying or a cstring is stashed in the record and zapped. -/
def stash (sorted : Bool) (record : SortRecord) (p : List UCHAR) :
    Option (SortRecord × List UCHAR) :=
  match k.dtype with
  | .varying =>
      if sorted then some (record, ushortBytes 0 ++ p.drop 2)
      else do
        let l := ushortAt p
        let p ← fillFrom p (2 + l) k.fillChar
        some (record.store k.varyOffset (ushortBytes l), ushortBytes 0 ++ p.drop 2)
  | .cstring =>
      if sorted then do
        let l := ushortAt (record.load k.varyOffset 2)
        let p ← poke p l k.fillChar
        some (record, p)
      else do
        let l ← strlen p
        let p ← fillFrom p l k.fillChar
        some (record.store k.varyOffset (ushortBytes l), p)
  | _ => some (record, p)

/-- The switch, with `complement` as it leaves it -/
def switch (direction complement : Bool) (p : List UCHAR) : List UCHAR × Bool :=
  match k.dtype with
  | .timestamp1 | .timestamp2 | .sqlTime | .sqlDate => (flip 3 p, complement)
  | .ulong | .ushort => (p, complement)
  | .text | .bytes | .cstring | .varying => (swapBytes p, complement)
  | .short => (flip 1 p, complement)
  | .long => (flip 3 p, complement)
  | .quad => (flip 7 p, complement)
  | .int64 =>
      let p := if direction then p else swapLongs p
      let p := flip 7 p
      (if direction then swapLongs p else p, complement)
  | .double =>
      let p := if direction then p else swapLongs p
      let flag := if direction || !complement then direction else true
      let (p, complement) :=
        if flag ^^ sign 7 p then (flip 7 p, complement) else (p, !complement)
      (if direction then swapLongs p else p, complement)
  | .float =>
      let flag := if direction || !complement then direction else true
      if flag ^^ sign 3 p then (flip 3 p, complement) else (p, !complement)
  | .dFloat => (p, complement)

/-- The switch, and the complement for a descending key -/
def mangle (direction : Bool) (p : List UCHAR) : List UCHAR :=
  let (p, complement) := k.switch direction k.descending p
  if complement then complementAll p else p

/-- The control information is put back. -/
def unstash (record : SortRecord) (p : List UCHAR) : Option (List UCHAR) :=
  let l := ushortAt (record.load k.varyOffset 2)
  match k.dtype with
  | .varying => some (ushortBytes l ++ p.drop 2)
  | .cstring => poke p l 0
  | _ => some p

/-- `diddle_key` of one key, `none` if it writes outside of the key -/
def diddle (sorted direction : Bool) (record : SortRecord) : Option SortRecord := do
  let p := record.load k.offset k.n
  if direction then
    let (record, p) ← k.stash sorted record p
    some (record.store k.offset (k.mangle true p))
  else
    let p ← k.unstash record (k.mangle false p)
    some (record.store k.offset p)

end SKD

/-- `diddle_key`. `sorted` is `scb_sorted`. -/
def diddleKey (sorted direction : Bool) (keys : List SKD) (record : SortRecord) :
    Option SortRecord :=
  keys.foldlM (fun record k => k.diddle sorted direction record) record

/-! ## Bits of a byte -/

theorem flip_flip (x : UCHAR) : x ^^^ 128 ^^^ 128 = x := Bytes.xor_xor_cancel x 128

theorem complement_complement (x : UCHAR) : x ^^^ 255 ^^^ 255 = x := Bytes.xor_xor_cancel x 255

theorem complement_flip (x : UCHAR) : x ^^^ 128 ^^^ 255 ^^^ 128 = x ^^^ 255 := by
  rw [Bytes.xor_right_comm x 128 255, flip_flip]

set_option maxRecDepth 1000 in
theorem val_flip : ∀ x : UCHAR,
    (x ^^^ 128).val = if x.val < 128 then x.val + 128 else x.val - 128 := by decide

set_option maxRecDepth 1000 in
theorem val_complement : ∀ x : UCHAR, (x ^^^ 255).val = 255 - x.val := by decide

theorem sign_flip (x : UCHAR) : 128 ≤ x ^^^ 128 ↔ ¬128 ≤ x := by
  have hx := x.isLt
  have h128 : (128 : UCHAR).val = 128 := rfl
  rw [Fin.le_def, Fin.le_def, val_flip, h128]
  split <;> omega

theorem sign_complement (x : UCHAR) : 128 ≤ x ^^^ 255 ↔ ¬128 ≤ x := by
  have hx := x.isLt
  have h128 : (128 : UCHAR).val = 128 := rfl
  rw [Fin.le_def, Fin.le_def, val_complement, h128]
  omega

/-! ## The longwords turned round -/

section

variable {p q : List UCHAR} {i : ℕ}

theorem exists_longword (h : 4 ≤ p.length) : ∃ a b c d p', p = a :: b :: c :: d :: p' := by
  obtain ⟨a, p, rfl⟩ := List.exists_cons_of_length_pos (Nat.lt_of_lt_of_le (by decide) h)
  rw [List.length_cons] at h
  obtain ⟨b, p, rfl⟩ := List.exists_cons_of_length_pos (show 0 < p.length by omega)
  rw [List.length_cons] at h
  obtain ⟨c, p, rfl⟩ := List.exists_cons_of_length_pos (show 0 < p.length by omega)
  rw [List.length_cons] at h
  obtain ⟨d, p, rfl⟩ := List.exists_cons_of_length_pos (show 0 < p.length by omega)
  exact ⟨a, b, c, d, p, rfl⟩

theorem length_lt_four (h : ∀ a b c d p', p = a :: b :: c :: d :: p' → False) : p.length < 4 := by
  by_contra hge
  obtain ⟨a, b, c, d, p', rfl⟩ := exists_longword (not_lt.mp hge)
  exact h a b c d p' rfl

/-- A key of one longword -/
theorem exists_of_length_four (h : p.length = 4) : ∃ a b c d, p = [a, b, c, d] := by
  obtain ⟨a, b, c, d, p, rfl⟩ := exists_longword h.ge
  obtain rfl := List.length_eq_zero_iff.mp (show p.length = 0 by simpa using h)
  exact ⟨a, b, c, d, rfl⟩

/-- A key of two longwords -/
theorem exists_of_length_eight (h : p.length = 8) :
    ∃ a b c d e f g i, p = [a, b, c, d, e, f, g, i] := by
  obtain ⟨a, b, c, d, p, rfl⟩ := exists_longword (show 4 ≤ p.length by omega)
  obtain ⟨e, f, g, i, rfl⟩ := exists_of_length_four (show p.length = 4 by simpa using h)
  exact ⟨a, b, c, d, e, f, g, i, rfl⟩

theorem swapBytes_of_lt (h : p.length < 4) : swapBytes p = p := by
  rw [swapBytes]
  rintro a b c d p rfl
  simp only [List.length_cons] at h
  omega

@[simp]
theorem length_swapBytes : (swapBytes p).length = p.length := by
  fun_induction swapBytes p with
  | case1 a b c d p ih => simp only [List.length_cons, ih]
  | case2 p => rfl

theorem swapBytes_swapBytes : swapBytes (swapBytes p) = p := by
  fun_induction swapBytes p with
  | case1 a b c d p ih => rw [swapBytes, ih]
  | case2 p hp => rw [swapBytes]; exact hp

@[simp]
theorem length_complementAll : (complementAll p).length = p.length := List.length_map _

theorem complementAll_complementAll : complementAll (complementAll p) = p := by
  rw [complementAll, complementAll, List.map_map]
  exact (List.map_congr_left fun x _ => complement_complement x).trans (List.map_id p)

theorem swapBytes_complementAll : swapBytes (complementAll p) = complementAll (swapBytes p) := by
  fun_induction swapBytes p with
  | case1 a b c d p ih =>
      rw [complementAll] at ih
      simp only [complementAll, List.map_cons, swapBytes, ih]
  | case2 p hp =>
      refine swapBytes_of_lt ?_
      rw [length_complementAll]
      exact length_lt_four hp

end

/-! ## Well-formed keys -/

namespace SKD

variable (k : SKD)

/-- The longwords of a key of fixed length. `SKD_quad` is not sorted right, and `SKD_timestamp1` and
`SKD_d_float` are of no type there is now. -/
def Sized : Prop :=
  match k.dtype with
  | .long | .ulong | .short | .ushort | .float | .sqlTime | .sqlDate => k.n = 4
  | .double | .int64 | .timestamp2 => k.n = 8
  | .text | .bytes | .varying | .cstring => True
  | .quad | .timestamp1 | .dFloat => False

/-- What a key is in a record: a varying is not longer than the key, a cstring ends within it, and
a short has nothing in the upper half of its longword. -/
def Fits (p : List UCHAR) : Prop :=
  match k.dtype with
  | .varying => 2 + ushortAt p ≤ p.length
  | .cstring => 0 ∈ p
  | .short | .ushort => p.drop 2 = [0, 0]
  | _ => True

/-! ## Strings -/

/-- The length of a varying or a cstring -/
def len (p : List UCHAR) : ℕ :=
  if k.dtype = .varying then ushortAt p else (strlen p).getD p.length

/-- A string without the control information -/
def string (p : List UCHAR) : List UCHAR :=
  match k.dtype with
  | .varying => (p.drop 2).take (ushortAt p)
  | .cstring => p.take ((strlen p).getD p.length)
  | _ => p

/-- A string with `fill_char` up to the length of the key -/
def pad (room : ℕ) (s : List UCHAR) : List UCHAR := s ++ List.replicate (room - s.length) k.fillChar

/-- A key as it is mangled -/
def padded (p : List UCHAR) : List UCHAR :=
  match k.dtype with
  | .varying => ushortBytes 0 ++ k.pad (p.length - 2) (k.string p)
  | .cstring => k.pad p.length (k.string p)
  | _ => p

/-- A key as it is put back -/
def restored (p : List UCHAR) : List UCHAR :=
  match k.dtype with
  | .varying => ushortBytes (k.len p) ++ k.pad (p.length - 2) (k.string p)
  | .cstring => (k.pad p.length (k.string p)).set (k.len p) 0
  | _ => p

/-- The bytes of a key that are its value, with the length of a varying and the end of a cstring -/
def content (p : List UCHAR) : List UCHAR :=
  match k.dtype with
  | .varying => p.take (2 + k.len p)
  | .cstring => p.take (k.len p + 1)
  | _ => p

end SKD

section

variable {k : SKD} {p : List UCHAR}

theorem four_dvd_n : 4 ∣ k.n := Nat.dvd_mul_left 4 _

/-- Mangling, and back. -/
theorem mangle_mangle (hk : k.Sized) (hp : p.length = k.n) :
    k.mangle false (k.mangle true p) = p := by
  obtain ⟨dtype, descending, binary, length, offset, varyOffset⟩ := k
  cases dtype with
  | quad | timestamp1 | dFloat => exact hk.elim
  | text | bytes | varying | cstring =>
      cases descending with
      | false => exact swapBytes_swapBytes
      | true =>
          change complementAll (swapBytes (complementAll (swapBytes p))) = p
          rw [swapBytes_complementAll, swapBytes_swapBytes, complementAll_complementAll]
  | long | sqlTime | sqlDate | short | ulong | ushort =>
      obtain ⟨a, b, c, d, rfl⟩ := exists_of_length_four (hp.trans hk)
      cases descending <;>
        simp [SKD.mangle, SKD.switch, flip, complementAll, flip_flip, complement_complement,
          complement_flip]
  | int64 | timestamp2 =>
      obtain ⟨a, b, c, d, e, f, g, i, rfl⟩ := exists_of_length_eight (hp.trans hk)
      cases descending <;>
        simp [SKD.mangle, SKD.switch, flip, swapLongs, complementAll, flip_flip,
          complement_complement, complement_flip]
  | float =>
      obtain ⟨a, b, c, d, rfl⟩ := exists_of_length_four (hp.trans hk)
      cases descending <;> by_cases hsign : 128 ≤ d <;>
        simp [SKD.mangle, SKD.switch, sign, hsign, flip, complementAll, flip_flip,
          complement_complement, complement_flip, sign_flip, sign_complement]
  | double =>
      obtain ⟨a, b, c, d, e, f, g, i, rfl⟩ := exists_of_length_eight (hp.trans hk)
      cases descending <;> by_cases hsign : 128 ≤ i <;>
        simp [SKD.mangle, SKD.switch, sign, hsign, flip, swapLongs, complementAll, flip_flip,
          complement_complement, complement_flip, sign_flip, sign_complement]

/-! ### The control information -/

variable {record : SortRecord} {l : ℕ} {x y : UCHAR} {s q : List UCHAR}

theorem n_le : k.n ≤ 65536 := by
  have h := k.length.isLt
  rw [SKD.n]
  omega

@[simp]
theorem length_ushortBytes (l : ℕ) : (ushortBytes l).length = 2 := rfl

theorem ushortAt_ushortBytes (h : l < 65536) (q : List UCHAR) :
    ushortAt (ushortBytes l ++ q) = l := by
  change l % 256 + 256 * (l / 256 % 256) = l
  omega

theorem ushortBytes_ushortAt : ushortBytes (ushortAt (x :: y :: q)) = [x, y] := by
  have hx := x.isLt
  have hy := y.isLt
  change [Fin.ofNat 256 (x.val + 256 * y.val), Fin.ofNat 256 ((x.val + 256 * y.val) / 256)] = [x, y]
  congr 2
  · exact Fin.ext (show (x.val + 256 * y.val) % 256 = x.val by omega)
  · exact Fin.ext (show (x.val + 256 * y.val) / 256 % 256 = y.val by omega)

theorem ushortAt_lt : ushortAt p < 65536 := by
  have h₀ := (p.getD 0 0).isLt
  have h₁ := (p.getD 1 0).isLt
  rw [ushortAt]
  omega

theorem strlen_append (h : 0 ∉ s) : strlen (s ++ 0 :: q) = some s.length := by
  have hnone : s.findIdx? (· = 0) = none := List.findIdx?_eq_none_iff.mpr fun x hx =>
    decide_eq_false fun heq => h (heq ▸ hx)
  rw [strlen, List.findIdx?_append, hnone, List.findIdx?_cons]
  simp

theorem exists_varying (h : 2 + ushortAt p ≤ p.length) :
    ∃ x y s q, p = x :: y :: (s ++ q) ∧ s.length = ushortAt p := by
  obtain ⟨x, p, rfl⟩ := List.exists_cons_of_length_pos (show 0 < p.length by omega)
  rw [List.length_cons] at h
  obtain ⟨y, p, rfl⟩ := List.exists_cons_of_length_pos (show 0 < p.length by omega)
  rw [List.length_cons] at h
  refine ⟨x, y, p.take (ushortAt (x :: y :: p)), p.drop (ushortAt (x :: y :: p)), ?_, ?_⟩
  · rw [List.take_append_drop]
  · rw [List.length_take, min_eq_left (by omega)]

/-! ### A varying -/

theorem fillFrom_varying (s : List UCHAR) (c : UCHAR) :
    fillFrom (x :: y :: (s ++ q)) (2 + s.length) c =
      some (x :: y :: (s ++ List.replicate q.length c)) := by
  have hlen : (x :: y :: (s ++ q)).length = 2 + s.length + q.length := by
    rw [List.length_cons, List.length_cons, List.length_append]
    omega
  rw [fillFrom, hlen, if_pos (Nat.le_add_right _ _), Nat.add_sub_cancel_left, Nat.add_comm 2,
    List.take_succ_cons, List.take_succ_cons, List.take_left]
  rfl

theorem pad_append (s : List UCHAR) :
    k.pad (s ++ q).length s = s ++ List.replicate q.length k.fillChar := by
  rw [SKD.pad, List.length_append, Nat.add_sub_cancel_left]

theorem string_varying (hk : k.dtype = .varying) (hs : s.length = ushortAt (x :: y :: (s ++ q))) :
    k.string (x :: y :: (s ++ q)) = s := by
  rw [SKD.string, hk]
  change (s ++ q).take (ushortAt (x :: y :: (s ++ q))) = s
  rw [← hs, List.take_left]

theorem len_varying (hk : k.dtype = .varying) : k.len p = ushortAt p := by
  rw [SKD.len, if_pos hk]

theorem padded_varying (hk : k.dtype = .varying) (hs : s.length = ushortAt (x :: y :: (s ++ q))) :
    k.padded (x :: y :: (s ++ q)) =
      ushortBytes 0 ++ (s ++ List.replicate q.length k.fillChar) := by
  rw [SKD.padded, hk]
  change ushortBytes 0 ++ k.pad (s ++ q).length _ = _
  rw [string_varying hk hs, pad_append]

theorem restored_varying (hk : k.dtype = .varying)
    (hs : s.length = ushortAt (x :: y :: (s ++ q))) :
    k.restored (x :: y :: (s ++ q)) = x :: y :: (s ++ List.replicate q.length k.fillChar) := by
  rw [SKD.restored, hk]
  change ushortBytes (k.len _) ++ k.pad (s ++ q).length _ = _
  rw [string_varying hk hs, pad_append, len_varying hk, ushortBytes_ushortAt]
  rfl

/-! ### A cstring -/

theorem string_cstring (hk : k.dtype = .cstring) (hs : 0 ∉ s) : k.string (s ++ 0 :: q) = s := by
  rw [SKD.string, hk]
  change (s ++ 0 :: q).take ((strlen (s ++ 0 :: q)).getD _) = s
  rw [strlen_append hs, Option.getD_some, List.take_left]

theorem len_cstring (hk : k.dtype = .cstring) (hs : 0 ∉ s) : k.len (s ++ 0 :: q) = s.length := by
  have hne : k.dtype ≠ .varying := by
    rw [hk]
    decide
  rw [SKD.len, if_neg hne, strlen_append hs, Option.getD_some]

theorem padded_cstring (hk : k.dtype = .cstring) (hs : 0 ∉ s) :
    k.padded (s ++ 0 :: q) = s ++ List.replicate (0 :: q).length k.fillChar := by
  rw [SKD.padded, hk]
  change k.pad (s ++ 0 :: q).length _ = _
  rw [string_cstring hk hs, pad_append]

theorem poke_append (s q : List UCHAR) (c c' : UCHAR) :
    poke (s ++ c :: q) s.length c' = some (s ++ c' :: q) := by
  have hlt : s.length < (s ++ c :: q).length := by
    rw [List.length_append, List.length_cons]
    omega
  rw [poke, if_pos hlt, List.set_append_right _ _ (le_refl _), Nat.sub_self, List.set_cons_zero]

/-- The end of a cstring, and behind it what it is filled with -/
theorem restored_cstring (hk : k.dtype = .cstring) (hs : 0 ∉ s) :
    k.restored (s ++ 0 :: q) = s ++ 0 :: List.replicate q.length k.fillChar := by
  rw [SKD.restored, hk]
  change (k.pad _ (k.string (s ++ 0 :: q))).set (k.len (s ++ 0 :: q)) 0 = _
  rw [string_cstring hk hs, len_cstring hk hs, SKD.pad]
  have hlen : (s ++ 0 :: q).length - s.length = q.length + 1 := by
    rw [List.length_append, List.length_cons]
    omega
  rw [hlen, List.replicate_succ, List.set_append_right _ _ (le_refl _), Nat.sub_self,
    List.set_cons_zero]

/-! ### Stashing, and back -/

theorem varying_of_fits (hk : k.dtype = .varying) (hp : k.Fits p) :
    ∃ x y s q, p = x :: y :: (s ++ q) ∧ s.length = ushortAt p := by
  rw [SKD.Fits, hk] at hp
  exact exists_varying hp

theorem cstring_of_fits (hk : k.dtype = .cstring) (hp : k.Fits p) :
    ∃ s q, p = s ++ 0 :: q ∧ 0 ∉ s := by
  rw [SKD.Fits, hk] at hp
  exact List.eq_append_cons_of_mem hp

theorem hasControl_of_eq (hk : k.dtype = .varying ∨ k.dtype = .cstring) : k.hasControl = true :=
  decide_eq_true hk

theorem stash_of_fits (hp : k.Fits p) : k.stash false record p =
    some (if k.hasControl then record.store k.varyOffset (ushortBytes (k.len p)) else record,
      k.padded p) := by
  cases hk : k.dtype with
  | varying =>
      obtain ⟨x, y, s, q, rfl, hs⟩ := varying_of_fits hk hp
      rw [SKD.stash, hk, padded_varying hk hs, if_pos (hasControl_of_eq (.inl hk)), len_varying hk]
      simp only [Bool.false_eq_true, if_false, ← hs, fillFrom_varying]
      rfl
  | cstring =>
      obtain ⟨s, q, rfl, hs⟩ := cstring_of_fits hk hp
      have hfill : fillFrom (s ++ 0 :: q) s.length k.fillChar =
          some (s ++ List.replicate (0 :: q).length k.fillChar) := by
        rw [fillFrom, List.length_append, if_pos (Nat.le_add_right _ _), Nat.add_sub_cancel_left,
          List.take_left]
      rw [SKD.stash, hk, padded_cstring hk hs, if_pos (hasControl_of_eq (.inr hk)),
        len_cstring hk hs]
      simp only [Bool.false_eq_true, if_false, strlen_append hs, Option.bind_eq_bind,
        Option.bind_some, hfill]
  | _ => simp [SKD.stash, SKD.padded, SKD.hasControl, hk]

theorem unstash_padded (hp : k.Fits p)
    (hcontrol : k.hasControl = true → ushortAt (record.load k.varyOffset 2) = k.len p) :
    k.unstash record (k.padded p) = some (k.restored p) := by
  cases hk : k.dtype with
  | varying =>
      obtain ⟨x, y, s, q, rfl, hs⟩ := varying_of_fits hk hp
      rw [SKD.unstash, hk, hcontrol (hasControl_of_eq (.inl hk)), padded_varying hk hs,
        restored_varying hk hs, len_varying hk]
      change some (ushortBytes _ ++ (s ++ _)) = _
      rw [ushortBytes_ushortAt]
      rfl
  | cstring =>
      obtain ⟨s, q, rfl, hs⟩ := cstring_of_fits hk hp
      rw [SKD.unstash, hk, hcontrol (hasControl_of_eq (.inr hk)), padded_cstring hk hs,
        restored_cstring hk hs, len_cstring hk hs]
      exact poke_append s _ k.fillChar 0
  | _ => simp [SKD.unstash, SKD.padded, SKD.restored, hk]

theorem stash_restored (hp : k.Fits p)
    (hcontrol : k.hasControl = true → ushortAt (record.load k.varyOffset 2) = k.len p) :
    k.stash true record (k.restored p) = some (record, k.padded p) := by
  cases hk : k.dtype with
  | varying =>
      obtain ⟨x, y, s, q, rfl, hs⟩ := varying_of_fits hk hp
      rw [SKD.stash, hk, padded_varying hk hs, restored_varying hk hs]
      rfl
  | cstring =>
      obtain ⟨s, q, rfl, hs⟩ := cstring_of_fits hk hp
      rw [SKD.stash, hk, hcontrol (hasControl_of_eq (.inr hk)), padded_cstring hk hs,
        restored_cstring hk hs, len_cstring hk hs]
      simp only [if_true, poke_append, Option.bind_eq_bind, Option.bind_some]
      rfl
  | _ => simp [SKD.stash, SKD.padded, SKD.restored, hk]

/-- Keys that hold the same value, and are mangled to the same -/
structure SameKey (k : SKD) (p p' : List UCHAR) : Prop where
  length : p'.length = p.length
  fits : k.Fits p'
  len : k.len p' = k.len p
  padded : k.padded p' = k.padded p
  content : k.content p' = k.content p

/-- What is put back differs from what was put only behind the string. -/
theorem sameKey_restored (hp : k.Fits p) : SameKey k p (k.restored p) := by
  cases hk : k.dtype with
  | varying =>
      obtain ⟨x, y, s, q, rfl, hs⟩ := varying_of_fits hk hp
      rw [restored_varying hk hs]
      have hlen : (List.replicate q.length k.fillChar).length = q.length := List.length_replicate
      have hs' : s.length = ushortAt (x :: y :: (s ++ List.replicate q.length k.fillChar)) := hs
      refine ⟨?_, ?_, ?_, ?_, ?_⟩
      · simp only [List.length_cons, List.length_append, hlen]
      · rw [SKD.Fits, hk]
        change 2 + ushortAt (x :: y :: _) ≤ _
        rw [← hs']
        simp only [List.length_cons, List.length_append]
        omega
      · rw [len_varying hk, len_varying hk]
        rfl
      · rw [padded_varying hk hs, padded_varying hk hs', hlen]
      · have hcontent : ∀ q : List UCHAR, s.length = ushortAt (x :: y :: (s ++ q)) →
            k.content (x :: y :: (s ++ q)) = x :: y :: s := fun q hq => by
          rw [SKD.content, hk]
          change List.take (2 + k.len _) _ = _
          rw [len_varying hk, ← hq, Nat.add_comm, List.take_succ_cons, List.take_succ_cons,
            List.take_left]
        rw [hcontent _ hs', hcontent q hs]
  | cstring =>
      obtain ⟨s, q, rfl, hs⟩ := cstring_of_fits hk hp
      rw [restored_cstring hk hs]
      have hlen : (List.replicate q.length k.fillChar).length = q.length := List.length_replicate
      refine ⟨?_, ?_, ?_, ?_, ?_⟩
      · rw [List.length_append, List.length_append, List.length_cons, List.length_cons, hlen]
      · rw [SKD.Fits, hk]
        exact List.mem_append_right _ List.mem_cons_self
      · rw [len_cstring hk hs, len_cstring hk hs]
      · rw [padded_cstring hk hs, padded_cstring hk hs, List.length_cons, List.length_cons, hlen]
      · have hcontent : ∀ q : List UCHAR, k.content (s ++ 0 :: q) = s ++ [0] := fun q => by
          rw [SKD.content, hk]
          change List.take (k.len _ + 1) _ = _
          rw [len_cstring hk hs, List.append_cons]
          exact List.take_left' (List.length_append ..)
        rw [hcontent, hcontent]
  | _ =>
      have hrestored : k.restored p = p := by
        rw [SKD.restored, hk]
      rw [hrestored]
      exact ⟨rfl, hp, rfl, rfl, rfl⟩

theorem length_padded (hp : k.Fits p) : (k.padded p).length = p.length := by
  cases hk : k.dtype with
  | varying =>
      obtain ⟨x, y, s, q, rfl, hs⟩ := varying_of_fits hk hp
      rw [padded_varying hk hs]
      simp only [List.length_append, List.length_cons, List.length_replicate, length_ushortBytes]
      omega
  | cstring =>
      obtain ⟨s, q, rfl, hs⟩ := cstring_of_fits hk hp
      rw [padded_cstring hk hs, List.length_append, List.length_append, List.length_replicate]
  | _ => rw [SKD.padded, hk]

@[simp]
theorem length_swapLongs : (swapLongs p).length = p.length := by
  simp only [swapLongs, List.length_append, List.length_take, List.length_drop]
  omega

@[simp]
theorem length_flip (i : ℕ) : (flip i p).length = p.length := List.length_modify ..

theorem length_switch (direction complement : Bool) :
    (k.switch direction complement p).1.length = p.length := by
  rw [SKD.switch]
  cases k.dtype <;> cases direction <;> simp only [Bool.false_eq_true, if_false, if_true] <;>
    (repeat' split) <;> simp

theorem length_mangle (direction : Bool) : (k.mangle direction p).length = p.length := by
  have h := length_switch (k := k) (p := p) direction k.descending
  rw [SKD.mangle]
  dsimp only
  split
  · rw [length_complementAll, h]
  · exact h

theorem len_lt (hp : k.Fits p) (hn : p.length = k.n) (hcontrol : k.hasControl = true) :
    k.len p < 65536 := by
  rcases of_decide_eq_true hcontrol with hk | hk
  · rw [len_varying hk]
    exact ushortAt_lt
  · obtain ⟨s, q, rfl, hs⟩ := cstring_of_fits hk hp
    have hle := n_le (k := k)
    rw [← hn, List.length_append, List.length_cons] at hle
    rw [len_cstring hk hs]
    omega

/-! ## One key -/

namespace SKD

variable (k : SKD)

/-- The bytes of a record that a key has -/
def Part (a : ℕ) : Prop :=
  (k.offset.val ≤ a ∧ a < k.offset.val + k.n) ∨
    (k.hasControl = true ∧ k.varyOffset.val ≤ a ∧ a < k.varyOffset.val + 2)

/-- The length that is stashed is not in the key. -/
def Apart : Prop :=
  k.hasControl = true →
    k.offset.val + k.n ≤ k.varyOffset.val ∨ k.varyOffset.val + 2 ≤ k.offset.val

/-- A record with the length of the key `p` -/
def Stashed (p : List UCHAR) (record : SortRecord) : Prop :=
  k.hasControl = true → record.load k.varyOffset 2 = ushortBytes (k.len p)

/-- A record with the key `p` mangled -/
def Mangled (p : List UCHAR) (record : SortRecord) : Prop :=
  record.load k.offset k.n = k.mangle true (k.padded p) ∧ k.Stashed p record

/-- A record with the key `p` put back -/
def Back (p : List UCHAR) (record : SortRecord) : Prop :=
  record.load k.offset k.n = k.restored p ∧ k.Stashed p record

end SKD

variable {record : SortRecord}

/-- A key is stored, and the rest of the record stays. -/
theorem load_store_key (hap : k.Apart) (hq : q.length = k.n) (hstash : k.Stashed p record) :
    (record.store k.offset q).load k.offset k.n = q ∧ k.Stashed p (record.store k.offset q) ∧
      ∀ a, ¬k.Part a → record.store k.offset q a = record a := by
  refine ⟨?_, fun hcontrol => ?_, fun a ha => ?_⟩
  · rw [← hq]
    exact Memory.load_store record _ q
  · rw [Memory.load_store_of_disjoint, hstash hcontrol]
    have hdisjoint := hap hcontrol
    omega
  · rw [SKD.Part, not_or] at ha
    refine Memory.store_of_outside ?_
    have hnot := ha.1
    omega

theorem stash_put (record : SortRecord) (hp : k.Fits p) :
    ∃ record', k.stash false record p = some (record', k.padded p) ∧
    k.Stashed p record' ∧ ∀ a, ¬k.Part a → record' a = record a := by
  refine ⟨_, stash_of_fits hp, fun hcontrol => ?_, fun a ha => ?_⟩
  · rw [if_pos hcontrol]
    exact Memory.load_store record _ (ushortBytes (k.len p))
  · split
    · rename_i hcontrol
      have hnot : ¬(k.varyOffset.val ≤ a ∧ a < k.varyOffset.val + 2) := fun hin =>
        ha (.inr ⟨hcontrol, hin⟩)
      refine Memory.store_of_outside ?_
      rw [length_ushortBytes]
      omega
    · rfl

theorem ushortAt_stashed (hp : k.Fits p) (hn : p.length = k.n) (hstashed : k.Stashed p record)
    (hcontrol : k.hasControl = true) : ushortAt (record.load k.varyOffset 2) = k.len p := by
  rw [hstashed hcontrol, ← List.append_nil (ushortBytes _)]
  exact ushortAt_ushortBytes (len_lt hp hn hcontrol) []

/-- A key is put. -/
theorem diddle_put (hap : k.Apart) (hp : k.Fits (record.load k.offset k.n)) :
    ∃ record', k.diddle false true record = some record' ∧
      k.Mangled (record.load k.offset k.n) record' ∧
      ∀ a, ¬k.Part a → record' a = record a := by
  obtain ⟨record₁, hrecord₁, hstashed, hrest⟩ := stash_put record hp
  have hlen : (k.mangle true (k.padded (record.load k.offset k.n))).length = k.n := by
    rw [length_mangle, length_padded hp, Memory.length_load]
  obtain ⟨hload, hstash, hframe⟩ := load_store_key hap hlen hstashed
  refine ⟨_, ?_, ⟨hload, hstash⟩, fun a ha => (hframe a ha).trans (hrest a ha)⟩
  rw [SKD.diddle, if_pos rfl, hrecord₁]
  rfl

/-- A key is put back. -/
theorem diddle_back (hk : k.Sized) (hap : k.Apart) (hp : k.Fits p) (hn : p.length = k.n)
    (hrecord : k.Mangled p record) (sorted : Bool) :
    ∃ record', k.diddle sorted false record = some record' ∧ k.Back p record' ∧
      ∀ a, ¬k.Part a → record' a = record a := by
  obtain ⟨hload, hstashed⟩ := hrecord
  have hlen : (k.restored p).length = k.n := (sameKey_restored hp).length.trans hn
  obtain ⟨hload', hstash, hframe⟩ := load_store_key hap hlen hstashed
  refine ⟨_, ?_, ⟨hload', hstash⟩, hframe⟩
  have hback := mangle_mangle hk ((length_padded hp).trans hn)
  rw [SKD.diddle, if_neg Bool.false_ne_true, hload, hback,
    unstash_padded hp (ushortAt_stashed hp hn hstashed)]
  rfl

/-- A key that has been put back is put again. -/
theorem diddle_again (hap : k.Apart) (hp : k.Fits p) (hn : p.length = k.n)
    (hrecord : k.Back p record) (sorted : Bool) :
    ∃ record', k.diddle sorted true record = some record' ∧ k.Mangled p record' ∧
      ∀ a, ¬k.Part a → record' a = record a := by
  obtain ⟨hload, hstashed⟩ := hrecord
  cases sorted with
  | true =>
      have hlen : (k.mangle true (k.padded p)).length = k.n := by
        rw [length_mangle, length_padded hp, hn]
      obtain ⟨hload', hstash, hframe⟩ := load_store_key hap hlen hstashed
      refine ⟨_, ?_, ⟨hload', hstash⟩, hframe⟩
      rw [SKD.diddle, if_pos rfl, hload, stash_restored hp (ushortAt_stashed hp hn hstashed)]
      rfl
  | false =>
      -- the length is found again
      have hsame := sameKey_restored hp
      have hfits : k.Fits (record.load k.offset k.n) := by
        rw [hload]
        exact hsame.fits
      obtain ⟨record', hrecord', ⟨hload', hstash⟩, hframe⟩ := diddle_put hap hfits
      rw [hload, hsame.padded] at hload'
      rw [hload, SKD.Stashed, hsame.len] at hstash
      exact ⟨record', hrecord', ⟨hload', hstash⟩, hframe⟩

/-! ## All keys -/

theorem load_key_congr {record' : SortRecord} (h : ∀ a, k.Part a → record' a = record a) :
    record'.load k.offset k.n = record.load k.offset k.n :=
  Memory.load_congr fun a ha ha' => h a (.inl ⟨ha, ha'⟩)

theorem SKD.Stashed.congr {record' : SortRecord} (hstash : k.Stashed p record)
    (h : ∀ a, k.Part a → record' a = record a) : k.Stashed p record' := fun hcontrol => by
  rw [← hstash hcontrol]
  exact Memory.load_congr fun a ha ha' => h a (.inr ⟨hcontrol, ha, ha'⟩)

theorem SKD.Mangled.congr {record' : SortRecord} (hp : k.Mangled p record)
    (h : ∀ a, k.Part a → record' a = record a) : k.Mangled p record' :=
  ⟨(load_key_congr h).trans hp.1, hp.2.congr h⟩

theorem SKD.Back.congr {record' : SortRecord} (hp : k.Back p record)
    (h : ∀ a, k.Part a → record' a = record a) : k.Back p record' :=
  ⟨(load_key_congr h).trans hp.1, hp.2.congr h⟩

/-- Two records with the same key mangled have the same bytes there. -/
theorem SKD.Mangled.eq_of_part {record' : SortRecord} (hp : k.Mangled p record)
    (hp' : k.Mangled p record') {a : ℕ} (ha : k.Part a) : record a = record' a := by
  rcases ha with ⟨ha, ha'⟩ | ⟨hcontrol, ha, ha'⟩
  · exact Memory.eq_of_load_eq (hp.1.trans hp'.1.symm) ha ha'
  · exact Memory.eq_of_load_eq ((hp.2 hcontrol).trans (hp'.2 hcontrol).symm) ha ha'

end

/-- Keys of the types there are, none of which has bytes of another -/
structure Layout (keys : List SKD) : Prop where
  sized : ∀ k ∈ keys, k.Sized
  apart : ∀ k ∈ keys, k.Apart
  disjoint : keys.Pairwise fun k k' => ∀ a, k.Part a → ¬k'.Part a

/-- A record with keys as they should be -/
def Fits (keys : List SKD) (record : SortRecord) : Prop :=
  ∀ k ∈ keys, k.Fits (record.load k.offset k.n)

section

variable {keys : List SKD} {record record' : SortRecord}

/-- The keys of a record are put. -/
theorem diddleKey_put (h : Layout keys) (hfits : Fits keys record) :
    ∃ record', diddleKey false true keys record = some record' ∧
      (∀ k ∈ keys, k.Mangled (record.load k.offset k.n) record') ∧
      ∀ a, (∀ k ∈ keys, ¬k.Part a) → record' a = record a := by
  refine Memory.exists_foldlM (P := fun k m => m.load k.offset k.n = record.load k.offset k.n)
    h.disjoint (fun _ _ _ _ heq hm => (load_key_congr heq).trans hm)
    (fun _ _ _ _ heq hm => hm.congr heq) (fun k hk m hm => ?_) fun _ _ => rfl
  have hkey : k.Fits (m.load k.offset k.n) := by
    rw [hm]
    exact hfits k hk
  have hput := diddle_put (h.apart k hk) hkey
  rwa [hm] at hput

/-- They are put back. -/
theorem diddleKey_back (h : Layout keys) (hfits : Fits keys record)
    (hmangled : ∀ k ∈ keys, k.Mangled (record.load k.offset k.n) record') (sorted : Bool) :
    ∃ record'', diddleKey sorted false keys record' = some record'' ∧
      (∀ k ∈ keys, k.Back (record.load k.offset k.n) record'') ∧
      ∀ a, (∀ k ∈ keys, ¬k.Part a) → record'' a = record' a :=
  Memory.exists_foldlM h.disjoint
    (fun _ _ _ _ heq hm => hm.congr heq) (fun _ _ _ _ heq hm => hm.congr heq)
    (fun k hk _ hm => diddle_back (h.sized k hk) (h.apart k hk) (hfits k hk)
      (Memory.length_load _ _ _) hm sorted) hmangled

/-- They are put again. -/
theorem diddleKey_again (h : Layout keys) (hfits : Fits keys record)
    (hback : ∀ k ∈ keys, k.Back (record.load k.offset k.n) record') (sorted : Bool) :
    ∃ record'', diddleKey sorted true keys record' = some record'' ∧
      (∀ k ∈ keys, k.Mangled (record.load k.offset k.n) record'') ∧
      ∀ a, (∀ k ∈ keys, ¬k.Part a) → record'' a = record' a :=
  Memory.exists_foldlM h.disjoint
    (fun _ _ _ _ heq hm => hm.congr heq) (fun _ _ _ _ heq hm => hm.congr heq)
    (fun k hk _ hm => diddle_again (h.apart k hk) (hfits k hk)
      (Memory.length_load _ _ _) hm sorted) hback

/-- A record that has been put is put back with its keys, and put again as it was. -/
theorem diddleKey_round (h : Layout keys) (hfits : Fits keys record)
    (hput : diddleKey false true keys record = some record') (sorted sorted' : Bool) :
    ∃ record'', diddleKey sorted false keys record' = some record'' ∧
      (∀ k ∈ keys, k.content (record''.load k.offset k.n) =
        k.content (record.load k.offset k.n)) ∧
      diddleKey sorted' true keys record'' = some record' := by
  obtain ⟨r, hr, hmangled, -⟩ := diddleKey_put h hfits
  obtain rfl := Option.some.inj (hput.symm.trans hr)
  obtain ⟨r₁, hr₁, hback, hout₁⟩ := diddleKey_back h hfits hmangled sorted
  obtain ⟨r₂, hr₂, hmangled₂, hout₂⟩ := diddleKey_again h hfits hback sorted'
  have heq : r₂ = record' := by
    funext a
    by_cases ha : ∃ k ∈ keys, k.Part a
    · obtain ⟨k, hk, hpart⟩ := ha
      exact (hmangled₂ k hk).eq_of_part (hmangled k hk) hpart
    · have hnot : ∀ k ∈ keys, ¬k.Part a := fun k hk hpart => ha ⟨k, hk, hpart⟩
      exact (hout₂ a hnot).trans (hout₁ a hnot)
  refine ⟨r₁, hr₁, fun k hk => ?_, heq ▸ hr₂⟩
  rw [(hback k hk).1]
  exact (sameKey_restored (hfits k hk)).content

end

end Firebird.Sort
