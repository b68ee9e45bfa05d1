import Firebird.Lib.Bytes

/-! # Unicode in FSS format (`intl/cv_unicode_fss.c`)

A character is a sequence of one to six bytes. The first one says how many bytes follow, and each of
those holds six bits. Only the shortest sequence of a character is accepted. `UNICODE` has sixteen
bits, while the sequences of four to six bytes stand for greater characters.
-/

namespace Firebird.Intl

/-- `UNICODE` -/
abbrev UNICODE := Fin 65536

/-- `CS_TRUNCATION_ERROR` -/
def CS_TRUNCATION_ERROR : ℕ := 1

/-- `CS_BAD_INPUT` -/
def CS_BAD_INPUT : ℕ := 3

/-! ## Single characters -/

structure Tab where
  cmask : ℕ
  cval : ℕ
  shift : ℕ
  lmask : ℕ
  lval : ℕ

/-- `tab` without the entry that marks its end -/
def tab : List Tab :=
  [⟨0x80, 0x00, 0 * 6, 0x7F, 0⟩,
   ⟨0xE0, 0xC0, 1 * 6, 0x7FF, 0x80⟩,
   ⟨0xF0, 0xE0, 2 * 6, 0xFFFF, 0x800⟩,
   ⟨0xF8, 0xF0, 3 * 6, 0x1FFFFF, 0x10000⟩,
   ⟨0xFC, 0xF8, 4 * 6, 0x3FFFFFF, 0x200000⟩,
   ⟨0xFE, 0xFC, 5 * 6, 0x7FFFFFFF, 0x4000000⟩]

/-- What `fss_mbtowc` returns -/
inductive Mbtowc where
  /-- A byte behind the end of the source is read. -/
  | fault
  | bad
  | char (wc : UNICODE) (res : ℕ)
deriving DecidableEq

/-- `(*s ^ 0x80) & 0xFF` -/
def flipped (s : UCHAR) : ℕ := (s.val ^^^ 0x80) &&& 0xFF

/-- The loop of `fss_mbtowc`. What is left of the source is behind the byte `s` points to. -/
def mbtowcLoop (n c0 : ℕ) : List Tab → ℕ → ℕ → List UCHAR → Mbtowc
  | [], _, _, _ => .bad
  | t :: tab, nc, l, s =>
    if c0 &&& t.cmask = t.cval then
      if l &&& t.lmask < t.lval then .bad else .char (Fin.ofNat 65536 (l &&& t.lmask)) (nc + 1)
    else if n ≤ nc + 1 then .bad
    else
      match s with
      | [] => .fault
      | b :: s =>
        if flipped b &&& 0xC0 ≠ 0 then .bad
        else mbtowcLoop n c0 tab (nc + 1) ((l <<< 6) ||| flipped b) s

def fss_mbtowc (s : List UCHAR) (n : ℕ) : Mbtowc :=
  if n ≤ 0 then .bad
  else
    match s with
    | [] => .fault
    | b :: s => mbtowcLoop n b.val tab 0 b.val s

example : fss_mbtowc [0xC3, 0xA4, 0x41] 3 = .char 0xE4 2 := by decide

/-- `0x80 | c` -/
def tailByte (c : ℕ) : UCHAR := Fin.ofNat 256 (0x80 ||| c)

/-- The loop over the bytes behind the first one -/
def wctombTail (l : ℕ) : ℕ → List UCHAR
  | c + 6 => tailByte ((l >>> c) &&& 0x3F) :: wctombTail l c
  | _ => []

/-- The loop of `fss_wctomb`: the result, and the bytes that are written -/
def wctombLoop (l : ℕ) : ℕ → List Tab → Option (ℕ × List UCHAR)
  | _, [] => none
  | nc, t :: tab =>
    if l ≤ t.lmask then
      some (nc + 1, Fin.ofNat 256 (t.cval ||| (l >>> t.shift)) :: wctombTail l t.shift)
    else wctombLoop l (nc + 1) tab

def fss_wctomb (wc : UNICODE) : Option (ℕ × List UCHAR) := wctombLoop wc.val 0 tab

example : fss_wctomb 0xE4 = some (2, [0xC3, 0xA4]) := by decide

/-! ## Strings -/

/-- What a conversion leaves: what is written to the destination, `err_code` and `err_position` -/
structure Converted (α : Type) where
  dest : List α
  err_code : ℕ
  err_position : ℕ
deriving DecidableEq

/-- The loop of `CS_UTFFSS_fss_to_unicode`, without a result where a byte behind the end is read: what
is written, `err_code`, and what is left of the source -/
def toUnicodeLoop : ℕ → List UCHAR → Option (List UNICODE × ℕ × List UCHAR)
  | dest_len + 2, b :: src =>
    match fss_mbtowc (b :: src) (src.length + 1) with
    | .fault => none
    | .bad => some ([], CS_BAD_INPUT, b :: src)
    | .char wc res =>
      (toUnicodeLoop dest_len ((b :: src).drop res)).map fun r => (wc :: r.1, r.2)
  | _, src => some ([], 0, src)

example : toUnicodeLoop 3 [0x41] = some ([0x41], 0, []) := by decide

/-- `CS_UTFFSS_fss_to_unicode` with a destination -/
def CS_UTFFSS_fss_to_unicode (dest_len : ℕ) (src : List UCHAR) : Option (Converted UNICODE) :=
  (toUnicodeLoop dest_len src).map fun r =>
    { dest := r.1
      err_code := if r.2.2.length ≠ 0 ∧ r.2.1 = 0 then CS_TRUNCATION_ERROR else r.2.1
      err_position := src.length - r.2.2.length }

/-- The loop of `CS_UTFFSS_unicode_to_fss`: what is written, `err_code` and `unicode_len` -/
def toFssLoop : ℕ → ℕ → List UNICODE → Option (List UCHAR × ℕ × ℕ)
  | unicode_len + 2, fss_len, unicode_str =>
    if fss_len = 0 then some ([], 0, unicode_len + 2)
    else
      match unicode_str with
      | [] => none
      | wc :: unicode_str =>
        match fss_wctomb wc with
        | none => some ([], CS_BAD_INPUT, unicode_len + 2)
        | some (res, tmp_buffer) =>
          if res > fss_len then some ([], CS_TRUNCATION_ERROR, unicode_len + 2)
          else
            (toFssLoop unicode_len (fss_len - res) unicode_str).map fun r =>
              (tmp_buffer.take res ++ r.1, r.2)
  | unicode_len, _, _ => some ([], 0, unicode_len)

example : toFssLoop 2 3 [0x41] = some ([0x41], 0, 0) := by decide

/-- `CS_UTFFSS_unicode_to_fss` with a destination. The length is one in bytes. -/
def CS_UTFFSS_unicode_to_fss (fss_len : ℕ) (unicode_str : List UNICODE) (unicode_len : ℕ) :
    Option (Converted UCHAR) :=
  (toFssLoop unicode_len fss_len unicode_str).map fun r =>
    { dest := r.1
      err_code := if r.2.2 ≠ 0 ∧ r.2.1 = 0 then CS_TRUNCATION_ERROR else r.2.1
      err_position := unicode_len - r.2.2 }

/-! ## The table -/

/-- How many values the bits of the first byte have, in a sequence with `j` bytes behind it -/
def Tab.room (t : Tab) (j : ℕ) : ℕ := (t.lmask + 1) / 64 ^ j

/-- What the entry of the sequences with `j` bytes behind the first one says -/
structure Entry (j : ℕ) (t : Tab) : Prop where
  shift_eq : t.shift = 6 * j
  mask : ∃ k, t.lmask = 2 ^ k - 1
  room_mul : t.room j * 64 ^ j = t.lmask + 1
  top_bits : t.cval % t.room j = 0
  fits : t.cval + t.room j ≤ 256
  lead : ∀ c : UCHAR, c.val &&& t.cmask = t.cval ↔ t.cval ≤ c.val ∧ c.val < t.cval + t.room j
  lead_or : ∀ c : UCHAR, c.val < t.room j → t.cval ||| c.val = t.cval + c.val
  lval_le : t.lval ≤ t.lmask
  lmask_le : t.lmask ≤ 0x7FFFFFFF
  before : ∀ (i : ℕ) (u : Tab), i < j → tab[i]? = some u →
    u.lmask < t.lval ∧ ∀ c : UCHAR, c.val &&& t.cmask = t.cval → c.val &&& u.cmask ≠ u.cval

set_option maxRecDepth 1000 in
theorem tab_before : ∀ i j : Fin 6, i < j → ∀ c : UCHAR,
    (tab.get i).lmask < (tab.get j).lval ∧
      (c.val &&& (tab.get j).cmask = (tab.get j).cval →
        c.val &&& (tab.get i).cmask ≠ (tab.get i).cval) := by
  decide

set_option maxRecDepth 1000 in
theorem tab_lead : ∀ (j : Fin 6) (c : UCHAR),
    (c.val &&& (tab.get j).cmask = (tab.get j).cval ↔
      (tab.get j).cval ≤ c.val ∧ c.val < (tab.get j).cval + (tab.get j).room j) ∧
    (c.val < (tab.get j).room j → (tab.get j).cval ||| c.val = (tab.get j).cval + c.val) := by
  decide

theorem tab_numbers : ∀ j : Fin 6,
    (tab.get j).shift = 6 * j.val ∧ (tab.get j).room j * 64 ^ j.val = (tab.get j).lmask + 1 ∧
      (tab.get j).cval % (tab.get j).room j = 0 ∧ (tab.get j).cval + (tab.get j).room j ≤ 256 ∧
      (tab.get j).lval ≤ (tab.get j).lmask ∧ (tab.get j).lmask ≤ 0x7FFFFFFF := by
  decide

theorem tab_mask : ∀ j : Fin 6, ∃ k, (tab.get j).lmask = 2 ^ k - 1 := by
  intro j
  have hmask : (tab.get j).lmask = 2 ^ ([7, 11, 16, 21, 26, 31].getD j.val 0) - 1 := by
    revert j
    decide
  exact ⟨_, hmask⟩

theorem entry_of_get {j : ℕ} {t : Tab} (h : tab[j]? = some t) : Entry j t := by
  obtain ⟨hj, rfl⟩ := List.getElem?_eq_some_iff.mp h
  obtain ⟨hshift, hroom, htop, hfits, hlval, hlmask⟩ := tab_numbers ⟨j, hj⟩
  have hlead := tab_lead ⟨j, hj⟩
  refine ⟨hshift, tab_mask ⟨j, hj⟩, hroom, htop, hfits, fun c => (hlead c).1,
    fun c => (hlead c).2, hlval, hlmask, ?_⟩
  intro i u hij hu
  obtain ⟨hi, rfl⟩ := List.getElem?_eq_some_iff.mp hu
  have hbefore := tab_before ⟨i, hi⟩ ⟨j, hj⟩ hij
  exact ⟨(hbefore 0).1, fun c => (hbefore c).2⟩

/-- Every value has an entry. -/
theorem exists_entry {l : ℕ} (h : l ≤ 0x7FFFFFFF) :
    ∃ (j : ℕ) (t : Tab), tab[j]? = some t ∧ t.lval ≤ l ∧ l ≤ t.lmask := by
  by_cases h0 : l ≤ 0x7F
  · exact ⟨0, _, rfl, Nat.zero_le _, h0⟩
  by_cases h1 : l ≤ 0x7FF
  · exact ⟨1, _, rfl, not_le.mp h0, h1⟩
  by_cases h2 : l ≤ 0xFFFF
  · exact ⟨2, _, rfl, not_le.mp h1, h2⟩
  by_cases h3 : l ≤ 0x1FFFFF
  · exact ⟨3, _, rfl, not_le.mp h2, h3⟩
  by_cases h4 : l ≤ 0x3FFFFFF
  · exact ⟨4, _, rfl, not_le.mp h3, h4⟩
  exact ⟨5, _, rfl, not_le.mp h4, h⟩

/-! ## Groups of six bits -/

/-- The value with the groups `ds` behind it -/
def shifted (l : ℕ) : List ℕ → ℕ
  | [] => l
  | d :: ds => shifted (l * 64 + d) ds

example : shifted 3 [1, 2] = 3 * 64 ^ 2 + 1 * 64 + 2 := by simp [shifted]

theorem shifted_append (l : ℕ) (ds : List ℕ) (d : ℕ) :
    shifted l (ds ++ [d]) = shifted l ds * 64 + d := by
  induction ds generalizing l with
  | nil => rfl
  | cons e ds ih => exact ih _

theorem shifted_eq (l : ℕ) (ds : List ℕ) :
    shifted l ds = l * 64 ^ ds.length + shifted 0 ds := by
  induction ds generalizing l with
  | nil => rw [shifted, shifted, List.length_nil, pow_zero, mul_one, add_zero]
  | cons d ds ih =>
    rw [shifted, shifted, ih, ih (0 * 64 + d), List.length_cons, pow_succ']
    ring

theorem shifted_zero_lt {ds : List ℕ} (h : ∀ d ∈ ds, d < 64) : shifted 0 ds < 64 ^ ds.length := by
  induction ds with
  | nil => exact Nat.one_pos
  | cons d ds ih =>
    rw [List.forall_mem_cons] at h
    have hd := Nat.mul_le_mul_right (64 ^ ds.length) (Nat.le_of_lt_succ h.1)
    have hds := ih h.2
    rw [shifted, Nat.zero_mul, Nat.zero_add, shifted_eq, List.length_cons, pow_succ']
    omega

theorem shifted_div {ds : List ℕ} (h : ∀ d ∈ ds, d < 64) (l : ℕ) :
    shifted l ds / 64 ^ ds.length = l := by
  have hlt := shifted_zero_lt h
  have hpos : 0 < 64 ^ ds.length := Nat.pow_pos (by decide)
  rw [shifted_eq, Nat.add_comm, Nat.add_mul_div_right _ _ hpos, Nat.div_eq_of_lt hlt, Nat.zero_add]

/-- Every value is made of groups. -/
theorem exists_shifted (j l : ℕ) :
    ∃ ds : List ℕ, ds.length = j ∧ (∀ d ∈ ds, d < 64) ∧ shifted (l / 64 ^ j) ds = l := by
  induction j generalizing l with
  | zero => exact ⟨[], rfl, by simp, by rw [shifted, pow_zero, Nat.div_one]⟩
  | succ j ih =>
    obtain ⟨ds, hlen, hlt, heq⟩ := ih (l / 64)
    refine ⟨ds ++ [l % 64], ?_, ?_, ?_⟩
    · rw [List.length_append, hlen]
      rfl
    · intro d hd
      rcases List.mem_append.mp hd with hd | hd
      · exact hlt d hd
      · rw [List.mem_singleton.mp hd]
        exact Nat.mod_lt _ (by decide)
    · rw [pow_succ', ← Nat.div_div_eq_div_mul, shifted_append, heq]
      exact Nat.div_add_mod' l 64

theorem wctombTail_add (l c : ℕ) :
    wctombTail l (c + 6) = tailByte ((l >>> c) &&& 0x3F) :: wctombTail l c := rfl

/-- The bytes behind the first one hold the groups. -/
theorem wctombTail_shifted {ds : List ℕ} (h : ∀ d ∈ ds, d < 64) (l : ℕ) :
    wctombTail (shifted l ds) (6 * ds.length) = ds.map tailByte := by
  induction ds generalizing l with
  | nil => rfl
  | cons d ds ih =>
    rw [List.forall_mem_cons] at h
    have hgroup : (shifted (l * 64 + d) ds >>> (6 * ds.length)) &&& 0x3F = d := by
      have hpow : 2 ^ (6 * ds.length) = 64 ^ ds.length := by
        rw [pow_mul]
        rfl
      have hmask : 0x3F = 2 ^ 6 - 1 := rfl
      rw [Nat.shiftRight_eq_div_pow, hpow, shifted_div h.2, hmask, Nat.and_two_pow_sub_one_eq_mod]
      omega
    have hsix : 6 * (d :: ds).length = 6 * ds.length + 6 := rfl
    rw [shifted, hsix, wctombTail_add, hgroup, ih h.2, List.map_cons]

/-! ## Decoding a sequence -/

set_option maxRecDepth 1000 in
theorem tail_iff : ∀ b : UCHAR, flipped b &&& 0xC0 = 0 ↔ flipped b < 64 ∧ b = tailByte (flipped b) := by
  decide

theorem flipped_tailByte : ∀ d : Fin 64,
    flipped (tailByte d.val) = d.val ∧ flipped (tailByte d.val) &&& 0xC0 = 0 := by
  decide

/-- The loop stops at the first entry that the lead byte is of, with all bytes of the sequence behind
it. -/
def Decodes (c0 : ℕ) (ts : List Tab) (l : ℕ) (s : List UCHAR) (wc : UNICODE) (j : ℕ) : Prop :=
  ∃ (t : Tab) (ds : List ℕ) (rest : List UCHAR), ts[j]? = some t ∧ c0 &&& t.cmask = t.cval ∧
    (∀ (i : ℕ) (u : Tab), i < j → ts[i]? = some u → c0 &&& u.cmask ≠ u.cval) ∧
    ds.length = j ∧ (∀ d ∈ ds, d < 64) ∧ s = ds.map tailByte ++ rest ∧
    t.lval ≤ shifted l ds &&& t.lmask ∧ wc = Fin.ofNat 65536 (shifted l ds &&& t.lmask)

theorem decodes_zero {c0 l : ℕ} {t : Tab} {ts : List Tab} {s : List UCHAR} {wc : UNICODE} :
    Decodes c0 (t :: ts) l s wc 0 ↔
      c0 &&& t.cmask = t.cval ∧ t.lval ≤ l &&& t.lmask ∧ wc = Fin.ofNat 65536 (l &&& t.lmask) := by
  constructor
  · rintro ⟨t', ds, rest, ht, hlead, -, hlen, -, -, hlval, hwc⟩
    obtain rfl : t = t' := Option.some.inj ht
    obtain rfl := List.length_eq_zero_iff.mp hlen
    exact ⟨hlead, hlval, hwc⟩
  · rintro ⟨hlead, hlval, hwc⟩
    refine ⟨t, [], s, rfl, hlead, ?_, rfl, by simp, rfl, hlval, hwc⟩
    intro i u hi
    exact absurd hi (Nat.not_lt_zero i)

theorem decodes_succ {c0 l j : ℕ} {t : Tab} {ts : List Tab} {s : List UCHAR} {wc : UNICODE} :
    Decodes c0 (t :: ts) l s wc (j + 1) ↔
      c0 &&& t.cmask ≠ t.cval ∧ ∃ d s', d < 64 ∧ s = tailByte d :: s' ∧
        Decodes c0 ts (l * 64 + d) s' wc j := by
  constructor
  · rintro ⟨t', ds, rest, ht, hlead, hbefore, hlen, hlt, rfl, hlval, hwc⟩
    cases ds with
    | nil => cases hlen
    | cons d ds =>
      rw [List.forall_mem_cons] at hlt
      refine ⟨hbefore 0 t (Nat.succ_pos j) rfl, d, ds.map tailByte ++ rest, hlt.1, rfl, t', ds, rest,
        ht, hlead, ?_, Nat.succ.inj hlen, hlt.2, rfl, hlval, hwc⟩
      intro i u hi hu
      exact hbefore (i + 1) u (Nat.succ_lt_succ hi) hu
  · rintro ⟨hne, d, s', hd, rfl, t', ds, rest, ht, hlead, hbefore, hlen, hlt, rfl, hlval, hwc⟩
    refine ⟨t', d :: ds, rest, ht, hlead, ?_, congrArg Nat.succ hlen,
      List.forall_mem_cons.mpr ⟨hd, hlt⟩, rfl, hlval, hwc⟩
    intro i u hi hu
    cases i with
    | zero =>
      obtain rfl : t = u := Option.some.inj hu
      exact hne
    | succ i => exact hbefore i u (Nat.lt_of_succ_lt_succ hi) hu

theorem bad_spec {D : UNICODE → ℕ → Prop} (k : ℕ) (h : ∀ wc j, ¬D wc j) :
    Mbtowc.bad ≠ .fault ∧ ∀ wc res, Mbtowc.bad = .char wc res ↔ ∃ j, res = k + j ∧ D wc j := by
  refine ⟨nofun, ?_⟩
  intro wc res
  refine iff_of_false nofun ?_
  rintro ⟨j, -, hD⟩
  exact h wc j hD

/-- No byte behind the end of the source is read. -/
theorem mbtowcLoop_spec {n c0 nc : ℕ} (ts : List Tab) (l : ℕ) (s : List UCHAR)
    (hn : n = nc + 1 + s.length) :
    mbtowcLoop n c0 ts nc l s ≠ .fault ∧ ∀ wc res,
      mbtowcLoop n c0 ts nc l s = .char wc res ↔
        ∃ j, res = nc + 1 + j ∧ Decodes c0 ts l s wc j := by
  induction ts generalizing nc l s with
  | nil =>
    unfold mbtowcLoop
    apply bad_spec
    rintro wc j ⟨t, -, -, ht, -⟩
    cases ht
  | cons t ts ih =>
    unfold mbtowcLoop
    by_cases hlead : c0 &&& t.cmask = t.cval
    · rw [if_pos hlead]
      have hzero : ∀ wc j, Decodes c0 (t :: ts) l s wc j → j = 0 := by
        intro wc j h
        cases j with
        | zero => rfl
        | succ j => exact absurd hlead (decodes_succ.mp h).1
      by_cases hlval : l &&& t.lmask < t.lval
      · rw [if_pos hlval]
        apply bad_spec
        intro wc j h
        obtain rfl := hzero wc j h
        exact absurd (decodes_zero.mp h).2.1 (not_le.mpr hlval)
      · rw [if_neg hlval]
        refine ⟨nofun, ?_⟩
        intro wc res
        constructor
        · intro h
          cases h
          exact ⟨0, rfl, decodes_zero.mpr ⟨hlead, not_lt.mp hlval, rfl⟩⟩
        · rintro ⟨j, rfl, h⟩
          obtain rfl := hzero wc j h
          rw [(decodes_zero.mp h).2.2]
    · rw [if_neg hlead]
      -- the lead byte is not of this entry: a byte of the sequence must follow
      have hsucc : ∀ wc j, Decodes c0 (t :: ts) l s wc j →
          ∃ i d s', j = i + 1 ∧ d < 64 ∧ s = tailByte d :: s' ∧
            Decodes c0 ts (l * 64 + d) s' wc i := by
        intro wc j h
        cases j with
        | zero => exact absurd (decodes_zero.mp h).1 hlead
        | succ j =>
          obtain ⟨-, d, s', hd, hs, h⟩ := decodes_succ.mp h
          exact ⟨j, d, s', rfl, hd, hs, h⟩
      cases s with
      | nil =>
        rw [if_pos (by rw [hn]; rfl)]
        apply bad_spec
        intro wc j h
        obtain ⟨i, d, s', -, -, hs, -⟩ := hsucc wc j h
        cases hs
      | cons b s =>
        rw [List.length_cons] at hn
        rw [if_neg (by omega)]
        dsimp only
        by_cases htail : flipped b &&& 0xC0 = 0
        · rw [if_neg (not_not.mpr htail)]
          obtain ⟨hlt, hb⟩ := (tail_iff b).mp htail
          have hor : (l <<< 6) ||| flipped b = l * 64 + flipped b := by
            rw [← Nat.shiftLeft_add_eq_or_of_lt hlt, Nat.shiftLeft_eq]
          obtain ⟨hfault, hchar⟩ := @ih (nc + 1) ((l <<< 6) ||| flipped b) s (by omega)
          refine ⟨hfault, ?_⟩
          intro wc res
          rw [hchar wc res, hor]
          constructor
          · rintro ⟨j, rfl, h⟩
            refine ⟨j + 1, by omega, decodes_succ.mpr ⟨hlead, _, s, hlt, ?_, h⟩⟩
            rw [← hb]
          · rintro ⟨j, rfl, h⟩
            obtain ⟨i, d, s', rfl, hd, hs, h'⟩ := hsucc wc j h
            rw [List.cons.injEq] at hs
            have hflip : flipped b = d := by
              rw [hs.1]
              exact (flipped_tailByte ⟨d, hd⟩).1
            refine ⟨i, by omega, ?_⟩
            rw [hflip, hs.2]
            exact h'
        · rw [if_pos htail]
          apply bad_spec
          intro wc j h
          obtain ⟨i, d, s', -, hd, hs, -⟩ := hsucc wc j h
          rw [List.cons.injEq] at hs
          rw [hs.1] at htail
          exact htail (flipped_tailByte ⟨d, hd⟩).2

/-! ## Sequences -/

/-- The sequence of a value, also of one that is no `UNICODE` -/
def sequence (l : ℕ) : List UCHAR := ((wctombLoop l 0 tab).map Prod.snd).getD []

/-- The greatest value with a sequence -/
def maxValue : ℕ := 0x7FFFFFFF

theorem wctombLoop_get {l j : ℕ} {t : Tab} (hle : l ≤ t.lmask) (ts : List Tab) (nc : ℕ)
    (ht : ts[j]? = some t)
    (hbefore : ∀ (i : ℕ) (u : Tab), i < j → ts[i]? = some u → u.lmask < l) :
    wctombLoop l nc ts =
      some (nc + j + 1, Fin.ofNat 256 (t.cval ||| (l >>> t.shift)) :: wctombTail l t.shift) := by
  induction ts generalizing j nc with
  | nil => cases ht
  | cons u ts ih =>
    rw [wctombLoop]
    cases j with
    | zero =>
      obtain rfl : u = t := Option.some.inj ht
      rw [if_pos hle, Nat.add_zero]
    | succ j =>
      have hu := hbefore 0 u (Nat.succ_pos j) rfl
      rw [if_neg (not_le.mpr hu), ih (nc + 1) ht, Nat.add_right_comm nc 1 j, Nat.add_assoc nc j 1]
      intro i v hi hv
      exact hbefore (i + 1) v (Nat.succ_lt_succ hi) hv

section

variable {j : ℕ} {t : Tab}

/-- The groups behind the bits of the first byte are the value. -/
theorem Entry.masked (h : Entry j t) {c : ℕ} {ds : List ℕ} (hc : t.cval ≤ c)
    (hc' : c < t.cval + t.room j) (hlen : ds.length = j) (hds : ∀ d ∈ ds, d < 64) :
    shifted c ds &&& t.lmask = shifted (c - t.cval) ds ∧ shifted (c - t.cval) ds ≤ t.lmask := by
  have hlow := shifted_zero_lt hds
  obtain ⟨k, hk⟩ := h.mask
  have hroom := h.room_mul
  rw [hlen] at hlow
  have hle : shifted (c - t.cval) ds ≤ t.lmask := by
    have hmul := Nat.mul_le_mul_right (64 ^ j) (show c - t.cval + 1 ≤ t.room j by omega)
    rw [shifted_eq, hlen]
    rw [Nat.add_mul, Nat.one_mul] at hmul
    omega
  refine ⟨?_, hle⟩
  obtain ⟨m, hm⟩ := Nat.dvd_of_mod_eq_zero h.top_bits
  have hsplit : shifted c ds = shifted (c - t.cval) ds + m * (t.lmask + 1) := by
    rw [shifted_eq, shifted_eq (c - t.cval), hlen, ← hroom]
    obtain ⟨v, rfl⟩ := Nat.exists_eq_add_of_le hc
    rw [Nat.add_sub_cancel_left, hm]
    ring
  have hpow : t.lmask + 1 = 2 ^ k := by
    have hpos : 0 < 2 ^ k := Nat.two_pow_pos k
    omega
  rw [hsplit, hk, Nat.and_two_pow_sub_one_eq_mod, ← hk, hpow, Nat.add_mul_mod_self_right,
    ← hpow, Nat.mod_eq_of_lt (Nat.lt_succ_of_le hle)]

/-- The sequence of a value: the first byte, and a byte for each group -/
theorem wctombLoop_shifted (ht : tab[j]? = some t) {c : ℕ} {ds : List ℕ} (hc : t.cval ≤ c)
    (hc' : c < t.cval + t.room j) (hlen : ds.length = j) (hds : ∀ d ∈ ds, d < 64)
    (hlval : t.lval ≤ shifted (c - t.cval) ds) :
    wctombLoop (shifted (c - t.cval) ds) 0 tab =
      some (j + 1, Fin.ofNat 256 c :: ds.map tailByte) := by
  have h := entry_of_get ht
  have hfits := h.fits
  have hle := (h.masked hc hc' hlen hds).2
  have hbefore : ∀ (i : ℕ) (u : Tab), i < j → tab[i]? = some u →
      u.lmask < shifted (c - t.cval) ds := by
    intro i u hi hu
    exact (h.before i u hi hu).1.trans_le hlval
  have hlead : t.cval ||| (shifted (c - t.cval) ds >>> t.shift) = c := by
    have hpow : 2 ^ (6 * ds.length) = 64 ^ ds.length := by
      rw [pow_mul]
      rfl
    have hor := h.lead_or ⟨c - t.cval, by omega⟩ (by dsimp only; omega)
    rw [h.shift_eq, ← hlen, Nat.shiftRight_eq_div_pow, hpow, shifted_div hds]
    dsimp only at hor
    omega
  rw [wctombLoop_get hle tab 0 ht hbefore, hlead, h.shift_eq, ← hlen, wctombTail_shifted hds,
    Nat.zero_add]

/-- Every value is that of the groups behind a first byte. -/
theorem Entry.exists_groups (h : Entry j t) {l : ℕ} (hle : l ≤ t.lmask) :
    ∃ c ds, t.cval ≤ c ∧ c < t.cval + t.room j ∧ ds.length = j ∧ (∀ d ∈ ds, d < 64) ∧
      shifted (c - t.cval) ds = l := by
  obtain ⟨ds, hlen, hds, heq⟩ := exists_shifted j l
  have hroom := h.room_mul
  have hlt : l / 64 ^ j < t.room j := by
    apply Nat.div_lt_of_lt_mul
    rw [Nat.mul_comm]
    omega
  refine ⟨t.cval + l / 64 ^ j, ds, Nat.le_add_right _ _, Nat.add_lt_add_left hlt _, hlen, hds, ?_⟩
  rw [Nat.add_sub_cancel_left, heq]

end

/-- The bytes of a sequence -/
theorem exists_sequence {l : ℕ} (hl : l ≤ maxValue) :
    ∃ (j : ℕ) (t : Tab) (c : UCHAR) (ds : List ℕ), tab[j]? = some t ∧ t.cval ≤ c.val ∧
      c.val < t.cval + t.room j ∧ ds.length = j ∧ (∀ d ∈ ds, d < 64) ∧ t.lval ≤ l ∧
      l = shifted (c.val - t.cval) ds ∧ wctombLoop l 0 tab = some (j + 1, c :: ds.map tailByte) := by
  obtain ⟨j, t, ht, hlval, hle⟩ := exists_entry hl
  have h := entry_of_get ht
  have hfits := h.fits
  obtain ⟨c, ds, hc, hc', hlen, hds, rfl⟩ := h.exists_groups hle
  refine ⟨j, t, Fin.ofNat 256 c, ds, ht, ?_⟩
  have hval : (Fin.ofNat 256 c).val = c := Nat.mod_eq_of_lt (by omega)
  rw [hval]
  exact ⟨hc, hc', hlen, hds, hlval, rfl, wctombLoop_shifted ht hc hc' hlen hds hlval⟩

theorem sequence_of_loop {l n : ℕ} {bytes : List UCHAR}
    (h : wctombLoop l 0 tab = some (n, bytes)) : sequence l = bytes := by
  rw [sequence, h]
  rfl

/-- What a decoded byte string begins with is the sequence of the value. -/
theorem fss_mbtowc_spec (s : List UCHAR) :
    fss_mbtowc s s.length ≠ .fault ∧ ∀ wc res,
      fss_mbtowc s s.length = .char wc res ↔
        ∃ l rest, l ≤ maxValue ∧ s = sequence l ++ rest ∧ wc = Fin.ofNat 65536 l ∧
          res = (sequence l).length := by
  cases s with
  | nil =>
    refine ⟨nofun, ?_⟩
    intro wc res
    refine iff_of_false nofun ?_
    rintro ⟨l, rest, hl, hs, -⟩
    obtain ⟨j, t, c, ds, -, -, -, -, -, -, -, hloop⟩ := exists_sequence hl
    rw [sequence_of_loop hloop] at hs
    cases hs
  | cons b s =>
    have hstart : fss_mbtowc (b :: s) (b :: s).length =
        mbtowcLoop (s.length + 1) b.val tab 0 b.val s := if_neg (Nat.not_succ_le_zero _)
    obtain ⟨hfault, hchar⟩ := @mbtowcLoop_spec (s.length + 1) b.val 0 tab b.val s (by omega)
    rw [hstart]
    refine ⟨hfault, ?_⟩
    intro wc res
    rw [hchar wc res]
    constructor
    · rintro ⟨j, rfl, t, ds, rest, ht, hlead, -, hlen, hds, rfl, hlval, rfl⟩
      have h := entry_of_get ht
      obtain ⟨hc, hc'⟩ := (h.lead b).mp hlead
      obtain ⟨hmask, hle⟩ := h.masked hc hc' hlen hds
      rw [hmask] at hlval ⊢
      have hloop := wctombLoop_shifted ht hc hc' hlen hds hlval
      rw [Fin.ofNat_val_eq_self] at hloop
      refine ⟨_, rest, hle.trans h.lmask_le, ?_, rfl, ?_⟩
      · rw [sequence_of_loop hloop]
        rfl
      · rw [sequence_of_loop hloop, List.length_cons, List.length_map, hlen]
        omega
    · rintro ⟨l, rest, hl, hs, rfl, rfl⟩
      obtain ⟨j, t, c, ds, ht, hc, hc', hlen, hds, hlval, hval, hloop⟩ := exists_sequence hl
      rw [sequence_of_loop hloop, List.cons_append, List.cons.injEq] at hs
      obtain ⟨rfl, rfl⟩ := hs
      have h := entry_of_get ht
      have hlead := (h.lead b).mpr ⟨hc, hc'⟩
      have hmask := (h.masked hc hc' hlen hds).1
      rw [← hval] at hmask
      refine ⟨j, ?_, t, ds, rest, ht, hlead, ?_, hlen, hds, rfl, ?_, ?_⟩
      · rw [sequence_of_loop hloop, List.length_cons, List.length_map, hlen]
        omega
      · intro i u hi hu
        exact (h.before i u hi hu).2 b hlead
      · rwa [hmask]
      · rw [hmask]

/-- The sequence of a character is what is written for it. -/
theorem fss_wctomb_eq (wc : UNICODE) :
    fss_wctomb wc = some ((sequence wc.val).length, sequence wc.val) := by
  have hl : wc.val ≤ maxValue := wc.isLt.le.trans (by decide)
  obtain ⟨j, t, c, ds, -, -, -, hlen, -, -, -, hloop⟩ := exists_sequence hl
  rw [fss_wctomb, sequence_of_loop hloop, hloop, List.length_cons, List.length_map, hlen]

theorem sequence_pos {l : ℕ} (hl : l ≤ maxValue) : 0 < (sequence l).length := by
  obtain ⟨j, t, c, ds, -, -, -, -, -, -, -, hloop⟩ := exists_sequence hl
  rw [sequence_of_loop hloop]
  exact Nat.succ_pos _

/-- A greater value does not have a shorter sequence. -/
theorem length_sequence_le_iff {l : ℕ} (hl : l ≤ maxValue) :
    (sequence l).length ≤ 3 ↔ l < 65536 := by
  obtain ⟨j, t, c, ds, ht, hc, hc', hlen, hds, hlval, hval, hloop⟩ := exists_sequence hl
  have h := entry_of_get ht
  have hle := (h.masked hc hc' hlen hds).2
  rw [← hval] at hle
  rw [sequence_of_loop hloop, List.length_cons, List.length_map, hlen]
  obtain ⟨hj, rfl⟩ := List.getElem?_eq_some_iff.mp ht
  have hbounds : ∀ j : Fin 6, (j.val + 1 ≤ 3 → (tab.get j).lmask < 65536) ∧
      (¬j.val + 1 ≤ 3 → 65536 ≤ (tab.get j).lval) := by
    decide
  obtain ⟨hshort, hlong⟩ := hbounds ⟨j, hj⟩
  constructor
  · intro h3
    exact hle.trans_lt (hshort h3)
  · intro hlt
    by_contra h3
    exact absurd ((hlong h3).trans hlval) (not_le.mpr hlt)

/-! ## Strings of sequences -/

/-- The sequences of the values in a row -/
def sequences (ls : List ℕ) : List UCHAR := ls.flatMap sequence

/-- The characters that are stored for the values -/
def stored (ls : List ℕ) : List UNICODE := ls.map (Fin.ofNat 65536)

theorem toUnicodeLoop_append {ls : List ℕ} (hls : ∀ l ∈ ls, l ≤ maxValue) (n : ℕ)
    (rest : List UCHAR) :
    toUnicodeLoop (n + 2 * ls.length) (sequences ls ++ rest) =
      (toUnicodeLoop n rest).map fun r => (stored ls ++ r.1, r.2) := by
  induction ls with
  | nil =>
    change toUnicodeLoop n rest = _
    cases toUnicodeLoop n rest <;> rfl
  | cons l ls ih =>
    rw [List.forall_mem_cons] at hls
    have hpos := sequence_pos hls.1
    obtain ⟨b, src, hsrc⟩ := List.exists_cons_of_ne_nil (List.ne_nil_of_length_pos hpos)
    have hchar := ((fss_mbtowc_spec (sequence l ++ (sequences ls ++ rest))).2 _ _).mpr
      ⟨l, sequences ls ++ rest, hls.1, rfl, rfl, rfl⟩
    have hdrop : (sequence l ++ (sequences ls ++ rest)).drop (sequence l).length =
        sequences ls ++ rest := List.drop_left
    have hlen : n + 2 * (l :: ls).length = n + 2 * ls.length + 2 := by
      rw [List.length_cons]
      omega
    have hbytes : sequences (l :: ls) ++ rest = sequence l ++ (sequences ls ++ rest) := by
      rw [sequences, List.flatMap_cons, List.append_assoc]
      rfl
    rw [hlen, hbytes]
    rw [hsrc, List.cons_append] at hchar hdrop ⊢
    rw [toUnicodeLoop]
    rw [List.length_cons] at hchar
    rw [hchar]
    dsimp only
    rw [hdrop, ih hls.2, Option.map_map]
    rfl

/-- The loop decodes the sequences that the source begins with, as many as the destination has room
for. -/
theorem toUnicodeLoop_spec (dest_len : ℕ) (src : List UCHAR) :
    ∃ (ls : List ℕ) (err_code : ℕ) (rest : List UCHAR), (∀ l ∈ ls, l ≤ maxValue) ∧
      src = sequences ls ++ rest ∧ 2 * ls.length ≤ dest_len ∧
      toUnicodeLoop dest_len src = some (stored ls, err_code, rest) := by
  induction hn : src.length using Nat.strong_induction_on generalizing dest_len src with
  | _ n ih =>
    subst hn
    match dest_len, src with
    | 0, src => exact ⟨[], 0, src, by simp, rfl, Nat.zero_le _, by simp [toUnicodeLoop, stored]⟩
    | 1, src => exact ⟨[], 0, src, by simp, rfl, Nat.zero_le _, by simp [toUnicodeLoop, stored]⟩
    | dest_len + 2, [] =>
      exact ⟨[], 0, [], by simp, rfl, Nat.zero_le _, by simp [toUnicodeLoop, stored]⟩
    | dest_len + 2, b :: src =>
      obtain ⟨hfault, hchar⟩ := fss_mbtowc_spec (b :: src)
      rw [List.length_cons] at hfault hchar
      rw [toUnicodeLoop]
      cases hres : fss_mbtowc (b :: src) (src.length + 1) with
      | fault => exact absurd hres hfault
      | bad => exact ⟨[], CS_BAD_INPUT, b :: src, by simp, rfl, Nat.zero_le _, rfl⟩
      | char wc res =>
        obtain ⟨l, rest, hl, hsrc, rfl, rfl⟩ := (hchar wc res).mp hres
        have hpos := sequence_pos hl
        have hdrop : (b :: src).drop (sequence l).length = rest := by
          rw [hsrc]
          exact List.drop_left
        have hlt : rest.length < (b :: src).length := by
          rw [hsrc, List.length_append]
          omega
        obtain ⟨ls, err_code, rest', hls, rfl, hlen, hloop⟩ := ih _ hlt dest_len rest rfl
        refine ⟨l :: ls, err_code, rest', List.forall_mem_cons.mpr ⟨hl, hls⟩, ?_, ?_, ?_⟩
        · rw [hsrc, sequences, sequences, List.flatMap_cons, List.append_assoc]
        · rw [List.length_cons]
          omega
        · dsimp only
          rw [hdrop, hloop]
          rfl

/-- The loop writes the sequences of the characters, as many as the destination has room for. -/
theorem toFssLoop_spec (fss_len : ℕ) (u : List UNICODE) :
    ∃ (done rest : List UNICODE) (err_code : ℕ), u = done ++ rest ∧
      toFssLoop (2 * u.length) fss_len u =
        some (sequences (done.map Fin.val), err_code, 2 * rest.length) ∧
      (sequences (done.map Fin.val)).length ≤ fss_len ∧
      ((sequences (u.map Fin.val)).length ≤ fss_len → rest = []) ∧ (rest = [] → err_code = 0) := by
  induction u generalizing fss_len with
  | nil =>
    exact ⟨[], [], 0, rfl, by simp [toFssLoop, sequences], Nat.zero_le _, fun _ => rfl, fun _ => rfl⟩
  | cons wc u ih =>
    have hpos := sequence_pos (wc.isLt.le.trans (by decide) : wc.val ≤ maxValue)
    have hlen : (sequences ((wc :: u).map Fin.val)).length =
        (sequence wc.val).length + (sequences (u.map Fin.val)).length := by
      rw [List.map_cons, sequences, List.flatMap_cons, List.length_append]
      rfl
    have htwo : 2 * (wc :: u).length = 2 * u.length + 2 := rfl
    rw [htwo, toFssLoop, fss_wctomb_eq, hlen]
    by_cases hzero : fss_len = 0
    · rw [if_pos hzero]
      exact ⟨[], wc :: u, 0, rfl, rfl, Nat.zero_le _, fun h => by omega, fun h => nomatch h⟩
    rw [if_neg hzero]
    dsimp only
    by_cases hroom : (sequence wc.val).length > fss_len
    · rw [if_pos hroom]
      exact ⟨[], wc :: u, CS_TRUNCATION_ERROR, rfl, rfl, Nat.zero_le _, fun h => by omega,
        fun h => nomatch h⟩
    rw [if_neg hroom, List.take_length]
    obtain ⟨done, rest, err_code, rfl, hloop, hfits, hall, herr⟩ :=
      ih (fss_len - (sequence wc.val).length)
    refine ⟨wc :: done, rest, err_code, rfl, ?_, ?_, ?_, herr⟩
    · rw [hloop]
      rfl
    · rw [List.map_cons, sequences, List.flatMap_cons, List.length_append]
      rw [sequences] at hfits
      omega
    · intro h
      exact hall (by omega)

/-! ## The conversions -/

/-- The source begins with sequences that fit in the destination, and one of them stands for a value
that is no `UNICODE`. -/
def Wide (dest_len : ℕ) (src : List UCHAR) : Prop :=
  ∃ (ls : List ℕ) (l : ℕ) (rest : List UCHAR), (∀ i ∈ ls, i ≤ maxValue) ∧ 65536 ≤ l ∧
    l ≤ maxValue ∧ src = sequences ls ++ sequence l ++ rest ∧ 2 * (ls.length + 1) ≤ dest_len

/-- What is written can be converted back: the sequences of the characters that are consumed -/
theorem unicode_to_fss_exact (fss_len : ℕ) (u : List UNICODE) :
    ∃ (done rest : List UNICODE) (r : Converted UCHAR), u = done ++ rest ∧
      CS_UTFFSS_unicode_to_fss fss_len u (2 * u.length) = some r ∧
      r.dest = sequences (done.map Fin.val) ∧ r.dest.length ≤ fss_len ∧
      r.err_position = 2 * done.length ∧ (r.err_code = 0 ↔ rest = []) ∧
      ((sequences (u.map Fin.val)).length ≤ fss_len → rest = []) := by
  obtain ⟨done, rest, err_code, rfl, hloop, hfits, hall, herr⟩ := toFssLoop_spec fss_len u
  refine ⟨done, rest, _, rfl, by rw [CS_UTFFSS_unicode_to_fss, hloop]; rfl, rfl, hfits, ?_, ?_, hall⟩
  · dsimp only
    rw [List.length_append]
    omega
  · dsimp only
    constructor
    · intro h
      by_contra hrest
      have hpos := List.length_pos_of_ne_nil hrest
      by_cases hzero : err_code = 0
      · rw [if_pos ⟨by omega, hzero⟩] at h
        cases h
      · rw [if_neg (fun h' => hzero h'.2)] at h
        exact hzero h
    · intro hrest
      rw [if_neg, herr hrest]
      rintro ⟨hne, -⟩
      rw [hrest] at hne
      exact hne rfl

theorem fss_to_unicode_sequences {ls : List ℕ} (hls : ∀ l ∈ ls, l ≤ maxValue) {dest_len : ℕ}
    (h : 2 * ls.length ≤ dest_len) :
    CS_UTFFSS_fss_to_unicode dest_len (sequences ls) =
      some ⟨stored ls, 0, (sequences ls).length⟩ := by
  obtain ⟨n, rfl⟩ := Nat.exists_eq_add_of_le' h
  have hloop := toUnicodeLoop_append hls n []
  have hend : toUnicodeLoop n [] = some ([], 0, []) := by
    match n with
    | 0 => rfl
    | 1 => rfl
    | n + 2 => rfl
  rw [List.append_nil, hend] at hloop
  rw [CS_UTFFSS_fss_to_unicode, hloop]
  simp

theorem stored_val (u : List UNICODE) : stored (u.map Fin.val) = u := by
  rw [stored, List.map_map]
  conv_rhs => rw [← List.map_id u]
  apply List.map_congr_left
  intro c _
  exact Fin.ofNat_val_eq_self c

/-- The characters of values that are not wide have the sequences of the values. -/
theorem sequences_stored {ls : List ℕ} (h : ∀ l ∈ ls, l < 65536) :
    (stored ls).map Fin.val = ls := by
  rw [stored, List.map_map]
  conv_rhs => rw [← List.map_id ls]
  apply List.map_congr_left
  intro l hl
  exact Nat.mod_eq_of_lt (h l hl)

theorem length_sequences_stored {ls : List ℕ} (hls : ∀ l ∈ ls, l ≤ maxValue) :
    (sequences ((stored ls).map Fin.val)).length ≤ (sequences ls).length ∧
      ((∃ l ∈ ls, 65536 ≤ l) →
        (sequences ((stored ls).map Fin.val)).length < (sequences ls).length) := by
  induction ls with
  | nil => exact ⟨Nat.le_refl _, fun h => by simp at h⟩
  | cons l ls ih =>
    rw [List.forall_mem_cons] at hls
    obtain ⟨hle, hlt⟩ := ih hls.2
    have hcons : (sequences ((stored (l :: ls)).map Fin.val)).length =
        (sequence (l % 65536)).length + (sequences ((stored ls).map Fin.val)).length := by
      simp only [stored, List.map_cons, sequences, List.flatMap_cons, List.length_append]
      rfl
    have hcons' : (sequences (l :: ls)).length =
        (sequence l).length + (sequences ls).length := by
      rw [sequences, List.flatMap_cons, List.length_append]
      rfl
    have hmod : l % 65536 < 65536 := Nat.mod_lt _ (by decide)
    have hshort := (length_sequence_le_iff (hmod.le.trans (by decide))).mpr hmod
    have hlong := length_sequence_le_iff hls.1
    rw [hcons, hcons']
    by_cases hl : l < 65536
    · rw [Nat.mod_eq_of_lt hl]
      refine ⟨by omega, ?_⟩
      rintro ⟨i, hi, hwide⟩
      rcases List.mem_cons.mp hi with rfl | hi
      · omega
      · have hlt' := hlt ⟨i, hi, hwide⟩
        omega
    · have h3 : ¬(sequence l).length ≤ 3 := fun h => hl (hlong.mp h)
      exact ⟨by omega, fun _ => by omega⟩

theorem sequences_append (ls ls' : List ℕ) :
    sequences (ls ++ ls') = sequences ls ++ sequences ls' := List.flatMap_append

/-- The source is decoded from its start, and wide values are among the decoded ones. -/
theorem toUnicodeLoop_wide (dest_len : ℕ) (src : List UCHAR) :
    ∃ (ls : List ℕ) (err_code : ℕ) (rest : List UCHAR), (∀ l ∈ ls, l ≤ maxValue) ∧
      src = sequences ls ++ rest ∧ 2 * ls.length ≤ dest_len ∧
      toUnicodeLoop dest_len src = some (stored ls, err_code, rest) ∧
      (Wide dest_len src ↔ ∃ l ∈ ls, 65536 ≤ l) := by
  by_cases hwide : Wide dest_len src
  · obtain ⟨ls, l, rest, hls, hl, hmax, rfl, hlen⟩ := hwide
    have hall : ∀ i ∈ ls ++ [l], i ≤ maxValue := by
      intro i hi
      rcases List.mem_append.mp hi with hi | hi
      · exact hls i hi
      · rw [List.mem_singleton.mp hi]
        exact hmax
    have hlen' : 2 * (ls ++ [l]).length ≤ dest_len := by
      rw [List.length_append]
      exact hlen
    obtain ⟨n, rfl⟩ := Nat.exists_eq_add_of_le' hlen'
    have hbytes : sequences ls ++ sequence l ++ rest = sequences (ls ++ [l]) ++ rest := by
      rw [sequences_append]
      simp [sequences]
    obtain ⟨ls', err_code, rest', hls', rfl, hn, hloop⟩ := toUnicodeLoop_spec n rest
    have happ := toUnicodeLoop_append hall n (sequences ls' ++ rest')
    rw [hloop] at happ
    refine ⟨ls ++ [l] ++ ls', err_code, rest', ?_, ?_, ?_, ?_, ?_⟩
    · intro i hi
      rcases List.mem_append.mp hi with hi | hi
      · exact hall i hi
      · exact hls' i hi
    · rw [hbytes, sequences_append (ls ++ [l]), List.append_assoc]
    · rw [List.length_append]
      omega
    · rw [hbytes, happ]
      simp [stored]
    · refine iff_of_true ⟨ls, l, _, hls, hl, hmax, rfl, hlen⟩ ⟨l, ?_, hl⟩
      simp
  · obtain ⟨ls, err_code, rest, hls, rfl, hlen, hloop⟩ := toUnicodeLoop_spec dest_len src
    refine ⟨ls, err_code, rest, hls, rfl, hlen, hloop, iff_of_false hwide ?_⟩
    rintro ⟨l, hl, h⟩
    obtain ⟨s, t, rfl⟩ := List.append_of_mem hl
    apply hwide
    refine ⟨s, l, sequences t ++ rest, ?_, h, hls l hl, ?_, ?_⟩
    · intro i hi
      exact hls i (List.mem_append_left _ hi)
    · rw [sequences_append, sequences, sequences, sequences, List.flatMap_cons]
      simp
    · rw [List.length_append, List.length_cons] at hlen
      omega

/-- Nothing is read behind the end of the source or written behind the end of the destination. What
is converted can be converted back, unless a sequence stands for a value that is no `UNICODE`. -/
theorem fss_conversion_iff (fss_len dest_len : ℕ) (u : List UNICODE) (src : List UCHAR) :
    (∃ (done rest : List UNICODE) (r : Converted UCHAR),
      u = done ++ rest ∧ CS_UTFFSS_unicode_to_fss fss_len u (2 * u.length) = some r ∧
      r.dest = sequences (done.map Fin.val) ∧ r.dest.length ≤ fss_len ∧
      r.err_position = 2 * done.length ∧ (r.err_code = 0 ↔ rest = []) ∧
      ∀ dest_len, 2 * done.length ≤ dest_len →
        CS_UTFFSS_fss_to_unicode dest_len r.dest = some ⟨done, 0, r.dest.length⟩) ∧
    ∃ r : Converted UNICODE,
      CS_UTFFSS_fss_to_unicode dest_len src = some r ∧ 2 * r.dest.length ≤ dest_len ∧
      r.err_position ≤ src.length ∧ (r.err_code = 0 → r.err_position = src.length) ∧
      ((∀ fss_len, r.err_position ≤ fss_len →
          CS_UTFFSS_unicode_to_fss fss_len r.dest (2 * r.dest.length) =
            some ⟨src.take r.err_position, 0, 2 * r.dest.length⟩) ↔
        ¬Wide dest_len src) := by
  constructor
  · obtain ⟨done, rest, r, hu, hr, hdest, hfits, hpos, herr, -⟩ := unicode_to_fss_exact fss_len u
    refine ⟨done, rest, r, hu, hr, hdest, hfits, hpos, herr, ?_⟩
    intro dest_len hlen
    have hmax : ∀ l ∈ done.map Fin.val, l ≤ maxValue := by
      intro l hl
      obtain ⟨c, -, rfl⟩ := List.mem_map.mp hl
      exact c.isLt.le.trans (by decide)
    rw [hdest, fss_to_unicode_sequences hmax (by rwa [List.length_map]), stored_val]
  · obtain ⟨ls, err_code, rest, hls, rfl, hlen, hloop, hwide⟩ := toUnicodeLoop_wide dest_len src
    have hpos : (sequences ls ++ rest).length - rest.length = (sequences ls).length := by
      rw [List.length_append, Nat.add_sub_cancel]
    refine ⟨_, by rw [CS_UTFFSS_fss_to_unicode, hloop]; rfl, ?_⟩
    dsimp only
    rw [hpos, hwide, List.take_left]
    refine ⟨?_, ?_, ?_, ?_⟩
    · rwa [stored, List.length_map]
    · rw [List.length_append]
      exact Nat.le_add_right _ _
    · intro h
      rw [List.length_append]
      by_contra hne
      have hrest : rest.length ≠ 0 := by omega
      by_cases hzero : err_code = 0
      · rw [if_pos ⟨hrest, hzero⟩] at h
        cases h
      · rw [if_neg fun h' => hzero h'.2] at h
        exact hzero h
    · obtain ⟨hle, hlt⟩ := length_sequences_stored hls
      constructor
      · intro h hex
        obtain ⟨done, rest', r, hu, hr, hdest, -⟩ :=
          unicode_to_fss_exact (sequences ls).length (stored ls)
        rw [h _ (Nat.le_refl _)] at hr
        obtain rfl := Option.some.inj hr
        -- what is written back is shorter
        have hshort : (sequences (done.map Fin.val)).length ≤
            (sequences ((stored ls).map Fin.val)).length := by
          rw [hu, List.map_append, sequences_append, List.length_append]
          exact Nat.le_add_right _ _
        have hlong := congrArg List.length hdest
        have hlt := hlt hex
        dsimp only at hlong
        omega
      · intro hnot fss_len hfits
        have hsmall : ∀ l ∈ ls, l < 65536 := by
          intro l hl
          by_contra hge
          exact hnot ⟨l, hl, not_lt.mp hge⟩
        obtain ⟨done, rest', r, hu, hr, hdest, -, hpos', herr, hall⟩ :=
          unicode_to_fss_exact fss_len (stored ls)
        rw [sequences_stored hsmall] at hall
        obtain rfl := hall hfits
        rw [List.append_nil] at hu
        rw [← hu, sequences_stored hsmall] at hdest
        rw [← hu] at hpos'
        rw [hr, ← hdest, ← hpos', ← herr.mpr rfl]

/-- The sequence of the value 65536 is converted to the null character. -/
theorem fss_conversion_wide :
    CS_UTFFSS_fss_to_unicode 2 [0xF0, 0x90, 0x80, 0x80] = some ⟨[0], 0, 4⟩ ∧
      CS_UTFFSS_unicode_to_fss 4 [0] 2 = some ⟨[0], 0, 2⟩ := by
  decide

end Firebird.Intl
