import Firebird.Cvt.Integer
import Firebird.Cvt.Rescale

/-! # Integers as text (`integer_to_text` in `jrd/cvt.cpp`)

The digits are written to a work buffer from the last one on, and leading zeros behind them. They
are then taken off its end and copied to the target.
-/

namespace Firebird.Cvt

open Wrap

/-- What ends `integer_to_text` without a text -/
inductive TextStop where
  | halt (h : Halt)
  /-- `conversion_error` -/
  | conversion
  /-- An access outside the work buffer or the target -/
  | outside
deriving DecidableEq

inductive TextType where
  | text
  | cstring
  | varying
deriving DecidableEq

/-- A descriptor of a string. Its character set is the one that numbers are read in. -/
structure Target where
  dtype : TextType
  /-- A `USHORT` -/
  dsc_length : ℕ
  fits : dsc_length ≤ 65535

/-- The bytes of the target that hold characters -/
def Target.size (dest : Target) : ℕ :=
  match dest.dtype with
  | .varying => dest.dsc_length - 2
  | _ => dest.dsc_length

/-- The target after the conversion -/
structure Area where
  vary_length : ℕ
  bytes : List Char
deriving DecidableEq

/-! ## The work buffer -/

/-- `*p++ = c`. The head of the list is the last character of `temp`. -/
def push (temp : List Char) (c : Char) : Except TextStop (List Char) :=
  if temp.length < 32 then .ok (c :: temp) else .error .outside

/-- The loop over the digits -/
def putDigits (u : ℕ) (temp : List Char) : Except TextStop (List Char) :=
  (push temp (digitChar u)).bind fun temp =>
    if u / 10 = 0 then .ok temp else putDigits (u / 10) temp
termination_by u
decreasing_by omega

/-- If scale < 0, we need at least abs(scale)+1 digits, so add any leading zeroes required. -/
def leadZeros (scale : ℤ) (l : ℕ) (temp : List Char) : Except TextStop (ℕ × List Char) :=
  if l + scale ≤ 0 then (push temp '0').bind (leadZeros scale (l + 1)) else .ok (l, temp)
termination_by (1 - (l + scale)).toNat
decreasing_by omega

/-! ## The target -/

/-- `*q++ = c`. The list holds what has been written. -/
def Target.put (dest : Target) (out : List Char) (c : Char) : Except TextStop (List Char) :=
  if out.length < dest.size then .ok (out ++ [c]) else .error .outside

/-- `*q++ = *--p`, `l` times -/
def Target.copy (dest : Target) : ℕ → List Char × List Char → Except TextStop (List Char × List Char)
  | 0, (temp, out) => .ok (temp, out)
  | _ + 1, ([], _) => .error .outside
  | l + 1, (c :: temp, out) => (dest.put out c).bind fun out => dest.copy l (temp, out)

/-- `*q++ = c`, `l` times -/
def Target.fill (dest : Target) (c : Char) : ℕ → List Char → Except TextStop (List Char)
  | 0, out => .ok out
  | l + 1, out => (dest.put out c).bind (dest.fill c l)

/-- The test that the field formatted does not fit. The length of a varying string is compared as
an `SSHORT`. -/
def Target.TooShort (dest : Target) (length : ℤ) : Prop :=
  match dest.dtype with
  | .text => length > dest.dsc_length
  | .cstring => length ≥ dest.dsc_length
  | .varying => length > toInt16 (dest.dsc_length - 2)

instance (dest : Target) (length : ℤ) : Decidable (dest.TooShort length) :=
  match dest with
  | ⟨.text, dsc_length, _⟩ => inferInstanceAs (Decidable (length > dsc_length))
  | ⟨.cstring, dsc_length, _⟩ => inferInstanceAs (Decidable (length ≥ dsc_length))
  | ⟨.varying, dsc_length, _⟩ => inferInstanceAs (Decidable (length > toInt16 (dsc_length - 2)))

/-- The sign, the digits with the point, and the zeros of a positive scale -/
def Target.format (dest : Target) (scale neg pad : ℤ) (l : ℕ) (temp : List Char) :
    Except TextStop (List Char) :=
  (if neg = 1 then dest.put [] '-' else .ok []).bind fun out =>
    (if scale ≥ 0 then dest.copy l (temp, out)
      else
        (dest.copy (l + scale).toNat (temp, out)).bind fun (temp, out) =>
          (dest.put out '.').bind fun out => dest.copy (-scale).toNat (temp, out)).bind
      fun (_, out) => dest.fill '0' pad.toNat out

/-- Finish up by padding (if fixed) or computing the actual length. `mem` is what the target holds
before. -/
def Target.finish (dest : Target) (mem : List Char) (length : ℤ) (out : List Char) :
    Except TextStop Area :=
  match dest.dtype with
  | .text =>
    -- the number of blanks is an `SSHORT`
    (dest.fill ' ' (toInt16 (dest.dsc_length - length)).toNat out).bind fun out =>
      .ok ⟨0, out ++ mem.drop out.length⟩
  | .cstring => (dest.put out '\x00').bind fun out => .ok ⟨0, out ++ mem.drop out.length⟩
  | .varying => .ok ⟨out.length % 65536, out ++ mem.drop out.length⟩

def integer_to_text (desc : ExactDsc) (dest : Target) (mem : List Char) : Except TextStop Area :=
  let scale := desc.scale
  let pad := if scale > 0 then scale else 0
  let decimal := if scale < 0 then 1 else 0
  -- `CVT_move` to an `int64` of the same scale
  ((desc.CVT_get_int64 scale).mapError .halt).bind fun n =>
    let neg := if n ≥ 0 then 0 else 1
    let u := if n ≥ 0 then n.toNat else (toInt64 (-n) % 2 ^ 64).toNat
    (putDigits u []).bind fun temp =>
      (leadZeros scale temp.length temp).bind fun (l, temp) =>
        let length := l + neg + decimal + pad
        if dest.TooShort length then .error .conversion
        else (dest.format scale neg pad l temp).bind (dest.finish mem length)

/-- `CVT_make_string` of a string in the character set that it asks for -/
def Target.CVT_make_string (dest : Target) (a : Area) : List Char :=
  match dest.dtype with
  | .text => a.bytes.take dest.dsc_length
  | .cstring =>
    a.bytes.take (min ((a.bytes.takeWhile (· ≠ '\x00')).length % 65536) (dest.dsc_length - 1))
  | .varying => a.bytes.take (min a.vary_length (dest.dsc_length - 2))

/-! ## The text -/

/-- The digits, with zeros in front of them where there are not more than the scale asks for -/
def padded (u s : ℕ) : List Char :=
  List.replicate (s + 1 - (decimal u).length) '0' ++ decimal u

/-- A number of a scale that is not positive -/
def formatted (n : ℤ) (s : ℕ) : List Char :=
  let ds := padded n.natAbs s
  (if n < 0 then ['-'] else []) ++
    if s = 0 then ds else ds.take (ds.length - s) ++ '.' :: ds.drop (ds.length - s)

def ExactDsc.text (desc : ExactDsc) : List Char := formatted desc.value (-desc.scale).toNat

/-- The characters that the target has room for -/
def Target.room (dest : Target) : ℕ :=
  match dest.dtype with
  | .text => dest.dsc_length
  | .cstring => dest.dsc_length - 1
  | .varying => dest.dsc_length - 2

/-- An error is raised where the target has no room for the text. Else nothing is written outside
the work buffer and the target, and the number is read back from the text. -/
def RoundTrip (desc : ExactDsc) (dest : Target) (mem : List Char) : Prop :=
  match integer_to_text desc dest mem with
  | .ok a => CVT_get_int64 (dest.CVT_make_string a) desc.scale = .ok desc.value
  | .error .conversion => dest.room < desc.text.length
  | .error _ => False

section Run

variable {desc : ExactDsc} {dest : Target} {mem : List Char}

theorem roundTrip_of_ok {a : Area} (h : integer_to_text desc dest mem = .ok a) :
    RoundTrip desc dest mem ↔
      CVT_get_int64 (dest.CVT_make_string a) desc.scale = .ok desc.value := by
  delta RoundTrip
  rw [h]

theorem roundTrip_of_conversion (h : integer_to_text desc dest mem = .error .conversion) :
    RoundTrip desc dest mem ↔ dest.room < desc.text.length := by
  delta RoundTrip
  rw [h]

theorem not_roundTrip_of_outside (h : integer_to_text desc dest mem = .error .outside) :
    ¬RoundTrip desc dest mem := by
  delta RoundTrip
  rw [h]
  exact not_false

end Run

/-! ## The buffers -/

theorem push_eq {temp : List Char} (h : temp.length < 32) (c : Char) :
    push temp c = .ok (c :: temp) := if_pos h

/-- The digits are left on the buffer in the order in which they are read. -/
theorem putDigits_eq (u : ℕ) {temp : List Char} (h : (decimal u).length + temp.length ≤ 32) :
    putDigits u temp = .ok (decimal u ++ temp) := by
  induction u using decimal.induct generalizing temp with
  | case1 u hu =>
    rw [decimal, if_pos hu, List.length_singleton] at h
    rw [putDigits, push_eq (by omega), Outcome.ok_bind, if_pos hu, decimal, if_pos hu]
    rfl
  | case2 u hu ih =>
    rw [decimal, if_neg hu, List.length_append, List.length_singleton] at h
    rw [putDigits, push_eq (by omega), Outcome.ok_bind, if_neg hu,
      ih (by rw [List.length_cons]; omega)]
    conv_rhs => rw [decimal, if_neg hu, List.append_assoc]
    rfl

/-- The number of zeros that are put in front of `l` digits -/
def zeros (scale : ℤ) (l : ℕ) : ℕ := (1 - (l + scale)).toNat

theorem leadZeros_eq (scale : ℤ) (temp : List Char) (htemp : temp.length ≤ 32) :
    leadZeros scale temp.length temp =
      if temp.length + zeros scale temp.length ≤ 32 then
        .ok (temp.length + zeros scale temp.length,
          List.replicate (zeros scale temp.length) '0' ++ temp)
      else .error .outside := by
  generalize hk : zeros scale temp.length = k
  unfold zeros at hk
  induction k generalizing temp with
  | zero =>
    rw [leadZeros, if_neg (by omega), if_pos (by omega)]
    rfl
  | succ k ih =>
    rw [leadZeros, if_pos (by omega)]
    by_cases hroom : temp.length < 32
    · have hstep := ih ('0' :: temp) hroom (by rw [List.length_cons]; push_cast; omega)
      rw [List.length_cons] at hstep
      rw [push_eq hroom, Outcome.ok_bind, hstep, List.replicate_succ', List.append_assoc,
        Nat.add_assoc, Nat.add_comm 1 k]
      rfl
    · rw [push, if_neg hroom, if_neg (by omega)]
      rfl

section

variable {dest : Target} {out : List Char}

theorem put_eq (h : out.length < dest.size) (c : Char) : dest.put out c = .ok (out ++ [c]) :=
  if_pos h

theorem copy_eq (ds temp : List Char) (h : out.length + ds.length ≤ dest.size) :
    dest.copy ds.length (ds ++ temp, out) = .ok (temp, out ++ ds) := by
  induction ds generalizing out with
  | nil => rw [List.append_nil]; rfl
  | cons d ds ih =>
    rw [List.length_cons] at h
    rw [List.length_cons, List.cons_append, Target.copy, put_eq (by omega), Outcome.ok_bind,
      ih (by rw [List.length_append, List.length_singleton]; omega), List.append_assoc]
    rfl

theorem copy_all (ds : List Char) (h : out.length + ds.length ≤ dest.size) :
    dest.copy ds.length (ds, out) = .ok ([], out ++ ds) := by
  have hcopy := copy_eq ds [] h
  rw [List.append_nil] at hcopy
  exact hcopy

theorem fill_eq (c : Char) (k : ℕ) (h : out.length + k ≤ dest.size) :
    dest.fill c k out = .ok (out ++ List.replicate k c) := by
  induction k generalizing out with
  | zero => rw [List.replicate_zero, List.append_nil]; rfl
  | succ k ih =>
    rw [Target.fill, put_eq (by omega), Outcome.ok_bind,
      ih (by rw [List.length_append, List.length_singleton]; omega), List.append_assoc]
    rfl

end

/-! ## The text that is written -/

theorem length_padded (u s : ℕ) :
    (padded u s).length = (decimal u).length + zeros (-s) (decimal u).length := by
  unfold padded zeros
  rw [List.length_append, List.length_replicate]
  omega

theorem lt_length_padded (u s : ℕ) : s < (padded u s).length := by
  rw [length_padded, zeros]
  omega

theorem length_formatted (n : ℤ) (s : ℕ) :
    (formatted n s).length =
      (padded n.natAbs s).length + (if n < 0 then 1 else 0) + (if s = 0 then 0 else 1) := by
  have hlt := lt_length_padded n.natAbs s
  unfold formatted
  dsimp only
  rw [List.length_append]
  have hsign : (if n < 0 then ['-'] else []).length = if n < 0 then 1 else 0 := by
    split <;> rfl
  rw [hsign]
  by_cases hs : s = 0
  · rw [if_pos hs, if_pos hs]
    omega
  · rw [if_neg hs, if_neg hs, List.length_append, List.length_cons, List.length_take,
      List.length_drop]
    omega

/-- The loops write the text where the target has room for it. -/
theorem format_eq {dest : Target} (n : ℤ) (s : ℕ)
    (hroom : (formatted n s).length ≤ dest.size) :
    dest.format (-s) (if n ≥ 0 then 0 else 1) 0 (padded n.natAbs s).length (padded n.natAbs s) =
      .ok (formatted n s) := by
  have hlt := lt_length_padded n.natAbs s
  have hlen := length_formatted n s
  rw [hlen] at hroom
  unfold Target.format
  have hsign : (if (if n ≥ 0 then (0 : ℤ) else 1) = 1 then dest.put [] '-' else .ok []) =
      .ok (if n < 0 then ['-'] else []) := by
    by_cases hn : n < 0
    · rw [if_pos hn] at hroom
      rw [if_neg (not_le.mpr hn), if_pos rfl, if_pos hn, put_eq (by rw [List.length_nil]; omega)]
      rfl
    · rw [if_pos (not_lt.mp hn), if_neg (by omega), if_neg hn]
  have hsign' : (if n < 0 then ['-'] else []).length = if n < 0 then 1 else 0 := by
    split <;> rfl
  rw [hsign, Outcome.ok_bind]
  unfold formatted
  dsimp only
  generalize (if n < 0 then ['-'] else []) = sg at hsign' ⊢
  generalize padded n.natAbs s = ds at hlt hroom ⊢
  by_cases hs : s = 0
  · subst hs
    rw [if_pos (by omega), copy_all ds (by omega), if_pos rfl]
    rfl
  · obtain ⟨p, q, rfl, hq⟩ : ∃ p q, ds = p ++ q ∧ q.length = s := by
      refine ⟨_, _, (List.take_append_drop (ds.length - s) ds).symm, ?_⟩
      rw [List.length_drop]
      omega
    rw [if_neg hs, ← hsign', List.length_append] at hroom
    have hp : (((p ++ q).length : ℤ) + -s).toNat = p.length := by
      rw [List.length_append]
      omega
    have hq' : (-(-(s : ℤ))).toNat = q.length := by omega
    have hcut : (p ++ q).length - s = p.length := by
      rw [List.length_append]
      omega
    have hcopy : dest.copy q.length (q, sg ++ p ++ ['.']) = .ok ([], sg ++ p ++ ['.'] ++ q) := by
      apply copy_all
      rw [List.length_append, List.length_append, List.length_singleton]
      omega
    rw [if_neg (show ¬(-(s : ℤ)) ≥ 0 by omega), if_neg hs, hp, hq', hcut, List.take_left,
      List.drop_left, copy_eq p q (by omega), Outcome.ok_bind]
    dsimp only
    rw [put_eq (by rw [List.length_append]; omega), Outcome.ok_bind, hcopy, Outcome.ok_bind]
    change Except.ok _ = _
    rw [List.append_assoc, List.append_assoc]
    rfl

/-! ## The conversion -/

section

variable {desc : ExactDsc} {dest : Target}

theorem CVT_get_int64_self (desc : ExactDsc) : desc.CVT_get_int64 desc.scale = .ok desc.value := by
  have hzero : desc.scale - desc.scale = 0 := Int.sub_self _
  rw [CVT_get_int64_eq (by rw [hzero]; rfl), ExactDsc.atScale, hzero, zpow_zero, mul_one,
    HalfAway.halfAway_intCast, returned_of_fits desc.fits.widen]

/-- The absolute value, also that of the minimum -/
theorem unsigned_eq {n : ℤ} (h : ExactType.int64.Fits n) :
    (if n ≥ 0 then n.toNat else (toInt64 (-n) % 2 ^ 64).toNat) = n.natAbs := by
  obtain ⟨h0, h1⟩ := h
  by_cases hn : n ≥ 0
  · rw [if_pos hn]
    omega
  · rw [if_neg hn, toInt64_eq]
    omega

theorem length_decimal_natAbs {n : ℤ} (h : ExactType.int64.Fits n) :
    (decimal n.natAbs).length ≤ 20 := by
  obtain ⟨h0, h1⟩ := h
  exact length_decimal_le (by omega) (by omega)

/-- The text is not empty, and of moderate length where the digits fit the work buffer. -/
theorem length_text (desc : ExactDsc) (hscale : -31 ≤ desc.scale) :
    0 < desc.text.length ∧ desc.text.length ≤ 34 := by
  have hdigits := length_decimal_natAbs desc.fits.widen
  have hlt := lt_length_padded desc.value.natAbs (-desc.scale).toNat
  have hlen := length_formatted desc.value (-desc.scale).toNat
  rw [ExactDsc.text]
  constructor
  · omega
  · rw [length_padded, zeros] at hlen
    split at hlen <;> split at hlen <;> omega

theorem integer_to_text_eq (hscale : desc.scale ≤ 0)
    (hsize : ¬dest.TooShort desc.text.length → desc.text.length ≤ dest.size) (mem : List Char) :
    integer_to_text desc dest mem =
      if -31 ≤ desc.scale then
        if dest.TooShort desc.text.length then .error .conversion
        else dest.finish mem desc.text.length desc.text
      else .error .outside := by
  have hdigits := length_decimal_natAbs desc.fits.widen
  have hlen := length_formatted desc.value (-desc.scale).toNat
  have hpadded := length_padded desc.value.natAbs (-desc.scale).toNat
  have hneg : -((-desc.scale).toNat : ℤ) = desc.scale := by omega
  rw [hneg] at hpadded
  unfold integer_to_text
  dsimp only
  rw [CVT_get_int64_self, if_neg (not_lt.mpr hscale)]
  change Except.bind (.ok desc.value) _ = _
  rw [Outcome.ok_bind, unsigned_eq desc.fits.widen,
    putDigits_eq _ (by rw [List.length_nil]; omega), List.append_nil, Outcome.ok_bind,
    leadZeros_eq _ _ (by omega)]
  by_cases hwork : -31 ≤ desc.scale
  · have hbuffer : (decimal desc.value.natAbs).length +
        zeros desc.scale (decimal desc.value.natAbs).length ≤ 32 := by
      unfold zeros
      omega
    have hzeros : List.replicate (zeros desc.scale (decimal desc.value.natAbs).length) '0' ++
        decimal desc.value.natAbs = padded desc.value.natAbs (-desc.scale).toNat := by
      rw [padded, zeros]
      congr 2
      omega
    rw [if_pos hbuffer, if_pos hwork, Outcome.ok_bind, hzeros, ← hpadded]
    dsimp only
    have hlength : ((padded desc.value.natAbs (-desc.scale).toNat).length : ℤ) +
        (if desc.value ≥ 0 then 0 else 1) + (if desc.scale < 0 then 1 else 0) + 0 =
          desc.text.length := by
      rw [ExactDsc.text, hlen]
      split_ifs <;> omega
    rw [hlength]
    by_cases hshort : dest.TooShort desc.text.length
    · rw [if_pos hshort, if_pos hshort]
    · have hformat := format_eq desc.value (-desc.scale).toNat (hsize hshort)
      rw [hneg] at hformat
      rw [if_neg hshort, if_neg hshort, hformat]
      rfl
  · have hover : ¬(decimal desc.value.natAbs).length +
        zeros desc.scale (decimal desc.value.natAbs).length ≤ 32 := by
      unfold zeros
      omega
    rw [if_neg hover, if_neg hwork]
    rfl

end

/-! ## The text that is read -/

/-- The characters of a numeral -/
theorem Numeral.Of.mem {n : Numeral} {s : List Char} (h : n.Of s) :
    ∀ c ∈ s, c = ' ' ∨ c = ',' ∨ c = '.' ∨ c = '-' ∨ c = '+' ∨ c = 'e' ∨ c = 'E' ∨ DIGIT c := by
  have hsigned : ∀ {sg : List Char} {neg : Bool}, Signed sg neg → ∀ c ∈ sg, c = '-' ∨ c = '+' := by
    intro sg neg hsg c hc
    cases hsg with
    | none => cases hc
    | plus => exact .inr (List.mem_singleton.mp hc)
    | minus => exact .inl (List.mem_singleton.mp hc)
  obtain ⟨t, e, rfl, hm, he⟩ := h.spelled
  intro c hc
  rcases List.mem_append.mp hc with hc | hc
  · by_cases hskip : c ≠ ' ' ∧ c ≠ ','
    · obtain ⟨sg, text, hfilter, hsg, htext⟩ := hm.spelled
      have hmem : c ∈ sg ++ text := by
        rw [← hfilter, List.mem_filter]
        exact ⟨hc, decide_eq_true hskip⟩
      have hdigits := hm.digits
      rcases List.mem_append.mp hmem with hmem | hmem
      · rcases hsigned hsg c hmem with h | h
        · simp [h]
        · simp [h]
      · generalize n.digits = ds at htext hdigits
        generalize n.fraction = f at htext
        cases htext with
        | whole => simp [hdigits c hmem]
        | point p q =>
          rcases List.mem_append.mp hmem with hmem | hmem
          · simp [hdigits c (List.mem_append_left q hmem)]
          · rcases List.mem_cons.mp hmem with hdot | hmem
            · simp [hdot]
            · simp [hdigits c (List.mem_append_right p hmem)]
    · rw [not_and_or, not_not, not_not] at hskip
      rcases hskip with h | h
      · simp [h]
      · simp [h]
  · generalize n.exp = x at he
    cases he with
    | none => cases hc
    | @some c' p sg ds neg hc' hs hsg hds hne =>
      rcases List.mem_cons.mp hc with rfl | hc
      · rcases hc' with h | h
        · simp [h]
        · simp [h]
      · by_cases hblank : c = ' '
        · exact .inl hblank
        · have hmem : c ∈ sg ++ ds := by
            rw [← hs, List.mem_filter]
            exact ⟨hc, decide_eq_true hblank⟩
          rcases List.mem_append.mp hmem with hmem | hmem
          · rcases hsigned hsg c hmem with h | h
            · simp [h]
            · simp [h]
          · simp [hds c hmem]

theorem pointed_text {ds : List Char} {s : ℕ} (h : s < ds.length) :
    Pointed (if s = 0 then ds else ds.take (ds.length - s) ++ '.' :: ds.drop (ds.length - s)) ds
      s := by
  by_cases hs : s = 0
  · rw [if_pos hs, hs]
    exact .whole ds
  · have hpoint := Pointed.point (ds.take (ds.length - s)) (ds.drop (ds.length - s))
    rw [List.take_append_drop, List.length_drop, Nat.sub_sub_self h.le] at hpoint
    rw [if_neg hs]
    exact hpoint

theorem Pointed.mem {text ds : List Char} {f : ℕ} (h : Pointed text ds f) :
    ∀ c ∈ text, c = '.' ∨ c ∈ ds := by
  intro c hc
  cases h with
  | whole => exact .inr hc
  | point p q =>
    rw [List.mem_append]
    rcases List.mem_append.mp hc with hc | hc
    · exact .inr (.inl hc)
    · exact (List.mem_cons.mp hc).imp_right .inr

/-- The characters of a text -/
theorem mem_formatted (n : ℤ) (s : ℕ) :
    ∀ c ∈ formatted n s, c = '-' ∨ c = '.' ∨ DIGIT c := by
  intro c hc
  rcases List.mem_append.mp hc with hc | hc
  · split at hc
    · exact .inl (List.mem_singleton.mp hc)
    · cases hc
  · right
    refine ((pointed_text (lt_length_padded n.natAbs s)).mem c hc).imp_right fun hd => ?_
    rcases List.mem_append.mp hd with hd | hd
    · rw [List.eq_of_mem_replicate hd]
      decide
    · exact digit_of_mem_decimal _ c hd

theorem digit_of_mem_padded (u s : ℕ) : ∀ d ∈ padded u s, DIGIT d := by
  intro d hd
  rcases List.mem_append.mp hd with hd | hd
  · rw [List.eq_of_mem_replicate hd]
    decide
  · exact digit_of_mem_decimal _ d hd

/-- The numeral that a text with blanks behind it spells -/
theorem of_formatted (n : ℤ) (s k : ℕ) :
    (Numeral.mk (decide (n < 0)) (padded n.natAbs s) s 0).Of
      (formatted n s ++ List.replicate k ' ') := by
  have hlt := lt_length_padded n.natAbs s
  have hblank : (List.replicate k ' ').filter (fun c => c ≠ ' ' ∧ c ≠ ',') = [] := by
    rw [List.filter_eq_nil_iff]
    intro c hc
    rw [List.eq_of_mem_replicate hc]
    decide
  have hkept : (formatted n s).filter (fun c => c ≠ ' ' ∧ c ≠ ',') = formatted n s := by
    rw [List.filter_eq_self]
    intro c hc
    rcases mem_formatted n s c hc with rfl | rfl | hc
    · decide
    · decide
    · exact decide_eq_true ⟨hc.ne (by decide), hc.ne (by decide)⟩
  have hsign : Signed (if n < 0 then ['-'] else []) (decide (n < 0)) := by
    by_cases hn : n < 0
    · rw [if_pos hn, decide_eq_true hn]
      exact .minus
    · rw [if_neg hn, decide_eq_false hn]
      exact .none
  have hfilter : (formatted n s ++ List.replicate k ' ').filter (fun c => c ≠ ' ' ∧ c ≠ ',') =
      formatted n s := by
    rw [List.filter_append, hblank, List.append_nil, hkept]
  exact ⟨⟨_, [], (List.append_nil _).symm,
    ⟨⟨_, _, hfilter, hsign, pointed_text hlt⟩, digit_of_mem_padded _ _⟩, .none⟩,
    List.ne_nil_of_length_pos (Nat.zero_lt_of_lt hlt)⟩

theorem number_padded (u s : ℕ) : number (padded u s) = u := by
  rw [padded, number_replicate_zero, number_decimal]

theorem natAbs_le_limit {n : ℤ} (h : ExactType.int64.Fits n) :
    n.natAbs ≤ Dtype.int64.limit (decide (n < 0)) := by
  obtain ⟨h0, h1⟩ := h
  by_cases hn : n < 0
  · rw [decide_eq_true hn, Dtype.limit]
    omega
  · rw [decide_eq_false hn, Dtype.limit]
    omega

/-- The text is read back, with or without blanks behind it. -/
theorem CVT_get_int64_text (desc : ExactDsc) (hscale : desc.scale ≤ 0) (k : ℕ) :
    CVT_get_int64 (desc.text ++ List.replicate k ' ') desc.scale = .ok desc.value := by
  have hof := of_formatted desc.value (-desc.scale).toNat k
  have hshift : (Numeral.mk (decide (desc.value < 0))
      (padded desc.value.natAbs (-desc.scale).toNat) (-desc.scale).toNat 0).shift desc.scale =
        0 := by
    have hzero : desc.scale + (-desc.scale).toNat - 0 = 0 := by omega
    rw [Numeral.shift]
    dsimp only
    rw [hzero]
    rfl
  have hread : Reads .int64 (decide (desc.value < 0))
      (padded desc.value.natAbs (-desc.scale).toNat) desc.value.natAbs := by
    have hlimit := natAbs_le_limit desc.fits.widen
    rw [← number_padded desc.value.natAbs (-desc.scale).toNat] at hlimit
    have hall := Reads.all hlimit
    rw [number_padded] at hall
    exact hall
  have hvalue : desc.value = shiftRight (decide (desc.value < 0)) desc.value.natAbs 0 := by
    rw [shiftRight, if_pos le_rfl, Int.toNat_zero, pow_zero, Int.ediv_one, signed]
    by_cases hn : desc.value < 0
    · rw [if_pos (decide_eq_true hn)]
      omega
    · rw [if_neg (by simpa using hn)]
      omega
  unfold CVT_get_int64
  rw [INT64_LIMIT_eq, convert_ok_iff]
  have hexp : |(0 : ℤ)| < SHORT_LIMIT := by decide
  refine ⟨_, _, hof, hexp, hread, ?_, ?_⟩
  · rw [hshift]
    trivial
  · rw [hshift]
    exact hvalue

/-- No number is read where a character of another kind stands. -/
theorem CVT_get_int64_ne_ok {s : List Char} (h : 'x' ∈ s) (t v : ℤ) :
    CVT_get_int64 s t ≠ .ok v := by
  intro hok
  unfold CVT_get_int64 at hok
  rw [INT64_LIMIT_eq, convert_ok_iff] at hok
  obtain ⟨n, m, hn, -⟩ := hok
  have hx := hn.mem 'x' h
  revert hx
  decide

/-! ## The round trip -/

section

variable {desc : ExactDsc} {dest : Target}

theorem length_le_size {k : ℕ} (h : ¬dest.TooShort k) : k ≤ dest.size := by
  obtain ⟨dtype, len, hlen⟩ := dest
  unfold Target.size
  cases dtype with
  | text =>
    change ¬(k : ℤ) > len at h
    dsimp only
    omega
  | cstring =>
    change ¬(k : ℤ) ≥ len at h
    dsimp only
    omega
  | varying =>
    change ¬(k : ℤ) > toInt16 (len - 2) at h
    rw [toInt16_eq] at h
    dsimp only
    omega

/-- The test for the length, where the length of a varying string is an `SSHORT` -/
theorem tooShort_iff {k : ℕ} (hk : 0 < k)
    (hvarying : dest.dtype = .varying → dest.dsc_length ≤ 32769) :
    dest.TooShort k ↔ dest.room < k := by
  obtain ⟨dtype, len, hlen⟩ := dest
  unfold Target.room
  cases dtype with
  | text =>
    change (k : ℤ) > len ↔ len < k
    omega
  | cstring =>
    change (k : ℤ) ≥ len ↔ len - 1 < k
    omega
  | varying =>
    have hle := hvarying rfl
    change (k : ℤ) > toInt16 (len - 2) ↔ len - 2 < k
    dsimp only at hle
    rw [toInt16_of_lt (by omega) (by omega)]
    omega

/-- The string that is read from the target is the text, with blanks behind it where the length of
the target is fixed. -/
theorem finish_eq {text : List Char} (mem : List Char) (hroom : ¬dest.TooShort text.length)
    (htext : ∀ c ∈ text, c ≠ '\x00') (hlen : text.length ≤ 65535)
    (hpad : dest.dtype = .text → dest.dsc_length ≤ text.length + 32767) :
    ∃ a k, dest.finish mem text.length text = .ok a ∧
      dest.CVT_make_string a = text ++ List.replicate k ' ' := by
  have hsize := length_le_size hroom
  obtain ⟨dtype, len, hfits⟩ := dest
  cases dtype with
  | text =>
    have hpad' : len ≤ text.length + 32767 := hpad rfl
    have hle : text.length ≤ len := hsize
    have hblanks : (toInt16 ((len : ℤ) - text.length)).toNat = len - text.length := by
      rw [toInt16_of_lt (by omega) (by omega)]
      omega
    have hlength : (text ++ List.replicate (len - text.length) ' ').length = len := by
      rw [List.length_append, List.length_replicate]
      omega
    have hfill : (Target.mk .text len hfits).fill ' ' (len - text.length) text =
        .ok (text ++ List.replicate (len - text.length) ' ') := by
      apply fill_eq
      rw [Target.size]
      dsimp only
      omega
    have hfinish : (Target.mk .text len hfits).finish mem text.length text =
        .ok ⟨0, text ++ List.replicate (len - text.length) ' ' ++
          mem.drop (text ++ List.replicate (len - text.length) ' ').length⟩ := by
      rw [Target.finish]
      dsimp only
      rw [hblanks, hfill, Outcome.ok_bind]
    refine ⟨_, len - text.length, hfinish, ?_⟩
    rw [Target.CVT_make_string]
    dsimp only
    rw [List.take_left' hlength]
  | cstring =>
    have hlt : text.length < len := not_le.mp fun h => hroom (Int.ofNat_le.mpr h)
    have hput : (Target.mk .cstring len hfits).put text '\x00' = .ok (text ++ ['\x00']) :=
      put_eq hlt '\x00'
    have hfinish : (Target.mk .cstring len hfits).finish mem text.length text =
        .ok ⟨0, text ++ ['\x00'] ++ mem.drop (text ++ ['\x00']).length⟩ := by
      rw [Target.finish]
      dsimp only
      rw [hput, Outcome.ok_bind]
    refine ⟨_, 0, hfinish, ?_⟩
    have hspan : ∀ c ∈ text, decide (c ≠ '\x00') = true := fun c hc => decide_eq_true (htext c hc)
    rw [Target.CVT_make_string]
    dsimp only
    rw [List.append_assoc, List.takeWhile_append_of_pos hspan, List.singleton_append,
      List.takeWhile_cons_of_neg (by decide), List.append_nil, Nat.mod_eq_of_lt (by omega),
      Nat.min_eq_left (by omega), List.take_left]
    exact (List.append_nil text).symm
  | varying =>
    refine ⟨_, 0, rfl, ?_⟩
    have hle : text.length ≤ len - 2 := hsize
    rw [Target.CVT_make_string]
    dsimp only
    rw [Nat.mod_eq_of_lt (by omega), Nat.min_eq_left hle, List.take_left]
    exact (List.append_nil text).symm

/-- What is read back where the text is written -/
theorem roundTrip_of_le (hscale : desc.scale ≤ 0) (hwork : -31 ≤ desc.scale)
    (hvarying : dest.dtype = .varying → dest.dsc_length ≤ 32769)
    (htext : dest.dtype = .text → dest.dsc_length ≤ desc.text.length + 32767)
    (mem : List Char) : RoundTrip desc dest mem := by
  obtain ⟨hpos, hlen⟩ := length_text desc hwork
  have hrun : integer_to_text desc dest mem = _ := integer_to_text_eq hscale length_le_size mem
  rw [if_pos hwork] at hrun
  by_cases hshort : dest.TooShort desc.text.length
  · rw [if_pos hshort] at hrun
    exact (roundTrip_of_conversion hrun).mpr ((tooShort_iff hpos hvarying).mp hshort)
  · have hnul : ∀ c ∈ desc.text, c ≠ '\x00' := by
      intro c hc
      rcases mem_formatted _ _ c hc with rfl | rfl | hc
      · decide
      · decide
      · exact hc.ne (by decide)
    obtain ⟨a, k, hfinish, hstring⟩ := finish_eq mem hshort hnul (by omega) htext
    rw [if_neg hshort, hfinish] at hrun
    rw [roundTrip_of_ok hrun, hstring]
    exact CVT_get_int64_text desc hscale k

/-- The leading zeros are written past the end of the work buffer. -/
theorem not_roundTrip_of_scale (hscale : desc.scale ≤ 0) (hwork : ¬-31 ≤ desc.scale)
    (mem : List Char) : ¬RoundTrip desc dest mem :=
  not_roundTrip_of_outside (by rw [integer_to_text_eq hscale length_le_size, if_neg hwork])

/-- The length of a long varying string is negative in 16 bits. -/
theorem not_roundTrip_of_varying (hscale : desc.scale ≤ 0) (hwork : -31 ≤ desc.scale)
    (hdtype : dest.dtype = .varying) (hlong : ¬dest.dsc_length ≤ 32769) (mem : List Char) :
    ¬RoundTrip desc dest mem := by
  intro h
  obtain ⟨hpos, hlen⟩ := length_text desc hwork
  obtain ⟨dtype, len, hfits⟩ := dest
  obtain rfl : dtype = .varying := hdtype
  have hlong' : ¬len ≤ 32769 := hlong
  have hshort : (Target.mk .varying len hfits).TooShort desc.text.length := by
    change (desc.text.length : ℤ) > toInt16 (len - 2)
    rw [toInt16_eq]
    omega
  have hroom : len - 2 < desc.text.length := (roundTrip_of_conversion (by
    rw [integer_to_text_eq hscale length_le_size, if_pos hwork, if_pos hshort])).mp h
  omega

/-- Where the number of blanks is negative in 16 bits, none is written, and what the target holds is
left behind the text. -/
theorem not_roundTrip_of_text (hscale : desc.scale ≤ 0) (hwork : -31 ≤ desc.scale)
    (hdtype : dest.dtype = .text) (hlong : ¬dest.dsc_length ≤ desc.text.length + 32767) :
    ¬RoundTrip desc dest (List.replicate dest.size 'x') := by
  intro h
  obtain ⟨dtype, len, hfits⟩ := dest
  obtain rfl : dtype = .text := hdtype
  have hlong' : ¬len ≤ desc.text.length + 32767 := hlong
  have hshort : ¬(Target.mk .text len hfits).TooShort desc.text.length := by
    change ¬(desc.text.length : ℤ) > len
    omega
  have hblanks : (toInt16 ((len : ℤ) - desc.text.length)).toNat = 0 := by
    rw [toInt16_eq]
    omega
  have hfinish : (Target.mk .text len hfits).finish (List.replicate len 'x') desc.text.length
      desc.text = .ok ⟨0, desc.text ++ (List.replicate len 'x').drop desc.text.length⟩ := by
    rw [Target.finish]
    dsimp only
    rw [hblanks]
    rfl
  have hrun : integer_to_text desc ⟨.text, len, hfits⟩ (List.replicate len 'x') =
      .ok ⟨0, desc.text ++ (List.replicate len 'x').drop desc.text.length⟩ := by
    rw [integer_to_text_eq hscale length_le_size, if_pos hwork, if_neg hshort, hfinish]
  change RoundTrip desc ⟨.text, len, hfits⟩ (List.replicate len 'x') at h
  refine CVT_get_int64_ne_ok ?_ _ _ ((roundTrip_of_ok hrun).mp h)
  rw [Target.CVT_make_string]
  dsimp only
  rw [List.drop_replicate, List.take_append, List.take_replicate, List.mem_append]
  right
  rw [List.mem_replicate]
  exact ⟨by omega, rfl⟩

end

/-- A number comes back from its text exactly where the text fits the work buffer, the length of a
varying string is not too large for an `SSHORT`, and nor is the number of blanks behind the text. -/
theorem integer_text_round_trip_iff (desc : ExactDsc) (hscale : desc.scale ≤ 0) (dest : Target) :
    (∀ mem : List Char, mem.length = dest.size → RoundTrip desc dest mem) ↔
      -31 ≤ desc.scale ∧ (dest.dtype = .varying → dest.dsc_length ≤ 32769) ∧
        (dest.dtype = .text → dest.dsc_length ≤ desc.text.length + 32767) := by
  constructor
  · intro h
    have hrun := h (List.replicate dest.size 'x') List.length_replicate
    have hwork : -31 ≤ desc.scale := by
      by_contra hno
      exact not_roundTrip_of_scale hscale hno _ hrun
    refine ⟨hwork, ?_, ?_⟩
    · intro hdtype
      by_contra hlong
      exact not_roundTrip_of_varying hscale hwork hdtype hlong _ hrun
    · intro hdtype
      by_contra hlong
      exact not_roundTrip_of_text hscale hwork hdtype hlong hrun
  · rintro ⟨hwork, hvarying, htext⟩ mem -
    exact roundTrip_of_le hscale hwork hvarying htext mem

/-- The minimum as a `VARCHAR` -/
theorem integer_text_round_trip_minimum :
    RoundTrip ⟨.int64, -9223372036854775808, -31, ⟨by decide, by decide⟩, ⟨by decide, by decide⟩⟩
      ⟨.varying, 40, by decide⟩ (List.replicate 38 ' ') :=
  (integer_text_round_trip_iff _ (by decide) ⟨.varying, 40, by decide⟩).mpr
    ⟨by decide, by decide, fun h => by cases h⟩ _ (by decide)

/-- Zero at a scale that the product of two numbers of scale -16 has -/
theorem integer_text_overflows :
    ¬RoundTrip ⟨.int64, 0, -32, ⟨by decide, by decide⟩, ⟨by decide, by decide⟩⟩
      ⟨.text, 40, by decide⟩ (List.replicate 40 ' ') := by
  have hrun : integer_to_text
      ⟨.int64, 0, -32, ⟨by decide, by decide⟩, ⟨by decide, by decide⟩⟩ ⟨.text, 40, by decide⟩
        (List.replicate 40 ' ') = .error .outside := by decide +kernel
  exact not_roundTrip_of_outside hrun

end Firebird.Cvt
