import Mathlib.Algebra.Order.Floor.Ring
import Mathlib.Data.Nat.Digits.Lemmas
import Mathlib.Data.Rat.Floor
import Mathlib.Tactic.Ring

/-! # Decimal numerals

What a numeric string stands for: an optional sign, digits with at most one point, and an optional
exponent. Blanks may stand anywhere, commas anywhere before the exponent.
-/

namespace Firebird.Cvt

/-- `DIGIT(c)` -/
def DIGIT (c : Char) : Prop := '0' ≤ c ∧ c ≤ '9'

instance (c : Char) : Decidable (DIGIT c) := inferInstanceAs (Decidable (_ ∧ _))

def digit (c : Char) : ℕ := c.toNat - 48

/-- The number that digits are written for -/
def number (ds : List Char) : ℕ := Nat.ofDigits 10 (ds.map digit).reverse

theorem DIGIT.toNat {c : Char} (h : DIGIT c) : c.toNat = 48 + digit c ∧ digit c < 10 := by
  obtain ⟨h0, h9⟩ := h
  rw [Char.le_def, UInt32.le_iff_toNat_le] at h0 h9
  change 48 ≤ c.toNat at h0
  change c.toNat ≤ 57 at h9
  unfold digit
  omega

theorem number_nil : number [] = 0 := rfl

theorem number_append (p q : List Char) :
    number (p ++ q) = number p * 10 ^ q.length + number q := by
  unfold number
  rw [List.map_append, List.reverse_append, Nat.ofDigits_append, List.length_reverse,
    List.length_map]
  ring

theorem number_singleton (c : Char) : number [c] = digit c :=
  Nat.ofDigits_singleton

theorem number_snoc (ds : List Char) (c : Char) :
    number (ds ++ [c]) = number ds * 10 + digit c := by
  rw [number_append, number_singleton]
  rfl

theorem number_replicate_zero (k : ℕ) (ds : List Char) :
    number (List.replicate k '0' ++ ds) = number ds := by
  induction k with
  | zero => rfl
  | succ k ih =>
    rw [List.replicate_succ, List.cons_append, ← List.singleton_append, number_append,
      number_singleton, ih]
    change 0 * 10 ^ _ + number ds = number ds
    rw [Nat.zero_mul, Nat.zero_add]

/-! ## Written numbers -/

/-- The character of a digit -/
def digitChar (d : ℕ) : Char := Char.ofNat (d % 10 + 48)

/-- The digits of a number, without leading zeros -/
def decimal (u : ℕ) : List Char :=
  if u / 10 = 0 then [digitChar u] else decimal (u / 10) ++ [digitChar u]
termination_by u
decreasing_by omega

theorem digit_digitChar (d : ℕ) : DIGIT (digitChar d) ∧ digit (digitChar d) = d % 10 := by
  have hlt : d % 10 < 10 := Nat.mod_lt d (by omega)
  have hall : ∀ k < 10, DIGIT (Char.ofNat (k + 48)) ∧ digit (Char.ofNat (k + 48)) = k := by decide
  exact hall (d % 10) hlt

theorem digit_of_mem_decimal (u : ℕ) : ∀ c ∈ decimal u, DIGIT c := by
  fun_induction decimal u with
  | case1 u h =>
    intro c hc
    rw [List.mem_singleton.mp hc]
    exact (digit_digitChar u).1
  | case2 u h ih =>
    intro c hc
    rcases List.mem_append.mp hc with hc | hc
    · exact ih c hc
    · rw [List.mem_singleton.mp hc]
      exact (digit_digitChar u).1

theorem number_decimal (u : ℕ) : number (decimal u) = u := by
  fun_induction decimal u with
  | case1 u h =>
    rw [number_singleton, (digit_digitChar u).2]
    omega
  | case2 u h ih =>
    rw [number_snoc, ih, (digit_digitChar u).2]
    omega

theorem length_decimal_le {k : ℕ} (hk : 0 < k) {u : ℕ} (h : u < 10 ^ k) :
    (decimal u).length ≤ k := by
  induction k generalizing u with
  | zero => omega
  | succ k ih =>
    rw [decimal]
    split
    · exact hk
    · rw [List.length_append, List.length_singleton]
      rw [pow_succ] at h
      rcases Nat.eq_zero_or_pos k with rfl | hpos
      · omega
      · have := ih hpos (u := u / 10) (by omega)
        omega

/-! ## Grammar -/

/-- An optional sign, and whether it is a minus -/
inductive Signed : List Char → Bool → Prop where
  | none : Signed [] false
  | plus : Signed ['+'] false
  | minus : Signed ['-'] true

/-- Digits with at most one point, the digits alone, and how many follow the point -/
inductive Pointed : List Char → List Char → ℕ → Prop where
  | whole (ds : List Char) : Pointed ds ds 0
  | point (ds fs : List Char) : Pointed (ds ++ '.' :: fs) (ds ++ fs) fs.length

/-- An optional exponent with blanks anywhere, and its value -/
inductive Exponential : List Char → ℤ → Prop where
  | none : Exponential [] 0
  | some {c : Char} {s sg ds : List Char} {neg : Bool} (hc : c = 'e' ∨ c = 'E')
      (hs : s.filter (· ≠ ' ') = sg ++ ds) (hsg : Signed sg neg) (hds : ∀ d ∈ ds, DIGIT d)
      (hne : ds ≠ []) : Exponential (c :: s) (if neg then -number ds else number ds)

/-- The parts of a numeral -/
structure Numeral where
  neg : Bool
  digits : List Char
  fraction : ℕ
  exp : ℤ

/-- The mantissa `t` of the numeral, without its exponent -/
structure Numeral.Mantissa (n : Numeral) (t : List Char) : Prop where
  spelled : ∃ sg text, t.filter (fun c => c ≠ ' ' ∧ c ≠ ',') = sg ++ text ∧ Signed sg n.neg ∧
    Pointed text n.digits n.fraction
  digits : ∀ d ∈ n.digits, DIGIT d

/-- The string spells the numeral. -/
structure Numeral.Of (n : Numeral) (s : List Char) : Prop where
  spelled : ∃ t e, s = t ++ e ∧ n.Mantissa t ∧ Exponential e n.exp
  ne_nil : n.digits ≠ []

/-! ### A string spells one numeral -/

theorem DIGIT.ne {c d : Char} (h : DIGIT c) (hd : ¬DIGIT d) : c ≠ d := by
  rintro rfl
  exact hd h

/-- A text that does not begin with a sign -/
def NoSign (text : List Char) : Prop := text.head? ≠ some '+' ∧ text.head? ≠ some '-'

theorem sign_cases (u : List Char) :
    (∃ v, u = '-' :: v) ∨ (∃ v, u = '+' :: v) ∨ NoSign u := by
  by_cases hminus : u.head? = some '-'
  · exact .inl (List.head?_eq_some_iff.mp hminus)
  · by_cases hplus : u.head? = some '+'
    · exact .inr (.inl (List.head?_eq_some_iff.mp hplus))
    · exact .inr (.inr ⟨hplus, hminus⟩)

theorem noSign_of_digits {ds : List Char} (h : ∀ d ∈ ds, DIGIT d) : NoSign ds := by
  cases ds with
  | nil => exact ⟨by decide, by decide⟩
  | cons d ds =>
    have hd := h d List.mem_cons_self
    refine ⟨fun h => ?_, fun h => ?_⟩
    · exact hd.ne (by decide) (Option.some.inj h)
    · exact hd.ne (by decide) (Option.some.inj h)

theorem Signed.append_inj {sg sg' text text' : List Char} {neg neg' : Bool} (h : Signed sg neg)
    (h' : Signed sg' neg') (htext : NoSign text) (htext' : NoSign text')
    (heq : sg ++ text = sg' ++ text') : neg = neg' ∧ text = text' := by
  cases h <;> cases h'
  · exact ⟨rfl, heq⟩
  · exact absurd (congrArg List.head? heq) htext.1
  · exact absurd (congrArg List.head? heq) htext.2
  · exact absurd (congrArg List.head? heq).symm htext'.1
  · exact ⟨rfl, List.tail_eq_of_cons_eq heq⟩
  · exact absurd (List.head_eq_of_cons_eq heq) (by decide)
  · exact absurd (congrArg List.head? heq).symm htext'.2
  · exact absurd (List.head_eq_of_cons_eq heq) (by decide)
  · exact ⟨rfl, List.tail_eq_of_cons_eq heq⟩

theorem Pointed.noSign {text ds : List Char} {f : ℕ} (h : Pointed text ds f)
    (hds : ∀ d ∈ ds, DIGIT d) : NoSign text := by
  cases h with
  | whole => exact noSign_of_digits hds
  | point ds fs =>
    cases ds with
    | nil => exact ⟨by simp, by simp⟩
    | cons d ds =>
      have hfront : ∀ c ∈ d :: ds, DIGIT c := fun c hc => hds c (List.mem_append_left fs hc)
      have hsign := noSign_of_digits hfront
      exact hsign

theorem Pointed.unique {text ds ds' : List Char} {f f' : ℕ} (h : Pointed text ds f)
    (h' : Pointed text ds' f') (hds : ∀ d ∈ ds, DIGIT d) (hds' : ∀ d ∈ ds', DIGIT d) :
    ds = ds' ∧ f = f' := by
  have hpoint : ¬DIGIT '.' := by decide
  cases h with
  | whole =>
    cases h' with
    | whole => exact ⟨rfl, rfl⟩
    | point p q => exact absurd (hds '.' (by simp)) hpoint
  | point p q =>
    generalize htext : p ++ '.' :: q = text' at h'
    cases h' with
    | whole =>
      rw [← htext] at hds'
      exact absurd (hds' _ List.mem_append_cons_self) hpoint
    | point p' q' =>
      have hp : '.' ∉ p := fun h => hpoint (hds _ (List.mem_append_left q h))
      have hq : '.' ∉ q := fun h => hpoint (hds _ (List.mem_append_right p h))
      obtain ⟨rfl, -, rfl⟩ := (List.append_cons_inj_of_notMem hp hq).mp htext
      exact ⟨rfl, rfl⟩

theorem Exponential.unique {e : List Char} {x x' : ℤ} (h : Exponential e x)
    (h' : Exponential e x') : x = x' := by
  cases h with
  | none => cases h'; rfl
  | some hc hs hsg hds hne =>
    cases h' with
    | some hc' hs' hsg' hds' hne' =>
      obtain ⟨rfl, rfl⟩ := hsg.append_inj hsg' (noSign_of_digits hds) (noSign_of_digits hds')
        (hs.symm.trans hs')
      rfl

/-- The letter of an exponent -/
def isE (c : Char) : Bool := c = 'e' ∨ c = 'E'

theorem Numeral.Mantissa.not_isE {n : Numeral} {t : List Char} (h : n.Mantissa t) :
    ∀ c ∈ t, isE c = false := by
  intro c hc
  by_contra hne
  rw [Bool.not_eq_false] at hne
  obtain ⟨sg, text, hfilter, hsg, htext⟩ := h.spelled
  have hE : c = 'e' ∨ c = 'E' := of_decide_eq_true hne
  have hdigit : ¬DIGIT c := by rcases hE with rfl | rfl <;> decide
  have hmem : c ∈ sg ++ text := by
    rw [← hfilter, List.mem_filter]
    refine ⟨hc, ?_⟩
    rcases hE with rfl | rfl <;> decide
  rcases List.mem_append.mp hmem with hmem | hmem
  · generalize n.neg = neg at hsg
    cases hsg <;> rcases hE with rfl | rfl <;> simp at hmem
  · have hds := h.digits
    generalize n.digits = ds at htext hds
    generalize n.fraction = f at htext
    cases htext with
    | whole => exact hdigit (hds c hmem)
    | point p q =>
      rcases List.mem_append.mp hmem with hmem | hmem
      · exact hdigit (hds c (List.mem_append_left q hmem))
      · rcases List.mem_cons.mp hmem with hdot | hmem
        · subst hdot
          rcases hE with h | h <;> exact absurd h (by decide)
        · exact hdigit (hds c (List.mem_append_right p hmem))

/-- The mantissa ends at the letter of the exponent. -/
theorem span_eq {t e : List Char} {x : ℤ} (ht : ∀ c ∈ t, isE c = false) (he : Exponential e x) :
    (t ++ e).takeWhile (!isE ·) = t ∧ (t ++ e).dropWhile (!isE ·) = e := by
  have ht' : ∀ c ∈ t, (!isE c) = true := fun c hc => by rw [ht c hc]; rfl
  rw [List.takeWhile_append_of_pos ht', List.dropWhile_append_of_pos ht']
  cases he with
  | none => exact ⟨List.append_nil t, rfl⟩
  | @some c s sg ds neg hc =>
    have hE : (!isE c) = false := by rw [isE, decide_eq_true hc]; rfl
    rw [List.takeWhile_cons_of_neg (by rw [hE]; decide),
      List.dropWhile_cons_of_neg (by rw [hE]; decide),
      List.append_nil]
    exact ⟨rfl, rfl⟩

theorem Numeral.Of.unique {n n' : Numeral} {s : List Char} (h : n.Of s) (h' : n'.Of s) :
    n = n' := by
  obtain ⟨t, e, hs, hm, he⟩ := h.spelled
  obtain ⟨t', e', hs', hm', he'⟩ := h'.spelled
  have hspan := span_eq hm.not_isE he
  have hspan' := span_eq hm'.not_isE he'
  rw [← hs] at hspan
  rw [← hs'] at hspan'
  obtain rfl := hspan.1.symm.trans hspan'.1
  obtain rfl := hspan.2.symm.trans hspan'.2
  obtain ⟨sg, text, hfilter, hsg, htext⟩ := hm.spelled
  obtain ⟨sg', text', hfilter', hsg', htext'⟩ := hm'.spelled
  obtain ⟨hneg, rfl⟩ := hsg.append_inj hsg' (htext.noSign hm.digits) (htext'.noSign hm'.digits)
    (hfilter.symm.trans hfilter')
  obtain ⟨hdigits, hfraction⟩ := htext.unique htext' hm.digits hm'.digits
  have hexp := he.unique he'
  cases n
  cases n'
  rw [Numeral.mk.injEq]
  exact ⟨hneg, hdigits, hfraction, hexp⟩

/-! ## Value -/

/-- The number with its sign -/
def signed (neg : Bool) (x : ℤ) : ℤ := if neg then -x else x

def Numeral.value (n : Numeral) : ℚ :=
  signed n.neg (number n.digits) * 10 ^ (n.exp - n.fraction)

/-- Rounding toward zero -/
def truncate (q : ℚ) : ℤ := if 0 ≤ q then ⌊q⌋ else ⌈q⌉

/-- A number divided by a power of ten, rounded toward zero -/
def shiftRight (neg : Bool) (m : ℕ) (x : ℤ) : ℤ :=
  signed neg (if 0 ≤ x then m / 10 ^ x.toNat else m * 10 ^ (-x).toNat)

theorem truncate_neg (q : ℚ) : truncate (-q) = -truncate q := by
  unfold truncate
  rcases lt_trichotomy q 0 with h | rfl | h
  · rw [if_pos (by linarith), if_neg (by linarith), Int.floor_neg]
  · simp
  · rw [if_neg (by linarith), if_pos h.le, Int.ceil_neg]

theorem truncate_shift (m : ℕ) (x : ℤ) :
    truncate ((m : ℚ) * 10 ^ (-x)) =
      if 0 ≤ x then (m : ℤ) / 10 ^ x.toNat else m * 10 ^ (-x).toNat := by
  have hnonneg : (0 : ℚ) ≤ (m : ℚ) * 10 ^ (-x) :=
    mul_nonneg (Nat.cast_nonneg m) (zpow_nonneg (by norm_num) _)
  rw [truncate, if_pos hnonneg]
  by_cases hx : 0 ≤ x
  · obtain ⟨k, rfl⟩ := Int.eq_ofNat_of_zero_le hx
    rw [if_pos hx, zpow_neg, zpow_natCast, ← div_eq_mul_inv, Int.toNat_natCast]
    exact_mod_cast Rat.floor_natCast_div_natCast m (10 ^ k)
  · obtain ⟨k, hk⟩ := Int.eq_ofNat_of_zero_le (show 0 ≤ -x by omega)
    rw [if_neg hx, hk, zpow_natCast, Int.toNat_natCast]
    exact_mod_cast Int.floor_natCast (R := ℚ) (m * 10 ^ k)

/-- The quotient of the numeral by a power of ten -/
theorem Numeral.truncate_value (n : Numeral) (t : ℤ) :
    truncate (n.value / 10 ^ t) =
      shiftRight n.neg (number n.digits) (t + n.fraction - n.exp) := by
  have hpow : (10 : ℚ) ^ (n.exp - n.fraction) / 10 ^ t = 10 ^ (-(t + n.fraction - n.exp)) := by
    rw [← zpow_sub₀ (by norm_num)]
    congr 1
    ring
  rw [value, mul_div_assoc, hpow, shiftRight, ← truncate_shift]
  cases n.neg
  · rfl
  · change truncate (((-(number n.digits : ℤ) : ℤ) : ℚ) * _) = -_
    rw [← truncate_neg]
    push_cast
    rw [neg_mul]

end Firebird.Cvt
