import Firebird.Intl.UnicodeFss
import Firebird.Lib.Transcode

/-! # Japanese character sets (`intl/cv_jis.c`)

Shift-JIS and EUC-J have characters of one byte and of two. In Shift-JIS the first byte of two says
so, and the second one may be any printable byte; in EUC-J the bytes of a kanji both have the high
bit, and a kana stands behind the byte `0x8E`. A conversion goes through the source character by
character, and stops where a character is bad or has no room.
-/

namespace Firebird.Intl

open Transcode (Body)

/-- `CS_CONVERT_ERROR` -/
def CS_CONVERT_ERROR : ℕ := 2

/-- `CS_CANT_MAP` -/
def CS_CANT_MAP : ℕ := 0

/-- `c & 0x80` -/
def high (c : UCHAR) : Bool := c.val &&& 0x80 ≠ 0

def SJIS1 (uc : UCHAR) : Bool :=
  (0x80 ≤ uc.val ∧ uc.val ≤ 0x9f) ∨ (0xe0 ≤ uc.val ∧ uc.val ≤ 0xef)

def SJIS2 (uc : UCHAR) : Bool := 0x40 ≤ uc.val ∧ uc.val ≤ 0xfc

def SJIS_SINGLE (uc : UCHAR) : Bool := 0xa0 ≤ uc.val ∧ uc.val ≤ 0xdf

def EUC1 (c : UCHAR) : Bool := high c

def EUC2 (c : UCHAR) : Bool := high c

/-- The macro `S2E` -/
def S2E (s1 s2 : UCHAR) : UCHAR × UCHAR :=
  if s2.val ≥ 0x9f then
    (if s1.val ≥ 0xe0 then Fin.ofNat 256 (s1.val * 2 - 0xe0) else Fin.ofNat 256 (s1.val * 2 - 0x60),
      Fin.ofNat 256 (s2.val + 2))
  else
    (if s1.val ≥ 0xe0 then Fin.ofNat 256 (s1.val * 2 - 0xe1) else Fin.ofNat 256 (s1.val * 2 - 0x61),
      if s2.val ≥ 0x7f then Fin.ofNat 256 (s2.val + 0x60) else Fin.ofNat 256 (s2.val + 0x61))

/-- The way back, in `CVJIS_euc2sjis`; `c1 - 0x21` is cast to `USHORT`. -/
def E2S (c1 c2 : UCHAR) : UCHAR × UCHAR :=
  let c1 := c1 ^^^ 0x80
  let c2 := c2 ^^^ 0x80
  (Fin.ofNat 256 ((c1.val + 65536 - 0x21) % 65536 / 2 + if c1.val ≤ 0x5e then 0x81 else 0xc1),
    if c1.val &&& 1 ≠ 0 then Fin.ofNat 256 (c2.val + if c2.val ≤ 0x5f then 0x1f else 0x20)
    else Fin.ofNat 256 (c2.val + 0x7e))

example : S2E 0x88 0x9f = (0xb0, 0xa1) ∧ E2S 0xb0 0xa1 = (0x88, 0x9f) := by decide

/-- `((c1 << 8) + c2) & ~0x8080` -/
def wide (c1 c2 : UCHAR) : ℕ := (c1.val * 256 + c2.val) &&& 0x7f7f

/-! ## The conversions

The lengths are those of what is left of the source, and go down by what is taken. -/

/-- The body of the loop of `CVJIS_sjis2euc` -/
def sjis2eucBody (euc_len : ℕ) : List UCHAR → Body UCHAR
  | [] => .stop 0
  | c1 :: sjis_str =>
      if high c1 then
        if SJIS1 c1 then
          match sjis_str with
          | [] => .stop CS_BAD_INPUT
          | c2 :: _ =>
              if ¬SJIS2 c2 then .stop CS_BAD_INPUT
              else if euc_len < 2 then .stop CS_TRUNCATION_ERROR
              else .next [(S2E c1 c2).1, (S2E c1 c2).2] 2
        else if SJIS_SINGLE c1 then
          if euc_len < 2 then .stop CS_TRUNCATION_ERROR else .next [0x8e, c1] 1
        else .stop CS_BAD_INPUT
      else .next [c1] 1

/-- The body of the loop of `CVJIS_euc2sjis` -/
def euc2sjisBody (sjis_len : ℕ) : List UCHAR → Body UCHAR
  | [] => .stop 0
  | c1 :: euc_str =>
      if high c1 then
        if EUC1 c1 then
          match euc_str with
          | [] => .stop CS_BAD_INPUT
          | c2 :: _ =>
              if ¬EUC2 c2 then .stop CS_BAD_INPUT
              else if c1 = 0x8e then .next [c2] 2
              else if sjis_len < 2 then .stop CS_TRUNCATION_ERROR
              else .next [(E2S c1 c2).1, (E2S c1 c2).2] 2
        else .stop CS_BAD_INPUT
      else .next [c1] 1

/-- The body of the loop of `CVJIS_sjis_to_unicode`, with the tables for two bytes and for one -/
def sjisToUnicodeBody (jis sjis : ℕ → UNICODE) (_dest_len : ℕ) : List UCHAR → Body UNICODE
  | [] => .stop 0
  | c1 :: sjis_str =>
      let put (ch : UNICODE) (w n : ℕ) : Body UNICODE :=
        if ch.val = CS_CANT_MAP ∧ ¬w = CS_CANT_MAP then .stop CS_CONVERT_ERROR else .next [ch] n
      if high c1 then
        if SJIS1 c1 then
          match sjis_str with
          | [] => .stop CS_BAD_INPUT
          | c2 :: _ =>
              if ¬SJIS2 c2 then .stop CS_BAD_INPUT
              else
                let w := wide (S2E c1 c2).1 (S2E c1 c2).2
                put (jis w) w 2
        else if SJIS_SINGLE c1 then put (sjis c1.val) c1.val 1
        else .stop CS_BAD_INPUT
      else put (sjis c1.val) c1.val 1

theorem unicode_neZero : NeZero 65536 := ⟨by decide⟩

/-- The body of the loop of `CVJIS_eucj_to_unicode`: `src_len` still counts the first byte when it
is asked whether there is a second one. -/
def eucjToUnicodeBody (jis : ℕ → UNICODE) (_dest_len : ℕ) : List UCHAR → Body UNICODE
  | [] => .stop 0
  | ch1 :: src_ptr =>
      if ¬high ch1 then .next [@Fin.ofNat 65536 unicode_neZero ch1.val] 1
      else if (ch1 :: src_ptr).length = 0 then .stop CS_BAD_INPUT
      else
        match src_ptr with
        | [] => .fault
        | ch2 :: _ => if ¬high ch2 then .stop CS_BAD_INPUT else .next [jis (wide ch1 ch2)] 2

/-- A conversion with a destination of `room` bytes: its loop, and `err_code` and `err_position` at
the end. There is no result where a byte behind the source is read. -/
def convert {α : Type} (body : ℕ → List UCHAR → Body α) (width room : ℕ) (src : List UCHAR) :
    Option (Converted α) :=
  (Transcode.loop body width src.length room src).map fun r =>
    { dest := r.1
      err_code := if r.2.2.length ≠ 0 ∧ r.2.1 = 0 then CS_TRUNCATION_ERROR else r.2.1
      err_position := src.length - r.2.2.length }

def CVJIS_sjis2euc (euc_len : ℕ) (sjis_str : List UCHAR) : Option (Converted UCHAR) :=
  convert sjis2eucBody 1 euc_len sjis_str

def CVJIS_euc2sjis (sjis_len : ℕ) (euc_str : List UCHAR) : Option (Converted UCHAR) :=
  convert euc2sjisBody 1 sjis_len euc_str

def CVJIS_sjis_to_unicode (jis sjis : ℕ → UNICODE) (dest_len : ℕ) (sjis_str : List UCHAR) :
    Option (Converted UNICODE) :=
  convert (sjisToUnicodeBody jis sjis) 2 dest_len sjis_str

def CVJIS_eucj_to_unicode (jis : ℕ → UNICODE) (dest_len : ℕ) (src : List UCHAR) :
    Option (Converted UNICODE) :=
  convert (eucjToUnicodeBody jis) 2 dest_len src

/-! ## Characters -/

inductive SjisChar : List UCHAR → Prop
  | ascii {c : UCHAR} : high c = false → SjisChar [c]
  | kana {c : UCHAR} : high c = true → SJIS1 c = false → SJIS_SINGLE c = true → SjisChar [c]
  | kanji {c1 c2 : UCHAR} : high c1 = true → SJIS1 c1 = true → SJIS2 c2 = true → SjisChar [c1, c2]

inductive EucChar : List UCHAR → Prop
  | ascii {c : UCHAR} : high c = false → EucChar [c]
  | two {c1 c2 : UCHAR} : high c1 = true → high c2 = true → EucChar [c1, c2]

def toEuc : List UCHAR → List UCHAR
  | [c] => if high c then [0x8e, c] else [c]
  | [c1, c2] => [(S2E c1 c2).1, (S2E c1 c2).2]
  | _ => []

def toSjis : List UCHAR → List UCHAR
  | [c] => [c]
  | [c1, c2] => if c1 = 0x8e then [c2] else [(E2S c1 c2).1, (E2S c1 c2).2]
  | _ => []

def sjisToUnicode (jis sjis : ℕ → UNICODE) : List UCHAR → List UNICODE
  | [c] => [sjis c.val]
  | [c1, c2] => [jis (wide (S2E c1 c2).1 (S2E c1 c2).2)]
  | _ => []

def eucjToUnicode (jis : ℕ → UNICODE) : List UCHAR → List UNICODE
  | [c] => [@Fin.ofNat 65536 unicode_neZero c.val]
  | [c1, c2] => [jis (wide c1 c2)]
  | _ => []

/-! ## What the loops take -/

open Transcode (Takes Accepts loop)

variable {jis sjis : ℕ → UNICODE}

theorem sjis2euc_takes : Takes sjis2eucBody 1 SjisChar toEuc := by
  intro room src out n hroom h
  cases src with
  | nil => cases h
  | cons c1 src =>
      rw [sjis2eucBody.eq_def] at h
      dsimp only at h
      split at h
      · rename_i hhigh
        split at h
        · rename_i hfirst
          cases src with
          | nil => cases h
          | cons c2 src =>
              dsimp only at h
              split at h
              · cases h
              · rename_i hsecond
                split at h
                · cases h
                · cases h
                  exact ⟨[c1, c2], src, rfl, rfl, List.cons_ne_nil _ _,
                    .kanji hhigh hfirst (not_not.mp hsecond), rfl, by
                      rw [List.length_cons, List.length_singleton]; omega⟩
        · rename_i hfirst
          split at h
          · rename_i hsingle
            split at h
            · cases h
            · cases h
              exact ⟨[c1], src, rfl, rfl, List.cons_ne_nil _ _,
                .kana hhigh (Bool.eq_false_iff.mpr hfirst) hsingle, (if_pos hhigh).symm, by
                  rw [List.length_cons, List.length_singleton]; omega⟩
          · cases h
      · rename_i hhigh
        cases h
        exact ⟨[c1], src, rfl, rfl, List.cons_ne_nil _ _, .ascii (Bool.eq_false_iff.mpr hhigh),
          (if_neg hhigh).symm, by rw [List.length_singleton]; omega⟩

theorem euc2sjis_takes : Takes euc2sjisBody 1 EucChar toSjis := by
  intro room src out n hroom h
  cases src with
  | nil => cases h
  | cons c1 src =>
      rw [euc2sjisBody.eq_def] at h
      dsimp only at h
      split at h
      · rename_i hhigh
        rw [if_pos (show EUC1 c1 = true from hhigh)] at h
        cases src with
        | nil => cases h
        | cons c2 src =>
            dsimp only at h
            split at h
            · cases h
            · rename_i hsecond
              split at h
              · rename_i hkana
                cases h
                exact ⟨[c1, c2], src, rfl, rfl, List.cons_ne_nil _ _,
                  .two hhigh (not_not.mp hsecond), (if_pos hkana).symm, by
                    rw [List.length_singleton]; omega⟩
              · rename_i hkana
                split at h
                · cases h
                · cases h
                  exact ⟨[c1, c2], src, rfl, rfl, List.cons_ne_nil _ _,
                    .two hhigh (not_not.mp hsecond), (if_neg hkana).symm, by
                      rw [List.length_cons, List.length_singleton]; omega⟩
      · rename_i hhigh
        cases h
        exact ⟨[c1], src, rfl, rfl, List.cons_ne_nil _ _, .ascii (Bool.eq_false_iff.mpr hhigh), rfl,
          by rw [List.length_singleton]; omega⟩

theorem sjisToUnicode_takes :
    Takes (sjisToUnicodeBody jis sjis) 2 SjisChar (sjisToUnicode jis sjis) := by
  intro room src out n hroom h
  cases src with
  | nil => cases h
  | cons c1 src =>
      rw [sjisToUnicodeBody.eq_def] at h
      dsimp only at h
      split at h
      · rename_i hhigh
        split at h
        · rename_i hfirst
          cases src with
          | nil => cases h
          | cons c2 src =>
              dsimp only at h
              split at h
              · cases h
              · rename_i hsecond
                split at h
                · cases h
                · cases h
                  exact ⟨[c1, c2], src, rfl, rfl, List.cons_ne_nil _ _,
                    .kanji hhigh hfirst (not_not.mp hsecond), rfl, by
                      rw [List.length_singleton]; omega⟩
        · rename_i hfirst
          split at h
          · rename_i hsingle
            split at h
            · cases h
            · cases h
              exact ⟨[c1], src, rfl, rfl, List.cons_ne_nil _ _,
                .kana hhigh (Bool.eq_false_iff.mpr hfirst) hsingle, rfl, by
                  rw [List.length_singleton]; omega⟩
          · cases h
      · rename_i hhigh
        split at h
        · cases h
        · cases h
          exact ⟨[c1], src, rfl, rfl, List.cons_ne_nil _ _, .ascii (Bool.eq_false_iff.mpr hhigh), rfl,
            by rw [List.length_singleton]; omega⟩

theorem eucjToUnicode_takes : Takes (eucjToUnicodeBody jis) 2 EucChar (eucjToUnicode jis) := by
  intro room src out n hroom h
  cases src with
  | nil => cases h
  | cons c1 src =>
      rw [eucjToUnicodeBody.eq_def] at h
      dsimp only at h
      split at h
      · rename_i hhigh
        cases h
        exact ⟨[c1], src, rfl, rfl, List.cons_ne_nil _ _, .ascii (Bool.eq_false_iff.mpr hhigh), rfl,
          by rw [List.length_singleton]; omega⟩
      · rename_i hhigh
        rw [if_neg (by rw [List.length_cons]; omega)] at h
        cases src with
        | nil => cases h
        | cons c2 src =>
            dsimp only at h
            split at h
            · cases h
            · rename_i hsecond
              cases h
              exact ⟨[c1, c2], src, rfl, rfl, List.cons_ne_nil _ _,
                .two (not_not.mp hhigh) (not_not.mp hsecond), rfl, by
                  rw [List.length_singleton]; omega⟩

/-! ## What the loops accept -/

set_option maxRecDepth 1000 in
theorem val_xor_high : ∀ c : UCHAR, 128 ≤ c.val → (c ^^^ 0x80).val = c.val - 128 := by
  decide

set_option maxRecDepth 1000 in
theorem high_iff : ∀ c : UCHAR, high c = true ↔ 128 ≤ c.val := by decide

theorem SJIS1_iff (c : UCHAR) : SJIS1 c = true ↔
    (0x80 ≤ c.val ∧ c.val ≤ 0x9f) ∨ (0xe0 ≤ c.val ∧ c.val ≤ 0xef) := decide_eq_true_iff

theorem SJIS2_iff (c : UCHAR) : SJIS2 c = true ↔ 0x40 ≤ c.val ∧ c.val ≤ 0xfc := decide_eq_true_iff

theorem val_ofNat (n : ℕ) : (Fin.ofNat 256 n).val = n % 256 := rfl

/-- The bytes of a kanji have the high bit, and the first one is not that of a kana. -/
theorem S2E_high {c1 c2 : UCHAR} (h1 : SJIS1 c1 = true) (h2 : SJIS2 c2 = true) :
    128 ≤ (S2E c1 c2).1.val ∧ 128 ≤ (S2E c1 c2).2.val ∧ (S2E c1 c2).1.val ≠ 0x8e := by
  rw [SJIS1_iff] at h1
  rw [SJIS2_iff] at h2
  rw [S2E]
  split
  · split
    · simp only [val_ofNat]
      omega
    · simp only [val_ofNat]
      omega
  · split <;> split <;> simp only [val_ofNat] <;> omega

/-- The first byte of the way back -/
theorem E2S_fst {j1 j2 : UCHAR} (h1 : 128 ≤ j1.val) : (E2S j1 j2).1.val =
    ((j1.val - 128 + 65536 - 0x21) % 65536 / 2 + if j1.val - 128 ≤ 0x5e then 0x81 else 0xc1) % 256 := by
  rw [E2S, val_ofNat, val_xor_high _ h1]

/-- The second byte of the way back -/
theorem E2S_snd {j1 j2 : UCHAR} (h1 : 128 ≤ j1.val) (h2 : 128 ≤ j2.val) : (E2S j1 j2).2.val =
    if (j1.val - 128) % 2 ≠ 0 then (j2.val - 128 + if j2.val - 128 ≤ 0x5f then 0x1f else 0x20) % 256
    else (j2.val - 128 + 0x7e) % 256 := by
  rw [E2S, apply_ite Fin.val, val_ofNat, val_ofNat, val_xor_high _ h1, val_xor_high _ h2,
    Nat.and_one_is_mod]

/-- The way back is right, but for the second byte `0x7F`, which is taken for `0x7E`. -/
theorem E2S_S2E {c1 c2 : UCHAR} (h1 : SJIS1 c1 = true) (h2 : SJIS2 c2 = true) :
    E2S (S2E c1 c2).1 (S2E c1 c2).2 = (c1, if c2 = 0x7f then 0x7e else c2) := by
  obtain ⟨hhigh1, hhigh2, -⟩ := S2E_high h1 h2
  have hdel : (if c2 = 0x7f then 0x7e else c2).val = if c2.val = 0x7f then 0x7e else c2.val := by
    rw [apply_ite Fin.val]
    exact if_congr Fin.ext_iff rfl rfl
  rw [SJIS1_iff] at h1
  rw [SJIS2_iff] at h2
  rw [Prod.mk.injEq, Fin.ext_iff, Fin.ext_iff, hdel, E2S_fst hhigh1, E2S_snd hhigh1 hhigh2]
  -- the second byte tells the ranges of the macro apart, and the parity of the first one
  by_cases hsecond : c2.val ≥ 0x9f
  · have hnext : (S2E c1 c2).2.val = c2.val + 2 := by
      rw [S2E, if_pos hsecond, val_ofNat]
      omega
    have hfirst : (S2E c1 c2).1.val = c1.val * 2 - 0xe0 ∧ 0xe0 ≤ c1.val ∨
        (S2E c1 c2).1.val = c1.val * 2 - 0x60 ∧ c1.val ≤ 0x9f := by
      rw [S2E, if_pos hsecond, apply_ite Fin.val, val_ofNat, val_ofNat]
      split <;> omega
    rw [hnext, if_neg (by omega : ¬c2.val = 0x7f)]
    rcases hfirst with ⟨hfirst, hrange⟩ | ⟨hfirst, hrange⟩
    · rw [hfirst, if_neg (by omega), if_neg (by omega)]
      omega
    · rw [hfirst, if_pos (by omega), if_neg (by omega)]
      omega
  · have hfirst : (S2E c1 c2).1.val = c1.val * 2 - 0xe1 ∧ 0xe0 ≤ c1.val ∨
        (S2E c1 c2).1.val = c1.val * 2 - 0x61 ∧ c1.val ≤ 0x9f := by
      rw [S2E, if_neg hsecond, apply_ite Fin.val, val_ofNat, val_ofNat]
      split <;> omega
    have hnext : (S2E c1 c2).2.val = c2.val + 0x60 ∧ 0x7f ≤ c2.val ∨
        (S2E c1 c2).2.val = c2.val + 0x61 ∧ c2.val < 0x7f := by
      rw [S2E, if_neg hsecond, apply_ite Fin.val, val_ofNat, val_ofNat]
      split <;> omega
    have hodd : ((S2E c1 c2).1.val - 128) % 2 ≠ 0 := by omega
    rw [if_pos hodd]
    constructor
    · split <;> omega
    · rcases hnext with ⟨hnext, hrange⟩ | ⟨hnext, hrange⟩
      · rw [hnext]
        split <;> split <;> omega
      · rw [hnext, if_pos (by omega), if_neg (by omega)]
        omega

theorem sjis2euc_accepts : Accepts sjis2eucBody 1 SjisChar toEuc := by
  intro c hc
  cases hc with
  | @ascii c hhigh =>
      have hconv : toEuc [c] = [c] := if_neg (Bool.eq_false_iff.mp hhigh)
      rw [hconv]
      refine ⟨List.cons_ne_nil _ _, List.cons_ne_nil _ _, fun room rest hroom => ?_⟩
      rw [List.singleton_append, sjis2eucBody.eq_def]
      exact if_neg (Bool.eq_false_iff.mp hhigh)
  | @kana c hhigh hfirst hsingle =>
      have hconv : toEuc [c] = [0x8e, c] := if_pos hhigh
      rw [hconv]
      refine ⟨List.cons_ne_nil _ _, List.cons_ne_nil _ _, fun room rest hroom => ?_⟩
      rw [List.length_cons, List.length_singleton] at hroom
      rw [List.singleton_append, sjis2eucBody.eq_def]
      dsimp only
      rw [if_pos hhigh, if_neg (Bool.eq_false_iff.mp hfirst), if_pos hsingle, if_neg (by omega)]
      rfl
  | @kanji c1 c2 hhigh hfirst hsecond =>
      have hconv : toEuc [c1, c2] = [(S2E c1 c2).1, (S2E c1 c2).2] := rfl
      rw [hconv]
      refine ⟨List.cons_ne_nil _ _, List.cons_ne_nil _ _, fun room rest hroom => ?_⟩
      rw [List.length_cons, List.length_singleton] at hroom
      rw [List.cons_append, List.singleton_append, sjis2eucBody.eq_def]
      dsimp only
      rw [if_pos hhigh, if_pos hfirst, if_neg (not_not.mpr hsecond), if_neg (by omega)]
      rfl

theorem euc2sjis_accepts : Accepts euc2sjisBody 1 EucChar toSjis := by
  intro c hc
  cases hc with
  | @ascii c hhigh =>
      refine ⟨List.cons_ne_nil _ _, List.cons_ne_nil _ _, fun room rest hroom => ?_⟩
      rw [List.singleton_append, euc2sjisBody.eq_def]
      exact if_neg (Bool.eq_false_iff.mp hhigh)
  | @two c1 c2 hhigh hsecond =>
      have heuc : EUC2 c2 = true := hsecond
      by_cases hkana : c1 = 0x8e
      · have hconv : toSjis [c1, c2] = [c2] := if_pos hkana
        rw [hconv]
        refine ⟨List.cons_ne_nil _ _, List.cons_ne_nil _ _, fun room rest hroom => ?_⟩
        rw [List.cons_append, List.singleton_append, euc2sjisBody.eq_def]
        dsimp only
        rw [if_pos hhigh, if_pos (show EUC1 c1 = true from hhigh), if_neg (not_not.mpr heuc),
          if_pos hkana]
        rfl
      · have hconv : toSjis [c1, c2] = [(E2S c1 c2).1, (E2S c1 c2).2] := if_neg hkana
        rw [hconv]
        refine ⟨List.cons_ne_nil _ _, List.cons_ne_nil _ _, fun room rest hroom => ?_⟩
        rw [List.length_cons, List.length_singleton] at hroom
        rw [List.cons_append, List.singleton_append, euc2sjisBody.eq_def]
        dsimp only
        rw [if_pos hhigh, if_pos (show EUC1 c1 = true from hhigh), if_neg (not_not.mpr heuc),
          if_neg hkana, if_neg (by omega)]
        rfl

theorem eucjToUnicode_accepts : Accepts (eucjToUnicodeBody jis) 2 EucChar (eucjToUnicode jis) := by
  intro c hc
  cases hc with
  | @ascii c hhigh =>
      refine ⟨List.cons_ne_nil _ _, List.cons_ne_nil _ _, fun room rest hroom => ?_⟩
      rw [List.singleton_append, eucjToUnicodeBody.eq_def]
      exact if_pos (Bool.eq_false_iff.mp hhigh)
  | @two c1 c2 hhigh hsecond =>
      refine ⟨List.cons_ne_nil _ _, List.cons_ne_nil _ _, fun room rest hroom => ?_⟩
      rw [List.cons_append, List.singleton_append, eucjToUnicodeBody.eq_def]
      dsimp only
      rw [if_neg (not_not.mpr hhigh), if_neg (by rw [List.length_cons]; omega),
        if_neg (not_not.mpr hsecond)]
      rfl

/-! ## Staying in bounds -/

/-- A conversion reads only its source and writes only its destination, and stops behind a stretch
of whole characters. -/
def InBounds {α : Type} (isChar : List UCHAR → Prop) (width room : ℕ) (src : List UCHAR)
    (r : Option (Converted α)) : Prop :=
  ∃ c ∈ r, width * c.dest.length ≤ room ∧ c.err_position ≤ src.length ∧
    ∃ cs : List (List UCHAR), (∀ x ∈ cs, isChar x) ∧ src.take c.err_position = cs.flatten

theorem inBounds_convert {α : Type} {body : ℕ → List UCHAR → Body α} {width room : ℕ}
    {isChar : List UCHAR → Prop} {conv : List UCHAR → List α} {src : List UCHAR}
    (htakes : Takes body width isChar conv) :
    InBounds isChar width room src (convert body width room src) ↔
      (loop body width src.length room src).isSome := by
  constructor
  · rintro ⟨c, hc, -⟩
    obtain ⟨r, hr, -⟩ := Option.map_eq_some_iff.mp hc
    exact Option.isSome_of_mem hr
  · intro hsome
    obtain ⟨r, hr⟩ := Option.isSome_iff_exists.mp hsome
    obtain ⟨cs, hcs, hsrc, -, hroom⟩ := Transcode.loop_spec htakes hr
    refine ⟨_, Option.mem_map_of_mem _ hr, hroom, Nat.sub_le _ _, cs, hcs, ?_⟩
    have hlen : src.length - r.2.2.length = cs.flatten.length := by
      rw [hsrc, List.length_append, Nat.add_sub_cancel]
    dsimp only
    rw [hlen]
    nth_rewrite 1 [hsrc]
    exact List.take_left

theorem sjis2euc_no_fault (room : ℕ) (src : List UCHAR) : sjis2eucBody room src ≠ .fault := by
  intro h
  cases src with
  | nil => cases h
  | cons c1 src =>
      rw [sjis2eucBody.eq_def] at h
      cases src with
      | nil =>
          dsimp only at h
          split_ifs at h
      | cons c2 src =>
          dsimp only at h
          split_ifs at h

theorem euc2sjis_no_fault (room : ℕ) (src : List UCHAR) : euc2sjisBody room src ≠ .fault := by
  intro h
  cases src with
  | nil => cases h
  | cons c1 src =>
      rw [euc2sjisBody.eq_def] at h
      cases src with
      | nil =>
          dsimp only at h
          split_ifs at h
      | cons c2 src =>
          dsimp only at h
          split_ifs at h

theorem sjisToUnicode_no_fault (room : ℕ) (src : List UCHAR) :
    sjisToUnicodeBody jis sjis room src ≠ .fault := by
  intro h
  cases src with
  | nil => cases h
  | cons c1 src =>
      rw [sjisToUnicodeBody.eq_def] at h
      cases src with
      | nil =>
          dsimp only at h
          split_ifs at h
      | cons c2 src =>
          dsimp only at h
          split_ifs at h

/-- The source is cut in the middle of a character, and there is room for all before it and for one
more. -/
def Cut (dest_len : ℕ) (src : List UCHAR) : Prop :=
  ∃ (cs : List (List UCHAR)) (b : UCHAR), (∀ c ∈ cs, EucChar c) ∧ src = cs.flatten ++ [b] ∧
    high b = true ∧ 2 * cs.length + 2 ≤ dest_len

theorem length_eucjToUnicode {cs : List (List UCHAR)} (hcs : ∀ c ∈ cs, EucChar c) :
    (cs.flatMap (eucjToUnicode jis)).length = cs.length := by
  induction cs with
  | nil => rfl
  | cons c cs ih =>
      have hone : (eucjToUnicode jis c).length = 1 := by
        cases hcs c List.mem_cons_self with
        | ascii _ => rfl
        | two _ _ => rfl
      rw [List.flatMap_cons, List.length_append, hone,
        ih fun c' hc' => hcs c' (List.mem_cons_of_mem _ hc'), List.length_cons, Nat.add_comm]

/-- The body looks behind the end for the second byte of a character. -/
theorem eucjToUnicode_fault {room : ℕ} {src : List UCHAR} (hsrc : src ≠ [])
    (h : eucjToUnicodeBody jis room src = .fault) : ∃ b, src = [b] ∧ high b = true := by
  cases src with
  | nil => exact absurd rfl hsrc
  | cons c1 src =>
      rw [eucjToUnicodeBody.eq_def] at h
      dsimp only at h
      split at h
      · cases h
      · rename_i hhigh
        rw [if_neg (by rw [List.length_cons]; omega)] at h
        cases src with
        | nil => exact ⟨c1, rfl, not_not.mp hhigh⟩
        | cons c2 src =>
            dsimp only at h
            split at h
            · cases h
            · cases h

theorem eucj_loop_isSome_iff (dest_len : ℕ) (src : List UCHAR) :
    (loop (eucjToUnicodeBody jis) 2 src.length dest_len src).isSome ↔ ¬Cut dest_len src := by
  constructor
  · rintro hsome ⟨cs, b, hcs, rfl, hhigh, hroom⟩
    have hlen := @length_eucjToUnicode jis cs hcs
    obtain ⟨k, hk, heq⟩ := Transcode.loop_append (@eucjToUnicode_accepts jis) hcs
      (by omega : _ ≤ dest_len) (le_refl (cs.flatten ++ [b]).length)
    rw [List.length_singleton] at hk
    obtain ⟨k, rfl⟩ : ∃ k', k = k' + 1 := ⟨k - 1, by omega⟩
    have hbody : ∀ room, eucjToUnicodeBody jis room [b] = .fault := fun _ =>
      (if_neg (not_not.mpr hhigh)).trans rfl
    have hnone : loop (eucjToUnicodeBody jis) 2 (k + 1)
        (dest_len - 2 * (cs.flatMap (eucjToUnicode jis)).length) [b] = none := by
      rw [loop, if_neg (by rw [not_or]; exact ⟨Bool.false_ne_true, by omega⟩), hbody]
    rw [heq, hnone] at hsome
    cases hsome
  · intro hcut
    rw [Option.isSome_iff_ne_none]
    intro hnone
    obtain ⟨cs, rest, hcs, rfl, hne, hroom, hfault⟩ :=
      Transcode.exists_fault eucjToUnicode_takes hnone
    obtain ⟨b, rfl, hhigh⟩ := eucjToUnicode_fault hne hfault
    rw [length_eucjToUnicode hcs] at hroom
    exact hcut ⟨cs, b, hcs, rfl, hhigh, hroom⟩

/-! ## There and back -/

/-- Whatever `CVJIS_sjis2euc` accepts as a whole, `CVJIS_euc2sjis` turns back into it. -/
def RoundTrip (sjis_str : List UCHAR) : Prop :=
  ∀ (euc_len : ℕ) (c : Converted UCHAR), CVJIS_sjis2euc euc_len sjis_str = some c → c.err_code = 0 →
    ∀ sjis_len, sjis_str.length ≤ sjis_len →
      CVJIS_euc2sjis sjis_len c.dest = some ⟨sjis_str, 0, c.dest.length⟩

/-- A whole string that has a kanji with the second byte `0x7F` -/
def Deleted (sjis_str : List UCHAR) : Prop :=
  ∃ cs : List (List UCHAR), (∀ c ∈ cs, SjisChar c) ∧ sjis_str = cs.flatten ∧
    ∃ c1, [c1, 0x7f] ∈ cs

/-- What comes back of a character -/
def back (c : List UCHAR) : List UCHAR := toSjis (toEuc c)

theorem toEuc_char {c : List UCHAR} (h : SjisChar c) : EucChar (toEuc c) := by
  cases h with
  | @ascii c hhigh =>
      rw [toEuc, if_neg (Bool.eq_false_iff.mp hhigh)]
      exact .ascii hhigh
  | @kana c hhigh hfirst hsingle =>
      rw [toEuc, if_pos hhigh]
      exact .two rfl hhigh
  | @kanji c1 c2 hhigh hfirst hsecond =>
      obtain ⟨h1, h2, -⟩ := S2E_high hfirst hsecond
      exact .two ((high_iff _).mpr h1) ((high_iff _).mpr h2)

theorem back_eq {c : List UCHAR} (h : SjisChar c) :
    (back c).length = c.length ∧ (back c = c ↔ ∀ c1, c ≠ [c1, 0x7f]) := by
  cases h with
  | @ascii c hhigh =>
      have hback : back [c] = [c] := by
        rw [back, toEuc, if_neg (Bool.eq_false_iff.mp hhigh)]
        rfl
      rw [hback]
      exact ⟨rfl, iff_of_true rfl nofun⟩
  | @kana c hhigh hfirst hsingle =>
      have hback : back [c] = [c] := by
        rw [back, toEuc, if_pos hhigh]
        rfl
      rw [hback]
      exact ⟨rfl, iff_of_true rfl nofun⟩
  | @kanji c1 c2 hhigh hfirst hsecond =>
      have hne : ¬(S2E c1 c2).1 = 0x8e := fun heq =>
        (S2E_high hfirst hsecond).2.2 (congrArg Fin.val heq)
      have hback : back [c1, c2] = [c1, if c2 = 0x7f then 0x7e else c2] := by
        rw [back, toEuc, toSjis, if_neg hne, E2S_S2E hfirst hsecond]
      rw [hback]
      refine ⟨rfl, ?_⟩
      by_cases hdel : c2 = 0x7f
      · rw [if_pos hdel, hdel]
        exact iff_of_false (by simp) fun h => h c1 rfl
      · rw [if_neg hdel]
        exact iff_of_true rfl fun c h => hdel (List.cons.inj (List.cons.inj h).2).1

/-- Pieces of the same lengths are the same ones if they are the same string. -/
theorem flatMap_back_eq {cs : List (List UCHAR)} (hcs : ∀ c ∈ cs, SjisChar c) :
    cs.flatMap back = cs.flatten ↔ ∀ c ∈ cs, back c = c := by
  induction cs with
  | nil => exact iff_of_true rfl fun c hc => absurd hc List.not_mem_nil
  | cons c cs ih =>
      rw [List.flatMap_cons, List.flatten_cons, List.forall_mem_cons,
        ← ih fun c' hc' => hcs c' (List.mem_cons_of_mem _ hc')]
      constructor
      · intro h
        exact List.append_inj h (back_eq (hcs c List.mem_cons_self)).1
      · rintro ⟨hc, hrest⟩
        rw [hc, hrest]

/-- A whole string is converted, if there is room for it. -/
theorem convert_whole {conv : List UCHAR → List UCHAR} {isChar : List UCHAR → Prop}
    {body : ℕ → List UCHAR → Body UCHAR} (haccepts : Accepts body 1 isChar conv)
    {cs : List (List UCHAR)} (hcs : ∀ c ∈ cs, isChar c) {room : ℕ}
    (hroom : (cs.flatMap conv).length ≤ room) :
    convert body 1 room cs.flatten = some ⟨cs.flatMap conv, 0, cs.flatten.length⟩ := by
  obtain ⟨k, -, heq⟩ := Transcode.loop_append haccepts hcs (by omega : _ ≤ room)
    (le_refl (cs.flatten ++ []).length)
  rw [List.append_nil] at heq
  have hend : ∀ room, loop body 1 k room [] = some ([], 0, []) := by
    intro room
    cases k with
    | zero => rfl
    | succ k => rfl
  rw [convert, heq, hend]
  simp

theorem roundTrip_iff (sjis_str : List UCHAR) : RoundTrip sjis_str ↔ ¬Deleted sjis_str := by
  -- what comes back of a whole string
  have hback : ∀ cs : List (List UCHAR), (∀ c ∈ cs, SjisChar c) → ∀ sjis_len,
      (cs.flatMap back).length ≤ sjis_len → CVJIS_euc2sjis sjis_len (cs.flatMap toEuc) =
        some ⟨cs.flatMap back, 0, (cs.flatMap toEuc).length⟩ := by
    intro cs hcs sjis_len hroom
    have heuc : ∀ c ∈ cs.map toEuc, EucChar c := by
      intro c hc
      obtain ⟨c', hc', rfl⟩ := List.mem_map.mp hc
      exact toEuc_char (hcs c' hc')
    have hflat : (cs.map toEuc).flatten = cs.flatMap toEuc := rfl
    have hmap : (cs.map toEuc).flatMap toSjis = cs.flatMap back := List.flatMap_map ..
    have hall := @convert_whole _ _ _ euc2sjis_accepts _ heuc sjis_len (by rwa [hmap])
    rwa [hflat, hmap] at hall
  have hlength : ∀ cs : List (List UCHAR), (∀ c ∈ cs, SjisChar c) →
      (cs.flatMap back).length = cs.flatten.length := by
    intro cs hcs
    rw [List.length_flatMap, List.length_flatten]
    congr 1
    exact List.map_congr_left fun c hc => (back_eq (hcs c hc)).1
  constructor
  · rintro htrip ⟨cs, hcs, rfl, c1, hdel⟩
    have hthere := convert_whole sjis2euc_accepts hcs le_rfl
    have hhere := htrip _ _ hthere rfl _ le_rfl
    rw [hback cs hcs _ (hlength cs hcs).le] at hhere
    have hsame : cs.flatMap back = cs.flatten := congrArg Converted.dest (Option.some.inj hhere)
    exact (back_eq (hcs _ hdel)).2.mp ((flatMap_back_eq hcs).mp hsame _ hdel) c1 rfl
  · intro hdel euc_len c hthere hcode sjis_len hroom
    obtain ⟨⟨dest, e, rest⟩, hr, rfl⟩ := Option.map_eq_some_iff.mp hthere
    obtain ⟨cs, hcs, hsrc, hdest, -⟩ := Transcode.loop_spec sjis2euc_takes hr
    dsimp only at hsrc hdest hcode ⊢
    have hrest : rest = [] := by
      by_contra hne
      have hpos := List.length_pos_iff.mpr hne
      split at hcode
      · cases hcode
      · omega
    rw [hrest, List.append_nil] at hsrc
    have hsame : ∀ c ∈ cs, back c = c := by
      intro c hc
      apply (back_eq (hcs c hc)).2.mpr
      rintro c1 rfl
      exact hdel ⟨cs, hcs, hsrc, c1, hc⟩
    have hall := hback cs hcs sjis_len (by rw [hlength cs hcs, ← hsrc]; exact hroom)
    rw [(flatMap_back_eq hcs).mpr hsame, ← hsrc, ← hdest] at hall
    exact hall

/-- Three of the conversions always stay in bounds, and `CVJIS_eucj_to_unicode` does exactly if it does
not come to a source that is cut. Shift-JIS comes back from EUC-J exactly if no second byte is
`0x7F`. -/
theorem jis_conversions_iff (jis sjis : ℕ → UNICODE) (src : List UCHAR) (room : ℕ) :
    InBounds SjisChar 1 room src (CVJIS_sjis2euc room src) ∧
    InBounds EucChar 1 room src (CVJIS_euc2sjis room src) ∧
    InBounds SjisChar 2 room src (CVJIS_sjis_to_unicode jis sjis room src) ∧
    (InBounds EucChar 2 room src (CVJIS_eucj_to_unicode jis room src) ↔ ¬Cut room src) ∧
    (RoundTrip src ↔ ¬Deleted src) := by
  refine ⟨?_, ?_, ?_, ?_, roundTrip_iff src⟩
  · exact (inBounds_convert sjis2euc_takes).mpr (Transcode.loop_isSome sjis2euc_no_fault _ _ _)
  · exact (inBounds_convert euc2sjis_takes).mpr (Transcode.loop_isSome euc2sjis_no_fault _ _ _)
  · exact (inBounds_convert sjisToUnicode_takes).mpr
      (Transcode.loop_isSome sjisToUnicode_no_fault _ _ _)
  · exact (inBounds_convert eucjToUnicode_takes).trans (eucj_loop_isSome_iff room src)

/-- A source that is one byte of a character is read behind its end, and the kanji `81 7F` comes back
as `81 7E`. -/
theorem jis_conversions_cut :
    (¬∀ (jis : ℕ → UNICODE) (src : List UCHAR) (room : ℕ),
      InBounds EucChar 2 room src (CVJIS_eucj_to_unicode jis room src)) ∧
    ¬∀ src : List UCHAR, RoundTrip src := by
  constructor
  · intro hall
    obtain ⟨c, hc, -⟩ := hall (fun _ => 0) [0xb0] 2
    have hnone : CVJIS_eucj_to_unicode (fun _ => 0) 2 [0xb0] = none := by decide
    rw [hnone] at hc
    cases hc
  · intro hall
    have hthere : CVJIS_sjis2euc 2 [0x81, 0x7f] = some ⟨[0xa1, 0xdf], 0, 2⟩ := by decide
    have hhere : CVJIS_euc2sjis 2 [0xa1, 0xdf] = some ⟨[0x81, 0x7e], 0, 2⟩ := by decide
    have hback := hall [0x81, 0x7f] 2 _ hthere rfl 2 le_rfl
    rw [hhere] at hback
    revert hback
    decide

end Firebird.Intl
