import Firebird.Lib.Outcome
import Firebird.Lib.Pattern

/-! # LIKE and MATCHES (`LIKENAME` and `MATCHESNAME` in `jrd/evl_like.cpp`)

Characters are their codes, so that one model serves the variants for 8 and for 16 bits. `MATCHES`
is `LIKE` with other special characters and without an escape character.
-/

open Computability

namespace Firebird.Evl

/-- A character of a string or a pattern, 0 where there is no escape character -/
abbrev LIKETYPE := ℕ

def SQL_MATCH_ONE : LIKETYPE := '_'.toNat

def SQL_MATCH_ANY : LIKETYPE := '%'.toNat

def GDML_MATCH_ONE : LIKETYPE := '?'.toNat

def GDML_MATCH_ANY : LIKETYPE := '*'.toNat

/-- What `ERR_post` reports -/
inductive LikeError where
  | likeEscapeInvalid
deriving DecidableEq

/-- The two special characters and the escape character -/
structure Specials where
  one : LIKETYPE
  any : LIKETYPE
  escapeChar : LIKETYPE

variable {w : Specials}

/-- Reading the character `c`: the character, `escape`, and the rest of the pattern -/
def Specials.read (w : Specials) (c : LIKETYPE) (p2 : List LIKETYPE) :
    Except LikeError (LIKETYPE × Bool × List LIKETYPE) :=
  if w.escapeChar ≠ 0 ∧ c = w.escapeChar then
    match p2 with
    | [] => .error .likeEscapeInvalid
    | c :: p2 =>
      if c = w.escapeChar ∨ c = w.any ∨ c = w.one then .ok (c, true, p2)
      else .error .likeEscapeInvalid
  else .ok (c, false, p2)

theorem read_length {c c' : LIKETYPE} {e : Bool} {p2 r : List LIKETYPE}
    (h : w.read c p2 = .ok (c', e, r)) : r.length < (c :: p2).length := by
  unfold Specials.read at h
  rw [List.length_cons, Nat.lt_succ_iff]
  split at h
  · cases p2 with
    | nil => cases h
    | cons d p2 =>
      simp only at h
      split at h
      · cases h
        exact Nat.le_succ _
      · cases h
  · cases h
    exact le_rfl

theorem read_escaped {c : LIKETYPE} (hw : w.escapeChar ≠ 0)
    (hc : c = w.escapeChar ∨ c = w.any ∨ c = w.one) (p2 : List LIKETYPE) :
    w.read w.escapeChar (c :: p2) = .ok (c, true, p2) := by
  unfold Specials.read
  rw [if_pos ⟨hw, rfl⟩]
  exact if_pos hc

theorem read_plain {c : LIKETYPE} (hc : ¬(w.escapeChar ≠ 0 ∧ c = w.escapeChar))
    (p2 : List LIKETYPE) : w.read c p2 = .ok (c, false, p2) :=
  if_neg hc

/-- The loop that skips further characters for any sequence -/
def Specials.skip (w : Specials) (p2 : List LIKETYPE) : List LIKETYPE :=
  p2.dropWhile (· == w.any)

theorem skip_any (p2 : List LIKETYPE) : w.skip (w.any :: p2) = w.skip p2 :=
  List.dropWhile_cons_of_pos (beq_self_eq_true w.any)

theorem skip_of_ne {c : LIKETYPE} (h : c ≠ w.any) (p2 : List LIKETYPE) :
    w.skip (c :: p2) = c :: p2 :=
  List.dropWhile_cons_of_neg fun hc => h (beq_iff_eq.mp hc)

/-- What is left starts with another character. -/
theorem skip_head {p2 q : List LIKETYPE} {d : LIKETYPE} (h : w.skip p2 = d :: q) : d ≠ w.any := by
  have hd := List.head?_dropWhile_not (· == w.any) p2
  rw [show p2.dropWhile (· == w.any) = d :: q from h] at hd
  exact beq_eq_false_iff_ne.mp hd

theorem skip_length {c c' : LIKETYPE} {e : Bool} {p2 r : List LIKETYPE}
    (h : w.read c p2 = .ok (c', e, r)) : (w.skip r).length < (c :: p2).length :=
  (List.dropWhile_sublist _).length_le.trans_lt (read_length h)

/-- The loop `while (l1)`: the rest of the pattern is tried at each character of the string. -/
def tryRest (f : List LIKETYPE → Except LikeError Bool) :
    List LIKETYPE → Except LikeError Bool
  | [] => .ok false
  | d :: p1 => Outcome.orElse (f (d :: p1)) (tryRest f p1)

/-- The loop over the pattern -/
def Specials.scan (w : Specials) (p1 : List LIKETYPE) : List LIKETYPE → Except LikeError Bool
  | [] => .ok p1.isEmpty
  | c :: p2 =>
    match _h : w.read c p2 with
    | .error e => .error e
    | .ok (c', escape, r) =>
      if escape = false ∧ c' = w.any then
        if w.skip r = [] then .ok true else tryRest (fun p1 => w.scan p1 (w.skip r)) p1
      else
        match p1 with
        | [] => .ok false
        | d :: p1 => if (escape ∨ c' ≠ w.one) ∧ c' ≠ d then .ok false else w.scan p1 r
termination_by p2 => p2.length
decreasing_by
  · exact skip_length _h
  · exact read_length _h

def sql (escape_char : LIKETYPE) : Specials := ⟨SQL_MATCH_ONE, SQL_MATCH_ANY, escape_char⟩

def EVL_like (escape_char : LIKETYPE) (p1 p2 : List LIKETYPE) : Except LikeError Bool :=
  (sql escape_char).scan p1 p2

def gdml : Specials := ⟨GDML_MATCH_ONE, GDML_MATCH_ANY, 0⟩

def EVL_matches (p1 p2 : List LIKETYPE) : Except LikeError Bool := gdml.scan p1 p2

/-! ## Patterns and their elements -/

/-- What a character that is not escaped stands for -/
def Specials.element (w : Specials) (c : LIKETYPE) : Element LIKETYPE :=
  if c = w.any then .many fun _ => True
  else if c = w.one then .one fun _ => True
  else .one fun d => c = d

/-- A well-formed pattern and its elements -/
inductive Specials.Spells (w : Specials) : List LIKETYPE → List (Element LIKETYPE) → Prop where
  | nil : w.Spells [] []
  | escaped {c : LIKETYPE} {p2 : List LIKETYPE} {es : List (Element LIKETYPE)}
      (hw : w.escapeChar ≠ 0) (hc : c = w.escapeChar ∨ c = w.any ∨ c = w.one)
      (h : w.Spells p2 es) : w.Spells (w.escapeChar :: c :: p2) (.one (fun d => c = d) :: es)
  | plain {c : LIKETYPE} {p2 : List LIKETYPE} {es : List (Element LIKETYPE)}
      (hc : ¬(w.escapeChar ≠ 0 ∧ c = w.escapeChar)) (h : w.Spells p2 es) :
      w.Spells (c :: p2) (w.element c :: es)

theorem element_any : w.element w.any = .many fun _ => True := if_pos rfl

theorem element_of_ne {c : LIKETYPE} (h : c ≠ w.any) :
    ∃ ok, w.element c = .one ok ∧ ∀ d, ok d ↔ c = w.one ∨ c = d := by
  unfold Specials.element
  rw [if_neg h]
  split
  · next ho => exact ⟨_, rfl, fun d => iff_of_true trivial (.inl ho)⟩
  · next ho => exact ⟨_, rfl, fun d => (or_iff_right ho).symm⟩

/-- Without an escape character every pattern is well formed. -/
theorem spells_plain (hw : w.escapeChar = 0) (p2 : List LIKETYPE) :
    w.Spells p2 (p2.map w.element) := by
  induction p2 with
  | nil => exact .nil
  | cons c p2 ih => exact .plain (fun h => h.1 hw) ih

/-- Skipping a run does not change what is matched. -/
theorem Specials.Spells.skip {p2 : List LIKETYPE} {es : List (Element LIKETYPE)}
    (h : w.Spells p2 es) (hw : ¬(w.escapeChar ≠ 0 ∧ w.any = w.escapeChar)) :
    ∃ es', w.Spells (w.skip p2) es' ∧
      Element.langs (w.element w.any :: es) = Element.langs (w.element w.any :: es') := by
  induction h with
  | nil => exact ⟨[], .nil, rfl⟩
  | @escaped c p2 es hw' hc h ih =>
    -- an escape character ends the run
    rw [skip_of_ne fun he => hw ⟨hw', he.symm⟩]
    exact ⟨_, .escaped hw' hc h, rfl⟩
  | @plain c p2 es hc h ih =>
    by_cases he : c = w.any
    · subst he
      obtain ⟨es', hs, hl⟩ := ih
      rw [skip_any]
      refine ⟨es', hs, ?_⟩
      rw [← hl]
      simp only [element_any, Element.langs_many, Element.many_many]
    · rw [skip_of_ne he]
      exact ⟨_, .plain hc h, rfl⟩

/-- What is left after a run matches no empty string. -/
theorem Specials.Spells.nil_notMem {d : LIKETYPE} {q : List LIKETYPE}
    {es : List (Element LIKETYPE)} (h : w.Spells (d :: q) es) (hd : d ≠ w.any) :
    [] ∉ Element.langs es := by
  cases h with
  | escaped => exact Element.nil_notMem_single_mul
  | plain hc h =>
    obtain ⟨ok, he, -⟩ := element_of_ne hd
    rw [he]
    exact Element.nil_notMem_single_mul

/-! ## The matcher -/

theorem tryRest_decides {P : List LIKETYPE → Prop} {f : List LIKETYPE → Except LikeError Bool}
    (hf : ∀ t, Outcome.Decides (P t) (f t)) (hP : ¬P []) (p1 : List LIKETYPE) :
    Outcome.Decides (∃ t, t <:+ p1 ∧ P t) (tryRest f p1) := by
  induction p1 with
  | nil =>
    apply Outcome.decides_false
    rw [Element.exists_suffix_nil]
    exact hP
  | cons d p1 ih => exact ((hf (d :: p1)).orElse ih).congr Element.exists_suffix_cons.symm

section

variable {c c' : LIKETYPE} {escape : Bool} {p1 p2 r : List LIKETYPE}

theorem scan_nil : w.scan p1 [] = .ok p1.isEmpty := by
  rw [Specials.scan]

/-- One character of the pattern, when it can be read -/
theorem scan_cons (h : w.read c p2 = .ok (c', escape, r)) :
    w.scan p1 (c :: p2) =
      if escape = false ∧ c' = w.any then
        if w.skip r = [] then .ok true else tryRest (fun p1 => w.scan p1 (w.skip r)) p1
      else
        match p1 with
        | [] => .ok false
        | d :: p1 => if (escape ∨ c' ≠ w.one) ∧ c' ≠ d then .ok false else w.scan p1 r := by
  rw [Specials.scan]
  split
  · next e he =>
    rw [h] at he
    cases he
  · next a b q he =>
    rw [h] at he
    cases he
    rfl

/-- An element of one character is compared with the next character of the string. -/
theorem scan_one {ok : LIKETYPE → Prop} {es : List (Element LIKETYPE)}
    (h : w.read c p2 = .ok (c', escape, r)) (hc : ¬(escape = false ∧ c' = w.any))
    (hok : ∀ d, ok d ↔ ¬((escape ∨ c' ≠ w.one) ∧ c' ≠ d))
    (ih : ∀ p1, Outcome.Decides (p1 ∈ Element.langs es) (w.scan p1 r)) (p1 : List LIKETYPE) :
    Outcome.Decides (p1 ∈ Element.langs (.one ok :: es)) (w.scan p1 (c :: p2)) := by
  rw [scan_cons h, if_neg hc, Element.langs_one]
  cases p1 with
  | nil => exact Outcome.decides_false Element.nil_notMem_single_mul
  | cons d p1 =>
    rw [Element.cons_mem_single_mul, hok d]
    by_cases hd : (escape ∨ c' ≠ w.one) ∧ c' ≠ d
    · simp only [if_pos hd]
      apply Outcome.decides_false
      intro hn
      exact hn.1 hd
    · simp only [if_neg hd]
      exact (ih p1).congr (and_iff_right hd).symm

/-- An element for any sequence is tried at each character, unless it is the last one. -/
theorem scan_many {es : List (Element LIKETYPE)} (h : w.read c p2 = .ok (w.any, false, r))
    (hs : w.Spells (w.skip r) es)
    (ih : ∀ p1, Outcome.Decides (p1 ∈ Element.langs es) (w.scan p1 (w.skip r)))
    (p1 : List LIKETYPE) :
    Outcome.Decides (p1 ∈ Element.langs (.many (fun _ => True) :: es)) (w.scan p1 (c :: p2)) := by
  rw [scan_cons h, if_pos ⟨rfl, rfl⟩, Element.langs_many, Element.mem_many_true]
  by_cases hr : w.skip r = []
  · rw [if_pos hr]
    rw [hr] at hs
    cases hs
    exact Outcome.decides_true ⟨[], List.nil_suffix, Element.nil_mem_langs_nil⟩
  · rw [if_neg hr]
    apply tryRest_decides ih
    obtain ⟨d, q, hq⟩ := List.exists_cons_of_ne_nil hr
    rw [hq] at hs
    exact hs.nil_notMem (skip_head hq)

end

/-- The loop over a well-formed pattern decides the language of the pattern. -/
theorem Specials.Spells.scan {p2 : List LIKETYPE} {es : List (Element LIKETYPE)}
    (h : w.Spells p2 es) (p1 : List LIKETYPE) :
    Outcome.Decides (p1 ∈ Element.langs es) (w.scan p1 p2) := by
  -- the rest of the pattern after a run is no part of it, so the induction is on its length
  induction hn : p2.length using Nat.strong_induction_on generalizing p2 es p1 with
  | _ n ih =>
    subst hn
    cases h with
    | nil =>
      rw [scan_nil]
      exact ⟨_, rfl, List.isEmpty_iff.trans Element.mem_langs_nil.symm⟩
    | @escaped c p2 es hw hc h =>
      have hr := read_escaped hw hc p2
      apply scan_one hr
      · intro hf
        cases hf.1
      · intro d
        simp
      · intro p1
        exact ih _ (read_length hr) h p1 rfl
    | @plain c p2 es hc h =>
      have hr := read_plain hc p2
      by_cases hany : c = w.any
      · subst hany
        obtain ⟨es', hs, hl⟩ := h.skip hc
        rw [hl, element_any]
        apply scan_many hr hs
        intro p1
        exact ih _ (skip_length hr) hs p1 rfl
      · obtain ⟨ok, he, hok⟩ := element_of_ne hany
        rw [he]
        apply scan_one hr
        · intro hf
          exact hany hf.2
        · intro d
          simp [hok, or_iff_not_imp_left]
        · intro p1
          exact ih _ (read_length hr) h p1 rfl

/-- `LIKE` decides the language of a well-formed pattern with any escape character, or none, and
`MATCHES` decides the language of any pattern. -/
theorem like_and_matches {escape_char : LIKETYPE} {p2 : List LIKETYPE}
    {es : List (Element LIKETYPE)} (h : (sql escape_char).Spells p2 es) (p1 : List LIKETYPE) :
    Outcome.Decides (p1 ∈ Element.langs es) (EVL_like escape_char p1 p2) ∧
      ∀ q2, Outcome.Decides (p1 ∈ Element.langs (q2.map gdml.element)) (EVL_matches p1 q2) := by
  constructor
  · exact h.scan p1
  · intro q2
    exact (spells_plain rfl q2).scan p1

theorem like_and_matches_percent :
    Outcome.Decides ([37, 97] ∈ Element.langs [.one fun d => 37 = d, .many fun _ => True])
        (EVL_like 33 [37, 97] [33, 37, 37]) ∧
      Outcome.Decides ([37, 97] ∈ Element.langs ([42].map gdml.element))
        (EVL_matches [37, 97] [42]) := by
  have h : (sql 33).Spells [33, 37, 37] [.one fun d => 37 = d, .many fun _ => True] :=
    .escaped (by decide) (.inr (.inl rfl)) (.plain (by decide) .nil)
  exact ⟨(like_and_matches h [37, 97]).1, (like_and_matches h [37, 97]).2 [42]⟩

end Firebird.Evl
