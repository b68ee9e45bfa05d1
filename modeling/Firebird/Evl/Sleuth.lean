import Firebird.Lib.Backtrack
import Firebird.Evl.Like

/-! # Canonical patterns (`SLEUTH_AUX` and `SLEUTH_CLASS_NAME` in `jrd/evl_like.cpp`)

The matcher reads one element of the pattern at a time and calls itself for the rest of the pattern
in the loop of a repeated element. Characters are their codes, of 8 or of 16 bits.
-/

namespace Firebird.Evl

abbrev SLEUTHTYPE := ℕ

def GDML_QUOTE : SLEUTHTYPE := '@'.toNat

def GDML_NOT : SLEUTHTYPE := '~'.toNat

def GDML_RANGE : SLEUTHTYPE := '-'.toNat

def GDML_CLASS_START : SLEUTHTYPE := '['.toNat

def GDML_CLASS_END : SLEUTHTYPE := ']'.toNat

def GDML_FLAG_SET : SLEUTHTYPE := '+'.toNat

def GDML_FLAG_CLEAR : SLEUTHTYPE := '-'.toNat

/-- The table `special` -/
def special (c : SLEUTHTYPE) : Bool :=
  ['$', '%', '*', '+', '-', '?', '@', '[', '~'].any fun s => s.toNat == c

/-- `sizeof(special)` -/
def SPECIAL_SIZE : ℕ := 256

/-- A character is read at the end of the search string, or of the pattern. -/
inductive Overread where
  | search
  | match_
deriving DecidableEq

/-- `to_upper` of the text type and the flag `SLEUTH_insensitive` -/
structure Folding where
  to_upper : SLEUTHTYPE → SLEUTHTYPE
  insensitive : Bool

def Folding.COND_UPPER (o : Folding) (c : SLEUTHTYPE) : SLEUTHTYPE :=
  if o.insensitive then o.to_upper c else c

/-! ## Classes -/

/-- The loop over a class. What stands behind the class is its closing bracket. -/
def classLoop (character : SLEUTHTYPE) (result : Bool) : List SLEUTHTYPE → Bool
  | [] => !result
  | c :: class_ =>
    if c = GDML_QUOTE then
      match class_ with
      | [] => if GDML_CLASS_END = character then true else !result
      | q :: class_ => if q = character then true else classLoop character result class_
    else
      match class_ with
      | [] => if character = c then result else !result
      | r :: class' =>
        if r = GDML_RANGE then
          match class' with
          | [] => if c ≤ character ∧ character ≤ GDML_CLASS_END then result else !result
          | b :: class' =>
            if c ≤ character ∧ character ≤ b then result else classLoop character result class'
        else if character = c then result else classLoop character result (r :: class')

def SLEUTH_CLASS_NAME (o : Folding) (class_ : List SLEUTHTYPE) (character : SLEUTHTYPE) : Bool :=
  match class_ with
  | [] => classLoop (o.COND_UPPER character) true []
  | c :: class' =>
    if c = GDML_NOT then classLoop (o.COND_UPPER character) false class'
    else classLoop (o.COND_UPPER character) true (c :: class')

section

variable {d c : SLEUTHTYPE} {result : Bool} {m : List SLEUTHTYPE}

theorem classLoop_char (hc : c ≠ GDML_QUOTE) (hm : m.head? ≠ some GDML_RANGE) :
    classLoop d result (c :: m) = if d = c then result else classLoop d result m := by
  cases m with
  | nil =>
    unfold classLoop
    exact if_neg hc
  | cons r m =>
    have hr : r ≠ GDML_RANGE := fun h => hm (congrArg some h)
    conv_lhs => unfold classLoop
    rw [if_neg hc]
    exact if_neg hr

theorem classLoop_quoted (q : SLEUTHTYPE) :
    classLoop d result (GDML_QUOTE :: q :: m) =
      if q = d then true else classLoop d result m := by
  conv_lhs => unfold classLoop
  exact if_pos rfl

theorem classLoop_range (hc : c ≠ GDML_QUOTE) (b : SLEUTHTYPE) :
    classLoop d result (c :: GDML_RANGE :: b :: m) =
      if c ≤ d ∧ d ≤ b then result else classLoop d result m := by
  conv_lhs => unfold classLoop
  rw [if_neg hc]
  exact if_pos rfl

end

/-! ## The matcher -/

/-- One element of the pattern, as the matcher reads it -/
inductive Op where
  | char (c : SLEUTHTYPE)
  | one
  | class_ (body : List SLEUTHTYPE)
  /-- A class that is not closed -/
  | unclosed
  /-- `SLEUTH_insensitive` is set or cleared. -/
  | flag (insensitive : Bool)
  /-- A character that no branch is for -/
  | other
deriving DecidableEq

/-- The element that starts with `c`, and what stands behind it -/
def readOp (c : SLEUTHTYPE) (m : List SLEUTHTYPE) : Except Overread (Op × List SLEUTHTYPE) :=
  if c = GDML_QUOTE then
    match m with
    | [] => .error .match_
    | c :: m => .ok (.char c, m)
  else if c < SPECIAL_SIZE ∧ special c = false then .ok (.char c, m)
  else if c = GDML_MATCH_ONE then .ok (.one, m)
  else if c = GDML_CLASS_START then
    match m with
    | [] => .error .match_
    | _ :: _ =>
      match m.dropWhile (· != GDML_CLASS_END) with
      | [] => .ok (.unclosed, [])
      | _ :: m' => .ok (.class_ (m.takeWhile (· != GDML_CLASS_END)), m')
  else if c = GDML_FLAG_SET then
    match m with
    | [] => .error .match_
    | c :: m => .ok (if c = 's'.toNat ∨ c = 'S'.toNat then .flag false else .other, m)
  else if c = GDML_FLAG_CLEAR then
    match m with
    | [] => .error .match_
    | c :: m => .ok (if c = 's'.toNat ∨ c = 'S'.toNat then .flag true else .other, m)
  else .ok (.other, m)

/-- The loop of a repeated character or class -/
def repeatWhile (rest : List SLEUTHTYPE → Except Overread Bool) (ok : SLEUTHTYPE → Bool) :
    List SLEUTHTYPE → Except Overread Bool
  | [] => Outcome.orElse (rest []) (.ok false)
  | d :: s => Outcome.orElse (rest (d :: s)) (if ok d then repeatWhile rest ok s else .ok false)

/-- The loop of a repeated `?` -/
def repeatOne (rest : List SLEUTHTYPE → Except Overread Bool) :
    List SLEUTHTYPE → Except Overread Bool
  | [] => Outcome.orElse (rest []) (.ok false)
  | d :: s => Outcome.orElse (rest (d :: s)) (if s = [] then .ok false else repeatOne rest s)

/-- One element against the search string. `starred` is whether `*` follows, `last` whether nothing
follows that, and `rest` is the rest of the pattern. -/
def Op.run (o : Folding) (starred last : Bool)
    (rest : Folding → List SLEUTHTYPE → Except Overread Bool) (search : List SLEUTHTYPE) :
    Op → Except Overread Bool
  | .char c =>
    if starred then
      repeatWhile (rest o) (fun d => o.COND_UPPER c == o.COND_UPPER d) search
    else
      match search with
      | [] => .ok false
      | d :: search => if o.COND_UPPER c = o.COND_UPPER d then rest o search else .ok false
  | .one =>
    if starred then if last then .ok true else repeatOne (rest o) search
    else
      match search with
      | [] => .ok false
      | _ :: search => rest o search
  | .class_ body =>
    if starred then repeatWhile (rest o) (SLEUTH_CLASS_NAME o body) search
    else
      -- there is no test for the end of the search string here
      match search with
      | [] => .error .search
      | d :: search => if SLEUTH_CLASS_NAME o body d then rest o search else .ok false
  | .unclosed => .ok false
  | .flag insensitive => rest { o with insensitive } search
  | .other => rest o search

/-- The test for `*` behind a character, `?` or a class -/
def Op.takeStar (op : Op) (m : List SLEUTHTYPE) : Bool × List SLEUTHTYPE :=
  match op with
  | .char _ | .one | .class_ _ =>
    if m.head? = some GDML_MATCH_ANY then (true, m.tail) else (false, m)
  | .unclosed | .flag _ | .other => (false, m)

theorem readOp_length {c : SLEUTHTYPE} {m m' : List SLEUTHTYPE} {op : Op}
    (h : readOp c m = .ok (op, m')) : m'.length ≤ m.length := by
  unfold readOp at h
  cases m with
  | nil => split_ifs at h <;> cases h <;> rfl
  | cons d m =>
    have htail : m.length ≤ (d :: m).length := Nat.le_succ _
    split_ifs at h
    · cases h
      exact htail
    · cases h
      exact le_rfl
    · cases h
      exact le_rfl
    · -- a class ends in front of what is left
      have hle := (List.dropWhile_sublist (l := d :: m) (· != GDML_CLASS_END)).length_le
      dsimp only at h
      split at h
      · cases h
        exact Nat.zero_le _
      · next e q hd =>
        cases h
        rw [hd] at hle
        exact (Nat.le_succ _).trans hle
    · cases h
      exact htail
    · cases h
      exact htail
    · cases h
      exact le_rfl

theorem takeStar_length (op : Op) (m : List SLEUTHTYPE) : (op.takeStar m).2.length ≤ m.length := by
  have hstar : (if m.head? = some GDML_MATCH_ANY then (true, m.tail) else (false, m)).2.length ≤
      m.length := by
    split
    · exact (List.tail_sublist m).length_le
    · exact le_rfl
  cases op with
  | char c => exact hstar
  | one => exact hstar
  | class_ body => exact hstar
  | unclosed => exact le_rfl
  | flag insensitive => exact le_rfl
  | other => exact le_rfl

theorem next_length {c : SLEUTHTYPE} {m m' : List SLEUTHTYPE} {op : Op}
    (h : readOp c m = .ok (op, m')) : (op.takeStar m').2.length < (c :: m).length :=
  Nat.lt_succ_of_le ((takeStar_length op m').trans (readOp_length h))

def SLEUTH_AUX (o : Folding) (search : List SLEUTHTYPE) :
    List SLEUTHTYPE → Except Overread Bool
  | [] => .ok search.isEmpty
  | c :: m =>
    match _h : readOp c m with
    | .error e => .error e
    | .ok (op, m') =>
      op.run o (op.takeStar m').1 (op.takeStar m').2.isEmpty
        (fun o s => SLEUTH_AUX o s (op.takeStar m').2) search
termination_by m => m.length
decreasing_by exact next_length _h

/-! ## Well-formed patterns -/

inductive ClassItem where
  | char (c : SLEUTHTYPE)
  | quoted (c : SLEUTHTYPE)
  | range (a b : SLEUTHTYPE)

inductive Atom where
  | literal (c : SLEUTHTYPE)
  | quoted (c : SLEUTHTYPE)
  | any
  | class_ (negated : Bool) (items : List ClassItem)

/-- An element of a pattern, with or without `*` -/
structure Piece where
  atom : Atom
  starred : Bool

def ClassItem.text : ClassItem → List SLEUTHTYPE
  | .char c => [c]
  | .quoted c => [GDML_QUOTE, c]
  | .range a b => [a, GDML_RANGE, b]

def bodyText (negated : Bool) (items : List ClassItem) : List SLEUTHTYPE :=
  (if negated then [GDML_NOT] else []) ++ items.flatMap ClassItem.text

def Atom.text : Atom → List SLEUTHTYPE
  | .literal c => [c]
  | .quoted c => [GDML_QUOTE, c]
  | .any => [GDML_MATCH_ONE]
  | .class_ negated items => GDML_CLASS_START :: (bodyText negated items ++ [GDML_CLASS_END])

def starText (starred : Bool) : List SLEUTHTYPE := if starred then [GDML_MATCH_ANY] else []

def Piece.text (p : Piece) : List SLEUTHTYPE := p.atom.text ++ starText p.starred

/-- A character that may stand for itself in a class -/
def Plain (c : SLEUTHTYPE) : Prop := c ≠ GDML_QUOTE ∧ c ≠ GDML_RANGE ∧ c ≠ GDML_CLASS_END

def ClassItem.WellFormed : ClassItem → Prop
  | .char c => Plain c
  | .quoted c => c ≠ GDML_CLASS_END
  | .range a b => Plain a ∧ Plain b

/-- No special character is a literal, and a class that is not negated does not start with `~`. -/
def Atom.WellFormed : Atom → Prop
  | .literal c => special c = false
  | .quoted _ => True
  | .any => True
  | .class_ negated items =>
    (∀ i ∈ items, i.WellFormed) ∧
      (negated = false → (items.flatMap ClassItem.text).head? ≠ some GDML_NOT)

/-! ### What they mean -/

def ClassItem.has (d : SLEUTHTYPE) : ClassItem → Bool
  | .char c => d == c
  | .quoted c => c == d
  | .range a b => a ≤ d && d ≤ b

/-- The characters that an element is for -/
def Atom.Ok : Atom → SLEUTHTYPE → Prop
  | .literal c, d => c = d
  | .quoted c, d => c = d
  | .any, _ => True
  | .class_ false items, d => ∃ i ∈ items, i.has d
  | .class_ true items, d => ∀ i ∈ items, ¬i.has d

def Piece.element (p : Piece) : Element SLEUTHTYPE := ⟨p.atom.Ok, p.starred⟩

/-! ### What the matcher makes of them -/

/-- What a class answers for an item that has the character -/
def ClassItem.answer (negated : Bool) : ClassItem → Bool
  | .quoted _ => true
  | .char _ | .range _ _ => !negated

/-- The first item of a class that has the character decides, and if it is quoted, the character is
accepted whether the class is negated or not. -/
def classOk (negated : Bool) (items : List ClassItem) (d : SLEUTHTYPE) : Bool :=
  ((items.find? (ClassItem.has d)).map (ClassItem.answer negated)).getD negated

theorem classOk_cons (negated : Bool) (i : ClassItem) (items : List ClassItem) (d : SLEUTHTYPE) :
    classOk negated (i :: items) d =
      if i.has d then i.answer negated else classOk negated items d := by
  unfold classOk
  rw [List.find?_cons]
  cases i.has d with
  | true => rfl
  | false => rfl

def stageOf (starred : Bool) (ok : SLEUTHTYPE → Prop) (blind : Bool) : Backtrack.Stage SLEUTHTYPE :=
  if starred then Backtrack.many ok else Backtrack.single ok blind

/-- A literal that is not in the table `special` is passed over. A repeated `?` takes everything
at the end of the pattern, and leaves something elsewhere. A class that is not repeated is read
blindly. -/
def Piece.stage (last : Bool) (p : Piece) : Backtrack.Stage SLEUTHTYPE :=
  match p.atom with
  | .literal c =>
    if c < SPECIAL_SIZE then stageOf p.starred (fun d => c = d) false else Backtrack.pass
  | .quoted c => stageOf p.starred (fun d => c = d) false
  | .any =>
    if p.starred then if last then Backtrack.all else Backtrack.proper
    else Backtrack.single (fun _ => True) false
  | .class_ negated items => stageOf p.starred (fun d => classOk negated items d) true

def stages : List Piece → List (Backtrack.Stage SLEUTHTYPE)
  | [] => []
  | p :: ps => p.stage ps.isEmpty :: stages ps

/-! ## Reading a well-formed pattern -/

theorem text_head_ne_range {i : ClassItem} (h : i.WellFormed) (m : List SLEUTHTYPE) :
    (i.text ++ m).head? ≠ some GDML_RANGE := by
  cases i with
  | char c => exact fun hc => h.2.1 (Option.some.inj hc)
  | quoted c => exact fun hc => absurd (Option.some.inj hc) (by decide)
  | range a b => exact fun ha => h.1.2.1 (Option.some.inj ha)

theorem items_head_ne_range {items : List ClassItem} (h : ∀ i ∈ items, i.WellFormed) :
    (items.flatMap ClassItem.text).head? ≠ some GDML_RANGE := by
  cases items with
  | nil => exact fun h => by cases h
  | cons i items => exact text_head_ne_range (h i List.mem_cons_self) _

/-- The loop over a class stops at the first item that has the character. -/
theorem classLoop_items {items : List ClassItem} (h : ∀ i ∈ items, i.WellFormed)
    (d : SLEUTHTYPE) (result : Bool) :
    classLoop d result (items.flatMap ClassItem.text) = classOk (!result) items d := by
  induction items with
  | nil => rfl
  | cons i items ih =>
    rw [List.forall_mem_cons] at h
    obtain ⟨hi, hs⟩ := h
    specialize ih hs
    rw [List.flatMap_cons]
    rw [classOk_cons, ← ih]
    cases i with
    | char c =>
      rw [show (ClassItem.char c).text = [c] from rfl, List.singleton_append,
        classLoop_char hi.1 (items_head_ne_range hs)]
      simp [ClassItem.has, ClassItem.answer]
    | quoted c =>
      rw [show (ClassItem.quoted c).text ++ _ = GDML_QUOTE :: c :: _ from rfl, classLoop_quoted]
      simp [ClassItem.has, ClassItem.answer]
    | range a b =>
      rw [show (ClassItem.range a b).text ++ _ = a :: GDML_RANGE :: b :: _ from rfl,
        classLoop_range hi.1.1]
      simp [ClassItem.has, ClassItem.answer]

theorem SLEUTH_CLASS_NAME_body {o : Folding} (ho : o.insensitive = false) {negated : Bool}
    {items : List ClassItem} (h : (Atom.class_ negated items).WellFormed) (d : SLEUTHTYPE) :
    SLEUTH_CLASS_NAME o (bodyText negated items) d = classOk negated items d := by
  have hd : o.COND_UPPER d = d := by
    simp [Folding.COND_UPPER, ho]
  obtain ⟨hs, hn⟩ := h
  unfold SLEUTH_CLASS_NAME bodyText
  rw [hd]
  cases negated with
  | true => exact classLoop_items hs d false
  | false =>
    specialize hn rfl
    rw [show classOk false items d = classLoop d true (items.flatMap ClassItem.text) from
      (classLoop_items hs d true).symm]
    cases htext : items.flatMap ClassItem.text with
    | nil => rfl
    | cons c m =>
      rw [htext] at hn
      exact if_neg fun hc => hn (congrArg some hc)

/-- There is no closing bracket in a class. -/
theorem body_ne_end {negated : Bool} {items : List ClassItem}
    (h : (Atom.class_ negated items).WellFormed) {c : SLEUTHTYPE}
    (hc : c ∈ bodyText negated items) : c ≠ GDML_CLASS_END := by
  rcases List.mem_append.mp hc with hc | hc
  · cases negated with
    | false => cases hc
    | true =>
      rw [List.mem_singleton.mp hc]
      decide
  · obtain ⟨i, hi, hc⟩ := List.mem_flatMap.mp hc
    have hwf := h.1 i hi
    cases i with
    | char a =>
      rw [List.mem_singleton.mp hc]
      exact hwf.2.2
    | quoted a =>
      simp only [ClassItem.text, List.mem_cons, List.not_mem_nil, or_false] at hc
      rcases hc with rfl | rfl
      · decide
      · exact hwf
    | range a b =>
      simp only [ClassItem.text, List.mem_cons, List.not_mem_nil, or_false] at hc
      rcases hc with rfl | rfl | rfl
      · exact hwf.1.2.2
      · decide
      · exact hwf.2.2.2

/-- The element that the matcher reads -/
def Atom.op : Atom → Op
  | .literal c => .char c
  | .quoted c => .char c
  | .any => .one
  | .class_ negated items => .class_ (bodyText negated items)

theorem readOp_literal {c : SLEUTHTYPE} (h : special c = false) (hc : c < SPECIAL_SIZE)
    (m : List SLEUTHTYPE) : readOp c m = .ok (.char c, m) := by
  have hq : c ≠ GDML_QUOTE := by
    rintro rfl
    exact absurd h (by decide)
  unfold readOp
  rw [if_neg hq]
  exact if_pos ⟨hc, h⟩

theorem readOp_class {body : List SLEUTHTYPE} (h : ∀ c ∈ body, c ≠ GDML_CLASS_END)
    (m : List SLEUTHTYPE) :
    readOp GDML_CLASS_START (body ++ GDML_CLASS_END :: m) = .ok (.class_ body, m) := by
  have hb : ∀ c ∈ body, (c != GDML_CLASS_END) = true := fun c hc => bne_iff_ne.mpr (h c hc)
  have hdrop : (body ++ GDML_CLASS_END :: m).dropWhile (· != GDML_CLASS_END) =
      GDML_CLASS_END :: m := by
    rw [List.dropWhile_append_of_pos hb]
    rfl
  have htake : (body ++ GDML_CLASS_END :: m).takeWhile (· != GDML_CLASS_END) = body := by
    rw [List.takeWhile_append_of_pos hb]
    exact List.append_nil body
  unfold readOp
  rw [if_neg (by decide), if_neg (by decide), if_neg (by decide), if_pos rfl]
  cases hm : body ++ GDML_CLASS_END :: m with
  | nil => exact absurd hm (by simp)
  | cons c q =>
    rw [hm] at hdrop htake
    simp only [hdrop, htake]

/-- The matcher reads what was written, unless it is a literal beyond the table. -/
theorem readOp_text {a : Atom} (h : a.WellFormed) (hw : ∀ c, a = .literal c → c < SPECIAL_SIZE)
    (m : List SLEUTHTYPE) :
    ∃ c m', a.text ++ m = c :: m' ∧ readOp c m' = .ok (a.op, m) := by
  cases a with
  | literal c => exact ⟨c, m, rfl, readOp_literal h (hw c rfl) m⟩
  | quoted c => exact ⟨GDML_QUOTE, c :: m, rfl, rfl⟩
  | any => exact ⟨GDML_MATCH_ONE, m, rfl, rfl⟩
  | class_ negated items =>
    refine ⟨GDML_CLASS_START, bodyText negated items ++ GDML_CLASS_END :: m, ?_, ?_⟩
    · simp [Atom.text]
    · exact readOp_class (fun c hc => body_ne_end h hc) m

/-- No element starts with `*`. -/
theorem text_head_ne_any {a : Atom} (h : a.WellFormed) (m : List SLEUTHTYPE) :
    (a.text ++ m).head? ≠ some GDML_MATCH_ANY := by
  cases a with
  | literal c =>
    rintro ⟨⟩
    have hs : special GDML_MATCH_ANY = false := h
    exact absurd hs (by decide)
  | quoted c => exact fun hc => absurd (Option.some.inj hc) (by decide)
  | any => exact fun hc => absurd (Option.some.inj hc) (by decide)
  | class_ negated items => exact fun hc => absurd (Option.some.inj hc) (by decide)

def text (ps : List Piece) : List SLEUTHTYPE := ps.flatMap Piece.text

theorem text_cons (p : Piece) (ps : List Piece) :
    text (p :: ps) = p.atom.text ++ (starText p.starred ++ text ps) := by
  simp [text, Piece.text]

theorem text_head {ps : List Piece} (h : ∀ p ∈ ps, p.atom.WellFormed) :
    (text ps).head? ≠ some GDML_MATCH_ANY := by
  cases ps with
  | nil => exact fun h => by cases h
  | cons p ps =>
    rw [text_cons]
    exact text_head_ne_any (h p List.mem_cons_self) _

theorem text_isEmpty (ps : List Piece) : (text ps).isEmpty = ps.isEmpty := by
  cases ps with
  | nil => rfl
  | cons p ps =>
    rw [text_cons]
    cases p.atom with
    | literal c => rfl
    | quoted c => rfl
    | any => rfl
    | class_ negated items => rfl

theorem takeStar_text (a : Atom) (starred : Bool) {m : List SLEUTHTYPE}
    (hm : m.head? ≠ some GDML_MATCH_ANY) :
    a.op.takeStar (starText starred ++ m) = (starred, m) := by
  cases starred with
  | true => cases a <;> rfl
  | false => cases a <;> exact if_neg hm

/-! ## The matcher on a well-formed pattern -/

section

variable {A S : List SLEUTHTYPE → Prop} {rest : List SLEUTHTYPE → Except Overread Bool}
  (hr : ∀ s, Backtrack.Ends (A s) (S s) Overread.search (rest s))

include hr

theorem single_ends (ok : SLEUTHTYPE → Bool) (blind : Bool) (s : List SLEUTHTYPE) :
    Backtrack.Ends (∃ t, (Backtrack.single (fun d => ok d) blind).Takes s t ∧ A t)
      ((blind ∧ s = []) ∨ ∃ t, (Backtrack.single (fun d => ok d) blind).Takes s t ∧ S t)
      Overread.search
      (match s with
        | [] => if blind then .error .search else .ok false
        | d :: s => if ok d then rest s else .ok false) := by
  cases s with
  | nil =>
    rw [Backtrack.exists_single_nil, Backtrack.exists_single_nil]
    cases blind with
    | true => exact Backtrack.ends_error id (.inl ⟨rfl, rfl⟩)
    | false => exact Backtrack.ends_false id (by simp)
  | cons d s =>
    rw [Backtrack.exists_single_cons, Backtrack.exists_single_cons]
    exact ((hr s).ite _).congr Iff.rfl (by simp)

variable (hc : ∀ s t, t <:+ s → S s → A t → A s)

include hc

theorem repeatWhile_ends (ok : SLEUTHTYPE → Bool) (s : List SLEUTHTYPE) :
    Backtrack.Ends (∃ t, Backtrack.Run (fun d => ok d) s t ∧ A t)
      (∃ t, Backtrack.Run (fun d => ok d) s t ∧ S t) Overread.search (repeatWhile rest ok s) := by
  induction s with
  | nil =>
    rw [Backtrack.exists_run_nil, Backtrack.exists_run_nil]
    exact (hr []).orElse_false
  | cons d s ih =>
    rw [Backtrack.exists_run_cons, Backtrack.exists_run_cons]
    apply (hr (d :: s)).orElse (ih.ite _)
    rintro hS ⟨-, t, ht, hA⟩
    exact hc _ t (ht.suffix.trans (List.suffix_cons d s)) hS hA

theorem repeatOne_ends (s : List SLEUTHTYPE) :
    Backtrack.Ends (∃ t, Backtrack.proper.Takes s t ∧ A t) (∃ t, Backtrack.proper.Takes s t ∧ S t)
      Overread.search (repeatOne rest s) := by
  induction s with
  | nil =>
    rw [Backtrack.exists_proper_nil, Backtrack.exists_proper_nil]
    exact (hr []).orElse_false
  | cons d s ih =>
    rw [Backtrack.exists_proper_cons, Backtrack.exists_proper_cons]
    have hend := ih.ite (s ≠ [])
    rw [ite_not] at hend
    apply (hr (d :: s)).orElse hend
    rintro hS ⟨-, t, ht, hA⟩
    exact hc _ t (ht.1.trans (List.suffix_cons d s)) hS hA

theorem stageOf_ends (starred : Bool) (ok : SLEUTHTYPE → Bool) (blind : Bool)
    (s : List SLEUTHTYPE) :
    Backtrack.Ends (∃ t, (stageOf starred (fun d => ok d) blind).Takes s t ∧ A t)
      (((stageOf starred (fun d => ok d) blind).blind ∧ s = []) ∨
        ∃ t, (stageOf starred (fun d => ok d) blind).Takes s t ∧ S t)
      Overread.search
      (if starred then repeatWhile rest ok s
      else
        match s with
        | [] => if blind then .error .search else .ok false
        | d :: s => if ok d then rest s else .ok false) := by
  cases starred with
  | true => exact (repeatWhile_ends hr hc ok s).congr Iff.rfl (by simp [stageOf, Backtrack.many])
  | false => exact single_ends hr ok blind s

end

section

variable {A S : List SLEUTHTYPE → Prop} {o : Folding} (ho : o.insensitive = false)
  {rest : Folding → List SLEUTHTYPE → Except Overread Bool}
  (hr : ∀ s, Backtrack.Ends (A s) (S s) Overread.search (rest o s))
  (hc : ∀ s t, t <:+ s → S s → A t → A s)

include ho hr hc

theorem char_ends (c : SLEUTHTYPE) (starred last : Bool) (s : List SLEUTHTYPE) :
    Backtrack.Ends (∃ t, (stageOf starred (fun d => c = d) false).Takes s t ∧ A t)
      (((stageOf starred (fun d => c = d) false).blind ∧ s = []) ∨
        ∃ t, (stageOf starred (fun d => c = d) false).Takes s t ∧ S t)
      Overread.search ((Op.char c).run o starred last rest s) := by
  have hup : ∀ c, o.COND_UPPER c = c := by
    intro c
    simp [Folding.COND_UPPER, ho]
  have hend := stageOf_ends hr hc starred (fun d => c == d) false s
  simp only [beq_iff_eq] at hend
  unfold Op.run
  simp only [hup]
  exact hend

theorem class_ends {negated : Bool} {items : List ClassItem}
    (h : (Atom.class_ negated items).WellFormed) (starred last : Bool) (s : List SLEUTHTYPE) :
    Backtrack.Ends (∃ t, (stageOf starred (fun d => classOk negated items d) true).Takes s t ∧ A t)
      (((stageOf starred (fun d => classOk negated items d) true).blind ∧ s = []) ∨
        ∃ t, (stageOf starred (fun d => classOk negated items d) true).Takes s t ∧ S t)
      Overread.search ((Op.class_ (bodyText negated items)).run o starred last rest s) := by
  have hname : SLEUTH_CLASS_NAME o (bodyText negated items) = classOk negated items :=
    funext (SLEUTH_CLASS_NAME_body ho h)
  unfold Op.run
  simp only [hname]
  exact stageOf_ends hr hc starred (classOk negated items) true s

omit ho

theorem any_ends (starred : Bool) {last : Bool} (hl : last = true → A []) (s : List SLEUTHTYPE) :
    Backtrack.Ends (∃ t, (Piece.stage last ⟨.any, starred⟩).Takes s t ∧ A t)
      (((Piece.stage last ⟨.any, starred⟩).blind ∧ s = []) ∨
        ∃ t, (Piece.stage last ⟨.any, starred⟩).Takes s t ∧ S t)
      Overread.search (Op.one.run o starred last rest s) := by
  cases starred with
  | false =>
    have hend := single_ends hr (fun _ => true) false s
    simp only [if_true] at hend
    exact hend
  | true =>
    cases last with
    | true =>
      -- all of the string is taken without a look at the rest
      exact Backtrack.ends_true ⟨[], rfl, hl rfl⟩
    | false =>
      exact (repeatOne_ends hr hc s).congr Iff.rfl (by simp [Piece.stage, Backtrack.proper])

end

theorem SLEUTH_AUX_cons {o : Folding} {c : SLEUTHTYPE} {m m' : List SLEUTHTYPE} {op : Op}
    (h : readOp c m = .ok (op, m')) (search : List SLEUTHTYPE) :
    SLEUTH_AUX o search (c :: m) =
      op.run o (op.takeStar m').1 (op.takeStar m').2.isEmpty
        (fun o s => SLEUTH_AUX o s (op.takeStar m').2) search := by
  rw [SLEUTH_AUX]
  split
  · next e he =>
    rw [h] at he
    cases he
  · next a q he =>
    rw [h] at he
    cases he
    rfl

/-- One element of a well-formed pattern -/
theorem SLEUTH_AUX_piece {o : Folding} {p : Piece} {ps : List Piece}
    (h : ∀ q ∈ p :: ps, q.atom.WellFormed) (hw : ∀ c, p.atom = .literal c → c < SPECIAL_SIZE)
    (search : List SLEUTHTYPE) :
    SLEUTH_AUX o search (text (p :: ps)) =
      p.atom.op.run o p.starred ps.isEmpty (fun o s => SLEUTH_AUX o s (text ps)) search := by
  rw [List.forall_mem_cons] at h
  rw [text_cons]
  obtain ⟨c, m, htext, hread⟩ := readOp_text h.1 hw (starText p.starred ++ text ps)
  rw [htext, SLEUTH_AUX_cons hread, takeStar_text p.atom p.starred (text_head h.2)]
  simp only [text_isEmpty]

theorem Piece.run_ends {A S : List SLEUTHTYPE → Prop} {o : Folding} (ho : o.insensitive = false)
    {rest : Folding → List SLEUTHTYPE → Except Overread Bool}
    (hr : ∀ s, Backtrack.Ends (A s) (S s) Overread.search (rest o s))
    (hc : ∀ s t, t <:+ s → S s → A t → A s) {p : Piece} (h : p.atom.WellFormed)
    (hw : ∀ c, p.atom = .literal c → c < SPECIAL_SIZE) {last : Bool} (hl : last = true → A [])
    (s : List SLEUTHTYPE) :
    Backtrack.Ends (∃ t, (p.stage last).Takes s t ∧ A t)
      (((p.stage last).blind ∧ s = []) ∨ ∃ t, (p.stage last).Takes s t ∧ S t) Overread.search
      (p.atom.op.run o p.starred last rest s) := by
  rcases p with ⟨a, starred⟩
  cases a with
  | literal c =>
    unfold Piece.stage
    simp only [if_pos (hw c rfl)]
    exact char_ends ho hr hc c starred last s
  | quoted c => exact char_ends ho hr hc c starred last s
  | any => exact any_ends hr hc starred hl s
  | class_ negated items => exact class_ends ho hr hc h starred last s

theorem readOp_other {c : SLEUTHTYPE} (hc : SPECIAL_SIZE ≤ c) (m : List SLEUTHTYPE) :
    readOp c m = .ok (.other, m) := by
  have hne : ∀ d, d < SPECIAL_SIZE → c ≠ d := fun d hd h => absurd (h ▸ hc) (Nat.not_le.mpr hd)
  unfold readOp
  rw [if_neg (hne _ (by decide)), if_neg fun h => absurd h.1 (Nat.not_lt.mpr hc),
    if_neg (hne _ (by decide)), if_neg (hne _ (by decide)), if_neg (hne _ (by decide)),
    if_neg (hne _ (by decide))]

/-- A literal beyond the table is passed over, with the `*` behind it. -/
theorem SLEUTH_AUX_pass {o : Folding} {c : SLEUTHTYPE} (hc : SPECIAL_SIZE ≤ c) (starred : Bool)
    (search : List SLEUTHTYPE) (ps : List Piece) :
    SLEUTH_AUX o search (text (⟨.literal c, starred⟩ :: ps)) = SLEUTH_AUX o search (text ps) := by
  rw [text_cons, show (Atom.literal c).text = [c] from rfl, List.singleton_append,
    SLEUTH_AUX_cons (readOp_other hc _)]
  cases starred with
  | false => rfl
  | true =>
    have hstar : readOp GDML_MATCH_ANY (text ps) = .ok (.other, text ps) := rfl
    exact SLEUTH_AUX_cons hstar search

theorem Piece.stage_orderly (last : Bool) (p : Piece) : (p.stage last).Orderly := by
  have hstage : ∀ ok blind, (stageOf p.starred ok blind).Orderly := by
    intro ok blind
    unfold stageOf
    split
    · exact Backtrack.many_orderly ok
    · exact Backtrack.single_orderly ok blind
  unfold Piece.stage
  split
  · split
    · exact hstage _ _
    · exact Backtrack.pass_orderly
  · exact hstage _ _
  · split
    · split
      · exact Backtrack.all_orderly
      · exact Backtrack.proper_orderly
    · exact Backtrack.single_orderly _ _
  · exact hstage _ _

theorem stages_orderly (ps : List Piece) : ∀ p ∈ stages ps, p.Orderly := by
  induction ps with
  | nil => exact fun _ h => by cases h
  | cons p ps ih =>
    rw [stages, List.forall_mem_cons]
    exact ⟨p.stage_orderly _, ih⟩

/-- The matcher accepts what the stages accept, and strays where they stray. -/
theorem SLEUTH_AUX_ends {o : Folding} (ho : o.insensitive = false) {ps : List Piece}
    (h : ∀ p ∈ ps, p.atom.WellFormed) (search : List SLEUTHTYPE) :
    Backtrack.Ends (Backtrack.Accepts (stages ps) search) (Backtrack.Strays (stages ps) search)
      Overread.search (SLEUTH_AUX o search (text ps)) := by
  induction ps generalizing search with
  | nil =>
    rw [text, List.flatMap_nil, SLEUTH_AUX]
    cases search with
    | nil => exact Backtrack.ends_true rfl
    | cons d search => exact Backtrack.ends_false (fun h => by cases h) id
  | cons p ps ih =>
    rw [List.forall_mem_cons] at h
    specialize ih h.2
    by_cases hw : ∀ c, p.atom = .literal c → c < SPECIAL_SIZE
    · -- what strays behind a suffix crosses what is accepted behind it
      rw [SLEUTH_AUX_piece (List.forall_mem_cons.mpr h) hw]
      refine Piece.run_ends ho ih (fun s t ht hs ha => hs.cross (stages_orderly ps) ht ha) h.1 hw
        ?_ _
      intro hl
      rw [List.isEmpty_iff.mp hl]
      rfl
    · -- a literal beyond the table has no branch
      push Not at hw
      obtain ⟨c, hp, hc⟩ := hw
      rcases p with ⟨a, starred⟩
      subst hp
      rw [SLEUTH_AUX_pass hc]
      have hstage : Piece.stage ps.isEmpty ⟨.literal c, starred⟩ = Backtrack.pass :=
        if_neg (Nat.not_lt.mpr hc)
      apply (ih search).congr
      · simp [stages, Backtrack.Accepts, hstage, Backtrack.pass]
      · simp [stages, Backtrack.Strays, hstage, Backtrack.pass]

/-- The matcher and the language agree on the element. -/
def Piece.Clean (last : Bool) (p : Piece) : Prop :=
  match p.atom with
  | .literal c => c < SPECIAL_SIZE
  | .quoted _ => True
  | .any => p.starred = true → last = true
  | .class_ negated items => negated = true → ∀ i ∈ items, i.answer true = false

def Clean : List Piece → Prop
  | [] => True
  | p :: ps => p.Clean ps.isEmpty ∧ Clean ps

theorem classOk_of_clean {negated : Bool} {items : List ClassItem}
    (h : negated = true → ∀ i ∈ items, i.answer true = false) (d : SLEUTHTYPE) :
    classOk negated items d = true ↔ (Atom.class_ negated items).Ok d := by
  induction items with
  | nil =>
    cases negated with
    | true => simp [classOk, Atom.Ok]
    | false => simp [classOk, Atom.Ok]
  | cons i items ih =>
    specialize ih fun hn => (List.forall_mem_cons.mp (h hn)).2
    rw [classOk_cons]
    by_cases hi : i.has d = true
    · rw [if_pos hi]
      cases negated with
      | true =>
        rw [h rfl i List.mem_cons_self]
        simp [Atom.Ok, hi]
      | false =>
        have hanswer : i.answer false = true := by
          cases i <;> rfl
        rw [hanswer]
        simp [Atom.Ok, hi]
    · rw [if_neg hi, ih]
      cases negated with
      | true => simp [Atom.Ok, hi]
      | false => simp [Atom.Ok, hi]

theorem stageOf_iff (starred : Bool) (ok : SLEUTHTYPE → Prop) (blind : Bool)
    (s : List SLEUTHTYPE) (es : List (Element SLEUTHTYPE)) :
    (∃ t, (stageOf starred ok blind).Takes s t ∧ t ∈ Element.langs es) ↔
      s ∈ Element.langs (⟨ok, starred⟩ :: es) := by
  cases starred with
  | true => exact Backtrack.exists_many_iff
  | false => exact Backtrack.exists_single_iff

theorem accepts_iff_of_clean {ps : List Piece} (h : Clean ps) (s : List SLEUTHTYPE) :
    Backtrack.Accepts (stages ps) s ↔ s ∈ Element.langs (ps.map Piece.element) := by
  induction ps generalizing s with
  | nil => exact Element.mem_langs_nil.symm
  | cons p ps ih =>
    obtain ⟨hp, hps⟩ := h
    simp only [stages, Backtrack.Accepts, ih hps]
    rcases p with ⟨a, starred⟩
    cases a with
    | literal c =>
      have hstage : Piece.stage ps.isEmpty ⟨.literal c, starred⟩ =
        stageOf starred (fun d => c = d) false := if_pos hp
      rw [hstage]
      exact stageOf_iff _ _ _ _ _
    | quoted c => exact stageOf_iff _ _ _ _ _
    | any =>
      cases starred with
      | false => exact stageOf_iff false (fun _ => True) false s _
      | true =>
        obtain rfl := List.isEmpty_iff.mp (hp rfl)
        refine Backtrack.exists_all_iff.trans (iff_of_true Element.nil_mem_langs_nil ?_)
        exact Element.mem_many_true.mpr ⟨[], List.nil_suffix, Element.nil_mem_langs_nil⟩
    | class_ negated items =>
      have hok : (fun d => classOk negated items d = true) = (Atom.class_ negated items).Ok :=
        funext fun d => propext (classOk_of_clean hp d)
      exact (stageOf_iff starred _ true s _).trans (by rw [hok]; rfl)

/-- On a clean pattern the matcher can only stray. -/
theorem SLEUTH_AUX_of_clean {ps : List Piece} (h : ∀ p ∈ ps, p.atom.WellFormed) (hc : Clean ps)
    (to_upper : SLEUTHTYPE → SLEUTHTYPE) (search : List SLEUTHTYPE) :
    Outcome.Decides (search ∈ Element.langs (ps.map Piece.element))
        (SLEUTH_AUX ⟨to_upper, false⟩ search (text ps)) ↔
      ¬(Backtrack.Strays (stages ps) search ∧
        search ∉ Element.langs (ps.map Piece.element)) := by
  have hend := SLEUTH_AUX_ends (o := ⟨to_upper, false⟩) rfl h search
  rw [hend.decides_iff, ← accepts_iff_of_clean hc]
  exact and_iff_left Iff.rfl

end Firebird.Evl
