import Firebird.Rse.Rows

/-! # Open streams

`Yields get scope out cells rows q`: from the state `q` on, `get` gives the
records of `rows` one after the other and then no more, whatever happens in
between outside `cells` and the streams in scope. What a call may touch are its
`cells`, and it leaves its record in the streams of `out`.
-/

namespace Firebird.Rse

variable {Row Value : Type}

/-! ## Parts of a state -/

/-- Two states agree in a part. -/
def SameAt (q p : Req Row) : Cell → Prop
  | .rpb s => q.rpbs s = p.rpbs s
  | .irsb i => q.impures i = p.impures i

/-- Nothing outside `cells` changes from `q` to `p`. -/
def Untouched (cells : List Cell) (q p : Req Row) : Prop := ∀ c, c ∉ cells → SameAt q p c

/-- The streams in scope hold the same records. -/
def Matches (scope : List Nat) (e f : Env Row) : Prop := ∀ s ∈ scope, e s = f s

/-- `p` is `q` as far as the streams in scope and the parts in `cells` go. -/
structure Near (scope : List Nat) (cells : List Cell) (q p : Req Row) : Prop where
  records : Matches scope q.env p.env
  same : ∀ c ∈ cells, SameAt q p c

/-- No stream in scope is among the cells. -/
def Apart (scope : List Nat) (cells : List Cell) : Prop := ∀ s ∈ scope, Cell.rpb s ∉ cells

section

variable {q p r : Req Row} {cells cells' : List Cell} {scope scope' : List Nat} {e f g : Env Row}

theorem SameAt.refl (q : Req Row) (c : Cell) : SameAt q q c := by
  cases c <;> rfl

theorem SameAt.symm {c : Cell} (h : SameAt q p c) : SameAt p q c := by
  cases c with
  | rpb s => exact Eq.symm h
  | irsb i => exact Eq.symm h

theorem SameAt.trans {c : Cell} (h : SameAt q p c) (h' : SameAt p r c) : SameAt q r c := by
  cases c with
  | rpb s => exact Eq.trans h h'
  | irsb i => exact Eq.trans h h'

theorem Untouched.refl (q : Req Row) : Untouched cells q q := fun c _ => .refl q c

theorem Untouched.trans (h : Untouched cells q p) (h' : Untouched cells p r) :
    Untouched cells q r := fun c hc => (h c hc).trans (h' c hc)

theorem Untouched.mono (h : Untouched cells q p) (hsub : ∀ c ∈ cells, c ∈ cells') :
    Untouched cells' q p := fun c hc => h c fun hmem => hc (hsub c hmem)

theorem Untouched.left (h : Untouched cells q p) : Untouched (cells ++ cells') q p :=
  h.mono fun _ hc => List.mem_append_left _ hc

theorem Untouched.right (h : Untouched cells' q p) : Untouched (cells ++ cells') q p :=
  h.mono fun _ hc => List.mem_append_right _ hc

theorem Untouched.tail {c : Cell} (h : Untouched cells q p) : Untouched (c :: cells) q p :=
  h.mono fun _ hc => List.mem_cons_of_mem _ hc

theorem Matches.refl (e : Env Row) : Matches scope e e := fun _ _ => rfl

theorem Matches.symm (h : Matches scope e f) : Matches scope f e := fun s hs => (h s hs).symm

theorem Matches.trans (h : Matches scope e f) (h' : Matches scope f g) : Matches scope e g :=
  fun s hs => (h s hs).trans (h' s hs)

theorem Matches.mono (h : Matches scope e f) (hsub : ∀ s ∈ scope', s ∈ scope) :
    Matches scope' e f := fun s hs => h s (hsub s hs)

theorem Matches.left (h : Matches (scope ++ scope') e f) : Matches scope e f :=
  h.mono fun _ hs => List.mem_append_left _ hs

theorem Matches.append (h : Matches scope e f) (h' : Matches scope' e f) :
    Matches (scope ++ scope') e f := by
  intro s hs
  rcases List.mem_append.mp hs with hs | hs
  · exact h s hs
  · exact h' s hs

/-- The records in scope stay where they are. -/
theorem Untouched.matches_env (h : Untouched cells q p) (hapart : Apart scope cells) :
    Matches scope q.env p.env := by
  intro s hs
  exact congrArg Rpb.rpb_record (h (.rpb s) (hapart s hs))

theorem Untouched.keeps (h : Untouched cells q p) (hapart : Apart scope cells)
    (he : Matches scope q.env e) : Matches scope p.env e := (h.matches_env hapart).symm.trans he

theorem Untouched.near (h : Untouched cells q p) (hapart : Apart scope cells)
    (hdisj : List.Disjoint cells cells') : Near scope cells' q p :=
  ⟨h.matches_env hapart, fun c hc => h c fun hmem => hdisj hmem hc⟩

theorem Near.refl (q : Req Row) : Near scope cells q q := ⟨.refl _, fun c _ => .refl q c⟩

theorem Near.trans (h : Near scope cells q p) (h' : Near scope cells p r) :
    Near scope cells q r :=
  ⟨h.records.trans h'.records, fun c hc => (h.same c hc).trans (h'.same c hc)⟩

theorem Near.mono (h : Near scope cells q p) (hscope : ∀ s ∈ scope', s ∈ scope)
    (hcells : ∀ c ∈ cells', c ∈ cells) : Near scope' cells' q p :=
  ⟨h.records.mono hscope, fun c hc => h.same c (hcells c hc)⟩

/-- The records of the streams among the cells are the same. -/
theorem Near.streams (h : Near scope cells q p) (hscope : ∀ s ∈ scope', Cell.rpb s ∈ cells)
    (hcells : ∀ c ∈ cells', c ∈ cells) : Near (scope ++ scope') cells' q p := by
  refine ⟨h.records.append fun s hs => ?_, fun c hc => h.same c (hcells c hc)⟩
  exact congrArg Rpb.rpb_record (h.same (.rpb s) (hscope s hs))

theorem Apart.mono (h : Apart scope cells) (hscope : ∀ s ∈ scope', s ∈ scope)
    (hcells : ∀ c ∈ cells', c ∈ cells) : Apart scope' cells' :=
  fun s hs hmem => h s (hscope s hs) (hcells _ hmem)

theorem Near.sub (h : Near scope cells q p) (hcells : ∀ c ∈ cells', c ∈ cells) :
    Near scope cells' q p := h.mono (fun _ hs => hs) hcells

theorem Apart.sub (h : Apart scope cells) (hcells : ∀ c ∈ cells', c ∈ cells) :
    Apart scope cells' := h.mono (fun _ hs => hs) hcells

theorem Near.tail {c : Cell} (h : Near scope (c :: cells) q p) : Near scope cells q p :=
  h.sub fun _ hc => List.mem_cons_of_mem _ hc

theorem Apart.left (h : Apart scope (cells ++ cells')) : Apart scope cells :=
  h.sub fun _ hc => List.mem_append_left _ hc

theorem Apart.right (h : Apart scope (cells ++ cells')) : Apart scope cells' :=
  h.sub fun _ hc => List.mem_append_right _ hc

theorem Apart.tail {c : Cell} (h : Apart scope (c :: cells)) : Apart scope cells :=
  h.sub fun _ hc => List.mem_cons_of_mem _ hc

/-- What leaves a scope alone leaves a part of it alone. -/
theorem Apart.scope_left (h : Apart (scope ++ scope') cells) : Apart scope cells :=
  h.mono (fun _ hs => List.mem_append_left _ hs) fun _ hc => hc

theorem Apart.append (h : Apart scope cells) (h' : Apart scope' cells) :
    Apart (scope ++ scope') cells := by
  intro s hs
  rcases List.mem_append.mp hs with hs | hs
  · exact h s hs
  · exact h' s hs

end

/-! ## What the basic steps touch -/

section

variable (q : Req Row) (s i : Nat)

theorem untouched_setRpb (rpb : Rpb Row) : Untouched [.rpb s] q (q.setRpb s rpb) := by
  intro c hc
  cases c with
  | rpb t =>
    have hne : t ≠ s := fun h => hc (by rw [h]; exact List.mem_singleton_self _)
    exact (Function.update_of_ne hne _ _).symm
  | irsb j => rfl

theorem untouched_setImpure (irsb : Irsb) : Untouched [.irsb i] q (q.setImpure i irsb) := by
  intro c hc
  cases c with
  | rpb t => rfl
  | irsb j =>
    have hne : j ≠ i := fun h => hc (by rw [h]; exact List.mem_singleton_self _)
    exact (Function.update_of_ne hne _ _).symm

theorem untouched_area {cells : List Cell} (hi : .irsb i ∈ cells) (irsb : Irsb) :
    Untouched cells q (q.setImpure i irsb) :=
  (untouched_setImpure q i irsb).mono fun c hc => by rwa [List.mem_singleton.mp hc]

theorem untouched_setCount (count : Int) : Untouched [.irsb i] q (q.setCount i count) :=
  untouched_setImpure q i _

/-- The flag is no part of the state that plans share. -/
theorem untouched_setNull {cells : List Cell} (null : Bool) :
    Untouched cells q (q.setNull null) := by
  intro c _
  cases c <;> rfl

@[simp] theorem setRpb_rpbs (rpb : Rpb Row) : (q.setRpb s rpb).rpbs s = rpb :=
  Function.update_self _ _ _

@[simp] theorem setImpure_impures (irsb : Irsb) : (q.setImpure i irsb).impures i = irsb :=
  Function.update_self _ _ _

@[simp] theorem setRpb_impures (rpb : Rpb Row) : (q.setRpb s rpb).impures = q.impures := rfl

@[simp] theorem setImpure_rpbs (irsb : Irsb) : (q.setImpure i irsb).rpbs = q.rpbs := rfl

@[simp] theorem setImpure_env (irsb : Irsb) : (q.setImpure i irsb).env = q.env := rfl

@[simp] theorem setCount_count (count : Int) :
    ((q.setCount i count).impures i).irsb_count = count := by
  rw [Req.setCount, setImpure_impures]

@[simp] theorem setNull_env (null : Bool) : (q.setNull null).env = q.env := rfl

theorem setRpb_env (rpb : Rpb Row) :
    (q.setRpb s rpb).env = Function.update q.env s rpb.rpb_record := by
  funext t
  rcases eq_or_ne t s with h | h
  · subst h
    simp [Req.env]
  · simp [Req.env, Req.setRpb, Function.update_of_ne h]

theorem rewind_env : (q.rewind s).env = q.env := by
  rw [Req.rewind, setRpb_env]
  exact Function.update_eq_self s q.env

end

section

variable {scope : List Nat}

/-- A record has come into its stream. -/
theorem matches_of_record {q p : Req Row} {e : Env Row} {s : Nat} {row : Row}
    (hmatch : Matches scope q.env e) (htouch : Untouched [.rpb s] q p)
    (hrow : p.env s = some row) :
    Matches (scope ++ [s]) p.env (Function.update e s (some row)) := by
  intro t ht
  rcases eq_or_ne t s with hts | hts
  · rw [hts, Function.update_self]
    exact hrow
  · rw [Function.update_of_ne hts]
    rcases List.mem_append.mp ht with ht | ht
    · have hsame : q.rpbs t = p.rpbs t :=
        htouch (.rpb t) fun hmem => hts (Cell.rpb.inj (List.mem_singleton.mp hmem))
      rw [← hmatch t ht]
      exact (congrArg Rpb.rpb_record hsame).symm
    · exact absurd (List.mem_singleton.mp ht) hts

theorem apart_rpb {s : Nat} (hs : s ∉ scope) : Apart scope [.rpb s] := by
  intro t ht hmem
  exact hs (Cell.rpb.inj (List.mem_singleton.mp hmem) ▸ ht)

end

theorem Untouched.area {q p : Req Row} {cells : List Cell} {i : Nat} (h : Untouched cells q p)
    (hi : Cell.irsb i ∉ cells) : p.impures i = q.impures i := (h (.irsb i) hi).symm

/-! ## Reading -/

/-- From the state on, `get` gives these rows and then no more. -/
def Yields (get : Nat → Req Row → Except Stop (Bool × Req Row)) (scope out : List Nat)
    (cells : List Cell) : List (Env Row) → Req Row → Prop
  | [], q => ∀ p, Near scope cells q p →
    ∃ p', Settles (fun n => get n p) (false, p') ∧ Untouched cells p p'
  | e :: rows, q => ∀ p, Near scope cells q p →
    ∃ p', Settles (fun n => get n p) (true, p') ∧ Untouched cells p p' ∧
      Matches (scope ++ out) p'.env e ∧ Yields get scope out cells rows p'

section

variable {get : Nat → Req Row → Except Stop (Bool × Req Row)} {scope out : List Nat}
  {cells : List Cell} {rows : List (Env Row)} {q p : Req Row}

theorem Yields.near (h : Yields get scope out cells rows q) (hnear : Near scope cells q p) :
    Yields get scope out cells rows p := by
  cases rows with
  | nil => exact fun r hr => h r (hnear.trans hr)
  | cons e rows => exact fun r hr => h r (hnear.trans hr)

/-- A call gives the next of these rows and leaves the state in `I` of the others. -/
def Gives (call : Nat → Except Stop (Bool × Req Row)) (I : List (Env Row) → Req Row → Prop)
    (scope : List Nat) (cells : List Cell) (rows : List (Env Row)) (q : Req Row) : Prop :=
  ∃ found p, Settles call (found, p) ∧ Untouched cells q p ∧
    match rows with
    | [] => found = false
    | e :: rows => found = true ∧ Matches scope p.env e ∧ I rows p

section

variable {call call' : Nat → Except Stop (Bool × Req Row)}
  {I I' : List (Env Row) → Req Row → Prop} {e : Env Row}

theorem Gives.of_end (h : Settles call (false, p)) (htouch : Untouched cells q p) :
    Gives call I scope cells [] q := ⟨false, p, h, htouch, rfl⟩

theorem Gives.of_row (h : Settles call (true, p)) (htouch : Untouched cells q p)
    (hmatch : Matches scope p.env e) (hI : I rows p) : Gives call I scope cells (e :: rows) q :=
  ⟨true, p, h, htouch, rfl, hmatch, hI⟩

/-- A call that first comes to another state and goes on from there -/
theorem Gives.of_step (h : Gives call' I scope cells rows p) (htouch : Untouched cells q p)
    (hcall : ∀ r, Settles call' r → Settles call r) : Gives call I scope cells rows q := by
  rcases h with ⟨found, r, hsettles, htouchr, hrows⟩
  exact ⟨found, r, hcall _ hsettles, htouch.trans htouchr, hrows⟩

theorem Gives.imp {cells' : List Cell} (h : Gives call I scope cells rows q)
    (hcells : ∀ c ∈ cells, c ∈ cells') (hI : ∀ rows p, I rows p → I' rows p) :
    Gives call I' scope cells' rows q := by
  rcases h with ⟨found, p, hsettles, htouch, hrows⟩
  refine ⟨found, p, hsettles, htouch.mono hcells, ?_⟩
  cases rows with
  | nil => exact hrows
  | cons e rows => exact ⟨hrows.1, hrows.2.1, hI _ _ hrows.2.2⟩

end

theorem Yields.gives (h : Yields get scope out cells rows q) :
    Gives (fun n => get n q) (Yields get scope out cells) (scope ++ out) cells rows q := by
  cases rows with
  | nil =>
    rcases h q (.refl q) with ⟨p, hget, htouch⟩
    exact .of_end hget htouch
  | cons e rows =>
    rcases h q (.refl q) with ⟨p, hget, htouch, hmatch, hlater⟩
    exact .of_row hget htouch hmatch hlater

/-- A relation between the rows to come and the state that every call keeps -/
theorem Yields.of_inv {I : List (Env Row) → Req Row → Prop}
    (stable : ∀ rows q p, I rows q → Near scope cells q p → I rows p)
    (gives : ∀ rows q, I rows q → Gives (fun n => get n q) I (scope ++ out) cells rows q)
    (h : I rows q) : Yields get scope out cells rows q := by
  induction rows generalizing q with
  | nil =>
    intro p hp
    rcases gives [] p (stable [] q p h hp) with ⟨found, r, hget, htouch, rfl⟩
    exact ⟨r, hget, htouch⟩
  | cons e rows ih =>
    intro p hp
    rcases gives _ p (stable _ q p h hp) with ⟨found, r, hget, htouch, rfl, hmatch, hlater⟩
    exact ⟨r, hget, htouch, hmatch, ih hlater⟩

end

/-! ## Specifications -/

section

variable [MovCompare Value]

/-- An open plan has these rows to come. -/
abbrev Rsb.ToCome (rsb : Rsb Row Value) (scope : List Nat) (rows : List (Env Row))
    (q : Req Row) : Prop :=
  Yields (fun n => getRecord n rsb) scope rsb.streams rsb.cells rows q

/-- A plan delivers its rows: it can be opened wherever the streams in scope
hold their records, and then gives its rows one after the other. -/
def Rsb.Delivers (rsb : Rsb Row Value) (scope : List Nat) : Prop :=
  ∀ (q : Req Row) (e : Env Row), Matches scope q.env e →
    ∃ p, Settles (fun n => rseOpen n rsb q) p ∧ Untouched rsb.cells q p ∧
      rsb.ToCome scope (rsb.rows e) p

/-- A boolean tells its truth: the value and `req_null` together. -/
def Nod.Tells (nod : Nod Row Value) (scope : List Nat) : Prop :=
  ∀ (q : Req Row) (e : Env Row), Matches scope q.env e →
    ∃ p, Settles (fun n => evlBoolean n nod q) (nod.truth e == some true, p) ∧
      Untouched nod.cells q p ∧ p.req_null = (nod.truth e).isNone

/-- The same of a boolean that may not be there -/
def TellsOptional (nod : Option (Nod Row Value)) (scope : List Nat) : Prop :=
  ∀ (q : Req Row) (e : Env Row), Matches scope q.env e →
    ∃ p, Settles (fun n => evlOptional n nod q) (holdsOptional nod e, p) ∧
      Untouched (cellsOptional nod) q p

theorem tellsOptional_none (scope : List Nat) :
    TellsOptional (none : Option (Nod Row Value)) scope :=
  fun q _ _ => ⟨q, .of_succ (.of_eq fun _ => rfl), .refl q⟩

theorem Nod.Tells.optional {nod : Nod Row Value} {scope : List Nat} (h : nod.Tells scope) :
    TellsOptional (some nod) scope := by
  intro q e he
  rcases h q e he with ⟨p, hevl, htouch, -⟩
  exact ⟨p, .of_succ hevl, htouch⟩

end

/-! ## Closing -/

theorem closing_untouched {q : Req Row} {i : Nat} {close : Req Row → Req Row}
    {cells : List Cell} (hi : .irsb i ∈ cells) (hclose : ∀ q, Untouched cells q (close q)) :
    Untouched cells q (q.closing i close) := by
  rw [Req.closing]
  split
  · exact (untouched_area q i hi _).trans (hclose _)
  · exact .refl q

mutual

theorem rseClose_untouched : ∀ (rsb : Rsb Row Value) (q : Req Row),
    Untouched rsb.cells q (rseClose rsb q)
  | .sequential _ _ _, _ => closing_untouched List.mem_cons_self fun q => .refl q
  | .indexed _ _ _ _, _ => closing_untouched List.mem_cons_self fun q => .refl q
  | .boolean _ _ next, _ => closing_untouched List.mem_cons_self fun q =>
    (rseClose_untouched next q).right.tail
  | .first _ _ next, _ => closing_untouched List.mem_cons_self fun q =>
    (rseClose_untouched next q).tail
  | .skip _ _ next, _ => closing_untouched List.mem_cons_self fun q =>
    (rseClose_untouched next q).tail
  | .cross _ args, _ => closing_untouched List.mem_cons_self fun q =>
    (closeAll_untouched args q).tail
  | .union _ _ args _, _ => closing_untouched List.mem_cons_self fun q =>
    (closeNth_untouched args _ q).tail.tail
  | .left_cross _ outer inner _ _ _ _, _ => closing_untouched List.mem_cons_self fun q => by
    have houter := rseClose_untouched outer q
    have hinner := rseClose_untouched inner (rseClose outer q)
    refine (houter.mono fun c hc => ?_).trans (hinner.mono fun c hc => ?_)
    · simp [Rsb.cells, hc]
    · simp [Rsb.cells, hc]

theorem closeAll_untouched : ∀ (args : List (Rsb Row Value)) (q : Req Row),
    Untouched (cellsAll args) q (closeAll args q)
  | [], q => .refl q
  | arg :: args, q => (rseClose_untouched arg q).left.trans (closeAll_untouched args _).right

theorem closeNth_untouched : ∀ (args : List (Rsb Row Value)) (k : Nat) (q : Req Row),
    Untouched (cellsAll args) q (closeNth args k q)
  | [], _, q => .refl q
  | arg :: _, 0, q => (rseClose_untouched arg q).left
  | _ :: args, k + 1, q => (closeNth_untouched args k q).right

end

end Firebird.Rse
