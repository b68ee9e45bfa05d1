import Firebird.Remote.Bounds

/-! # When the decoding of slices, and of a packet, stays in bounds -/

namespace Firebird.Xdr

open Wrap

variable {s : Stream} {d : Dsc} {k : ℕ}

/-! ## Descriptions of slices -/

theorem byte_pos {p : Stream} (h : byte p ≠ 0) : 0 < p.length := by
  cases p with
  | nil => exact absurd rfl h
  | cons _ p => exact Nat.succ_pos _

/-- A description is not accepted, or what is behind it is a part of it. -/
def Desc (p : Stream) (x : Option (Dsc × Stream)) : Prop :=
  x = none ∨ ∃ dtype length i, x = fixed dtype length (p.drop i)

theorem Desc.fixed (p : Stream) (dtype : Dtype) (length i : ℕ) :
    Desc p (fixed dtype length (p.drop i)) := .inr ⟨dtype, length, i, rfl⟩

theorem Desc.ite {p : Stream} {c : Prop} [Decidable c] {x y : Option (Dsc × Stream)}
    (hx : Desc p x) (hy : Desc p y) : Desc p (if c then x else y) := by
  split
  · exact hx
  · exact hy

theorem sdlDesc_cases (p : Stream) : Desc p (sdlDesc p) := by
  unfold sdlDesc
  simp only [List.drop_drop]
  repeat' refine .ite ?_ ?_
  all_goals first
    | exact .fixed p _ _ _
    | exact .inl rfl

theorem sdlDesc_length {p q : Stream} (h : sdlDesc p = some (d, q)) : q.length ≤ p.length := by
  rcases sdlDesc_cases p with hnone | ⟨dtype, length, i, hfixed⟩
  · rw [hnone] at h
    cases h
  · rw [hfixed, fixed] at h
    cases h
    rw [List.length_drop]
    exact Nat.sub_le _ _

/-- Among the clauses of a description there is a name for which there is no room. -/
inductive LongName : Stream → Prop
  | here {p : Stream} : byte p = 4 ∨ byte p = 2 → nameSize ≤ byte (p.drop 1) → LongName p
  | name {p : Stream} : byte p = 4 ∨ byte p = 2 → byte (p.drop 1) < nameSize →
      LongName ((p.drop 1).drop (1 + byte (p.drop 1))) → LongName p
  | id {p : Stream} : byte p = 5 ∨ byte p = 3 → LongName ((p.drop 1).drop 2) → LongName p
  | element {p q : Stream} {desc : Dsc} : byte p = 6 → byte (p.drop 1) = 1 →
      sdlDesc ((p.drop 1).drop 1) = some (desc, q) → LongName q → LongName p

/-- What the loop of `SDL_info` comes to -/
inductive Info (P : Prop) : Except Stop Dsc → Prop
  | outOfBounds : ¬P → Info P (.error .outOfBounds)
  | failed : P → Info P (.error .failed)
  | ok {desc : Dsc} : P → Info P (.ok desc)

theorem Info.congr {x : Except Stop Dsc} (h : Info P x) (hPQ : P ↔ Q) : Info Q x := by
  rwa [← propext hPQ]

theorem infoLoop_spec {element : Dsc} {p : Stream} (hk : p.length < k) :
    Info (¬LongName p) (infoLoop k element p) := by
  induction k generalizing element p with
  | zero => exact absurd hk (Nat.not_lt_zero _)
  | succ k ih =>
      have hrest : ∀ {i : ℕ}, byte p ≠ 0 → ((p.drop 1).drop i).length < k := by
        intro i hne
        have hpos := byte_pos hne
        rw [List.length_drop, List.length_drop]
        omega
      rw [infoLoop]
      by_cases h6 : byte p = 6
      · have hno : (byte (p.drop 1) = 1 → ∀ desc q, sdlDesc ((p.drop 1).drop 1) = some (desc, q) →
            ¬LongName q) → ¬LongName p := by
          intro h hlong
          cases hlong with
          | here hop => omega
          | name hop => omega
          | id hop => omega
          | element hop h1 hdesc hq => exact h h1 _ _ hdesc hq
        rw [if_pos h6]
        by_cases h1 : byte (p.drop 1) = 1
        · rw [if_pos h1]
          cases hdesc : sdlDesc ((p.drop 1).drop 1) with
          | none =>
              refine .failed (hno fun _ desc q heq => ?_)
              rw [hdesc] at heq
              cases heq
          | some x =>
              obtain ⟨desc, q⟩ := x
              have hq := sdlDesc_length hdesc
              have hpos := byte_pos (p := p) (by omega)
              rw [List.length_drop, List.length_drop] at hq
              refine (@ih desc q (by omega)).congr (not_congr ?_)
              constructor
              · intro hlong
                exact .element h6 h1 hdesc hlong
              · intro hlong
                by_contra hnot
                refine hno (fun _ desc' q' heq => ?_) hlong
                rw [hdesc] at heq
                cases heq
                exact hnot
        · rw [if_neg h1]
          exact .failed (hno fun heq => absurd heq h1)
      · rw [if_neg h6]
        by_cases h53 : byte p = 5 ∨ byte p = 3
        · rw [if_pos h53]
          refine (ih (hrest (by omega))).congr (not_congr ?_)
          constructor
          · exact .id h53
          · intro hlong
            cases hlong with
            | here hop => omega
            | name hop => omega
            | id _ hq => exact hq
            | element hop => omega
        · rw [if_neg h53]
          by_cases h42 : byte p = 4 ∨ byte p = 2
          · rw [if_pos h42]
            by_cases hroom : byte (p.drop 1) < nameSize
            · rw [store_of_le hroom, Outcome.ok_seq]
              refine (ih (hrest (by omega))).congr (not_congr ?_)
              constructor
              · exact .name h42 hroom
              · intro hlong
                cases hlong with
                | here _ hle => omega
                | name _ _ hq => exact hq
                | id hop => omega
                | element hop => omega
            · rw [store_of_lt (by omega), Outcome.error_seq]
              exact .outOfBounds fun h => h (.here h42 (Nat.le_of_not_lt hroom))
          · rw [if_neg h42]
            refine .ok fun hlong => ?_
            cases hlong with
            | here hop => omega
            | name hop => omega
            | id hop => omega
            | element hop => omega

/-- The names of a description fit in `sdl_info_field` and `sdl_info_relation`. -/
def NamesFit (sdl : Stream) : Prop := byte sdl = 1 → ¬LongName (sdl.drop 1)

theorem sdlInfo_spec (sdl : Stream) : Info (NamesFit sdl) (sdlInfo sdl) := by
  unfold NamesFit sdlInfo
  split
  · rename_i h1
    have hlen : (sdl.drop 1).length < sdl.length + 1 := by
      rw [List.length_drop]
      omega
    exact (infoLoop_spec hlen).congr ⟨fun h _ => h, fun h => h h1⟩
  · rename_i h1
    exact .failed fun h => absurd h h1

/-! ## Slices -/

/-- The elements of a slice fit in the memory that there is for them. -/
def ContentsFit (desc : Dsc) (symmetric : Bool) (length room : ℕ) (s : Stream) : Prop :=
  if symmetric then length ≤ room ∨ s.length < pieceEnd length room
  else desc.length ≠ 0 ∧ ElementsFit desc (length / desc.length) room s

/-- A slice fits: if it is not empty and there is memory for it, then the names of the description
fit, and the elements in that memory. -/
def SliceFits (b : Buffer) (m : Allocator) (sdl : Stream) (symmetric : Bool) (s : Stream) : Prop :=
  4 ≤ s.length → stringLength s ≠ 0 → ∀ room, b.alloc m (stringLength s) = .ok room →
    NamesFit sdl ∧ ∀ desc, sdlInfo sdl = .ok desc →
      ContentsFit desc symmetric (stringLength s) room (s.drop 4)

/-- A buffer does not write out of bounds when it finds memory. -/
theorem Buffer.alloc_cases (b : Buffer) (m : Allocator) (n : ℕ) :
    b.alloc m n = .error .failed ∨ ∃ room, b.alloc m n = .ok room := by
  unfold alloc Allocator.get
  simp only
  split
  · split
    · exact .inl rfl
    · exact .inr ⟨_, rfl⟩
  · exact .inr ⟨_, rfl⟩

theorem contents_inBounds (desc : Dsc) (symmetric : Bool) (length room : ℕ) (s : Stream) :
    InBounds (if symmetric then xdrPieces (length + 1) length room s
      else if desc.length = 0 then throw .divideByZero
      else xdrElements desc (length / desc.length) room s) ↔
      ContentsFit desc symmetric length room s := by
  unfold ContentsFit
  cases symmetric with
  | true =>
      rw [if_pos rfl, if_pos rfl]
      exact (xdrPieces_takes (Nat.lt_succ_self length)).inBounds
  | false =>
      rw [if_neg Bool.false_ne_true, if_neg Bool.false_ne_true]
      split
      · rename_i h0
        exact iff_of_false not_divideByZero fun h => h.1 h0
      · rename_i h0
        rw [(xdrElements_takes desc (length / desc.length) room s).inBounds]
        exact ⟨fun h => ⟨h0, h⟩, fun h => h.2⟩

theorem xdrSlice_inBounds (b : Buffer) (m : Allocator) (sdl : Stream) (symmetric : Bool)
    (s : Stream) : InBounds (xdrSlice b m sdl symmetric s) ↔ SliceFits b m sdl symmetric s := by
  unfold SliceFits
  rw [xdrSlice]
  by_cases hlen : s.length < 4
  · rw [getLong_of_lt hlen, Outcome.error_seq]
    exact iff_of_true inBounds_failed fun h => absurd h (Nat.not_le.mpr hlen)
  · have hle := Nat.le_of_not_lt hlen
    rw [getLong_of_le hle, Outcome.ok_seq]
    simp only
    rw [show (toUInt32 (long s)).toNat = stringLength s from rfl]
    by_cases h0 : stringLength s = 0
    · rw [if_pos h0]
      exact iff_of_true (inBounds_ok _) fun _ h => absurd h0 h
    · rw [if_neg h0]
      rcases b.alloc_cases m (stringLength s) with hfail | ⟨room, hroom⟩
      · rw [hfail, Outcome.error_seq]
        refine iff_of_true inBounds_failed fun _ _ room hroom => ?_
        cases hroom
      · rw [hroom, Outcome.ok_seq]
        have hinfo := sdlInfo_spec sdl
        generalize hx : sdlInfo sdl = x at hinfo
        have hstart : (4 ≤ s.length → stringLength s ≠ 0 → ∀ room',
            (Except.ok room : Except Stop ℕ) = .ok room' → NamesFit sdl ∧ ∀ desc, x = .ok desc →
              ContentsFit desc symmetric (stringLength s) room' (s.drop 4)) ↔
            NamesFit sdl ∧ ∀ desc, x = .ok desc →
              ContentsFit desc symmetric (stringLength s) room (s.drop 4) := by
          constructor
          · intro h
            exact h hle h0 room rfl
          · intro h _ _ room' heq
            cases heq
            exact h
        rw [hstart]
        cases hinfo with
        | outOfBounds hno =>
            rw [Outcome.error_seq]
            exact iff_of_false not_outOfBounds fun h => hno h.1
        | failed hfits =>
            rw [Outcome.error_seq]
            refine iff_of_true inBounds_failed ⟨hfits, fun desc heq => ?_⟩
            cases heq
        | ok hfits =>
            rename_i desc
            rw [Outcome.ok_seq, contents_inBounds]
            constructor
            · intro h
              refine ⟨hfits, fun desc' heq => ?_⟩
              cases heq
              exact h
            · intro h
              exact h.2 desc rfl

/-! ## All decoders -/

/-- There is room for what a stream has for an item. -/
def Fits (m : Allocator) (i : Item) (s : Stream) : Prop :=
  match i with
  | .datum desc => FieldFits desc desc.length s
  | .slice b sdl symmetric => SliceFits b m sdl symmetric s
  | .statusVector => ArgsFit m s
  | .longs b => 4 ≤ s.length → ∀ c ∈ b.own,
      4 * min (cstringLength s / 4) ((s.length - 4) / 4) ≤ c
  | .cstring b => 4 ≤ s.length → ∀ c ∈ b.own,
      cstringLength s ≤ s.length - 4 → cstringLength s ≤ c

/-- Memory of just the size that is asked for -/
def exactly : Allocator := ⟨fun _ n => some n, fun _ _ _ _ h => (Option.some.inj h).le⟩

end Firebird.Xdr
