import Mathlib.Data.List.Basic
import Mathlib.Tactic.Linarith

/-! # Edit scripts

A script runs over a buffer from left to right: `copy` overwrites the next
entries, `skip` leaves them alone. `Makes ops old new` says that the script
turns the beginning of every buffer that starts with `old` into `new`; its
rules follow the script.
-/

namespace Delta

variable {α : Type*}

/-- One instruction of a script. -/
inductive Op (α : Type*) where
  | copy (bs : List α)
  | skip (n : ℕ)
deriving DecidableEq, Repr

/-- Entries an instruction passes. -/
def Op.span : Op α → ℕ
  | .copy bs => bs.length
  | .skip n => n

/-- Entries a script passes. -/
def span (ops : List (Op α)) : ℕ := (ops.map Op.span).sum

/-- The buffer after the script. -/
def splice : List (Op α) → List α → List α
  | [], buf => buf
  | .copy bs :: ops, buf => bs ++ splice ops (buf.drop bs.length)
  | .skip n :: ops, buf => buf.take n ++ splice ops (buf.drop n)

theorem splice_copy (bs : List α) (ops : List (Op α)) (buf : List α) :
    splice (.copy bs :: ops) buf = bs ++ splice ops (buf.drop bs.length) := rfl

theorem splice_skip (n : ℕ) (ops : List (Op α)) (buf : List α) :
    splice (.skip n :: ops) buf = buf.take n ++ splice ops (buf.drop n) := rfl

@[simp] theorem span_nil : span ([] : List (Op α)) = 0 := rfl

@[simp] theorem span_cons (op : Op α) (ops : List (Op α)) :
    span (op :: ops) = op.span + span ops := by
  simp [span]

/-- The script turns `old`, with whatever follows it, into `new`. -/
structure Makes (ops : List (Op α)) (old new : List α) : Prop where
  splice_eq : ∀ tail, splice ops (old ++ tail) = new ++ (old ++ tail).drop new.length
  span_eq : span ops = new.length

theorem makes_nil (old : List α) : Makes [] old [] := ⟨by simp [splice], rfl⟩

theorem makes_skip {ops : List (Op α)} {s old new : List α} (h : Makes ops old new) :
    Makes (.skip s.length :: ops) (s ++ old) (s ++ new) := by
  refine ⟨fun tail => ?_, ?_⟩
  · rw [splice_skip, List.append_assoc, List.take_left, List.drop_left, h.splice_eq,
      List.length_append, ← List.drop_drop, List.drop_left, List.append_assoc]
  · rw [span_cons, h.span_eq, List.length_append, Op.span]

theorem makes_copy {ops : List (Op α)} {bs old new : List α}
    (h : Makes ops (old.drop bs.length) new) : Makes (.copy bs :: ops) old (bs ++ new) := by
  refine ⟨fun tail => ?_, ?_⟩
  · rw [splice_copy, List.drop_append, h.splice_eq, ← List.drop_append, List.drop_drop,
      List.length_append, List.append_assoc]
  · rw [span_cons, h.span_eq, List.length_append, Op.span]

/-- A script that makes `new` out of `old`, run over a buffer that holds `old`. -/
theorem Makes.splice_buffer {ops : List (Op α)} {old new buf : List α} (h : Makes ops old new)
    (hbuf : old <+: buf) : splice ops buf = new ++ buf.drop new.length := by
  obtain ⟨tail, rfl⟩ := hbuf
  exact h.splice_eq tail

end Delta
