import Mathlib.Data.List.Flatten
import Mathlib.Data.Nat.Notation

/-! # Conversion loops

A loop takes one character after the other off the front of its source, and writes what it is
converted to. The body of the loop looks at the rest of the source and at the room that is left. The
loop stops at the end of the source, where there is no room for one unit, or where its body stops.
-/

namespace Transcode

universe u v

/-- What the body of a loop does: it writes something for the next `n` entries of the source, stops
with an error code, or looks behind the end of the source. -/
inductive Body (β : Type v)
  | next (out : List β) (n : ℕ)
  | stop (e : ℕ)
  | fault

variable {α : Type u} {β : Type v}

/-- The loop, with units of `width`: what is written, the error code, and what is left. Each turn
takes at least one entry. -/
def loop (body : ℕ → List α → Body β) (width : ℕ) :
    ℕ → ℕ → List α → Option (List β × ℕ × List α)
  | 0, _, src => some ([], 0, src)
  | k + 1, room, src =>
      if src.isEmpty ∨ room < width then some ([], 0, src)
      else
        match body room src with
        | .fault => none
        | .stop e => some ([], e, src)
        | .next out n =>
            (loop body width k (room - width * out.length) (src.drop n)).map fun r =>
              (out ++ r.1, r.2)

/-- The body takes characters, and writes what they are converted to, where there is room. -/
def Takes (body : ℕ → List α → Body β) (width : ℕ) (isChar : List α → Prop)
    (conv : List α → List β) : Prop :=
  ∀ room src out n, width ≤ room → body room src = .next out n →
    ∃ c rest, src = c ++ rest ∧ c.length = n ∧ c ≠ [] ∧ isChar c ∧ out = conv c ∧
      width * out.length ≤ room

/-- The body takes each of these characters, if there is room. -/
def Accepts (body : ℕ → List α → Body β) (width : ℕ) (isChar : List α → Prop)
    (conv : List α → List β) : Prop :=
  ∀ c, isChar c → c ≠ [] ∧ conv c ≠ [] ∧
    ∀ room rest, width * (conv c).length ≤ room → body room (c ++ rest) = .next (conv c) c.length

variable {body : ℕ → List α → Body β} {width k room : ℕ} {isChar : List α → Prop}
  {conv : List α → List β} {src rest : List α} {r : List β × ℕ × List α}

/-- What is left of a loop: a stretch of whole characters, converted, and the rest of the source -/
def Stretch (width : ℕ) (isChar : List α → Prop) (conv : List α → List β) (room : ℕ)
    (src : List α) (r : List β × ℕ × List α) : Prop :=
  ∃ cs : List (List α), (∀ c ∈ cs, isChar c) ∧ src = cs.flatten ++ r.2.2 ∧
    r.1 = cs.flatMap conv ∧ width * r.1.length ≤ room

theorem Stretch.nil (e : ℕ) : Stretch width isChar conv room src ([], e, src) :=
  ⟨[], fun _ hc => absurd hc List.not_mem_nil, rfl, rfl, Nat.zero_le _⟩

theorem Stretch.cons {c : List α} (hchar : isChar c) (hroom : width * (conv c).length ≤ room)
    (h : Stretch width isChar conv (room - width * (conv c).length) src r) :
    Stretch width isChar conv room (c ++ src) (conv c ++ r.1, r.2) := by
  obtain ⟨cs, hcs, hsrc, hdest, hlength⟩ := h
  refine ⟨c :: cs, List.forall_mem_cons.mpr ⟨hchar, hcs⟩, ?_, ?_, ?_⟩
  · rw [List.flatten_cons, List.append_assoc, ← hsrc]
  · rw [List.flatMap_cons, ← hdest]
  · rw [List.length_append, Nat.mul_add]
    omega

theorem loop_spec (htakes : Takes body width isChar conv) (h : loop body width k room src = some r) :
    Stretch width isChar conv room src r := by
  induction k generalizing room src r with
  | zero =>
      cases h
      exact .nil 0
  | succ k ih =>
      rw [loop] at h
      split at h
      · cases h
        exact .nil 0
      · rename_i hmore
        have hroom : width ≤ room := Nat.not_lt.mp fun hlt => hmore (.inr hlt)
        split at h
        · cases h
        · cases h
          exact .nil _
        · rename_i out n hbody
          obtain ⟨r', hr', rfl⟩ := Option.map_eq_some_iff.mp h
          obtain ⟨c, rest, rfl, hn, -, hchar, rfl, hle⟩ := htakes room src out n hroom hbody
          rw [← hn, List.drop_left] at hr'
          exact (ih hr').cons hchar hle

/-- A stretch of characters is converted, if there is room for it. -/
theorem loop_append (haccepts : Accepts body width isChar conv) {cs : List (List α)}
    (hcs : ∀ c ∈ cs, isChar c) (hroom : width * (cs.flatMap conv).length ≤ room)
    (hk : (cs.flatten ++ rest).length ≤ k) :
    ∃ k', rest.length ≤ k' ∧ loop body width k room (cs.flatten ++ rest) =
      (loop body width k' (room - width * (cs.flatMap conv).length) rest).map fun r =>
        (cs.flatMap conv ++ r.1, r.2) := by
  induction cs generalizing k room with
  | nil =>
      refine ⟨k, hk, ?_⟩
      have hid : (fun r : List β × ℕ × List α => (([] : List (List α)).flatMap conv ++ r.1, r.2)) =
          id := rfl
      rw [hid, Option.map_id_fun]
      rfl
  | cons c cs ih =>
      obtain ⟨hne, hconv, hbody⟩ := haccepts c (hcs c List.mem_cons_self)
      have hlen : 0 < c.length := List.length_pos_iff.mpr hne
      have hout : 0 < (conv c).length := List.length_pos_iff.mpr hconv
      rw [List.flatMap_cons, List.length_append, Nat.mul_add] at hroom
      rw [List.flatten_cons, List.append_assoc] at hk ⊢
      rw [List.length_append] at hk
      obtain ⟨k, rfl⟩ : ∃ k', k = k' + 1 := ⟨k - 1, by omega⟩
      have hwidth : width ≤ width * (conv c).length := Nat.le_mul_of_pos_right width hout
      have hmore : ¬((c ++ (cs.flatten ++ rest)).isEmpty = true ∨ room < width) := by
        rw [not_or, List.isEmpty_iff]
        exact ⟨fun h => hne (List.append_eq_nil_iff.mp h).1, by omega⟩
      obtain ⟨k', hk', heq⟩ := ih (fun c' hc' => hcs c' (List.mem_cons_of_mem _ hc'))
        (by omega : width * _ ≤ room - width * (conv c).length) (by omega : _ ≤ k)
      refine ⟨k', hk', ?_⟩
      rw [loop, if_neg hmore, hbody room _ (by omega)]
      dsimp only
      rw [List.drop_left, heq, Option.map_map, List.flatMap_cons, List.length_append, Nat.mul_add,
        Nat.sub_sub]
      congr 1
      funext r
      simp only [Function.comp_apply, List.append_assoc]

/-- A loop looks behind the end where its body does, after a stretch of whole characters. -/
theorem exists_fault (htakes : Takes body width isChar conv)
    (h : loop body width k room src = none) :
    ∃ (cs : List (List α)) (rest : List α), (∀ c ∈ cs, isChar c) ∧ src = cs.flatten ++ rest ∧
      rest ≠ [] ∧ width * (cs.flatMap conv).length + width ≤ room ∧
        body (room - width * (cs.flatMap conv).length) rest = .fault := by
  induction k generalizing room src with
  | zero => cases h
  | succ k ih =>
      rw [loop] at h
      split at h
      · cases h
      · rename_i hmore
        have hroom : width ≤ room := Nat.not_lt.mp fun hlt => hmore (.inr hlt)
        split at h
        · rename_i hbody
          refine ⟨[], src, fun c hc => absurd hc List.not_mem_nil, rfl, ?_, ?_, hbody⟩
          · exact fun hsrc => hmore (.inl (List.isEmpty_iff.mpr hsrc))
          · exact (Nat.zero_add width).symm ▸ hroom
        · cases h
        · rename_i out n hbody
          obtain ⟨c, rest, rfl, hn, -, hchar, rfl, hle⟩ := htakes room src out n hroom hbody
          rw [Option.map_eq_none_iff, ← hn, List.drop_left] at h
          obtain ⟨cs, rest', hcs, rfl, hne, hleft, hfault⟩ := ih h
          refine ⟨c :: cs, rest', List.forall_mem_cons.mpr ⟨hchar, hcs⟩, ?_, hne, ?_, ?_⟩
          · rw [List.flatten_cons, List.append_assoc]
          · rw [List.flatMap_cons, List.length_append, Nat.mul_add]
            omega
          · rw [List.flatMap_cons, List.length_append, Nat.mul_add, ← Nat.sub_sub]
            exact hfault

theorem loop_isSome (hbody : ∀ room src, body room src ≠ .fault) (k room : ℕ) (src : List α) :
    (loop body width k room src).isSome := by
  induction k generalizing room src with
  | zero => rfl
  | succ k ih =>
      rw [loop]
      split
      · rfl
      · split
        · rename_i hfault
          exact absurd hfault (hbody room src)
        · rfl
        · rw [Option.isSome_map]
          exact ih _ _

end Transcode
