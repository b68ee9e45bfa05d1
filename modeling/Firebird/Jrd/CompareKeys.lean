import Firebird.Lib.Memory
import Firebird.Btr.Compound

/-! # Comparing index keys (`compare_keys` in `jrd/nav.cpp`)

The key of an index entry is compared with the key of a search. When the search has not all the
segments of the index, or the beginning of one only, a longer key matches if what follows is not of
the segment that the search ends with. That segment is found from the marker of its last chunk.
-/

namespace Firebird.Nav

/-- The fields of `IDX` that a comparison reads: `idx_count`, and `idx_itype` of each segment. There
are at most `MAX_INDEX_SEGMENTS`. -/
structure Idx where
  itypes : List ℕ
  count_le : itypes.length ≤ 16

/-- `idx_count` -/
def Idx.count (idx : Idx) : ℕ := idx.itypes.length

def idxString : ℕ := 1
def idxByteArray : ℕ := 3
def idxMetadata : ℕ := 4
def idxFirstIntlString : ℕ := 64

/-- A string type key -/
def IsString (itype : ℕ) : Prop :=
  itype = idxString ∨ itype = idxByteArray ∨ itype = idxMetadata ∨ idxFirstIntlString ≤ itype

instance (itype : ℕ) : Decidable (IsString itype) := inferInstanceAs (Decidable (_ ∨ _))

/-- The bits of `irb_generic` that are passed -/
structure Flags where
  partly : Bool
  starting : Bool
  descending : Bool

/-- Something outside the index description is read. -/
inductive Stop where
  | outside
  deriving DecidableEq

/-- The loop over the bytes that both keys have: the first difference -/
def difference : List UCHAR → List UCHAR → Option Ordering
  | x :: l, y :: m => if x ≠ y then some (if x < y then .lt else .gt) else difference l m
  | _, _ => none

/-- What a key of another length is when all the bytes are equal -/
def byLength (flags : Flags) (length1 length2 : ℕ) : Ordering :=
  if flags.descending then if length1 < length2 then .gt else .lt
  else if length1 < length2 then .lt else .gt

/-- `segment - key_string1`, with the division of C -/
def segmentAt (length2 : ℕ) : ℕ :=
  ((((length2 : ℤ) - 1).tdiv (Btr.stuffCount + 1 : ℕ)) * (Btr.stuffCount + 1 : ℕ)).toNat

/-- `tail->idx_itype`, of the segment that the search ends with, which is known by its marker -/
def tailItype (idx : Idx) (string1 : Memory UCHAR) (length2 : ℕ) : Except Stop ℕ :=
  if 1 < idx.count then
    let i : ℤ := idx.count - (string1 (segmentAt length2)).val
    if 0 ≤ i then
      match idx.itypes[i.toNat]? with
      | some itype => .ok itype
      | none => .error .outside
    else .error .outside
  else
    match idx.itypes.head? with
    | some itype => .ok itype
    | none => .error .outside

/-- Whether a search for a beginning ends with a string type key. The description of the segment is
read in such a search only. -/
def stringTail (idx : Idx) (string1 : Memory UCHAR) (length2 : ℕ) (flags : Flags) :
    Except Stop Bool :=
  if flags.starting then (tailItype idx string1 length2).map fun itype => IsString itype
  else .ok false

/-- `compare_keys`; the first key is in a buffer with other bytes behind it. -/
def compareKeys (idx : Idx) (string1 : Memory UCHAR) (length1 : ℕ) (key2 : List UCHAR)
    (flags : Flags) : Except Stop Ordering :=
  match difference (string1.load 0 length1) key2 with
  | some result => .ok result
  | none =>
      if length1 = key2.length then .ok .eq
      else if (flags.partly ∨ flags.starting) ∧ key2.length < length1 then
        match stringTail idx string1 key2.length flags with
        | .error e => .error e
        | .ok true => .ok .eq
        | .ok false =>
            let remainder := key2.length % (Btr.stuffCount + 1)
            if 1 < idx.count ∧ remainder = 0 ∧
                string1 key2.length ≠ string1 (segmentAt key2.length) then .ok .eq
            -- the rest of the chunk, which may go on behind the key
            else if 1 < idx.count ∧ remainder ≠ 0 ∧
                (string1.load key2.length (Btr.stuffCount + 1 - remainder)).all (· = 0) then .ok .eq
            else .ok (byLength flags length1 key2.length)
      else .ok (byLength flags length1 key2.length)

/-! ## The order of the entries -/

/-- In an ascending index a key stands in front of those that it begins, in a descending one behind
them. -/
def sortKey (descending : Bool) (key : List UCHAR) : List ℕ :=
  key.map Fin.val ++ if descending then [256] else []

theorem sortKey_injective (descending : Bool) : Function.Injective (sortKey descending) := by
  intro key key' h
  have hmap : key.map Fin.val = key'.map Fin.val := List.append_cancel_right h
  exact List.map_injective_iff.mpr Fin.val_injective hmap

/-- A key does not stand in front of the other. -/
def Ordered (descending : Bool) (key key' : List UCHAR) : Prop :=
  sortKey descending key ≤ sortKey descending key'

instance (descending : Bool) (key key' : List UCHAR) : Decidable (Ordered descending key key') :=
  inferInstanceAs (Decidable (sortKey descending key ≤ sortKey descending key'))

theorem Ordered.antisymm {descending : Bool} {key key' : List UCHAR} (h : Ordered descending key key')
    (h' : Ordered descending key' key) : key = key' :=
  sortKey_injective descending (le_antisymm h h')

/-! ## Whole keys -/

/-- With no flag -/
def noFlags : Flags := ⟨false, false, false⟩

theorem difference_eq_none_iff {l m : List UCHAR} : difference l m = none ↔ l <+: m ∨ m <+: l := by
  induction l generalizing m with
  | nil => exact iff_of_true (by cases m <;> rfl) (.inl (List.nil_prefix))
  | cons x l ih =>
      cases m with
      | nil => exact iff_of_true rfl (.inr List.nil_prefix)
      | cons y m =>
          rw [difference, List.cons_prefix_cons, List.cons_prefix_cons]
          split
          · rename_i hne
            refine iff_of_false (by simp) ?_
            rintro (⟨heq, -⟩ | ⟨heq, -⟩)
            · exact hne heq
            · exact hne heq.symm
          · rename_i heq
            obtain rfl := not_not.mp heq
            rw [ih]
            exact ⟨fun h => h.imp (⟨rfl, ·⟩) (⟨rfl, ·⟩), fun h => h.imp And.right And.right⟩

/-- The first difference is in the order of the keys. -/
theorem lt_of_difference {l m : List UCHAR} : (difference l m = some .lt → l < m) ∧
    (difference l m = some .gt → m < l) ∧ difference l m ≠ some .eq := by
  induction l generalizing m with
  | nil => cases m <;> exact ⟨nofun, nofun, nofun⟩
  | cons x l ih =>
      cases m with
      | nil => exact ⟨nofun, nofun, nofun⟩
      | cons y m =>
          rw [difference, List.cons_lt_cons_iff, List.cons_lt_cons_iff]
          split
          · rename_i hne
            rcases lt_or_gt_of_ne hne with hlt | hgt
            · rw [if_pos hlt]
              exact ⟨fun _ => .inl hlt, nofun, nofun⟩
            · rw [if_neg hgt.not_gt]
              exact ⟨nofun, fun _ => .inl hgt, nofun⟩
          · rename_i heq
            obtain rfl := not_not.mp heq
            obtain ⟨hlt, hgt, hne⟩ := @ih m
            exact ⟨fun h => .inr ⟨rfl, hlt h⟩, fun h => .inr ⟨rfl, hgt h⟩, hne⟩

/-! ## Keys in their order -/

section

variable {idx : Idx} {string1 : Memory UCHAR} {key1 key2 : List UCHAR} {flags : Flags}

/-- What stands behind a difference does not matter. -/
theorem lt_of_difference_append {l m : List UCHAR} (t t' : List ℕ) :
    (difference l m = some .lt → l.map Fin.val ++ t < m.map Fin.val ++ t') ∧
    (difference l m = some .gt → m.map Fin.val ++ t' < l.map Fin.val ++ t) := by
  induction l generalizing m with
  | nil => cases m <;> exact ⟨nofun, nofun⟩
  | cons x l ih =>
      cases m with
      | nil => exact ⟨nofun, nofun⟩
      | cons y m =>
          rw [difference, List.map_cons, List.map_cons, List.cons_append, List.cons_append,
            List.cons_lt_cons_iff, List.cons_lt_cons_iff]
          split
          · rename_i hne
            rcases lt_or_gt_of_ne hne with hlt | hgt
            · rw [if_pos hlt]
              exact ⟨fun _ => .inl hlt, nofun⟩
            · rw [if_neg hgt.not_gt]
              exact ⟨nofun, fun _ => .inl hgt⟩
          · rename_i heq
            obtain rfl := not_not.mp heq
            exact ⟨fun h => .inr ⟨rfl, ih.1 h⟩, fun h => .inr ⟨rfl, ih.2 h⟩⟩

/-- A key that another one begins stands behind it in an ascending index, and in front of it in a
descending one. -/
theorem sortKey_lt_of_begins {l m : List UCHAR} (h : l <+: m) (hne : l ≠ m) :
    sortKey false l < sortKey false m ∧ sortKey true m < sortKey true l := by
  obtain ⟨t, rfl⟩ := h
  cases t with
  | nil => exact absurd (List.append_nil l).symm hne
  | cons x t =>
      rw [sortKey, sortKey, sortKey, sortKey, List.map_append, List.append_assoc, List.append_assoc,
        if_neg Bool.false_ne_true, if_pos rfl]
      constructor
      · exact List.Lex.append_left _ List.Lex.nil _
      · exact List.Lex.append_left _ (List.Lex.rel (Nat.lt_of_lt_of_le x.isLt (Nat.le_refl _))) _

theorem compareKeys_self (h : string1.load 0 key1.length = key1) :
    compareKeys idx string1 key1.length key1 flags = .ok .eq := by
  have hdiff : difference key1 key1 = none := Iff.mpr difference_eq_none_iff (.inl List.prefix_rfl)
  rw [compareKeys, h, hdiff]
  exact if_pos rfl

/-- A key that the search does not begin -/
theorem compareKeys_apart (h : string1.load 0 key1.length = key1) (hnot : ¬key2 <+: key1) :
    compareKeys idx string1 key1.length key2 flags =
      .ok (if sortKey flags.descending key1 < sortKey flags.descending key2 then .lt else .gt) := by
  rw [compareKeys, h]
  cases hdiff : difference key1 key2 with
  | some result =>
      obtain ⟨hlt, hgt⟩ := @lt_of_difference_append key1 key2
        (if flags.descending then [256] else []) (if flags.descending then [256] else [])
      cases result with
      | lt => rw [sortKey, sortKey, if_pos (hlt hdiff)]
      | eq => exact absurd hdiff lt_of_difference.2.2
      | gt => rw [sortKey, sortKey, if_neg (hgt hdiff).not_gt]
  | none =>
      have hbegins : key1 <+: key2 := (difference_eq_none_iff.mp hdiff).resolve_right hnot
      have hne : key1 ≠ key2 := by
        rintro rfl
        exact hnot List.prefix_rfl
      have hlength : key1.length < key2.length := by
        refine Nat.lt_of_le_of_ne hbegins.length_le fun heq => hne (hbegins.eq_of_length heq)
      obtain ⟨hup, hdown⟩ := sortKey_lt_of_begins hbegins hne
      dsimp only
      rw [if_neg hlength.ne, if_neg fun hlt => hlength.not_gt hlt.2, byLength]
      cases flags.descending with
      | false => rw [if_neg Bool.false_ne_true, if_pos hlength, if_pos hup]
      | true => rw [if_pos rfl, if_pos hlength, if_neg hdown.not_gt]

/-- A key that the search begins stands with or behind it in an ascending index, and with or in front
of it in a descending one. -/
theorem byLength_longer (h : key2 <+: key1) (hne : key2 ≠ key1) :
    byLength flags key1.length key2.length =
      if sortKey flags.descending key1 < sortKey flags.descending key2 then .lt else .gt := by
  have hlength := h.length_le
  obtain ⟨hup, hdown⟩ := sortKey_lt_of_begins h hne
  rw [byLength]
  cases flags.descending with
  | false => rw [if_neg Bool.false_ne_true, if_neg (by omega), if_neg hup.not_gt]
  | true => rw [if_pos rfl, if_neg (by omega), if_pos hdown]

/-- A longer key than that of a search for a beginning, or for the first segments -/
theorem compareKeys_longer (h : string1.load 0 key1.length = key1) (hbegins : key2 <+: key1)
    (hne : key2 ≠ key1) : compareKeys idx string1 key1.length key2 flags =
      if flags.partly ∨ flags.starting then
        match stringTail idx string1 key2.length flags with
        | .error e => .error e
        | .ok true => .ok .eq
        | .ok false =>
            if 1 < idx.count ∧ key2.length % 5 = 0 ∧
                string1 key2.length ≠ string1 (segmentAt key2.length) then .ok .eq
            else if 1 < idx.count ∧ key2.length % 5 ≠ 0 ∧
                (string1.load key2.length (5 - key2.length % 5)).all (· = 0) then .ok .eq
            else .ok (byLength flags key1.length key2.length)
      else .ok (byLength flags key1.length key2.length) := by
  have hlength : key2.length < key1.length := by
    refine Nat.lt_of_le_of_ne hbegins.length_le fun heq => hne (hbegins.eq_of_length heq)
  have hdiff : difference key1 key2 = none := Iff.mpr difference_eq_none_iff (.inr hbegins)
  rw [compareKeys, h, hdiff]
  dsimp only
  rw [if_neg hlength.ne']
  exact if_congr (and_iff_left hlength) rfl rfl

end

end Firebird.Nav
