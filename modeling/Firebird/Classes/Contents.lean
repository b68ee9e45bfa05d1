import Mathlib.Data.List.Flatten
import Firebird.Classes.Array

/-! # The contents of an array

What each operation leaves in an array that holds a list.
-/

namespace Firebird.Classes

open Wrap (toInt32 toInt32_of_lt)
open Outcome

variable {p : Params}

namespace Array

@[simp]
theorem image_nil : image ([] : List (Elem p)) = [] := rfl

@[simp]
theorem image_cons (x : Elem p) (xs : List (Elem p)) : image (x :: xs) = x.val ++ image xs := rfl

@[simp]
theorem image_append (xs ys : List (Elem p)) : image (xs ++ ys) = image xs ++ image ys :=
  List.flatMap_append

@[simp]
theorem length_image (xs : List (Elem p)) : (image xs).length = p.size * xs.length := by
  induction xs with
  | nil => rfl
  | cons x xs ih => rw [image_cons, List.length_append, ih, x.property, List.length_cons]; ring

theorem take_image (xs : List (Elem p)) (n : ℕ) :
    (image xs).take (p.size * n) = image (xs.take n) := by
  induction n generalizing xs with
  | zero => rfl
  | succ n ih =>
      cases xs with
      | nil => rw [image_nil, List.take_nil, List.take_nil, image_nil]
      | cons x xs =>
          have hx : x.val.length ≤ p.size * (n + 1) := by
            rw [x.property]
            exact Nat.le_mul_of_pos_right _ n.succ_pos
          have hn : p.size * (n + 1) - p.size = p.size * n := by
            rw [Nat.mul_succ, Nat.add_sub_cancel]
          rw [image_cons, List.take_succ_cons, image_cons, List.take_append, List.take_of_length_le hx,
            x.property, hn, ih]

theorem drop_image (xs : List (Elem p)) (n : ℕ) :
    (image xs).drop (p.size * n) = image (xs.drop n) := by
  induction n generalizing xs with
  | zero => rfl
  | succ n ih =>
      cases xs with
      | nil => rw [image_nil, List.drop_nil, List.drop_nil, image_nil]
      | cons x xs =>
          have hx : x.val.length ≤ p.size * (n + 1) := by
            rw [x.property]
            exact Nat.le_mul_of_pos_right _ n.succ_pos
          have hn : p.size * (n + 1) - p.size = p.size * n := by
            rw [Nat.mul_succ, Nat.add_sub_cancel]
          rw [image_cons, List.drop_succ_cons, List.drop_append, List.drop_eq_nil_of_le hx,
            x.property, hn, List.nil_append, ih]

/-- Bytes of whole elements are those of elements. -/
theorem exists_image {b : List UCHAR} {n : ℕ} (h : b.length = p.size * n) :
    ∃ xs : List (Elem p), xs.length = n ∧ image xs = b := by
  induction n generalizing b with
  | zero =>
      obtain rfl := List.eq_nil_of_length_eq_zero h
      exact ⟨[], rfl, rfl⟩
  | succ n ih =>
      have hb : b.length = p.size + p.size * n := by rw [h]; ring
      have hhead : (b.take p.size).length = p.size := by rw [List.length_take]; omega
      obtain ⟨xs, hlen, himage⟩ := ih (b := b.drop p.size) (by rw [List.length_drop]; omega)
      refine ⟨⟨b.take p.size, hhead⟩ :: xs, congrArg (· + 1) hlen, ?_⟩
      rw [image_cons, himage, List.take_append_drop]

/-- The array holds the list, at the start of its block. -/
structure Holds (a : Array p) (xs : List (Elem p)) : Prop where
  count_eq : a.count = xs.length
  data_eq : ∃ rest, a.data = image xs ++ rest
  length_eq : (a.data.length : ℤ) = p.size * a.capacity
  capacity_lt : a.capacity < 2147483648
  capacity_fits : p.size * a.capacity < 2 ^ p.bits
  storage_length : a.storage.length = p.size * p.storageSize

/-- There is room for the count, or it can be made. -/
def Fits (a : Array p) (n : ℤ) : Prop :=
  n < 2147483648 ∧ (a.capacity < n → p.size * grownTo a.capacity n < 2 ^ p.bits)

variable {a l : Array p} {xs ys zs : List (Elem p)} {A : Allocator} {n index : ℤ} {item : Elem p}

/-! ## Blocks -/

@[simp]
theorem data_setData (a : Array p) (b : List UCHAR) : (a.setData b).data = b := by
  unfold setData data
  split <;> rename_i h <;> simp [h]

@[simp]
theorem capacity_setData (a : Array p) (b : List UCHAR) : (a.setData b).capacity = a.capacity := by
  unfold setData
  split <;> rfl

theorem bytes_of_lt (h0 : 0 ≤ n) (h : p.size * n < 2 ^ p.bits) :
    (p.bytes n : ℤ) = p.size * n := by
  have hpos : (0 : ℤ) ≤ p.size * n := by positivity
  rw [Params.bytes, Int.emod_eq_of_lt hpos h, Int.toNat_of_nonneg hpos]

namespace Holds

theorem count_le (h : a.Holds xs) : (xs.length : ℤ) ≤ a.capacity := by
  obtain ⟨rest, hrest⟩ := h.data_eq
  have hlen := h.length_eq
  rw [hrest, List.length_append, length_image] at hlen
  have hpos : (0 : ℤ) < p.size := Int.natCast_pos.mpr p.size_pos
  push_cast at hlen
  nlinarith

/-- Copies of as many elements as there is room for have their length. -/
theorem bytes_eq (h : a.Holds xs) (h0 : 0 ≤ n) (hle : n ≤ a.capacity) :
    (p.bytes n : ℤ) = p.size * n :=
  bytes_of_lt h0 (lt_of_le_of_lt (Int.mul_le_mul_of_nonneg_left hle (Int.natCast_nonneg _))
    h.capacity_fits)

/-- The block with other bytes in it -/
theorem setData (h : a.Holds xs) {b : List UCHAR} (hb : ∃ rest, b = image ys ++ rest)
    (hlen : b.length = a.data.length) (hn : n = ys.length) :
    Holds { a.setData b with count := n } ys where
  count_eq := hn
  data_eq := by
    obtain ⟨rest, hrest⟩ := hb
    exact ⟨rest, (data_setData a b).trans hrest⟩
  length_eq := by
    show ((a.setData b).data.length : ℤ) = p.size * (a.setData b).capacity
    rw [data_setData, capacity_setData, hlen, h.length_eq]
  capacity_lt := (capacity_setData a b).symm ▸ h.capacity_lt
  capacity_fits := (capacity_setData a b).symm ▸ h.capacity_fits
  storage_length := by
    have hstorage := h.storage_length
    unfold Array.setData
    unfold data at hlen
    cases hheap : a.heap with
    | none =>
        rw [hheap, Option.getD_none] at hlen
        exact hlen.trans hstorage
    | some _ => exact hstorage

/-- All elements, as they are copied elsewhere -/
theorem read_all (h : a.Holds xs) :
    Block.read Fault.outside a.data 0 (p.bytes a.count) = .ok (image xs) := by
  obtain ⟨rest, hrest⟩ := h.data_eq
  have hbytes := h.bytes_eq (Int.natCast_nonneg xs.length) h.count_le
  refine Block.read_part (p := []) hrest rfl ?_
  rw [h.count_eq, length_image]
  exact_mod_cast hbytes

/-- The block from the end of the contents on -/
theorem room (h : a.Holds xs) {k : ℕ} (hk : (xs.length + k : ℤ) ≤ a.capacity) :
    ∃ rest, a.data = image xs ++ rest ∧ p.size * k ≤ rest.length := by
  obtain ⟨rest, hrest⟩ := h.data_eq
  refine ⟨rest, hrest, ?_⟩
  have hlen := h.length_eq
  have hle : (p.size : ℤ) * (xs.length + k) ≤ p.size * a.capacity :=
    Int.mul_le_mul_of_nonneg_left hk (Int.natCast_nonneg _)
  rw [← hlen, hrest, List.length_append, length_image] at hle
  push_cast at hle
  have : (p.size * k : ℤ) ≤ rest.length := by linarith
  exact_mod_cast this

/-- Elements written from the element `i` on -/
theorem put (h : a.Holds xs) (zs : List (Elem p)) {i : ℕ} (hi : i ≤ xs.length)
    (hroom : (i + zs.length : ℤ) ≤ a.capacity) (hindex : index = i) :
    ∃ b rest, Block.write Fault.outside a.data (p.off index) (image zs) = .ok b ∧
      b.length = a.data.length ∧
      b = image (xs.take i ++ zs ++ xs.drop (i + zs.length)) ++ rest := by
  obtain ⟨rest, hrest⟩ := h.data_eq
  have hlen : p.size * i + p.size * zs.length ≤ a.data.length := by
    have : (p.size : ℤ) * (i + zs.length) ≤ a.data.length := by
      rw [h.length_eq]
      exact Int.mul_le_mul_of_nonneg_left hroom (Int.natCast_nonneg _)
    rw [mul_add] at this
    exact_mod_cast this
  have htake : (a.data.take (p.size * i)).length = p.size * i := by
    rw [List.length_take, Nat.min_eq_left (by omega)]
  have hparts : a.data = a.data.take (p.size * i) ++
      (a.data.drop (p.size * i)).take (p.size * zs.length) ++
      a.data.drop (p.size * i + p.size * zs.length) := by
    rw [List.append_assoc, ← List.drop_drop, List.take_append_drop, List.take_append_drop]
  refine ⟨_, rest.drop (p.size * (i + zs.length) - p.size * xs.length), Block.write_part hparts ?_ ?_,
    ?_, ?_⟩
  · rw [htake, hindex, Params.off]
    push_cast
    rfl
  · rw [length_image, List.length_take, List.length_drop]
    omega
  · simp only [List.length_append, htake, length_image, List.length_drop]
    omega
  · have hpre : (image xs ++ rest).take (p.size * i) = image (xs.take i) := by
      have hle : p.size * i ≤ (image xs).length := by
        rw [length_image]
        exact Nat.mul_le_mul_left _ hi
      rw [List.take_append_of_le_length hle, take_image]
    rw [hrest, hpre, ← Nat.mul_add, List.drop_append, drop_image, length_image, image_append,
      image_append]
    simp only [List.append_assoc]

/-- Elements moved up for others to be put before them -/
theorem open_gap (h : a.Holds xs) (zs : List (Elem p)) {i : ℕ} (hi : i ≤ xs.length)
    (hroom : (xs.length + zs.length : ℤ) ≤ a.capacity) (hindex : index = i) (hn : n = zs.length) :
    ∃ b b', Block.move Fault.outside a.data (p.off (index + n)) (p.off index)
        (p.bytes (toInt32 (a.count - index))) = .ok b ∧
      Block.write Fault.outside b (p.off index) (image zs) = .ok b' ∧
      Holds { a.setData b' with count := xs.length + zs.length } (xs.take i ++ zs ++ xs.drop i) := by
  obtain ⟨rest, hrest, hk⟩ := h.room hroom
  have hcount := h.count_le
  have hcap := h.capacity_lt
  have htake : (image (xs.take i)).length = p.size * i := by
    rw [length_image, List.length_take, Nat.min_eq_left hi]
  have hbytes : p.bytes (toInt32 (a.count - index)) = (image (xs.drop i)).length := by
    have hdiff : toInt32 (a.count - index) = (xs.length - i : ℕ) := by
      rw [h.count_eq, hindex, toInt32_of_lt (by omega) (by omega)]
      omega
    have := h.bytes_eq (n := (xs.length - i : ℕ)) (Int.natCast_nonneg _) (by omega)
    rw [hdiff, length_image, List.length_drop]
    exact_mod_cast this
  have hdata : a.data = image (xs.take i) ++ image (xs.drop i) ++ rest := by
    rw [← image_append, List.take_append_drop, hrest]
  have hsrc : p.off index = ((image (xs.take i)).length : ℤ) := by
    rw [htake, hindex, Params.off]
    push_cast
    rfl
  have hdst : p.off (index + n) = ((image (xs.take i)).length : ℤ) + (p.size * zs.length : ℕ) := by
    rw [← hsrc, hn, Params.off, Params.off]
    push_cast
    ring
  obtain ⟨gap, hgap, hmove⟩ := Block.move_up (e := Fault.outside) (p.size * zs.length) hdata hk
    hsrc hdst hbytes
  have hfull : (image zs).length = gap.length := by rw [hgap, length_image]
  have hput := Block.write_part (e := Fault.outside)
    (List.append_assoc (image (xs.take i) ++ gap) (image (xs.drop i))
      (rest.drop (p.size * zs.length))) hsrc hfull
  refine ⟨_, _, hmove, hput, h.setData ⟨rest.drop (p.size * zs.length), ?_⟩ ?_ ?_⟩
  · simp only [image_append, List.append_assoc]
  · rw [hdata]
    simp only [List.length_append, length_image, List.length_drop]
    omega
  · simp only [List.length_append, List.length_take, List.length_drop]
    omega

/-- Elements moved down over those that are removed -/
theorem close_gap (h : a.Holds xs) {i j : ℕ} (hij : i ≤ j) (hj : j ≤ xs.length) {start stop : ℤ}
    (hstart : start = i) (hstop : stop = j) :
    ∃ b, Block.move Fault.outside a.data (p.off start) (p.off stop)
        (p.bytes (toInt32 (a.count - stop))) = .ok b ∧
      Holds { a.setData b with count := xs.length - (j - i) } (xs.take i ++ xs.drop j) := by
  obtain ⟨rest, hrest⟩ := h.data_eq
  have hcount := h.count_le
  have hcap := h.capacity_lt
  have hgap : (image ((xs.drop i).take (j - i))).length = p.size * (j - i) := by
    rw [length_image, List.length_take, List.length_drop, Nat.min_eq_left (by omega)]
  have htake : (image (xs.take i)).length = p.size * i := by
    rw [length_image, List.length_take, Nat.min_eq_left (by omega)]
  have hdata : a.data = image (xs.take i) ++ image ((xs.drop i).take (j - i)) ++
      image (xs.drop j) ++ rest := by
    have hdrop : xs.drop j = (xs.drop i).drop (j - i) := by
      rw [List.drop_drop, Nat.add_sub_cancel' hij]
    rw [hrest, List.append_assoc (image _), ← image_append, hdrop, List.take_append_drop,
      ← image_append, List.take_append_drop]
  have hbytes : p.bytes (toInt32 (a.count - stop)) = (image (xs.drop j)).length := by
    have hdiff : toInt32 (a.count - stop) = (xs.length - j : ℕ) := by
      rw [h.count_eq, hstop, toInt32_of_lt (by omega) (by omega)]
      omega
    have := h.bytes_eq (n := (xs.length - j : ℕ)) (Int.natCast_nonneg _) (by omega)
    rw [hdiff, length_image, List.length_drop]
    exact_mod_cast this
  have hdst : p.off start = ((image (xs.take i)).length : ℤ) := by
    rw [htake, hstart, Params.off]
    push_cast
    rfl
  have hsrc : p.off stop = ((image (xs.take i)).length : ℤ) +
      ((image ((xs.drop i).take (j - i))).length : ℤ) := by
    rw [htake, hgap, hstop, Params.off, ← Nat.cast_add, ← Nat.mul_add, Nat.add_sub_cancel' hij]
    push_cast
    rfl
  obtain ⟨tail, htail, hmove⟩ := Block.move_down (e := Fault.outside) hdata hdst hsrc hbytes
  refine ⟨_, hmove, h.setData ⟨tail, ?_⟩ ?_ ?_⟩
  · rw [image_append]
  · rw [hdata]
    simp only [List.length_append, htail]
    omega
  · simp only [List.length_append, List.length_take, List.length_drop]
    omega

/-- The first elements -/
theorem take (h : a.Holds xs) {k : ℕ} (hk : k ≤ xs.length) (hn : n = k) :
    Holds { a with count := n } (xs.take k) := by
  obtain ⟨rest, hrest⟩ := h.data_eq
  refine ⟨?_, ⟨image (xs.drop k) ++ rest, ?_⟩, h.length_eq, h.capacity_lt, h.capacity_fits,
    h.storage_length⟩
  · rw [List.length_take, Nat.min_eq_left hk]
    exact hn
  · rw [← List.append_assoc, ← image_append, List.take_append_drop]
    exact hrest

/-- More elements than there are: what stands behind them -/
theorem extend (h : a.Holds xs) {k : ℕ} (hk : (xs.length + k : ℤ) ≤ a.capacity)
    (hn : n = xs.length + k) :
    ∃ ys : List (Elem p), ys.length = k ∧ Holds { a with count := n } (xs ++ ys) := by
  obtain ⟨rest, hrest, hroom⟩ := h.room hk
  obtain ⟨ys, hlen, hys⟩ := exists_image (b := rest.take (p.size * k)) (n := k) (by
    rw [List.length_take, Nat.min_eq_left hroom])
  refine ⟨ys, hlen, ?_, ⟨rest.drop (p.size * k), ?_⟩, h.length_eq, h.capacity_lt,
    h.capacity_fits, h.storage_length⟩
  · rw [List.length_append, hlen]
    exact_mod_cast hn
  · rw [image_append, hys, List.append_assoc, List.take_append_drop]
    exact hrest

end Holds

theorem le_grownTo (capacity n : ℤ) : n ≤ grownTo capacity n := by
  unfold grownTo
  split <;> omega

theorem grownTo_lt {capacity : ℤ} (h : n < 2147483648) : grownTo capacity n < 2147483648 := by
  unfold grownTo
  split
  · rw [Wrap.toInt32_eq]
    omega
  · exact h

/-- There is room behind the contents for what has been asked for. -/
theorem ensureCapacity_holds (h : a.Holds xs) (hn : a.Fits n) :
    Outcome.Holds (fun a' : Array p => a'.Holds xs ∧ n ≤ a'.capacity) (· = Fault.noMemory)
      (a.ensureCapacity A n) := by
  unfold ensureCapacity
  split
  · rename_i hlt
    have hcount := h.count_le
    have hle := le_grownTo a.capacity n
    have hbytes : (p.bytes (grownTo a.capacity n) : ℤ) = p.size * grownTo a.capacity n :=
      bytes_of_lt (by omega) (hn.2 hlt)
    dsimp only
    split
    · exact rfl
    · rename_i newdata hnew
      have hlen := A.length_eq _ _ hnew
      -- the new block is larger than what is copied
      have hroom : (image xs).length ≤ newdata.length := by
        rw [hlen, length_image]
        have : (p.size : ℤ) * xs.length ≤ p.size * grownTo a.capacity n :=
          Int.mul_le_mul_of_nonneg_left (by omega) (Int.natCast_nonneg _)
        rw [← hbytes] at this
        exact_mod_cast this
      have hput : Block.write Fault.outside newdata 0 (image xs) =
          .ok (image xs ++ newdata.drop (image xs).length) := by
        refine Block.write_part (p := []) (q := newdata.take (image xs).length) ?_ rfl ?_
        · exact (List.take_append_drop _ _).symm
        · rw [List.length_take, Nat.min_eq_left hroom]
      rw [h.read_all, ok_seq, hput, ok_seq]
      refine ⟨⟨h.count_eq, ⟨_, rfl⟩, ?_, grownTo_lt hn.1, hn.2 hlt, h.storage_length⟩, hle⟩
      show (((image xs ++ newdata.drop (image xs).length).length : ℕ) : ℤ) = _
      rw [← hbytes, ← hlen, List.length_append, List.length_drop]
      omega
  · exact ⟨h, by omega⟩

/-! ## Operations -/

theorem Fits.int (hn : a.Fits n) (h0 : 0 ≤ n) : toInt32 n = n :=
  toInt32_of_lt (by omega) hn.1

theorem construct_holds {storage : List UCHAR} (h : storage.length = p.size * p.storageSize) :
    (construct p storage).Holds [] where
  count_eq := rfl
  data_eq := ⟨storage, rfl⟩
  length_eq := by
    show (storage.length : ℤ) = _
    rw [h]
    exact Nat.cast_mul _ _
  capacity_lt := Int.ofNat_lt.mpr p.storage_int
  capacity_fits := by
    show (p.size * p.storageSize : ℤ) < 2 ^ p.bits
    exact_mod_cast p.storage_fits
  storage_length := h

theorem free_holds (h : a.Holds xs) : a.free.Holds [] := construct_holds h.storage_length

theorem clear_holds (h : a.Holds xs) : a.clear.Holds [] := h.take (Nat.zero_le _) rfl

theorem shrink_holds (h : a.Holds xs) {k : ℕ} (hk : k ≤ xs.length) (hn : n = k) :
    (a.shrink n).Holds (xs.take k) := h.take hk hn

theorem insert_holds (h : a.Holds xs) {i : ℕ} (hi : i ≤ xs.length) (hindex : index = i)
    (hn : a.Fits (a.count + 1)) :
    Outcome.Holds (Holds · (xs.take i ++ [item] ++ xs.drop i)) (· = Fault.noMemory)
      (a.insert A index item) := by
  have hint := hn.int (by rw [h.count_eq]; omega)
  unfold insert
  rw [hint]
  refine (ensureCapacity_holds h hn).bind fun a' ha' => ?_
  obtain ⟨b, b', hmove, hput, hholds⟩ := ha'.1.open_gap [item] (n := 1) hi
    (by rw [← h.count_eq]; exact ha'.2) hindex rfl
  have hval : image [item] = item.val := List.append_nil _
  have hcount : toInt32 (a'.count + 1) = (xs.length + [item].length : ℤ) := by
    rw [ha'.1.count_eq, ← h.count_eq, hint]
    rfl
  rw [hval] at hput
  rw [hmove, ok_seq, hput, ok_seq, hcount]
  exact hholds

/-- The insertion of an array, where a copy of as many bytes as there are elements is all of them -/
theorem insertArray_holds (h : a.Holds xs) (hl : l.Holds ys) {i : ℕ} (hi : i ≤ xs.length)
    (hindex : index = i) (hn : a.Fits (a.count + l.count)) (hsize : p.size = 1 ∨ l.count = 0) :
    Outcome.Holds (Holds · (xs.take i ++ ys ++ xs.drop i)) (· = Fault.noMemory)
      (a.insertArray A index l) := by
  have hint := hn.int (by rw [h.count_eq, hl.count_eq]; omega)
  unfold insertArray
  rw [hint]
  refine (ensureCapacity_holds h hn).bind fun a' ha' => ?_
  obtain ⟨b, b', hmove, hput, hholds⟩ := ha'.1.open_gap ys hi
    (by rw [← h.count_eq, ← hl.count_eq]; exact ha'.2) hindex hl.count_eq
  have hlen : (l.count % 2 ^ p.bits).toNat = p.bytes l.count := by
    rw [Params.bytes]
    rcases hsize with hsize | hsize
    · rw [hsize, Nat.cast_one, one_mul]
    · rw [hsize, mul_zero]
  have hcount : toInt32 (a'.count + l.count) = (xs.length + ys.length : ℤ) := by
    rw [ha'.1.count_eq, ← h.count_eq, hint, h.count_eq, hl.count_eq]
  rw [hmove, ok_seq, hlen, hl.read_all, ok_seq, hput, ok_seq, hcount]
  exact hholds

/-- Elements written behind the others -/
theorem put_end (h : a.Holds xs) (zs : List (Elem p))
    (hroom : (xs.length + zs.length : ℤ) ≤ a.capacity)
    (hn : n = xs.length + zs.length) :
    ∃ b, Block.write Fault.outside a.data (p.off a.count) (image zs) = .ok b ∧
      Holds { a.setData b with count := n } (xs ++ zs) := by
  obtain ⟨b, rest, hput, hlen, hb⟩ := h.put zs (Nat.le_refl _) hroom h.count_eq
  rw [List.take_length, List.drop_eq_nil_of_le (Nat.le_add_right _ _), List.append_nil] at hb
  refine ⟨b, hput, h.setData ⟨rest, hb⟩ hlen ?_⟩
  rw [hn, List.length_append, Nat.cast_add]

theorem add_holds (h : a.Holds xs) (hn : a.Fits (a.count + 1)) :
    Outcome.Holds (Holds · (xs ++ [item])) (· = Fault.noMemory) (a.add A item) := by
  have hint := hn.int (by rw [h.count_eq]; omega)
  unfold add
  rw [hint]
  refine (ensureCapacity_holds h hn).bind fun a' ha' => ?_
  have hsum : a'.count + 1 = (xs.length + [item].length : ℤ) := by
    rw [ha'.1.count_eq]
    rfl
  obtain ⟨b, hput, hholds⟩ := put_end ha'.1 [item] (by rw [← h.count_eq]; exact ha'.2) hsum
  have hval : image [item] = item.val := List.append_nil _
  rw [hval] at hput
  have hcount : toInt32 (a'.count + 1) = a'.count + 1 := by
    rw [ha'.1.count_eq, ← h.count_eq, hint]
  rw [hput, ok_seq, hcount]
  exact hholds

theorem append_holds (h : a.Holds xs) {source : List UCHAR} (hlen : n = zs.length)
    (hread : Block.read Fault.outside source 0 (p.bytes n) = .ok (image zs))
    (hn : a.Fits (a.count + n)) :
    Outcome.Holds (Holds · (xs ++ zs)) (· = Fault.noMemory) (a.append A n source) := by
  have hint := hn.int (by rw [h.count_eq]; omega)
  unfold append
  rw [hint]
  refine (ensureCapacity_holds h hn).bind fun a' ha' => ?_
  have hsum : a'.count + n = (xs.length + zs.length : ℤ) := by
    rw [ha'.1.count_eq, hlen]
  obtain ⟨b, hput, hholds⟩ := put_end ha'.1 zs (by
    rw [← h.count_eq, ← hlen]; exact ha'.2) hsum
  have hcount : toInt32 (a'.count + n) = a'.count + n := by
    rw [ha'.1.count_eq, ← h.count_eq, hint]
  rw [hread, ok_seq, hput, ok_seq, hcount]
  exact hholds

theorem join_holds (h : a.Holds xs) (hl : l.Holds ys) (hn : a.Fits (a.count + l.count)) :
    Outcome.Holds (Holds · (xs ++ ys)) (· = Fault.noMemory) (a.join A l) :=
  append_holds h hl.count_eq hl.read_all hn

/-- What there is or will be room for has a length in bytes. -/
theorem Fits.bytes (h : a.Holds xs) (hn : a.Fits n) : p.size * n < 2 ^ p.bits := by
  have hmul {m m' : ℤ} (hle : m ≤ m') : (p.size : ℤ) * m ≤ p.size * m' :=
    Int.mul_le_mul_of_nonneg_left hle (Int.natCast_nonneg _)
  by_cases hlt : a.capacity < n
  · exact lt_of_le_of_lt (hmul (le_grownTo a.capacity n)) (hn.2 hlt)
  · exact lt_of_le_of_lt (hmul (not_lt.mp hlt)) h.capacity_fits

theorem addItems_holds (h : a.Holds xs) (hn : a.Fits (a.count + ys.length)) :
    Outcome.Holds (Holds · (xs ++ ys)) (· = Fault.noMemory) (a.addItems A ys) := by
  refine append_holds h rfl ?_ hn
  refine Block.read_part (p := []) (r := []) (List.append_nil _).symm rfl ?_
  have hbytes : (p.bytes ys.length : ℤ) = p.size * ys.length := by
    refine bytes_of_lt (Int.natCast_nonneg _) (lt_of_le_of_lt ?_ (Fits.bytes h hn))
    refine Int.mul_le_mul_of_nonneg_left ?_ (Int.natCast_nonneg _)
    rw [h.count_eq]
    omega
  rw [length_image]
  exact_mod_cast hbytes

/-- A value of zero bytes -/
def zero (p : Params) : Elem p := ⟨List.replicate p.size 0, List.length_replicate⟩

theorem image_zeros (p : Params) (k : ℕ) :
    image (List.replicate k (zero p)) = List.replicate (p.size * k) 0 := by
  induction k with
  | zero => rfl
  | succ k ih =>
      rw [List.replicate_succ, image_cons, ih, Nat.mul_succ, Nat.add_comm, List.replicate_add]
      rfl

theorem grow_holds (h : a.Holds xs) (hle : a.count ≤ n) (hn : a.Fits n) :
    Outcome.Holds (Holds · (xs ++ List.replicate (n - a.count).toNat (zero p)))
      (· = Fault.noMemory) (a.grow A n) := by
  have hcount := h.count_eq
  unfold grow
  refine (ensureCapacity_holds h hn).bind fun a' ha' => ?_
  have hcount' : a'.count = a.count := by rw [ha'.1.count_eq, hcount]
  have hint := hn.1
  have hdiff : toInt32 (n - a'.count) = n - a.count := by
    rw [hcount', toInt32_of_lt (by omega) (by omega)]
  have hbytes : p.bytes (toInt32 (n - a'.count)) = p.size * (n - a.count).toNat := by
    rw [hdiff]
    have := ha'.1.bytes_eq (n := n - a.count) (by omega) (by omega)
    rw [← Int.toNat_of_nonneg (show 0 ≤ n - a.count by omega)] at this ⊢
    rw [Int.toNat_natCast]
    exact_mod_cast this
  have hsum : n = (xs.length + (List.replicate (n - a.count).toNat (zero p)).length : ℤ) := by
    rw [List.length_replicate]
    omega
  obtain ⟨b, hput, hholds⟩ := put_end ha'.1 _ (hsum ▸ ha'.2) hsum
  rw [image_zeros] at hput
  rw [hbytes, hput, ok_seq]
  exact hholds

theorem assign_holds (h : a.Holds xs) (hl : l.Holds ys) (hn : a.Fits l.count) :
    Outcome.Holds (Holds · ys) (· = Fault.noMemory) (a.assign A l) := by
  unfold assign
  refine (ensureCapacity_holds h hn).bind fun a' ha' => ?_
  obtain ⟨b, rest, hput, hlen, hb⟩ := ha'.1.put ys (i := 0)
    (Nat.zero_le _) (by rw [← hl.count_eq]; simpa using ha'.2) (rfl : (0 : ℤ) = (0 : ℕ))
  have hoff : p.off 0 = 0 := mul_zero _
  rw [hoff] at hput
  rw [hl.read_all, ok_seq, hput, ok_seq]
  refine ha'.1.setData ⟨image (xs.drop (0 + ys.length)) ++ rest, ?_⟩ hlen hl.count_eq
  rw [hb, image_append, List.take_zero, List.nil_append, List.append_assoc]

theorem removeRange_holds (h : a.Holds xs) {i j : ℕ} (hij : i ≤ j) (hj : j ≤ xs.length)
    {start stop : ℤ} (hstart : start = i) (hstop : stop = j) :
    Outcome.Holds (Holds · (xs.take i ++ xs.drop j)) (· = Fault.noMemory)
      (a.removeRange start stop) := by
  have hle := h.count_le
  have hlt := h.capacity_lt
  obtain ⟨b, hmove, hholds⟩ := h.close_gap hij hj hstart hstop
  have hcount : toInt32 (a.count - toInt32 (stop - start)) = (xs.length - (j - i) : ℤ) := by
    rw [h.count_eq, hstart, hstop, toInt32_of_lt (x := j - i) (by omega) (by omega),
      toInt32_of_lt (by omega) (by omega)]
  unfold removeRange
  rw [hmove, ok_seq, hcount]
  exact hholds

theorem remove_holds (h : a.Holds xs) {i : ℕ} (hi : i < xs.length) (hindex : index = i) :
    Outcome.Holds (Holds · (xs.take i ++ xs.drop (i + 1))) (· = Fault.noMemory)
      (a.remove index) := by
  have hle := h.count_le
  have hlt := h.capacity_lt
  obtain ⟨b, hmove, hholds⟩ := h.close_gap (Nat.le_succ i) hi hindex
    (show index + 1 = ((i + 1 : ℕ) : ℤ) by rw [hindex]; rfl)
  have hcount : toInt32 (a.count - 1) = (xs.length - ((i + 1 : ℕ) - i) : ℤ) := by
    rw [h.count_eq, toInt32_of_lt (by omega) (by omega)]
    omega
  -- the length of the copy is that of the removal of a range of one element
  have hbytes : toInt32 (toInt32 (a.count - 1) - index) = toInt32 (a.count - (index + 1)) := by
    rw [h.count_eq, toInt32_of_lt (x := xs.length - 1) (by omega) (by omega)]
    congr 1
    omega
  unfold remove
  dsimp only
  rw [hbytes, hmove, ok_seq, hcount]
  exact hholds

/-- An element that there is is read as it is in the list. -/
theorem element_eq (h : a.Holds xs) {i : ℕ} (hi : i < xs.length) (hindex : index = i) :
    a.element index = .ok xs[i].val := by
  obtain ⟨rest, hrest⟩ := h.data_eq
  refine Block.read_part (p := image (xs.take i)) (r := image (xs.drop (i + 1)) ++ rest) ?_ ?_ ?_
  · rw [hrest, ← List.append_assoc]
    congr 1
    have hval : image [xs[i]] = xs[i].val := List.append_nil _
    rw [← hval, ← image_append, ← image_append, List.append_assoc, List.singleton_append,
      List.getElem_cons_drop, List.take_append_drop]
  · rw [length_image, List.length_take, Nat.min_eq_left (Nat.le_of_lt hi), hindex, Params.off]
    push_cast
    rfl
  · exact xs[i].property.symm

theorem set_holds (h : a.Holds xs) {i : ℕ} (hi : i < xs.length) (hindex : index = i) :
    Outcome.Holds (Holds · (xs.set i item)) (· = Fault.noMemory) (a.set index item) := by
  have hle := h.count_le
  obtain ⟨b, rest, hput, hlen, hb⟩ := h.put [item] (Nat.le_of_lt hi) (by
    rw [List.length_singleton]; push_cast; omega) hindex
  have hval : image [item] = item.val := List.append_nil _
  rw [hval] at hput
  unfold Array.set
  rw [hput, ok_seq]
  have hset : xs.set i item = xs.take i ++ [item] ++ xs.drop (i + 1) := by
    rw [List.set_eq_take_append_cons_drop, if_pos hi, List.append_assoc, List.singleton_append]
  have hcount : (a.setData b).count = a.count := by
    unfold setData
    split <;> rfl
  rw [hset]
  have hholds := h.setData (n := a.count) ⟨rest, hb⟩ hlen (by
    rw [h.count_eq, List.length_append, List.length_append, List.length_take, List.length_drop,
      List.length_singleton]
    omega)
  rw [← hcount] at hholds
  exact hholds

theorem pop_holds (h : a.Holds xs) (hne : xs ≠ []) :
    Outcome.Holds (fun r => r.1 = (xs.getLast hne).val ∧ r.2.Holds xs.dropLast)
      (· = Fault.noMemory) a.pop := by
  have hle := h.count_le
  have hlt := h.capacity_lt
  have hpos := List.length_pos_of_ne_nil hne
  have hcount : toInt32 (a.count - 1) = (xs.length - 1 : ℕ) := by
    rw [h.count_eq, toInt32_of_lt (by omega) (by omega)]
    omega
  unfold pop
  dsimp only
  rw [hcount, element_eq h (by omega) rfl, ok_seq]
  refine ⟨congrArg Subtype.val (List.getLast_eq_getElem hne).symm, ?_⟩
  rw [List.dropLast_eq_take]
  exact h.take (Nat.sub_le _ _) rfl

/-- A buffer keeps the elements that it has room for; what stands behind them is not said. -/
theorem getBuffer_holds (h : a.Holds xs) (h0 : 0 ≤ n) (hn : a.Fits n) :
    Outcome.Holds (fun a' => ∃ ys : List (Elem p), (ys.length : ℤ) = n ∧
        xs.take n.toNat = ys.take xs.length ∧ Holds a' ys) (· = Fault.noMemory)
      (a.getBuffer A n) := by
  unfold getBuffer
  refine (ensureCapacity_holds h hn).bind fun a' ha' => ?_
  rcases Nat.le_total n.toNat xs.length with hle | hle
  · refine ⟨xs.take n.toNat, ?_, ?_, ha'.1.take hle (Int.toNat_of_nonneg h0).symm⟩
    · rw [List.length_take]
      omega
    · rw [List.take_take, Nat.min_eq_right hle]
  · obtain ⟨ys, hlen, hholds⟩ := ha'.1.extend (k := n.toNat - xs.length) (n := n)
      (by omega) (by omega)
    refine ⟨xs ++ ys, ?_, ?_, hholds⟩
    · rw [List.length_append]
      omega
    · rw [List.take_of_length_le hle, List.take_left]

theorem constructWith_holds {storage : List UCHAR}
    (h : storage.length = p.size * p.storageSize) (hn : (construct p storage).Fits n) :
    Outcome.Holds (Holds · []) (· = Fault.noMemory) (constructWith p A storage n) :=
  (ensureCapacity_holds (construct_holds h) hn).mono (fun _ ha => ha.1) fun _ he => he

end Array

end Firebird.Classes
