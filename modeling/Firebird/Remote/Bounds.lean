import Firebird.Remote.Slice

/-! # When decoding stays in bounds

For each decoder the streams on which it writes only where there is room. A stream that ends early
makes a decoder fail, so that a condition is about what the stream has.
-/

namespace Firebird.Xdr

open Wrap

variable {s s' : Stream} {d : Dsc} {room n k : ℕ} {m : Allocator} {b : Buffer} {sdl : Stream}

/-! ## Fields -/

/-- A length with the filler behind it -/
def padded (n : ℕ) : ℕ := (n + 3) / 4 * 4

/-- The bytes of the stream that a field takes; a type that is not known takes more than there are. -/
def wire (d : Dsc) (s : Stream) : ℕ :=
  match d.dtype with
  | .text => padded d.length
  | .varying => 4 + padded (varyLength d (short s))
  | .cstring => 4 + padded (short s).toNat
  | .short | .sqlTime | .sqlDate | .long | .real => 4
  | .double | .int64 | .timestamp | .array | .quad | .blob => 8
  | .other => s.length + 1

/-- There is room for what the stream has for a field. -/
def FieldFits (d : Dsc) (room : ℕ) (s : Stream) : Prop :=
  match d.dtype with
  | .text => d.length ≤ s.length → d.length ≤ room
  | .varying => 4 ≤ s.length → 2 ≤ room ∧
      (4 + varyLength d (short s) ≤ s.length → 2 + varyLength d (short s) ≤ room)
  | .cstring => 4 ≤ s.length → 0 ≤ short s ∧
      (4 + (short s).toNat ≤ s.length → (short s).toNat ≤ room) ∧
      (4 + padded (short s).toNat ≤ s.length → (short s).toNat < room)
  | .short => 4 ≤ s.length → 2 ≤ room
  | .sqlTime | .sqlDate | .long | .real => 4 ≤ s.length → 4 ≤ room
  | .double | .int64 => 8 ≤ s.length → 8 ≤ room
  | .timestamp | .array | .quad | .blob => (4 ≤ s.length → 4 ≤ room) ∧ (8 ≤ s.length → 8 ≤ room)
  | .other => True

/-- What a decoder comes to that takes `n` bytes, and has room for them if `fits` -/
inductive Takes (fits : Prop) (n : ℕ) (s : Stream) : Except Stop Stream → Prop
  | ok : fits → n ≤ s.length → Takes fits n s (.ok (s.drop n))
  | failed : fits → s.length < n → Takes fits n s (.error .failed)
  | outOfBounds : ¬fits → Takes fits n s (.error .outOfBounds)

theorem getLong_of_lt (h : s.length < 4) : getLong s = .error .failed := if_pos h

theorem getLong_of_le (h : 4 ≤ s.length) : getLong s = .ok (long s, s.drop 4) :=
  if_neg (Nat.not_lt.mpr h)

theorem store_of_le (h : n ≤ room) : store n room = .ok () := if_pos h

theorem store_of_lt (h : room < n) : store n room = .error .outOfBounds :=
  if_neg (Nat.not_le.mpr h)

theorem getBytes_natCast (n room : ℕ) (s : Stream) :
    getBytes n room s = if s.length < n then .error .failed
      else if n ≤ room then .ok (s.drop n) else .error .outOfBounds := by
  rw [getBytes, if_neg (by omega)]
  simp only [Nat.cast_lt, Int.toNat_natCast]
  split
  · rfl
  · split
    · rename_i h
      rw [store_of_le h]
      rfl
    · rename_i h
      rw [store_of_lt (Nat.lt_of_not_le h)]
      rfl

theorem filler_eq (n : ℕ) : (4 - (n : ℤ)) % 4 = ((padded n - n : ℕ) : ℤ) := by
  unfold padded
  omega

theorem padded_spec (n : ℕ) : n ≤ padded n ∧ padded n ≤ n + 3 := by
  unfold padded
  omega

theorem xdrOpaque_takes (n room : ℕ) (s : Stream) :
    Takes (n ≤ s.length → n ≤ room) (padded n) s (xdrOpaque n room s) := by
  obtain ⟨hle, hfiller⟩ := padded_spec n
  rw [xdrOpaque, getBytes_natCast]
  by_cases hlen : s.length < n
  · rw [if_pos hlen, Outcome.error_seq]
    exact .failed (fun h => absurd h (Nat.not_le.mpr hlen)) (by omega)
  · rw [if_neg hlen]
    by_cases hroom : n ≤ room
    · rw [if_pos hroom, Outcome.ok_seq, filler_eq, getBytes_natCast, List.length_drop]
      by_cases hrest : s.length - n < padded n - n
      · rw [if_pos hrest]
        exact .failed (fun _ => hroom) (by omega)
      · rw [if_neg hrest, if_pos (by omega), List.drop_drop, Nat.add_sub_of_le hle]
        exact .ok (fun _ => hroom) (by omega)
    · rw [if_neg hroom, Outcome.error_seq]
      exact .outOfBounds fun h => hroom (h (Nat.le_of_not_lt hlen))

theorem xdrLong_takes (room : ℕ) (s : Stream) :
    Takes (4 ≤ s.length → 4 ≤ room) 4 s (xdrLong room s) := by
  rw [xdrLong]
  by_cases hlen : s.length < 4
  · rw [getLong_of_lt hlen, Outcome.error_seq]
    exact .failed (fun h => absurd h (Nat.not_le.mpr hlen)) hlen
  · have hle := Nat.le_of_not_lt hlen
    rw [getLong_of_le hle, Outcome.ok_seq]
    by_cases hroom : 4 ≤ room
    · simp only [store_of_le hroom, Outcome.ok_seq]
      exact .ok (fun _ => hroom) hle
    · simp only [store_of_lt (Nat.lt_of_not_le hroom), Outcome.error_seq]
      exact .outOfBounds fun h => hroom (h hle)

/-! ### Rules -/

variable {P Q : Prop} {x : Except Stop Stream} {f : Stream → Except Stop Stream}

theorem Takes.inBounds (h : Takes P n s x) : InBounds x ↔ P := by
  cases h with
  | ok hP => exact iff_of_true (inBounds_ok _) hP
  | failed hP => exact iff_of_true inBounds_failed hP
  | outOfBounds hP => exact iff_of_false not_outOfBounds hP

theorem Takes.congr (h : Takes P n s x) (hPQ : P ↔ Q) (hn : n = k) : Takes Q k s x := by
  subst hn
  rwa [← propext hPQ]

/-- What is taken after something else has been -/
theorem Takes.skip (hk : k ≤ s.length) (h : Takes P n (s.drop k) x) : Takes P (k + n) s x := by
  cases h with
  | ok hP hlen =>
      rw [List.length_drop] at hlen
      rw [List.drop_drop]
      exact .ok hP (by omega)
  | failed hP hlen =>
      rw [List.length_drop] at hlen
      exact .failed hP (by omega)
  | outOfBounds hP => exact .outOfBounds hP

/-- One decoder after the other -/
theorem Takes.seq (h : Takes P n s x) (hf : n ≤ s.length → Takes Q k (s.drop n) (f (s.drop n))) :
    Takes (P ∧ (n ≤ s.length → Q)) (n + k) s (x >>= f) := by
  cases h with
  | ok hP hlen =>
      rw [Outcome.ok_seq]
      exact (Takes.skip hlen (hf hlen)).congr ⟨fun hQ => ⟨hP, fun _ => hQ⟩, fun hand => hand.2 hlen⟩ rfl
  | failed hP hlen =>
      exact .failed ⟨hP, fun hle => absurd hle (Nat.not_le.mpr hlen)⟩ (by omega)
  | outOfBounds hP => exact .outOfBounds fun hand => hP hand.1

theorem xdrShort_of_lt (h : s.length < 4) : xdrShort s = .error .failed := by
  rw [xdrShort, getLong_of_lt h, Outcome.error_seq]

theorem xdrShort_of_le (h : 4 ≤ s.length) : xdrShort s = .ok (short s, s.drop 4) := by
  rw [xdrShort, getLong_of_le h, Outcome.ok_seq]
  rfl

theorem xdrHyper_takes (room : ℕ) (s : Stream) :
    Takes (8 ≤ s.length → 8 ≤ room) 8 s (xdrHyper room s) := by
  rw [xdrHyper]
  by_cases hlen : s.length < 4
  · rw [getLong_of_lt hlen, Outcome.error_seq]
    exact .failed (fun h => by omega) (by omega)
  · have hle := Nat.le_of_not_lt hlen
    rw [getLong_of_le hle, Outcome.ok_seq]
    by_cases hlen' : (s.drop 4).length < 4
    · simp only [getLong_of_lt hlen', Outcome.error_seq]
      rw [List.length_drop] at hlen'
      exact .failed (fun h => by omega) (by omega)
    · simp only [getLong_of_le (Nat.le_of_not_lt hlen'), Outcome.ok_seq]
      rw [List.length_drop] at hlen'
      by_cases hroom : 8 ≤ room
      · rw [store_of_le hroom, Outcome.ok_seq, List.drop_drop]
        exact .ok (fun _ => hroom) (by omega)
      · rw [store_of_lt (Nat.lt_of_not_le hroom), Outcome.error_seq]
        exact .outOfBounds fun h => hroom (h (by omega))

theorem xdrQuad_takes (room : ℕ) (s : Stream) :
    Takes ((4 ≤ s.length → 4 ≤ room) ∧ (8 ≤ s.length → 8 ≤ room)) 8 s (xdrQuad room s) := by
  refine ((xdrLong_takes room s).seq fun _ => xdrLong_takes (room - 4) (s.drop 4)).congr ?_ rfl
  rw [List.length_drop]
  constructor
  · rintro ⟨hfirst, hsecond⟩
    exact ⟨hfirst, fun h => by
      have h1 := hfirst (by omega)
      have h2 := hsecond (by omega) (by omega)
      omega⟩
  · rintro ⟨hfirst, hsecond⟩
    refine ⟨hfirst, fun h h' => ?_⟩
    have h2 := hsecond (by omega)
    omega

theorem varying_takes (n room : ℕ) (hle : 4 ≤ s.length) :
    Takes (2 ≤ room ∧ (4 + n ≤ s.length → 2 + n ≤ room)) (4 + padded n) s
      (store 2 room >>= fun _ => xdrOpaque n (room - 2) (s.drop 4)) := by
  by_cases hroom : 2 ≤ room
  · rw [store_of_le hroom, Outcome.ok_seq]
    refine ((xdrOpaque_takes n (room - 2) (s.drop 4)).skip hle).congr ?_ rfl
    rw [List.length_drop]
    constructor
    · intro h
      exact ⟨hroom, fun hlen => by
        have hm := h (by omega)
        omega⟩
    · intro h hlen
      have hm := h.2 (by omega)
      omega
  · rw [store_of_lt (Nat.lt_of_not_le hroom), Outcome.error_seq]
    exact .outOfBounds fun h => hroom h.1

theorem cstring_takes (n : ℤ) (room : ℕ) (hle : 4 ≤ s.length) :
    Takes (0 ≤ n ∧ (4 + n.toNat ≤ s.length → n.toNat ≤ room) ∧
        (4 + padded n.toNat ≤ s.length → n.toNat < room)) (4 + padded n.toNat) s
      (xdrOpaque n room (s.drop 4) >>= fun s' => store 1 (room - n.toNat) >>= fun _ => pure s') := by
  by_cases hneg : n < 0
  · rw [xdrOpaque, getBytes, if_pos hneg, Outcome.error_seq, Outcome.error_seq]
    exact .outOfBounds fun h => absurd h.1 (Int.not_le.mpr hneg)
  · obtain ⟨n, rfl⟩ := Int.eq_ofNat_of_zero_le (Int.not_lt.mp hneg)
    rw [Int.toNat_natCast]
    have hraw := (xdrOpaque_takes n room (s.drop 4)).skip hle
    rw [List.length_drop] at hraw
    -- the zero behind the string
    have hzero : 4 + padded n ≤ s.length → Takes (n < room) 0 (s.drop (4 + padded n))
        (store 1 (room - n) >>= fun _ => pure (s.drop (4 + padded n))) := by
      intro _
      by_cases hroom : n < room
      · rw [store_of_le (by omega), Outcome.ok_seq]
        exact .ok hroom (Nat.zero_le _)
      · rw [store_of_lt (by omega), Outcome.error_seq]
        exact .outOfBounds hroom
    refine (hraw.seq (f := fun s' => store 1 (room - n) >>= fun _ => pure s') hzero).congr ?_ rfl
    constructor
    · rintro ⟨hbytes, hlast⟩
      exact ⟨by omega, fun h => hbytes (by omega), hlast⟩
    · rintro ⟨-, hbytes, hlast⟩
      exact ⟨fun h => hbytes (by omega), hlast⟩

/-- What is decoded depends on a short in front of it. -/
theorem xdrShort_takes {g : ℤ → Stream → Except Stop Stream} (hn : 4 ≤ n)
    (hg : 4 ≤ s.length → Takes P n s (g (short s) (s.drop 4))) :
    Takes (4 ≤ s.length → P) n s (xdrShort s >>= fun x => g x.1 x.2) := by
  by_cases hlen : s.length < 4
  · rw [xdrShort_of_lt hlen, Outcome.error_seq]
    exact .failed (fun h => absurd h (Nat.not_le.mpr hlen)) (hlen.trans_le hn)
  · have hle := Nat.le_of_not_lt hlen
    rw [xdrShort_of_le hle, Outcome.ok_seq]
    simp only
    exact (hg hle).congr ⟨fun h _ => h, fun h => h hle⟩ rfl

/-- A field is decoded. -/
theorem xdrDatum_takes (d : Dsc) (room : ℕ) (s : Stream) :
    Takes (FieldFits d room s) (wire d s) s (xdrDatum d room s) := by
  unfold FieldFits wire xdrDatum
  cases d.dtype with
  | text => exact xdrOpaque_takes d.length room s
  | varying =>
      exact xdrShort_takes (g := fun n s => store 2 room >>= fun _ =>
        xdrOpaque (varyLength d n) (room - 2) s) (Nat.le_add_right 4 _) fun hle =>
          varying_takes (varyLength d (short s)) room hle
  | cstring =>
      exact xdrShort_takes (g := fun n s => xdrOpaque n room s >>= fun s' =>
        store 1 (room - n.toNat) >>= fun _ => pure s') (Nat.le_add_right 4 _) fun hle =>
          cstring_takes (short s) room hle
  | short =>
      refine xdrShort_takes (g := fun _ s => store 2 room >>= fun _ => pure s) le_rfl fun hle => ?_
      by_cases hroom : 2 ≤ room
      · rw [store_of_le hroom, Outcome.ok_seq]
        exact .ok hroom hle
      · rw [store_of_lt (Nat.lt_of_not_le hroom), Outcome.error_seq]
        exact .outOfBounds hroom
  | other => exact .failed trivial (Nat.lt_succ_self _)
  | sqlTime | sqlDate | long | real => exact xdrLong_takes room s
  | double | int64 => exact xdrHyper_takes room s
  | timestamp | array | quad | blob => exact xdrQuad_takes room s

/-! ## Longs and pieces -/

theorem getLongs_takes (n room : ℕ) (s : Stream) :
    Takes (4 * min n (s.length / 4) ≤ room) (4 * n) s (getLongs n room s) := by
  induction n generalizing room s with
  | zero => exact .ok (by omega) (Nat.zero_le _)
  | succ n ih =>
      rw [getLongs]
      refine ((xdrLong_takes room s).seq fun _ => ih (room - 4) (s.drop 4)).congr ?_ (by omega)
      rw [List.length_drop]
      omega

/-- How many bytes there are up to the end of the first piece that does not end in the room -/
def pieceEnd (n room : ℕ) : ℕ := min n (room - room % maxOpaque + maxOpaque)

theorem xdrPieces_takes (hk : n < k) :
    Takes (n ≤ room ∨ s.length < pieceEnd n room) (padded n) s (xdrPieces k n room s) := by
  unfold pieceEnd
  have hpad : padded maxOpaque = maxOpaque := by decide
  obtain ⟨c, hc⟩ : ∃ c, c = maxOpaque := ⟨_, rfl⟩
  have hpos : 0 < c := by
    rw [hc]
    decide
  have hdvd : c % 4 = 0 := by
    rw [hc]
    decide
  rw [← hc] at hpad ⊢
  induction k generalizing n room s with
  | zero => exact absurd hk (Nat.not_lt_zero n)
  | succ k ih =>
      have hmod := Nat.mod_lt room hpos
      have hmod' := Nat.mod_le room c
      rw [xdrPieces, ← hc]
      by_cases hn : c < n
      · rw [if_pos hn]
        have hrest := @ih (s.drop c) (room - c) (n - c) (by omega)
        have hpiece := (xdrOpaque_takes c room s).congr Iff.rfl hpad
        refine (hpiece.seq fun _ => hrest).congr ?_ ?_
        · rw [List.length_drop]
          by_cases hroom : c ≤ room
          · have hmodle := Nat.mod_le (room - c) c
            rw [← Nat.mod_eq_sub_mod hroom] at hmodle ⊢
            omega
          · rw [Nat.mod_eq_of_lt (Nat.lt_of_not_le hroom), Nat.mod_eq_of_lt (by omega)]
            omega
        · unfold padded
          omega
      · rw [if_neg hn]
        refine (xdrOpaque_takes n room s).congr ?_ rfl
        by_cases hroom : c ≤ room
        · omega
        · rw [Nat.mod_eq_of_lt (Nat.lt_of_not_le hroom)]
          omega

/-! ## Elements -/

/-- There is room for each element that the stream has. -/
def ElementsFit (d : Dsc) : ℕ → ℕ → Stream → Prop
  | 0, _, _ => True
  | n + 1, room, s => FieldFits d room s ∧
      (wire d s ≤ s.length → ElementsFit d n (room - d.length) (s.drop (wire d s)))

def elementsWire (d : Dsc) : ℕ → Stream → ℕ
  | 0, _ => 0
  | n + 1, s => wire d s + elementsWire d n (s.drop (wire d s))

theorem xdrElements_takes (d : Dsc) (n room : ℕ) (s : Stream) :
    Takes (ElementsFit d n room s) (elementsWire d n s) s (xdrElements d n room s) := by
  induction n generalizing room s with
  | zero => exact .ok trivial (Nat.zero_le _)
  | succ n ih => exact (xdrDatum_takes d room s).seq fun _ => ih (room - d.length) _

/-! ## Strings -/

/-- Memory of the caller, which comes without a size -/
def Buffer.own (b : Buffer) : Option ℕ := if b.allocated = 0 then b.capacity else none

/-- A buffer finds memory for a length, or it has memory of its own. -/
theorem Buffer.alloc_spec (b : Buffer) (m : Allocator) (hn : n < 2147483648) :
    (∃ c ∈ b.own, b.alloc m n = .ok c) ∨ b.own = none ∧
      (b.alloc m n = .error .failed ∨ ∃ room, b.alloc m n = .ok room ∧ n ≤ room) := by
  have hget : m.get 0 n = .error .failed ∨ ∃ room, m.get 0 n = .ok room ∧ n ≤ room := by
    rw [Allocator.get]
    cases hroom : m.alloc 0 n with
    | none => exact .inl rfl
    | some room => exact .inr ⟨room, rfl, m.le_room 0 n room hn hroom⟩
  unfold own alloc
  cases hc : b.capacity with
  | none =>
      right
      simp only [ite_self]
      exact ⟨trivial, hget⟩
  | some c =>
      by_cases h0 : b.allocated = 0
      · left
        rw [if_pos h0, if_neg fun h => h.2 h0]
        exact ⟨c, rfl, rfl⟩
      · right
        rw [if_neg h0]
        refine ⟨rfl, ?_⟩
        by_cases hlt : n > b.allocated
        · rw [if_pos ⟨hlt, h0⟩]
          exact hget
        · rw [if_neg fun h => hlt h.1]
          exact .inr ⟨c, rfl, (Nat.le_of_not_lt hlt).trans (b.allocated_le c hc)⟩

/-- What is decoded into a buffer is in bounds if it is so in the memory of the caller. -/
theorem allocCstring_inBounds {R : ℕ → Prop} {f : ℕ → Except Stop Stream} (hn : n < 2147483648)
    (hf : ∀ room, InBounds (f room) ↔ R room) (hR : ∀ room, n ≤ room → R room) :
    InBounds (allocCstring b m n >>= f) ↔ ∀ c ∈ b.own, R c := by
  rw [allocCstring]
  split
  · rename_i h0
    rw [Outcome.ok_seq, hf]
    exact iff_of_true (hR _ (h0.trans_le (Nat.zero_le _))) fun c _ => hR c (h0.trans_le (Nat.zero_le c))
  · rcases b.alloc_spec m hn with ⟨c, hc, halloc⟩ | ⟨hnone, hfail | ⟨room, halloc, hle⟩⟩
    · rw [halloc, Outcome.ok_seq, hf]
      constructor
      · intro h c' hc'
        cases hc.symm.trans hc'
        exact h
      · intro h
        exact h c hc
    · rw [hfail, Outcome.error_seq, hnone]
      refine iff_of_true inBounds_failed fun c hc => ?_
      cases hc
    · rw [halloc, Outcome.ok_seq, hf, hnone]
      refine iff_of_true (hR room hle) fun c hc => ?_
      cases hc

/-- The length in front of a string -/
def cstringLength (s : Stream) : ℕ := (short s % 65536).toNat

theorem cstringLength_lt (s : Stream) : cstringLength s < 65536 := by
  unfold cstringLength
  generalize short s = n
  omega

theorem xdrShort_inBounds {g : ℤ → Stream → Except Stop Stream} :
    InBounds (xdrShort s >>= fun x => g x.1 x.2) ↔
      (4 ≤ s.length → InBounds (g (short s) (s.drop 4))) := by
  by_cases hlen : s.length < 4
  · rw [xdrShort_of_lt hlen, Outcome.error_seq]
    exact iff_of_true inBounds_failed fun h => absurd h (Nat.not_le.mpr hlen)
  · have hle := Nat.le_of_not_lt hlen
    rw [xdrShort_of_le hle, Outcome.ok_seq]
    simp only
    exact ⟨fun h _ => h, fun h => h hle⟩

theorem xdrCstring_inBounds (b : Buffer) (m : Allocator) (s : Stream) :
    InBounds (xdrCstring b m s) ↔ (4 ≤ s.length → ∀ c ∈ b.own,
      cstringLength s ≤ s.length - 4 → cstringLength s ≤ c) := by
  have hlt := cstringLength_lt s
  refine Iff.trans (xdrShort_inBounds (g := fun n s => allocCstring b m (n % 65536).toNat >>=
    fun room => xdrOpaque (n % 65536).toNat room s)) (imp_congr_right fun _ => ?_)
  refine allocCstring_inBounds (n := cstringLength s) (by omega) (fun room => ?_)
    fun room hle _ => hle
  rw [← List.length_drop]
  exact (xdrOpaque_takes (cstringLength s) room (s.drop 4)).inBounds

theorem xdrLongs_inBounds (b : Buffer) (m : Allocator) (s : Stream) :
    InBounds (xdrLongs b m s) ↔ (4 ≤ s.length → ∀ c ∈ b.own,
      4 * min (cstringLength s / 4) ((s.length - 4) / 4) ≤ c) := by
  have hlt := cstringLength_lt s
  refine Iff.trans (xdrShort_inBounds (g := fun n s => allocCstring b m (n % 65536).toNat >>=
    fun room => getLongs ((n % 65536).toNat / 4) room s)) (imp_congr_right fun _ => ?_)
  refine allocCstring_inBounds (n := cstringLength s) (by omega) (fun room => ?_)
    fun room hle => by omega
  rw [← List.length_drop]
  exact (getLongs_takes (cstringLength s / 4) room (s.drop 4)).inBounds

/-! ## Status vectors -/

/-- The length in front of a string of a status vector -/
def stringLength (s : Stream) : ℕ := (toUInt32 (long s)).toNat

/-- The stream has a string for a slot, and there is memory for it. -/
structure HasString (m : Allocator) (i : ℕ) (s : Stream) : Prop where
  memory : m.alloc i (maxWrapstring + 1) ≠ none
  length : 4 ≤ s.length
  short : stringLength s ≤ maxWrapstring
  bytes : 4 + padded (stringLength s) ≤ s.length

/-- There is room for the zero behind a string. -/
theorem string_eq_opaque (h : n < room) :
    (getBytes n room s >>= fun s' => store 1 (room - n) >>= fun _ => getBytes ((4 - (n : ℤ)) % 4) 4 s') =
      xdrOpaque n room s := by
  rw [store_of_le (show 1 ≤ room - n by omega)]
  rfl

/-- What an outcome is when there is room -/
theorem Takes.of_fits {P : Prop} {x : Except Stop Stream} (h : Takes P n s x) (hP : P) :
    n ≤ s.length ∧ x = .ok (s.drop n) ∨ s.length < n ∧ x = .error .failed := by
  cases h with
  | ok _ hlen => exact .inl ⟨hlen, rfl⟩
  | failed _ hlen => exact .inr ⟨hlen, rfl⟩
  | outOfBounds hno => exact absurd hP hno

theorem xdrWrapstring_spec (m : Allocator) (i : ℕ) (s : Stream) :
    HasString m i s ∧ xdrWrapstring m i s = .ok (s.drop (4 + padded (stringLength s))) ∨
      ¬HasString m i s ∧ xdrWrapstring m i s = .error .failed := by
  rw [xdrWrapstring, Allocator.get]
  cases hroom : m.alloc i (maxWrapstring + 1) with
  | none => exact .inr ⟨fun h => h.memory hroom, rfl⟩
  | some room =>
      have hle : maxWrapstring + 1 ≤ room := m.le_room i _ room (by decide) hroom
      rw [Outcome.ok_seq]
      by_cases hlen : s.length < 4
      · rw [getLong_of_lt hlen, Outcome.error_seq]
        exact .inr ⟨fun h => absurd h.length (Nat.not_le.mpr hlen), rfl⟩
      · have h4 := Nat.le_of_not_lt hlen
        rw [getLong_of_le h4, Outcome.ok_seq]
        simp only
        rw [show (toUInt32 (long s)).toNat = stringLength s from rfl]
        by_cases hlong : maxWrapstring < stringLength s
        · rw [if_pos hlong]
          exact .inr ⟨fun h => absurd h.short (Nat.not_le.mpr hlong), rfl⟩
        · rw [if_neg hlong, string_eq_opaque (by omega)]
          have hfits : stringLength s ≤ (s.drop 4).length → stringLength s ≤ room := fun _ => by omega
          have htakes := xdrOpaque_takes (stringLength s) room (s.drop 4)
          rw [List.length_drop] at htakes hfits
          rcases htakes.of_fits hfits with ⟨hbytes, heq⟩ | ⟨hshort, heq⟩
          · rw [List.length_drop] at hbytes
            left
            refine ⟨⟨?_, h4, Nat.le_of_not_lt hlong, by omega⟩, ?_⟩
            · rw [hroom]
              exact Option.some_ne_none room
            · rw [heq, List.drop_drop]
          · rw [List.length_drop] at hshort
            have hno : ¬HasString m i s := fun h => by
              have hbytes := h.bytes
              omega
            exact .inr ⟨hno, heq⟩

/-- A stream begins with arguments of a status vector, the first string of which is for the slot
`i`; behind them there is `rest`. -/
inductive Args (m : Allocator) : ℕ → ℕ → Stream → Stream → Prop
  | nil {i : ℕ} {s : Stream} : Args m i 0 s s
  | string {i n : ℕ} {s rest : Stream} : 4 ≤ s.length →
      long s % 65536 = argInterpreted ∨ long s % 65536 = argString → HasString m i (s.drop 4) →
      Args m (i + 1) n ((s.drop 4).drop (4 + padded (stringLength (s.drop 4)))) rest →
      Args m i (n + 1) s rest
  | number {i n : ℕ} {s rest : Stream} : 8 ≤ s.length → long s % 65536 ≠ argEnd →
      ¬(long s % 65536 = argInterpreted ∨ long s % 65536 = argString) →
      Args m i n (s.drop 8) rest → Args m i (n + 1) s rest

theorem Args.cases_succ {i : ℕ} {rest : Stream} (h : Args m i (n + 1) s rest) :
    4 ≤ s.length ∧ (long s % 65536 = argInterpreted ∨ long s % 65536 = argString) ∧
        HasString m i (s.drop 4) ∧
        Args m (i + 1) n ((s.drop 4).drop (4 + padded (stringLength (s.drop 4)))) rest ∨
      8 ≤ s.length ∧ long s % 65536 ≠ argEnd ∧
        ¬(long s % 65536 = argInterpreted ∨ long s % 65536 = argString) ∧
        Args m i n (s.drop 8) rest := by
  cases h with
  | string hlen htag hstring hrest => exact .inl ⟨hlen, htag, hstring, hrest⟩
  | number hlen hend htag hrest => exact .inr ⟨hlen, hend, htag, hrest⟩

/-- A long for an entry that is still in the vector -/
theorem store_entry (h : n < room) : store 1 (room - n) = .ok () := store_of_le (by omega)

/-- Where no argument begins there are none. -/
theorem Args.lt_of_short {i : ℕ} {rest : Stream} (h : Args m i n s rest) (hlen : s.length < 4) :
    rest.length < 4 := by
  cases h with
  | nil => exact hlen
  | string hle => exact absurd hle (Nat.not_le.mpr hlen)
  | number hle => omega

/-- A status vector is in bounds if there is no long behind the arguments that still have their
entries; `n` of ten have been passed. -/
theorem statusLoop_inBounds {i : ℕ} (hk : s.length < k) (hi : i ≤ n) (hn : n ≤ 10) :
    InBounds (statusLoop m k (2 * n) i s) ↔ ∀ rest, Args m i (10 - n) s rest → rest.length < 4 := by
  induction k generalizing n i s with
  | zero => exact absurd hk (Nat.not_lt_zero _)
  | succ k ih =>
      rw [statusLoop]
      by_cases hlen : s.length < 4
      · rw [getLong_of_lt hlen, Outcome.error_seq]
        exact iff_of_true inBounds_failed fun rest hargs => hargs.lt_of_short hlen
      · have hle := Nat.le_of_not_lt hlen
        rw [getLong_of_le hle, Outcome.ok_seq]
        simp only
        rcases Nat.lt_or_eq_of_le hn with hlt | rfl
        · obtain ⟨c, hc⟩ : ∃ c, 10 - n = c + 1 := ⟨9 - n, by omega⟩
          have hnext : 10 - (n + 1) = c := by omega
          have hentry : 2 * n + 1 < statusLength := by
            unfold statusLength
            omega
          have hslot : i < numStrings := by
            unfold numStrings
            omega
          rw [hc, store_entry (Nat.lt_of_succ_lt hentry), Outcome.ok_seq]
          by_cases hend : long s % 65536 = argEnd
          · -- the end, behind which there is no argument
            rw [if_pos hend]
            refine iff_of_true (inBounds_ok _) fun rest hargs => ?_
            rcases hargs.cases_succ with ⟨-, htag, -⟩ | ⟨-, hno, -⟩
            · rw [hend] at htag
              exact absurd htag (by decide)
            · exact absurd hend hno
          · rw [if_neg hend]
            by_cases htag : long s % 65536 = argInterpreted ∨ long s % 65536 = argString
            · rw [if_pos htag, store_entry hslot, Outcome.ok_seq]
              rcases xdrWrapstring_spec m i (s.drop 4) with ⟨hstring, heq⟩ | ⟨hno, heq⟩
              · rw [heq, Outcome.ok_seq, store_entry hentry, Outcome.ok_seq,
                  show 2 * n + 2 = 2 * (n + 1) from rfl,
                  ih (by simp only [List.length_drop]; omega) (by omega) hlt, hnext]
                refine forall_congr' fun rest => imp_congr_left ?_
                constructor
                · intro hrest
                  exact .string hle htag hstring hrest
                · intro hargs
                  rcases hargs.cases_succ with ⟨-, -, -, hrest⟩ | ⟨-, -, hnot, -⟩
                  · exact hrest
                  · exact absurd htag hnot
              · rw [heq, Outcome.error_seq]
                refine iff_of_true inBounds_failed fun rest hargs => ?_
                rcases hargs.cases_succ with ⟨-, -, hstring, -⟩ | ⟨-, -, hnot, -⟩
                · exact absurd hstring hno
                · exact absurd htag hnot
            · rw [if_neg htag]
              by_cases hlen' : (s.drop 4).length < 4
              · rw [getLong_of_lt hlen', Outcome.error_seq]
                refine iff_of_true inBounds_failed fun rest hargs => ?_
                rw [List.length_drop] at hlen'
                rcases hargs.cases_succ with ⟨-, htag', -⟩ | ⟨hle', -⟩
                · exact absurd htag' htag
                · omega
              · rw [getLong_of_le (Nat.le_of_not_lt hlen'), Outcome.ok_seq]
                rw [List.length_drop] at hlen'
                simp only
                rw [store_entry hentry, Outcome.ok_seq, show 2 * n + 2 = 2 * (n + 1) from rfl,
                  List.drop_drop, ih (by simp only [List.length_drop]; omega) (by omega) hlt, hnext]
                refine forall_congr' fun rest => imp_congr_left ?_
                constructor
                · intro hrest
                  exact .number (by omega) hend htag hrest
                · intro hargs
                  rcases hargs.cases_succ with ⟨-, htag', -⟩ | ⟨-, -, -, hrest⟩
                  · exact absurd htag' htag
                  · exact hrest
        · -- all entries are taken
          rw [show store 1 (statusLength - 2 * 10) = .error .outOfBounds from rfl, Outcome.error_seq]
          refine iff_of_false not_outOfBounds fun h => ?_
          exact hlen (h s .nil)

/-- A stream has not more than ten arguments of a status vector. -/
def ArgsFit (m : Allocator) (s : Stream) : Prop := ∀ rest, Args m 0 10 s rest → rest.length < 4

theorem xdrStatusVector_inBounds (m : Allocator) (s : Stream) :
    InBounds (xdrStatusVector m s) ↔ ArgsFit m s :=
  statusLoop_inBounds (Nat.lt_succ_self _) le_rfl (Nat.zero_le 10)

end Firebird.Xdr
