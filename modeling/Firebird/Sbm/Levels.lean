import Firebird.Sbm.Combine

/-! # Segments, buckets and the root

A segment is a set by its bits, a bucket by what is proved about the type `sbm`. The root is of that
type as well, but its vector grows. `sbm_count` says how large the vector is as long as that fits
into a `USHORT`.
-/

namespace Firebird.Bitmap

variable {n x bit slot : ℕ}

/-! ## Segments -/

theorem twoPow_ne_zero (hbit : bit < 32) : 1#32 <<< bit ≠ 0 := by
  intro h
  have hget := congrArg (·.getLsbD bit) h
  simp [← BitVec.twoPow_eq, hbit] at hget

theorem hasBit_iff (test : BitVec 32) (hbit : bit < 32) :
    hasBit test bit = true ↔ test.getLsbD bit = true := by
  rw [hasBit, decide_eq_true_iff, ← BitVec.twoPow_eq, BitVec.and_twoPow]
  constructor
  · rintro ⟨-, hne⟩
    by_contra hget
    rw [if_neg hget] at hne
    exact hne rfl
  · intro hget
    rw [if_pos hget]
    refine ⟨?_, twoPow_ne_zero hbit⟩
    rintro rfl
    simp at hget

/-- The bit of a number is set. -/
def Bms.Mem (segment : Bms) (n : ℕ) : Prop :=
  n < 1024 ∧ (segment.bits (n / 32)).getLsbD (n % 32) = true

theorem Bms.test_iff {segment : Bms} (hn : n < 1024) : segment.test n = true ↔ segment.Mem n := by
  rw [test, hasBit_iff _ (Nat.mod_lt n (by decide)), Mem, and_iff_right hn]

/-- A word is changed by a bit. -/
theorem Bms.mem_update {segment : Bms} {word : BitVec 32} :
    (⟨Function.update segment.bits (n / 32) word⟩ : Bms).Mem x ↔
      x < 1024 ∧ (if x / 32 = n / 32 then word.getLsbD (x % 32) = true else segment.Mem x) := by
  refine and_congr_right fun hx => ?_
  dsimp only
  split
  · rename_i heq
    rw [heq, Function.update_self]
  · rename_i hne
    rw [Function.update_of_ne hne, Mem, and_iff_right hx]

theorem Bms.mem_set {segment : Bms} (hn : n < 1024) :
    (segment.set n).Mem x ↔ segment.Mem x ∨ x = n := by
  have hbit : n % 32 < 32 := Nat.mod_lt n (by decide)
  rw [set, mem_update, BitVec.getLsbD_or, ← BitVec.twoPow_eq, BitVec.getLsbD_twoPow]
  simp only [hbit, decide_true, Bool.true_and, Bool.or_eq_true, decide_eq_true_iff]
  split
  · rename_i heq
    rw [Mem, heq]
    constructor
    · rintro ⟨hx, hget | heq'⟩
      · exact .inl ⟨hx, hget⟩
      · exact .inr (by omega)
    · rintro (⟨hx, hget⟩ | rfl)
      · exact ⟨hx, .inl hget⟩
      · exact ⟨hn, .inr rfl⟩
  · rename_i hne
    constructor
    · rintro ⟨-, hmem⟩
      exact .inl hmem
    · rintro (hmem | rfl)
      · exact ⟨hmem.1, hmem⟩
      · exact absurd rfl hne

theorem Bms.mem_clear {segment : Bms} (hn : n < 1024) :
    (segment.clear n).2.Mem x ↔ segment.Mem x ∧ x ≠ n := by
  have hbit : n % 32 < 32 := Nat.mod_lt n (by decide)
  rw [clear]
  split
  · rw [mem_update, BitVec.getLsbD_and, BitVec.getLsbD_not, ← BitVec.twoPow_eq,
      BitVec.getLsbD_twoPow]
    have hx : x % 32 < 32 := Nat.mod_lt x (by decide)
    simp only [hbit, hx, decide_true, Bool.true_and, Bool.and_eq_true, Bool.not_eq_true',
      decide_eq_false_iff_not]
    split
    · rename_i heq
      rw [Mem, heq]
      constructor
      · rintro ⟨hlt, hget, hne⟩
        exact ⟨⟨hlt, hget⟩, fun h => hne (by rw [h])⟩
      · rintro ⟨⟨hlt, hget⟩, hne⟩
        exact ⟨hlt, hget, fun h => hne (by omega)⟩
    · rename_i hne
      constructor
      · rintro ⟨-, hmem⟩
        exact ⟨hmem, fun h => hne (by rw [h])⟩
      · rintro ⟨hmem, -⟩
        exact ⟨hmem.1, hmem⟩
  · rename_i hnot
    refine (and_iff_left_of_imp fun hmem => ?_).symm
    rintro rfl
    exact hnot ((hasBit_iff _ hbit).mpr hmem.2)

theorem Bms.clear_iff {segment : Bms} (hn : n < 1024) :
    (segment.clear n).1 = true ↔ segment.Mem n := by
  rw [Mem, and_iff_right hn, ← hasBit_iff _ (Nat.mod_lt n (by decide)), clear]
  split
  · rename_i h
    exact iff_of_true rfl h
  · rename_i h
    exact iff_of_false Bool.false_ne_true h

instance : LawfulChunk Bms where
  Mem := Bms.Mem
  Ok _ := True
  width_pos := by decide
  mem_lt _ h := h.1
  ok_blank := trivial
  not_mem_blank n h := by
    have hget : (0 : BitVec 32).getLsbD (n % 32) = true := h.2
    simp at hget
  test_iff _ hn := Bms.test_iff hn
  ok_clear _ _ := trivial
  clear_iff _ hn := Bms.clear_iff hn
  mem_clear _ hn _ := Bms.mem_clear hn
  ok_set _ _ := trivial
  mem_set _ hn _ := Bms.mem_set hn
  ok_and _ _ := ⟨fun _ _ => trivial, fun _ _ => trivial⟩
  mem_and {s1 s2} _ _ x := by
    cases s2 with
    | none => exact iff_of_false not_exists_mem_none fun h => not_exists_mem_none h.2
    | some s2 =>
        refine exists_mem_some.trans (Iff.trans ?_ (and_congr_right' exists_mem_some.symm))
        change (_ ∧ (s1.bits (x / 32) &&& s2.bits (x / 32)).getLsbD (x % 32) = true) ↔ _ ∧ _
        rw [BitVec.getLsbD_and, Bool.and_eq_true]
        exact and_and_left
  ok_or _ _ := ⟨fun _ _ => trivial, fun _ _ => trivial⟩
  mem_or {s1 s2} _ _ x := by
    cases s1 with
    | none => exact exists_mem_some.trans (or_iff_right not_exists_mem_none).symm
    | some s1 =>
        refine exists_mem_some.trans (Iff.trans ?_ (or_congr_left exists_mem_some.symm))
        change (_ ∧ (s1.bits (x / 32) ||| s2.bits (x / 32)).getLsbD (x % 32) = true) ↔ _ ∨ _
        rw [BitVec.getLsbD_or, Bool.or_eq_true]
        exact and_or_left

/-! ## Buckets -/

/-- The representation of a bucket -/
def Bucket.Ok (b : Bucket) : Prop := Sbm.Ok 32 b ∧ b.size = 32

theorem ok_clearBucket : Bucket.Ok clearBucket where
  left :=
    { above := fun _ _ => rfl
      owned := fun _ _ => rfl
      highWater_lt := by decide
      count_eq := rfl
      size_le := le_rfl
      number_lt := by decide
      ok := fun _ _ h => nomatch h }
  right := rfl

variable {b b1 b2 : Bucket}

theorem Bucket.Ok.some (hb : b.Ok) : ∀ c ∈ Option.some b, Bucket.Ok c := by
  rintro c ⟨⟩
  exact hb

/-- One round of the loop of `SBM_and` over two buckets -/
theorem bucket_and_spec (h1 : b1.Ok) (h2 : b2.Ok) :
    (∀ c ∈ (Chunk.and b1 (some b2)).1, Bucket.Ok c) ∧
      (∀ c ∈ (Chunk.and b1 (some b2)).2, Bucket.Ok c) ∧
        ∀ x, (∃ c ∈ (Chunk.and b1 (some b2)).1, Sbm.Mem c x) ↔ b1.Mem x ∧ b2.Mem x := by
  have hand := Sbm.and_spec h1.1 h2.1
  have hok1 : Bucket.Ok (b1.and b2).2.1 := ⟨hand.ok1, hand.size1.trans h1.2⟩
  have hok2 : Bucket.Ok (b1.and b2).2.2 := ⟨hand.ok2, hand.size2.trans h2.2⟩
  have hmem := hand.mem
  simp only [Chunk.and]
  generalize b1.and b2 = r at hok1 hok2 hmem
  obtain ⟨o, b1', b2'⟩ := r
  rcases o with - | (- | -)
  · refine ⟨fun c hc => (nomatch hc), hok2.some, fun x => Iff.trans ?_ (hmem x)⟩
    exact iff_of_false not_exists_mem_none not_exists_mem_none
  · refine ⟨hok1.some, hok2.some, fun x => Iff.trans ?_ (hmem x)⟩
    rw [exists_mem_some, exists_mem_some]
    rfl
  · refine ⟨hok2.some, hok1.some, fun x => Iff.trans ?_ (hmem x)⟩
    rw [exists_mem_some, exists_mem_some]
    rfl

/-- One round of the loop of `SBM_or` over two buckets -/
theorem bucket_or_spec (h1 : b1.Ok) (h2 : b2.Ok) :
    (∀ c ∈ (Chunk.or (some b1) b2).1, Bucket.Ok c) ∧
      (∀ c ∈ (Chunk.or (some b1) b2).2, Bucket.Ok c) ∧
        ∀ x, (∃ c ∈ (Chunk.or (some b1) b2).1, Sbm.Mem c x) ↔ b1.Mem x ∨ b2.Mem x := by
  have hor := Sbm.or_spec h1.1 h2.1 h1.2 h2.2
  have hok1 : Bucket.Ok (b1.or b2).2.1 := ⟨hor.ok1, hor.size1.trans h1.2⟩
  have hok2 : Bucket.Ok (b1.or b2).2.2 := ⟨hor.ok2, hor.size2.trans h2.2⟩
  have hmem := hor.mem
  simp only [Prod.map_fst, Prod.map_snd, id, exists_mem_some] at hmem
  simp only [Chunk.or]
  generalize b1.or b2 = r at hok1 hok2 hmem
  obtain ⟨o, b1', b2'⟩ := r
  cases o with
  | first => exact ⟨hok1.some, hok2.some, fun x => exists_mem_some.trans (hmem x)⟩
  | second => exact ⟨hok2.some, hok1.some, fun x => exists_mem_some.trans (hmem x)⟩

instance : LawfulChunk Bucket where
  Mem := Sbm.Mem
  Ok := Bucket.Ok
  width_pos := by decide
  mem_lt h hn := h.1.mem_lt hn
  ok_blank := ok_clearBucket
  not_mem_blank := Sbm.mem_of_empty rfl
  test_iff {c n} h _ := Sbm.test_iff h.1 n
  ok_clear {c n} h _ := ⟨(Sbm.clear_spec h.1 n).1, (Sbm.size_clear c n).trans h.2⟩
  clear_iff {c n} h _ := (Sbm.clear_spec h.1 n).2.1
  mem_clear {c n} h _ := (Sbm.clear_spec h.1 n).2.2
  ok_set h hn := ⟨(Sbm.set_spec h.1 h.2 hn).1, (Sbm.set_spec h.1 h.2 hn).2.1⟩
  mem_set h hn := (Sbm.set_spec h.1 h.2 hn).2.2
  ok_and {b1 s2} h1 h2 := by
    cases s2 with
    | none => exact ⟨fun c hc => (nomatch hc), Bucket.Ok.some h1⟩
    | some b2 => exact ⟨(bucket_and_spec h1 (h2 b2 rfl)).1, (bucket_and_spec h1 (h2 b2 rfl)).2.1⟩
  mem_and {b1 s2} h1 h2 x := by
    cases s2 with
    | none => exact iff_of_false not_exists_mem_none fun h => not_exists_mem_none h.2
    | some b2 =>
        rw [exists_mem_some]
        exact (bucket_and_spec h1 (h2 b2 rfl)).2.2 x
  ok_or {s1 b2} h1 h2 := by
    cases s1 with
    | none => exact ⟨Bucket.Ok.some h2, fun c hc => (nomatch hc)⟩
    | some b1 => exact ⟨(bucket_or_spec (h1 b1 rfl) h2).1, (bucket_or_spec (h1 b1 rfl) h2).2.1⟩
  mem_or {s1 b2} h1 h2 x := by
    cases s1 with
    | none => exact exists_mem_some.trans (or_iff_right not_exists_mem_none).symm
    | some b1 =>
        rw [exists_mem_some]
        exact (bucket_or_spec (h1 b1 rfl) h2).2.2 x

/-! ## The root -/

variable {layout : Layout} {m m' : Root} {bitmap bitmap1 bitmap2 : Option Root}

/-- The representation of a bitmap -/
structure Root.Ok (m : Root) : Prop where
  sbm : Sbm.Ok 65536 m
  size_lt : m.size < 65536

/-- The vector has the slot of the number, or is extended to a size that fits into a `USHORT`. -/
def Sbm.Fits (m : Root) (number : ℕ) : Prop :=
  number / Chunk.width Bucket < m.count ∨ number / Chunk.width Bucket + 5 < 65536

/-- `SBM_set` of the number fits. The number of a bitmap that is `SBM_SINGULAR` is set once more. -/
def SetFits (bitmap : Option Root) (number : ℕ) : Prop :=
  match bitmap with
  | none => True
  | some m =>
      match m.state with
      | .empty => True
      | .plural => m.Fits number
      | .singular =>
          m.Fits number ∧ (m.Fits m.number ∨ m.count ≤ number / Chunk.width Bucket ∧
            m.number / Chunk.width Bucket < number / Chunk.width Bucket + 5)

theorem Layout.maxTail_le (layout : Layout) : layout.maxTail ≤ 16376 := by
  have hdiv : (65535 - 32 - layout.sizeofSbm) / layout.sizeofPtr ≤ 65503 / 4 :=
    Nat.div_le_div (Nat.sub_le _ _) layout.ptr_le (by decide)
  rw [maxTail]
  omega

/-- The loop ends at the first of the doubled sizes that is large enough. -/
theorem double_spec {k size : ℕ} (hslot : slot < 65536) (hsize : size ≤ slot)
    (hk : slot < 2 ^ k * size) : ∃ size', double slot k size = some size' ∧ slot < size' := by
  induction k generalizing size with
  | zero =>
      rw [pow_zero, Nat.one_mul] at hk
      exact absurd hsize (Nat.not_le_of_lt hk)
  | succ k ih =>
      have hmod : 2 * size % 2 ^ 32 = 2 * size := Nat.mod_eq_of_lt (by omega)
      rw [double, hmod]
      split
      · rename_i hle
        refine ih hle ?_
        rwa [← Nat.mul_assoc, ← pow_succ]
      · rename_i hlt
        exact ⟨2 * size, rfl, Nat.lt_of_not_le hlt⟩

/-- No slot is used outside of the vector. -/
theorem Sbm.Ok.segments_none {cap : ℕ} (h : Sbm.Ok cap m) (hslot : m.size ≤ slot) :
    m.segments slot = none :=
  h.above slot (h.highWater_lt.trans_le hslot)

theorem Root.Ok.resize (h : Root.Ok m) {size : ℕ} (hle : m.size ≤ size) (hlt : size < 65536) :
    Root.Ok (m.resize size) ∧ (m.resize size).segments = m.segments := by
  have hsegments : (m.resize size).segments = m.segments := by
    funext i
    change (if i < min m.size size then m.segments i else none) = m.segments i
    rw [min_eq_left hle]
    split
    · rfl
    · rename_i hge
      exact (h.sbm.segments_none (Nat.le_of_not_lt hge)).symm
  refine ⟨⟨?_, hlt⟩, hsegments⟩
  refine
    { above := ?_
      owned := ?_
      highWater_lt := h.sbm.highWater_lt.trans_le hle
      count_eq := Nat.mod_eq_of_lt hlt
      size_le := hlt.le
      number_lt := h.sbm.number_lt
      ok := ?_ }
  · rw [hsegments]
    exact h.sbm.above
  · rw [hsegments]
    exact h.sbm.owned
  · rw [hsegments]
    exact h.sbm.ok

/-- What the vector is after it has been made large enough -/
structure Extended (m : Root) (slot : ℕ) (m' : Root) : Prop where
  ok : Root.Ok m'
  state_eq : m'.state = m.state
  number_eq : m'.number = m.number
  segments_eq : m'.segments = m.segments
  slot_lt : slot < m'.size
  count_le : m.count ≤ m'.count

theorem Root.Ok.extended_resize (h : Root.Ok m) {size : ℕ} (hslot : m.count ≤ slot)
    (hlt : slot < size) (hsize : size < 65536) : Extended m slot (m.resize size) := by
  have hcount := h.sbm.count_eq
  obtain ⟨hok, hsegments⟩ := h.resize (show m.size ≤ size by omega) hsize
  refine ⟨hok, rfl, rfl, hsegments, hlt, ?_⟩
  rw [hok.sbm.count_eq]
  change m.count ≤ size
  omega

theorem extend_spec (layout : Layout) (h : Root.Ok m) (hslot : slot < 65536)
    (hfits : slot < m.count ∨ slot + 5 < 65536) :
    ∃ m', m.extend layout slot = some m' ∧ Extended m slot m' ∧
      (m.count ≤ slot → layout.maxTail ≤ slot → m'.count = slot + 5) := by
  have hcount := h.sbm.count_eq
  rw [Sbm.extend]
  split
  · rename_i hle
    split
    · rename_i htail
      have hext := h.extended_resize hle (show slot < slot + 5 by omega) (by omega)
      exact ⟨_, rfl, hext, fun _ _ => hext.ok.sbm.count_eq⟩
    · rename_i htail
      have hpos : 0 < m.count := by
        rw [hcount]
        exact Nat.zero_lt_of_lt h.sbm.highWater_lt
      obtain ⟨size, hsize, hlt⟩ := double_spec (k := 32) hslot hle (by omega)
      have hmax := layout.maxTail_le
      refine ⟨_, by rw [hsize]; rfl, h.extended_resize hle (lt_min hlt (by omega)) ?_, ?_⟩
      · exact (min_le_right _ _).trans_lt (by omega)
      · exact fun _ hge => absurd hge htail
  · rename_i hlt
    refine ⟨m, rfl, ⟨h, rfl, rfl, rfl, ?_, le_rfl⟩, fun hle => absurd hle hlt⟩
    omega

theorem slot_lt (hn : n < 2 ^ 31) : n / Chunk.width Bucket < 65536 :=
  Nat.div_lt_of_lt_mul (by exact hn)

/-- The bit is set in a bucket. -/
theorem rootPut_spec (layout : Layout) (h : Root.Ok m) (hn : n < 2 ^ 31) (hfits : m.Fits n) :
    ∃ m', m.rootPut layout n = some m' ∧ m'.state = m.state ∧ m'.number = m.number ∧
      Root.Ok { m' with state := .plural } ∧ m.count ≤ m'.count ∧
      (m.count ≤ n / Chunk.width Bucket → layout.maxTail ≤ n / Chunk.width Bucket →
        m'.count = n / Chunk.width Bucket + 5) ∧
      ∀ x, ({ m' with state := .plural } : Root).Mem x ↔ Sbm.InSlots m.segments x ∨ x = n := by
  obtain ⟨m₁, hm₁, hext, hcount⟩ := extend_spec layout h (slot_lt hn) hfits
  obtain ⟨hok, hmem⟩ := Sbm.put_spec hext.ok.sbm hext.slot_lt
  have hcount' : (m₁.put n).count = m₁.count := by
    rw [Sbm.put]
    split <;> rfl
  refine ⟨m₁.put n, ?_, ?_, ?_, ⟨hok, ?_⟩, ?_, ?_, fun x => ?_⟩
  · rw [Sbm.rootPut, hm₁]
    rfl
  · rw [Sbm.state_put, hext.state_eq]
  · rw [Sbm.number_put, hext.number_eq]
  · change (m₁.put n).size < 65536
    rw [Sbm.size_put]
    exact hext.ok.size_lt
  · rw [hcount']
    exact hext.count_le
  · rw [hcount']
    exact hcount
  · rw [hmem, hext.segments_eq]

/-- The numbers of a bitmap, none if it is `NULL` -/
def Holds (bitmap : Option Root) (n : ℕ) : Prop := ∃ m ∈ bitmap, Sbm.Mem m n

/-- The representation of a bitmap that may be `NULL` -/
def Valid (bitmap : Option Root) : Prop := ∀ m ∈ bitmap, Root.Ok m

theorem Valid.some (h : Root.Ok m) : Valid (Option.some m) := by
  rintro m' ⟨⟩
  exact h

theorem holds_some : Holds (some m) n ↔ m.Mem n := exists_mem_some

theorem not_holds_none : ¬ Holds none n := not_exists_mem_none

/-- What `SBM_set` leaves -/
theorem sbmSet_spec (layout : Layout) (h : Valid bitmap) (hn : n < 2 ^ 31)
    (hfits : SetFits bitmap n) :
    ∃ m', sbmSet layout bitmap n = some m' ∧ Root.Ok m' ∧
      ∀ x, m'.Mem x ↔ Holds bitmap x ∨ x = n := by
  have hcap : n < 65536 * Chunk.width Bucket := hn
  cases bitmap with
  | none =>
      have hsize : 5 < 65536 := by decide
      refine ⟨_, rfl, ⟨?_, hsize⟩, fun x => (or_iff_right not_holds_none).symm⟩
      exact
        { above := fun _ _ => rfl
          owned := fun _ _ => rfl
          highWater_lt := Nat.succ_pos 4
          count_eq := rfl
          size_le := hsize.le
          number_lt := hcap
          ok := fun _ _ h => nomatch h }
  | some m =>
      have hok := h m rfl
      rw [SetFits] at hfits
      rw [sbmSet]
      cases hstate : m.state with
      | empty =>
          refine ⟨_, rfl, ⟨hok.sbm.singular (by rw [hstate]; decide) hcap, hok.size_lt⟩, fun x => ?_⟩
          rw [holds_some, or_iff_right (Sbm.mem_of_empty hstate x)]
          exact Sbm.mem_of_singular rfl
      | plural =>
          rw [hstate] at hfits
          obtain ⟨m', hm', hstate', -, hok', -, -, hmem⟩ := rootPut_spec layout hok hn hfits
          have heq : ({ m' with state := .plural } : Root) = m' := by rw [← hstate, ← hstate']
          rw [heq] at hok' hmem
          refine ⟨m', hm', hok', fun x => ?_⟩
          rw [hmem, holds_some, Sbm.mem_of_plural hstate]
      | singular =>
          rw [hstate] at hfits
          obtain ⟨m₁, hm₁, -, hnumber, hok₁, hle, htail, hmem₁⟩ :=
            rootPut_spec layout hok hn hfits.1
          have hlt : m.number < 2 ^ 31 := hok.sbm.number_lt
          have hmax := layout.maxTail_le
          -- the second extension fits, or the first one was large enough
          have hfits₁ : Sbm.Fits { m₁ with state := .plural } m.number := by
            rcases hfits.2 with (hin | hin) | ⟨hcount, hin⟩
            · exact .inl (hin.trans_le hle)
            · exact .inr hin
            · by_cases hsmall : m.number / Chunk.width Bucket + 5 < 65536
              · exact .inr hsmall
              · refine .inl ?_
                change _ < m₁.count
                rw [htail hcount (by omega)]
                exact hin
          obtain ⟨m₂, hm₂, hstate₂, -, hok₂, -, -, hmem₂⟩ := rootPut_spec layout hok₁ hlt hfits₁
          have hplural : m₂.state = .plural := hstate₂
          have heq : ({ m₂ with state := .plural } : Root) = m₂ := by rw [← hplural]
          rw [heq] at hok₂ hmem₂
          refine ⟨m₂, ?_, hok₂, fun x => ?_⟩
          · rw [hm₁]
            exact hm₂
          · rw [hmem₂, ← Sbm.mem_of_plural (m := { m₁ with state := .plural }) rfl, hmem₁,
              holds_some, Sbm.mem_of_singular hstate,
              or_iff_right (Sbm.not_inSlots hok.sbm (by rw [hstate]; decide) x), or_comm]

/-- What `SBM_reset` leaves -/
theorem reset_spec (h : Root.Ok m) : Root.Ok m.reset ∧ ∀ x, ¬ Sbm.Mem m.reset x := by
  rw [Sbm.reset]
  split
  · rename_i hempty
    exact ⟨h, Sbm.mem_of_empty hempty⟩
  · have hnone : ∀ i, (if i < m.count then none else m.segments i) = none := by
      intro i
      split
      · rfl
      · rename_i hge
        rw [h.sbm.count_eq] at hge
        exact h.sbm.segments_none (Nat.le_of_not_lt hge)
    refine ⟨⟨?_, h.size_lt⟩, Sbm.mem_of_empty rfl⟩
    exact
      { above := fun i _ => hnone i
        owned := fun _ => hnone
        highWater_lt := Nat.zero_lt_of_lt h.sbm.highWater_lt
        count_eq := h.sbm.count_eq
        size_le := h.sbm.size_le
        number_lt := h.sbm.number_lt
        ok := fun i c hc => by
          dsimp only at hc
          rw [hnone] at hc
          cases hc }

/-! ## `SBM_and` and `SBM_or` -/

/-- `SBM_and` is the intersection. -/
theorem sbmAnd_spec (h1 : Valid bitmap1) (h2 : Valid bitmap2) :
    Valid (sbmAnd bitmap1 bitmap2).2.1 ∧ Valid (sbmAnd bitmap1 bitmap2).2.2 ∧
      ∀ x, (∃ o ∈ (sbmAnd bitmap1 bitmap2).1,
        Holds (o.of (sbmAnd bitmap1 bitmap2).2.1 (sbmAnd bitmap1 bitmap2).2.2) x) ↔
          Holds bitmap1 x ∧ Holds bitmap2 x := by
  cases bitmap1 with
  | none => exact ⟨h1, h2, fun x => iff_of_false not_exists_mem_none fun hx => not_holds_none hx.1⟩
  | some map1 =>
      cases bitmap2 with
      | none =>
          exact ⟨h1, h2, fun x => iff_of_false not_exists_mem_none fun hx => not_holds_none hx.2⟩
      | some map2 =>
          have hand := Sbm.and_spec (h1 map1 rfl).sbm (h2 map2 rfl).sbm
          refine ⟨Valid.some ⟨hand.ok1, ?_⟩, Valid.some ⟨hand.ok2, ?_⟩, fun x => ?_⟩
          · rw [hand.size1]
            exact (h1 map1 rfl).size_lt
          · rw [hand.size2]
            exact (h2 map2 rfl).size_lt
          · rw [holds_some, holds_some, ← hand.mem]
            refine exists_congr fun o => and_congr_right fun _ => ?_
            cases o <;> exact holds_some

/-- The one `SBM_set` that `SBM_or` may do fits. -/
def OrFits (bitmap1 bitmap2 : Option Root) : Prop :=
  ∀ map1 ∈ bitmap1, ∀ map2 ∈ bitmap2, map1.state ≠ .empty → map2.state ≠ .empty →
    (map1.state = .singular → SetFits bitmap2 map1.number) ∧
      (map1.state ≠ .singular → map2.state = .singular → SetFits bitmap1 map2.number)

/-- `SBM_or` is the union. -/
theorem sbmOr_spec (layout : Layout) (h1 : Valid bitmap1) (h2 : Valid bitmap2)
    (hfits : OrFits bitmap1 bitmap2) :
    ∃ r, sbmOr layout bitmap1 bitmap2 = some r ∧ Valid r.2.1 ∧ Valid r.2.2 ∧
      ∀ x, Holds (r.1.of r.2.1 r.2.2) x ↔ Holds bitmap1 x ∨ Holds bitmap2 x := by
  cases bitmap1 with
  | none => exact ⟨_, rfl, h1, h2, fun x => (or_iff_right not_holds_none).symm⟩
  | some map1 =>
      cases bitmap2 with
      | none =>
          refine ⟨_, rfl, h1, h2, fun x => ?_⟩
          rw [or_iff_left not_holds_none]
          dsimp only
          split
          · rename_i hempty
            rw [holds_some]
            exact iff_of_false not_holds_none (Sbm.mem_of_empty hempty x)
          · rfl
      | some map2 =>
          have hfits := hfits map1 rfl map2 rfl
          have hlt1 : map1.number < 2 ^ 31 := (h1 map1 rfl).sbm.number_lt
          have hlt2 : map2.number < 2 ^ 31 := (h2 map2 rfl).sbm.number_lt
          rw [sbmOr]
          split
          · rename_i hempty
            refine ⟨_, rfl, h1, h2, fun x => (or_iff_right ?_).symm⟩
            rw [holds_some]
            exact Sbm.mem_of_empty hempty x
          rename_i hempty1
          split
          · rename_i hempty
            refine ⟨_, rfl, h1, h2, fun x => (or_iff_left ?_).symm⟩
            rw [holds_some]
            exact Sbm.mem_of_empty hempty x
          rename_i hempty2
          split
          · rename_i hone
            obtain ⟨m', hm', hok, hmem⟩ :=
              sbmSet_spec layout h2 hlt1 ((hfits hempty1 hempty2).1 hone)
            refine ⟨(.second, some map1, some m'), ?_, h1, Valid.some hok, fun x => ?_⟩
            · rw [hm']
              rfl
            rw [Operand.of, holds_some, hmem, holds_some, holds_some, Sbm.mem_of_singular hone, or_comm]
          rename_i hone1
          split
          · rename_i hone
            obtain ⟨m', hm', hok, hmem⟩ :=
              sbmSet_spec layout h1 hlt2 ((hfits hempty1 hempty2).2 hone1 hone)
            refine ⟨(.first, some m', some map2), ?_, Valid.some hok, h2, fun x => ?_⟩
            · rw [hm']
              rfl
            rw [Operand.of, holds_some, hmem, holds_some, holds_some, Sbm.mem_of_singular hone]
          rename_i hone2
          have hor := Sbm.orPlural_spec (h1 map1 rfl).sbm (h2 map2 rfl).sbm
            (Sbm.eq_plural hempty1 hone1) (Sbm.eq_plural hempty2 hone2)
          have hmem := hor.mem
          simp only [Prod.map_fst, Prod.map_snd, id, exists_mem_some] at hmem
          refine ⟨_, rfl, Valid.some ⟨hor.ok1, ?_⟩, Valid.some ⟨hor.ok2, ?_⟩, fun x => ?_⟩
          · exact hor.size1.trans_lt (h1 map1 rfl).size_lt
          · exact hor.size2.trans_lt (h2 map2 rfl).size_lt
          · rw [holds_some, holds_some, ← hmem]
            cases (map1.orPlural map2).1 <;> exact holds_some

end Firebird.Bitmap
