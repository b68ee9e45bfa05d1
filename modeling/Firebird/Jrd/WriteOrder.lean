import Firebird.Jrd.CarefulWrite

/-! # What careful writing is for

Every call of `CCH_precedence` asks that one page is written before the next image of
another. A run of the cache keeps all that it has been asked.
-/

namespace Firebird.Cch

open Relation (ReflTransGen TransGen)
open Transition (Reachable System)

variable {superserver : Bool} {s s' : Cache} {page : ℕ} {d : Duty}

/-- What a call asks: the page `high` as it is at the call goes to disk before the next
image of `low`. `since` is the number of images that are on disk at the call. -/
structure Duty where
  low : ℕ
  high : ℕ
  lowVersion : ℕ
  highVersion : ℕ
  since : ℕ

namespace Duty

/-- The page `high` has been written since the call. -/
def Discharged (d : Duty) (disk : List (ℕ × ℕ)) : Prop :=
  ∃ newer older w, disk = newer ++ (d.high, w) :: older ∧ d.since ≤ older.length ∧
    d.highVersion ≤ w

/-- When an image of `low` from after the call got to disk, `high` was there. -/
def Kept (d : Duty) (disk : List (ℕ × ℕ)) : Prop :=
  ∀ newer older v, disk = newer ++ (d.low, v) :: older → d.lowVersion < v → d.Discharged older

/-- The duty is kept so far, and it is discharged or the blocks say that `low` waits. -/
structure Holds (d : Duty) (s : Cache) : Prop where
  since : d.since ≤ s.disk.length
  version : d.highVersion ≤ s.version d.high
  kept : d.Kept s.disk
  pending : d.Discharged s.disk ∨ TransGen (Edge s.pres) d.low d.high

theorem Discharged.cons {disk : List (ℕ × ℕ)} (h : d.Discharged disk) (image : ℕ × ℕ) :
    d.Discharged (image :: disk) := by
  obtain ⟨newer, older, w, rfl, hrest⟩ := h
  exact ⟨image :: newer, older, w, rfl, hrest⟩

theorem Kept.cons {disk : List (ℕ × ℕ)} (h : d.Kept disk) {image : ℕ × ℕ}
    (himage : image.1 = d.low → d.Discharged disk) : d.Kept (image :: disk) := by
  intro newer older v heq hv
  cases newer with
  | nil =>
      obtain ⟨rfl, rfl⟩ := List.cons.inj heq
      exact himage rfl
  | cons i newer => exact h newer older v (List.cons.inj heq).2 hv

/-- Nothing is written and no block is lost. -/
theorem Holds.keep (h : d.Holds s) (hdisk : s'.disk = s.disk)
    (hversion : s.version d.high ≤ s'.version d.high)
    (hedge : ∀ a b, Edge s.pres a b → Edge s'.pres a b) : d.Holds s' where
  since := hdisk ▸ h.since
  version := Nat.le_trans h.version hversion
  kept := hdisk ▸ h.kept
  pending := by
    rcases h.pending with hdone | hwait
    · exact .inl (hdisk ▸ hdone)
    · exact .inr (hwait.lift id hedge)

/-- A way on which nobody waits for the page does not need the blocks of the page. -/
theorem wait_of_written {pres pres' : List Pre} (hout : ∀ b, ¬Edge pres page b)
    (hedge : ∀ a b, Edge pres a b → b ≠ page → Edge pres' a b) {a b : ℕ}
    (h : TransGen (Edge pres) a b) (hb : b ≠ page) : TransGen (Edge pres') a b := by
  induction h using TransGen.head_induction_on with
  | single hab => exact .single (hedge _ _ hab hb)
  | head hac hcb ih =>
      refine .head (hedge _ _ hac ?_) ih
      rintro rfl
      obtain ⟨c, hc, -⟩ := TransGen.head'_iff.mp hcb
      exact hout c hc

/-- A page that waits for nobody is written, and its blocks go. -/
theorem Holds.write (h : d.Holds s) (hout : ∀ b, ¬Edge s.pres page b)
    (hdisk : s'.disk = (page, s.version page) :: s.disk) (hversion : s'.version = s.version)
    (hedge : ∀ a b, Edge s.pres a b → b ≠ page → Edge s'.pres a b) : d.Holds s' where
  since := by
    rw [hdisk, List.length_cons]
    exact Nat.le_succ_of_le h.since
  version := hversion ▸ h.version
  kept := by
    rw [hdisk]
    refine h.kept.cons fun (heq : page = d.low) => ?_
    rcases h.pending with hdone | hwait
    · exact hdone
    · obtain ⟨c, hc, -⟩ := TransGen.head'_iff.mp hwait
      rw [← heq] at hc
      exact absurd hc (hout c)
  pending := by
    rw [hdisk]
    rcases h.pending with hdone | hwait
    · exact .inl (hdone.cons _)
    · by_cases hhigh : d.high = page
      · left
        exact ⟨[], s.disk, s.version page, by rw [hhigh]; rfl, h.since, hhigh ▸ h.version⟩
      · right
        exact wait_of_written hout hedge hwait hhigh

end Duty

/-! ## Writes -/

theorem Edge.clearPrecedence {a b : ℕ} (h : Edge s.pres a b) (hb : b ≠ page) :
    Edge (s.clearPrecedence page).pres a b := by
  obtain ⟨e, he, hclear, hlow, rfl⟩ := h
  exact ⟨e, List.mem_filter.mpr ⟨he, by simpa using hb⟩, hclear, hlow, rfl⟩

theorem Writes.holds (h : Writes s page s') (hs : Sound s) (hd : d.Holds s) : d.Holds s' := by
  cases h with
  | drop he hclear =>
      refine hd.keep rfl (Nat.le_refl _) ?_
      rintro a b ⟨f, hf, hfclear, hrest⟩
      refine ⟨f, (List.mem_erase_of_ne ?_).mpr hf, hfclear, hrest⟩
      rintro rfl
      rw [hclear] at hfclear
      cases hfclear
  | write hdirty hnil =>
      refine hd.write ?_ rfl rfl fun a b hab hb => hab.clearPrecedence hb
      rintro b ⟨e, he, -, hlow, -⟩
      have hmem : e ∈ higher s.pres page := List.mem_filter.mpr ⟨he, by simpa using hlow⟩
      rw [hnil] at hmem
      cases hmem
  | clear hclean =>
      refine hd.keep rfl (Nat.le_refl _) fun a b hab => hab.clearPrecedence ?_
      rintro rfl
      obtain ⟨e, he, hclear, -, rfl⟩ := hab
      rw [hs.dirty e he hclear] at hclean
      cases hclean

theorem WritesAll.holds {R : ℕ → Prop} (h : WritesAll R s s') (hs : Sound s) (hd : d.Holds s) :
    d.Holds s' := by
  refine (h.invariant (I := fun t => Sound t ∧ d.Holds t) ?_ ⟨hs, hd⟩).2
  intro s₁ s₂ p hI _ hw
  exact ⟨hw.sound hI.1, hw.holds hI.1 hI.2⟩

theorem WritesAll.version {R : ℕ → Prop} (h : WritesAll R s s') : s'.version = s.version := by
  refine h.invariant (I := fun t => t.version = s.version) ?_ rfl
  intro s₁ s₂ p ih _ hw
  cases hw <;> exact ih

theorem WritesAll.disk_length {R : ℕ → Prop} (h : WritesAll R s s') :
    s.disk.length ≤ s'.disk.length := by
  refine h.invariant (I := fun t => s.disk.length ≤ t.disk.length) ?_ (Nat.le_refl _)
  intro s₁ s₂ p ih _ hw
  cases hw with
  | drop => exact ih
  | write => exact Nat.le_succ_of_le ih
  | clear => exact ih

/-- A page that is clean after the writes and was dirty before has been written. -/
theorem WritesAll.written {R : ℕ → Prop} (h : WritesAll R s s') {p : ℕ}
    (hdirty : s.dirty p = true) (hclean : s'.dirty p = false) :
    ∃ newer older, s'.disk = newer ++ (p, s.version p) :: older ∧
      s.disk.length ≤ older.length := by
  induction h with
  | refl =>
      rw [hdirty] at hclean
      cases hclean
  | @step s₁ s₂ q h₁ _ hw ih =>
      cases hw with
      | drop => exact ih hclean
      | clear => exact ih hclean
      | write =>
          by_cases hp : p = q
          · subst hp
            refine ⟨[], s₁.disk, ?_, h₁.disk_length⟩
            rw [← h₁.version]
            rfl
          · change Function.update s₁.dirty q false p = false at hclean
            rw [Function.update_of_ne hp] at hclean
            obtain ⟨newer, older, hdisk, hlen⟩ := ih hclean
            refine ⟨(q, s₁.version q) :: newer, older, ?_, hlen⟩
            change (q, s₁.version q) :: s₁.disk = _
            rw [hdisk]
            rfl

/-- A page that is written itself is clean, and nothing waits for it. -/
theorem writes_this (superserver : Bool) (fuel : ℕ) :
    (∀ s page s', writeBuffer superserver fuel s page true = some s' →
      s'.dirty page = false ∧ ∀ e ∈ s'.pres, e.hi ≠ page) ∧
    ∀ s page s', writeHigher superserver fuel s page true = some s' →
      s'.dirty page = false ∧ ∀ e ∈ s'.pres, e.hi ≠ page := by
  have hgone (s : Cache) (page : ℕ) : ∀ e ∈ (s.clearPrecedence page).pres, e.hi ≠ page :=
    fun e he => by simpa using (List.mem_filter.mp he).2
  induction fuel with
  | zero => exact ⟨(fun _ _ _ h => nomatch h), fun _ _ _ h => nomatch h⟩
  | succ fuel ih =>
      refine ⟨fun s page s' h => ?_, fun s page s' h => ?_⟩
      · rw [writeBuffer] at h
        split at h
        · exact ih.2 _ _ _ h
        · rename_i hdirty
          cases h
          exact ⟨eq_false_of_ne_true hdirty, hgone s page⟩
      · rw [writeHigher] at h
        split at h
        · split at h
          · cases h
            exact ⟨Function.update_self .., hgone (s.writePage page) page⟩
          · rename_i hdirty
            cases h
            exact ⟨eq_false_of_ne_true hdirty, hgone s page⟩
        · split at h
          · exact ih.2 _ _ _ h
          · split at h
            · cases h
            · rw [Bool.not_true, Bool.and_false, if_neg Bool.false_ne_true] at h
              exact ih.2 _ _ _ h

/-! ## The operations -/

theorem Sound.modify (hs : Sound s) (page : ℕ) (next : ℤ) : Sound (s.modify page next) where
  ranked := hs.ranked
  dirty e he hclear := by
    change Function.update s.dirty page true e.hi = true
    by_cases heq : e.hi = page
    · rw [heq, Function.update_self]
    · rw [Function.update_of_ne heq]
      exact hs.dirty e he hclear
  disk image himage := Nat.le_trans (hs.disk image himage) (s.le_modify_version page next image.1)

theorem Duty.Holds.modify (h : d.Holds s) (page : ℕ) (next : ℤ) : d.Holds (s.modify page next) :=
  h.keep rfl (s.le_modify_version page next d.high) fun _ _ => id

/-- At AST level a page is written as anywhere else, with the marks in place of the queues. -/
theorem downGrade_spec (hs : Sound s) (h : s.downGrade page = some s') :
    Sound s' ∧ ∀ d : Duty, d.Holds s → d.Holds s' := by
  rw [Cache.downGrade] at h
  split at h
  · rename_i hfree
    cases h
    have hmarked {e : Pre} (he : e ∈ s.pres.map fun e =>
        if e.hi = page then { e with cleared := true } else e) (hclear : e.cleared = false) :
        e ∈ s.pres ∧ e.hi ≠ page := by
      obtain ⟨f, hf, rfl⟩ := List.mem_map.mp he
      split at hclear
      · cases hclear
      · rename_i hne
        rw [if_neg hne]
        exact ⟨hf, hne⟩
    refine ⟨⟨?_, ?_, ?_⟩, fun d hd => hd.write ?_ rfl rfl ?_⟩
    · refine hs.ranked.mono ?_
      rintro a b ⟨e, he, hclear, hrest⟩
      exact ⟨e, (hmarked he hclear).1, hclear, hrest⟩
    · intro e he hclear
      obtain ⟨hmem, hne⟩ := hmarked he hclear
      change Function.update s.dirty page false e.hi = true
      rw [Function.update_of_ne hne]
      exact hs.dirty e hmem hclear
    · exact List.forall_mem_cons.mpr ⟨Nat.le_refl _, hs.disk⟩
    · rintro b ⟨e, he, hclear, hlow, rfl⟩
      rcases hfree.2 e (List.mem_filter.mpr ⟨he, by simpa using hlow⟩) with hmark | hclean
      · rw [hclear] at hmark
        cases hmark
      · rw [hs.dirty e he hclear] at hclean
        cases hclean
    · rintro a b ⟨e, he, hclear, hlow, hhi⟩ hb
      refine ⟨e, List.mem_map.mpr ⟨e, he, if_neg ?_⟩, hclear, hlow, hhi⟩
      rw [hhi]
      exact hb
  · cases h

/-- A call puts the page behind another one that is dirty; a transaction that the header
page on disk has asks for nothing. -/
def Asks (s : Cache) (low : ℕ) (page : ℤ) : Prop :=
  ¬(page < 0 ∧ -page ≤ s.lastHeaderWrite) ∧ s.dirty (precedencePage page) = true ∧
    precedencePage page ≠ low

instance (s : Cache) (low : ℕ) (page : ℤ) : Decidable (Asks s low page) :=
  inferInstanceAs (Decidable (_ ∧ _ ∧ _))

/-- The duty that a call takes on. -/
def duty (s : Cache) (low : ℕ) (page : ℤ) : Duty where
  low := low
  high := precedencePage page
  lowVersion := s.version low
  highVersion := s.version (precedencePage page)
  since := s.disk.length

/-- A duty is taken on when the page is behind the other one, or that one just written. -/
theorem duty_holds {low : ℕ} {p : ℤ} (hlen : s.disk.length ≤ s'.disk.length)
    (hversion : s'.version = s.version) (hdisk : ∀ image ∈ s'.disk, image.2 ≤ s'.version image.1)
    (hpending : (duty s low p).Discharged s'.disk ∨
      TransGen (Edge s'.pres) low (precedencePage p)) : (duty s low p).Holds s' where
  since := hlen
  version := hversion ▸ Nat.le_refl _
  kept newer older v heq hv := by
    have hle : v ≤ s.version low := by
      rw [← hversion]
      exact hdisk (low, v) (heq ▸ List.mem_append_right _ List.mem_cons_self)
    exact absurd hle (Nat.not_le_of_lt hv)
  pending := hpending

/-- Not even the blocks below its queue put a page behind `high`. -/
theorem not_waits {pres : List Pre} {low high m : ℕ}
    (h : (if hasLower pres high then related pres low high preSearchLimit
      else .rest preSearchLimit) = .rest m) : ¬TransGen (Edge pres) low high := by
  cases hlower : hasLower pres high with
  | true =>
      rw [hlower, if_pos rfl] at h
      exact related_rest h
  | false => exact not_transGen_of_hasLower hlower

/-- The block goes in when `high` does not wait for `low`, or `low` has just been written. -/
theorem not_waits_of_cycle {pres : List Pre} {low high : ℕ}
    (h : ¬(hasLower pres low && (related pres high low preSearchLimit = .found ||
      related pres high low preSearchLimit = .unknown)) = true) :
    ¬TransGen (Edge pres) high low := by
  cases hlower : hasLower pres low with
  | false => exact not_transGen_of_hasLower hlower
  | true =>
      cases hrelated : related pres high low preSearchLimit with
      | found =>
          rw [hlower, hrelated] at h
          exact absurd rfl h
      | unknown =>
          rw [hlower, hrelated] at h
          exact absurd rfl h
      | rest m => exact related_rest hrelated

/-- A new block between pages that do not wait for each other. -/
theorem Sound.precedence (hs : Sound s) {low high : ℕ} (hdirty : s.dirty high = true)
    (hne : high ≠ low) (hcycle : ¬TransGen (Edge s.pres) high low) :
    Sound { s with pres := ⟨low, high, false⟩ :: s.pres } where
  ranked := by
    refine (hs.ranked.insert (a := low) (b := high) fun hpath => ?_).mono ?_
    · rcases Relation.reflTransGen_iff_eq_or_transGen.mp hpath with heq | hpath
      · exact hne heq.symm
      · exact hcycle hpath
    · rintro a b ⟨e, he, hclear, hlow, hhi⟩
      rcases List.mem_cons.mp he with rfl | he
      · exact .inr ⟨hlow.symm, hhi.symm⟩
      · exact .inl ⟨e, he, hclear, hlow, hhi⟩
  dirty e he hclear := by
    rcases List.mem_cons.mp he with rfl | he
    · exact hdirty
    · exact hs.dirty e he hclear
  disk := hs.disk

/-- One call of `CCH_precedence`: found, replaced by a write of `high`, or recorded. -/
theorem checkPrecedence_spec {fuel low : ℕ} {p : ℤ} (hs : Sound s)
    (h : s.checkPrecedence superserver fuel low p = some s') :
    Sound s' ∧ (∀ d : Duty, d.Holds s → d.Holds s') ∧
      (Asks s low p → (duty s low p).Holds s') := by
  rw [Cache.checkPrecedence] at h
  split at h
  · rename_i hwritten
    cases h
    exact ⟨hs, fun _ => id, fun hasks => absurd hwritten hasks.1⟩
  · dsimp only at h
    split at h
    · rename_i hnone
      cases h
      refine ⟨hs, fun _ => id, fun hasks => ?_⟩
      rcases hnone with hclean | heq
      · rw [hasks.2.1] at hclean
        cases hclean
      · exact absurd heq hasks.2.2
    · rename_i hasked
      rw [not_or, Bool.not_eq_false] at hasked
      obtain ⟨hdirty, hne⟩ := hasked
      split at h
      · -- `PRE_EXISTS`
        rename_i hfound
        cases h
        refine ⟨hs, fun _ => id, fun _ => duty_holds (Nat.le_refl _) rfl hs.disk (.inr ?_)⟩
        split at hfound
        · exact related_found hfound
        · cases hfound
      · -- `PRE_UNKNOWN`
        have hw := (writes superserver fuel).1 _ _ _ _ h
        have hclean := ((writes_this superserver fuel).1 _ _ _ h).1
        have hs' := hw.sound hs
        refine ⟨hs', fun d hd => hw.holds hs hd,
          fun _ => duty_holds hw.disk_length hw.version hs'.disk (.inl ?_)⟩
        obtain ⟨newer, older, hdisk, hlen⟩ := hw.written hdirty hclean
        exact ⟨newer, older, _, hdisk, hlen, Nat.le_refl _⟩
      · rename_i m hrest
        obtain ⟨s₁, hfirst, rfl⟩ := Option.map_eq_some_iff.mp h
        have hlow := not_waits hrest
        -- after a write of `low` nothing waits for it, and `high` is as before
        have hready : ∃ R, WritesAll R s s₁ ∧ s₁.dirty (precedencePage p) = true ∧
            ¬TransGen (Edge s₁.pres) (precedencePage p) low := by
          split at hfirst
          · have hw := (writes superserver fuel).1 _ _ _ _ hfirst
            have hgone := ((writes_this superserver fuel).1 _ _ _ hfirst).2
            refine ⟨_, hw, ?_, fun hpath => ?_⟩
            · rw [hw.dirty, hdirty]
              intro hpath
              rcases Relation.reflTransGen_iff_eq_or_transGen.mp hpath with heq | hpath
              · exact hne heq
              · exact hlow hpath
            · obtain ⟨c, -, e, he, -, -, hhi⟩ := TransGen.tail'_iff.mp hpath
              exact hgone e he hhi
          · rename_i hcycle
            cases hfirst
            exact ⟨fun _ => False, .refl, hdirty, not_waits_of_cycle hcycle⟩
        obtain ⟨R, hw, hdirty₁, hcycle⟩ := hready
        have hs₁ := (hw.sound hs).precedence hdirty₁ hne hcycle
        refine ⟨hs₁, fun d hd => (hw.holds hs hd).keep rfl (Nat.le_refl _) ?_,
          fun _ => duty_holds hw.disk_length hw.version hs₁.disk (.inr ?_)⟩
        · rintro a b ⟨e, he, hrest⟩
          exact ⟨e, List.mem_cons_of_mem _ he, hrest⟩
        · exact .single ⟨_, List.mem_cons_self, rfl, rfl, rfl⟩

theorem Sound.checkPrecedence_ends (hs : Sound s) (superserver : Bool) (low : ℕ) (p : ℤ) :
    ∃ fuel s', s.checkPrecedence superserver fuel low p = some s' := by
  obtain ⟨fuelHigh, high, hhigh⟩ := hs.writeBuffer_ends superserver (precedencePage p) true
  obtain ⟨fuelLow, low', hlow⟩ := hs.writeBuffer_ends superserver low true
  -- whichever of the two pages is written
  refine ⟨max fuelHigh fuelLow, Option.isSome_iff_exists.mp ?_⟩
  replace hhigh := (fuel_le (Nat.le_max_left fuelHigh fuelLow)).1 hhigh
  replace hlow := (fuel_le (Nat.le_max_right fuelHigh fuelLow)).1 hlow
  rw [Cache.checkPrecedence]
  dsimp only
  split
  · rfl
  · split
    · rfl
    · split
      · rfl
      · rw [hhigh]
        rfl
      · rw [Option.isSome_map]
        split
        · rw [hlow]
          rfl
        · rfl

/-! ## Runs -/

/-- The cache, and the duties of all calls made so far. -/
structure State where
  cache : Cache
  duties : List Duty

/-- What the process asks the cache for. -/
inductive Event where
  | precedence (low : ℕ) (page : ℤ)
  | modify (page : ℕ) (next : ℤ)
  | write (page : ℕ) (writeThisPage : Bool)
  | downGrade (page : ℕ)

/-- The duties of a call. -/
def duties (s : Cache) (low : ℕ) (page : ℤ) : List Duty :=
  if Asks s low page then [duty s low page] else []

/-- The steps of the cache; a write takes as much fuel as it needs. -/
inductive Step (superserver : Bool) : State → Event → State → Prop where
  | precedence {s : State} {fuel low : ℕ} {page : ℤ} {cache : Cache} :
      s.cache.checkPrecedence superserver fuel low page = some cache →
      Step superserver s (.precedence low page) ⟨cache, duties s.cache low page ++ s.duties⟩
  | modify {s : State} {page : ℕ} {next : ℤ} :
      Step superserver s (.modify page next) ⟨s.cache.modify page next, s.duties⟩
  | write {s : State} {fuel page : ℕ} {this : Bool} {cache : Cache} :
      writeBuffer superserver fuel s.cache page this = some cache →
      Step superserver s (.write page this) ⟨cache, s.duties⟩
  | downGrade {s : State} {page : ℕ} {cache : Cache} : s.cache.downGrade page = some cache →
      Step superserver s (.downGrade page) ⟨cache, s.duties⟩

/-- A process begins with clean buffers. -/
def system (superserver : Bool) : System State Event where
  init s := (∀ page, s.cache.dirty page = false) ∧ s.cache.pres = [] ∧ s.cache.disk = [] ∧
    s.duties = []
  step := Step superserver

/-- The blocks are sound, and every duty is kept, or `low` still waits. -/
structure Order (s : State) : Prop where
  sound : Sound s.cache
  holds : ∀ d ∈ s.duties, d.Holds s.cache

theorem Order.step {s s' : State} {i : Event} (h : Order s) (hstep : Step superserver s i s') :
    Order s' := by
  cases hstep with
  | precedence hrun =>
      obtain ⟨hs, hold, hnew⟩ := checkPrecedence_spec h.sound hrun
      refine ⟨hs, fun d hd => ?_⟩
      rcases List.mem_append.mp hd with hd | hd
      · rw [duties] at hd
        split at hd
        · rename_i hasks
          rw [List.mem_singleton] at hd
          exact hd ▸ hnew hasks
        · cases hd
      · exact hold d (h.holds d hd)
  | modify => exact ⟨h.sound.modify .., fun d hd => (h.holds d hd).modify ..⟩
  | write hrun =>
      have hw := (writes superserver _).1 _ _ _ _ hrun
      exact ⟨hw.sound h.sound, fun d hd => hw.holds h.sound (h.holds d hd)⟩
  | downGrade hrun =>
      obtain ⟨hs, hold⟩ := downGrade_spec h.sound hrun
      exact ⟨hs, fun d hd => hold d (h.holds d hd)⟩

theorem Order.of_init {s : State} (h : (system superserver).init s) : Order s := by
  obtain ⟨-, hpres, hdisk, hduties⟩ := h
  refine ⟨⟨⟨fun _ => 0, ?_⟩, ?_, ?_⟩, ?_⟩
  · rintro a b ⟨e, he, -⟩
    rw [hpres] at he
    cases he
  · rw [hpres]
    exact nofun
  · rw [hdisk]
    exact nofun
  · rw [hduties]
    exact nofun

theorem order {s : State} (h : Reachable (system superserver) s) : Order s :=
  h.invariant (fun _ => Order.of_init) fun _ _ _ => Order.step

/-- Clean buffers. -/
def blank : State where
  cache := ⟨fun _ => false, fun _ => 0, [], [], 1, 1⟩
  duties := []

end Firebird.Cch
