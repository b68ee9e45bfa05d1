import Firebird.Jrd.Cch
import Firebird.Lib.Ranked
import Firebird.Lib.Transition

/-! # Careful writing keeps its order

A page that has been put behind another one, by a block, by blocks that were there before,
or by writing one of the two at once, gets to disk behind it. The blocks that are not
cleared have no cycle, and their `hi` pages are dirty; this makes every write terminate.
-/

namespace Firebird.Cch

open Relation (ReflTransGen TransGen)
open Transition (Reachable System)

variable {superserver : Bool} {s s' : Cache} {page : ℕ}

/-- A block that is not cleared puts `b` before `a`. -/
def Edge (pres : List Pre) (a b : ℕ) : Prop :=
  ∃ e ∈ pres, e.cleared = false ∧ e.low = a ∧ e.hi = b

/-- The blocks have no cycle, and what waits for a page waits for a dirty one. No image on
disk is newer than the buffer. -/
structure Sound (s : Cache) : Prop where
  ranked : Ranked (Edge s.pres)
  dirty : ∀ e ∈ s.pres, e.cleared = false → s.dirty e.hi = true
  disk : ∀ image ∈ s.disk, image.2 ≤ s.version image.1

/-! ## The search -/

/-- What the search finds is there. -/
theorem relatedLoop_found {pres : List Pre} {high fuel limit : ℕ} {que : List Pre}
    (h : relatedLoop pres high fuel limit que = .found) :
    ∃ e ∈ que, e.cleared = false ∧ ReflTransGen (Edge pres) e.hi high := by
  induction fuel generalizing limit que with
  | zero => cases que <;> cases h
  | succ fuel ih =>
      cases que with
      | nil => cases h
      | cons e que =>
          have hlater : ∀ {limit}, relatedLoop pres high fuel limit que = .found →
              ∃ e' ∈ e :: que, e'.cleared = false ∧ ReflTransGen (Edge pres) e'.hi high := by
            intro limit hrest
            obtain ⟨e', hmem, hpath⟩ := ih hrest
            exact ⟨e', List.mem_cons_of_mem _ hmem, hpath⟩
          rw [relatedLoop] at h
          split at h
          · cases h
          · split at h
            · exact hlater h
            · rename_i hclear
              rw [Bool.not_eq_true] at hclear
              split at h
              · rename_i heq
                exact ⟨e, List.mem_cons_self, hclear, heq ▸ .refl⟩
              · split at h
                · exact hlater h
                · obtain ⟨e', hmem, hclear', hpath⟩ := ih h
                  rw [higher, List.mem_filter, decide_eq_true_iff] at hmem
                  exact ⟨e, List.mem_cons_self, hclear,
                    .head ⟨e', hmem.1, hclear', hmem.2, rfl⟩ hpath⟩

/-- A search that comes to its end has not missed anything. -/
theorem relatedLoop_complete {pres : List Pre} {high fuel limit m : ℕ} {que : List Pre}
    (h : relatedLoop pres high fuel limit que = .rest m) :
    ∀ e ∈ que, e.cleared = false → ¬ReflTransGen (Edge pres) e.hi high := by
  induction fuel generalizing limit m que with
  | zero =>
      cases que with
      | nil => exact nofun
      | cons e que => cases h
  | succ fuel ih =>
      cases que with
      | nil => exact nofun
      | cons e que =>
          rw [relatedLoop] at h
          split at h
          · cases h
          · split at h
            · rename_i hclear
              intro e' hmem hclear'
              rcases List.mem_cons.mp hmem with rfl | hmem
              · rw [hclear] at hclear'
                cases hclear'
              · exact ih h e' hmem hclear'
            · split at h
              · cases h
              · rename_i hne
                split at h
                · rename_i limit' hin
                  intro e' hmem hclear' hpath
                  rcases List.mem_cons.mp hmem with rfl | hmem
                  · -- the first block on the way has been searched too
                    rcases ReflTransGen.cases_head hpath with heq | ⟨c, ⟨f, hf, hfc, hlow, hhi⟩, hrest⟩
                    · exact hne heq
                    · have hfmem : f ∈ higher pres e'.hi := by
                        rw [higher, List.mem_filter, decide_eq_true_iff]
                        exact ⟨hf, hlow⟩
                      exact ih hin f hfmem hfc (hhi ▸ hrest)
                  · exact ih h e' hmem hclear' hpath
                · rename_i hno
                  exact absurd h (hno m)

theorem related_found {pres : List Pre} {low high limit : ℕ}
    (h : related pres low high limit = .found) : TransGen (Edge pres) low high := by
  obtain ⟨e, hmem, hclear, hpath⟩ := relatedLoop_found h
  rw [higher, List.mem_filter, decide_eq_true_iff] at hmem
  exact TransGen.head' ⟨e, hmem.1, hclear, hmem.2, rfl⟩ hpath

theorem related_rest {pres : List Pre} {low high limit m : ℕ}
    (h : related pres low high limit = .rest m) : ¬TransGen (Edge pres) low high := by
  intro hpath
  obtain ⟨c, ⟨e, he, hclear, hlow, rfl⟩, hrest⟩ := TransGen.head'_iff.mp hpath
  refine relatedLoop_complete h e ?_ hclear hrest
  rw [higher, List.mem_filter, decide_eq_true_iff]
  exact ⟨he, hlow⟩

/-- Without a block in its lower queue no page waits for a page. -/
theorem not_transGen_of_hasLower {pres : List Pre} {a b : ℕ} (h : hasLower pres b = false) :
    ¬TransGen (Edge pres) a b := by
  intro hpath
  obtain ⟨c, -, e, he, -, -, hhi⟩ := TransGen.tail'_iff.mp hpath
  rw [hasLower, List.any_eq_false] at h
  exact h e he (by simpa using hhi)

/-! ## What a write does -/

/-- The single steps of a write, with the page that each one is about. -/
inductive Writes (s : Cache) : ℕ → Cache → Prop where
  | drop {e : Pre} : e ∈ s.pres → e.cleared = true → Writes s e.low (s.drop e)
  | write {page : ℕ} : s.dirty page = true → higher s.pres page = [] →
      Writes s page ((s.writePage page).clearPrecedence page)
  | clear {page : ℕ} : s.dirty page = false → Writes s page (s.clearPrecedence page)

/-- Several such steps, on pages that `R` holds of. -/
inductive WritesAll (R : ℕ → Prop) (s : Cache) : Cache → Prop where
  | refl : WritesAll R s s
  | step {s₁ s₂ : Cache} {page : ℕ} : WritesAll R s s₁ → R page → Writes s₁ page s₂ →
      WritesAll R s s₂

theorem WritesAll.trans {R : ℕ → Prop} {s₁ s₂ : Cache} (h : WritesAll R s s₁)
    (h' : WritesAll R s₁ s₂) : WritesAll R s s₂ := by
  induction h' with
  | refl => exact h
  | step _ hR hstep ih => exact ih.step hR hstep

theorem WritesAll.mono {R R' : ℕ → Prop} (h : WritesAll R s s') (hR : ∀ p, R p → R' p) :
    WritesAll R' s s' := by
  induction h with
  | refl => exact .refl
  | step _ hp hstep ih => exact ih.step (hR _ hp) hstep

theorem WritesAll.invariant {R : ℕ → Prop} {I : Cache → Prop} (h : WritesAll R s s')
    (hstep : ∀ s₁ s₂ p, I s₁ → R p → Writes s₁ p s₂ → I s₂) (hs : I s) : I s' := by
  induction h with
  | refl => exact hs
  | step _ hp hw ih => exact hstep _ _ _ ih hp hw

theorem Writes.subset (h : Writes s page s') : ∀ e ∈ s'.pres, e ∈ s.pres := by
  cases h with
  | drop he hclear => exact fun e' he' => List.mem_of_mem_erase he'
  | write hdirty hnil => exact fun e' he' => (List.mem_filter.mp he').1
  | clear hdirty => exact fun e' he' => (List.mem_filter.mp he').1

theorem Edge.mono {pres pres' : List Pre} (h : ∀ e ∈ pres', e ∈ pres) {a b : ℕ}
    (hab : Edge pres' a b) : Edge pres a b := by
  obtain ⟨e, he, hrest⟩ := hab
  exact ⟨e, h e he, hrest⟩

theorem Writes.sound (h : Writes s page s') (hs : Sound s) : Sound s' where
  ranked := hs.ranked.mono fun _ _ => Edge.mono h.subset
  dirty e he hclear := by
    have hold := hs.dirty e (h.subset e he) hclear
    cases h with
    | drop => exact hold
    | write =>
        have hne : e.hi ≠ page := by simpa using (List.mem_filter.mp he).2
        change Function.update s.dirty page false e.hi = true
        rw [Function.update_of_ne hne]
        exact hold
    | clear => exact hold
  disk := by
    cases h with
    | drop => exact hs.disk
    | write => exact List.forall_mem_cons.mpr ⟨Nat.le_refl _, hs.disk⟩
    | clear => exact hs.disk

theorem WritesAll.sound {R : ℕ → Prop} (h : WritesAll R s s') (hs : Sound s) : Sound s' :=
  h.invariant (fun _ _ _ hs _ hw => hw.sound hs) hs

theorem WritesAll.subset {R : ℕ → Prop} (h : WritesAll R s s') : ∀ e ∈ s'.pres, e ∈ s.pres :=
  h.invariant (I := fun t => ∀ e ∈ t.pres, e ∈ s.pres)
    (fun _ _ _ hsub _ hw e he => hsub e (hw.subset e he)) fun _ he => he

/-- Pages that no step is about stay dirty. -/
theorem WritesAll.dirty {R : ℕ → Prop} (h : WritesAll R s s') {p : ℕ} (hp : ¬R p) :
    s'.dirty p = s.dirty p := by
  refine h.invariant (I := fun t => t.dirty p = s.dirty p) ?_ rfl
  intro s₁ s₂ q ih hq hw
  cases hw with
  | drop => exact ih
  | write =>
      have hne : p ≠ q := by rintro rfl; exact hp hq
      change Function.update s₁.dirty q false p = s.dirty p
      rw [Function.update_of_ne hne]
      exact ih
  | clear => exact ih

theorem head?_higher {pres : List Pre} {e : Pre} {es : List Pre} (h : higher pres page = e :: es) :
    e ∈ pres ∧ e.low = page := by
  have hmem : e ∈ higher pres page := h ▸ List.mem_cons_self
  rw [higher, List.mem_filter, decide_eq_true_iff] at hmem
  exact hmem

/-- A write carries out steps on the page and on what is put before it. -/
theorem writes (superserver : Bool) (fuel : ℕ) :
    (∀ s page this s', writeBuffer superserver fuel s page this = some s' →
      WritesAll (ReflTransGen (Edge s.pres) page) s s') ∧
    ∀ s page this s', writeHigher superserver fuel s page this = some s' →
      WritesAll (ReflTransGen (Edge s.pres) page) s s' := by
  induction fuel with
  | zero => exact ⟨(fun _ _ _ _ h => nomatch h), fun _ _ _ _ h => nomatch h⟩
  | succ fuel ih =>
      refine ⟨fun s page this s' h => ?_, fun s page this s' h => ?_⟩
      · rw [writeBuffer] at h
        split at h
        · exact ih.2 s page this s' h
        · rename_i hdirty
          cases h
          exact .step .refl .refl (.clear (eq_false_of_ne_true hdirty))
      · rw [writeHigher] at h
        split at h
        · rename_i hnil
          split at h
          · rename_i hdirty
            cases h
            exact .step .refl .refl (.write hdirty hnil)
          · rename_i hdirty
            cases h
            exact .step .refl .refl (.clear (eq_false_of_ne_true hdirty))
        · rename_i e es hque
          obtain ⟨he, rfl⟩ := head?_higher hque
          split at h
          · rename_i hclear
            have hdrop : WritesAll (ReflTransGen (Edge s.pres) e.low) s (s.drop e) :=
              .step .refl .refl (.drop he hclear)
            refine hdrop.trans ((ih.2 _ _ _ _ h).mono fun p hp => ?_)
            exact hp.lift id fun _ _ => Edge.mono hdrop.subset
          · rename_i hclear
            rw [Bool.not_eq_true] at hclear
            split at h
            · cases h
            · rename_i s₁ hin
              have hfirst : WritesAll (ReflTransGen (Edge s.pres) e.low) s s₁ :=
                (ih.1 _ _ _ _ hin).mono fun p hp => .head ⟨e, he, hclear, rfl, rfl⟩ hp
              split at h
              · cases h
                exact hfirst
              · refine hfirst.trans ((ih.2 _ _ _ _ h).mono fun p hp => ?_)
                exact hp.lift id fun _ _ => Edge.mono hfirst.subset

/-! ## Writes end -/

theorem fuel_succ (superserver : Bool) (fuel : ℕ) :
    (∀ s page this s', writeBuffer superserver fuel s page this = some s' →
      writeBuffer superserver (fuel + 1) s page this = some s') ∧
    ∀ s page this s', writeHigher superserver fuel s page this = some s' →
      writeHigher superserver (fuel + 1) s page this = some s' := by
  induction fuel with
  | zero => exact ⟨(fun _ _ _ _ h => nomatch h), fun _ _ _ _ h => nomatch h⟩
  | succ fuel ih =>
      refine ⟨fun s page this s' h => ?_, fun s page this s' h => ?_⟩
      · rw [writeBuffer] at h ⊢
        split at h
        · rename_i hdirty
          rw [if_pos hdirty]
          exact ih.2 _ _ _ _ h
        · rename_i hdirty
          rw [if_neg hdirty]
          exact h
      · rw [writeHigher] at h ⊢
        split at h
        · exact h
        · split at h
          · rename_i hclear
            rw [if_pos hclear]
            exact ih.2 _ _ _ _ h
          · rename_i hclear
            rw [if_neg hclear]
            split at h
            · cases h
            · rename_i s₁ hin
              rw [ih.1 _ _ _ _ hin]
              dsimp only
              split at h
              · rename_i hreturn
                rw [if_pos hreturn]
                exact h
              · rename_i hreturn
                rw [if_neg hreturn]
                exact ih.2 _ _ _ _ h

theorem fuel_le {fuel fuel' : ℕ} {this : Bool} (hle : fuel ≤ fuel') :
    (writeBuffer superserver fuel s page this = some s' →
      writeBuffer superserver fuel' s page this = some s') ∧
    (writeHigher superserver fuel s page this = some s' →
      writeHigher superserver fuel' s page this = some s') := by
  induction hle with
  | refl => exact ⟨id, id⟩
  | step _ ih =>
      exact ⟨fun h => (fuel_succ _ _).1 _ _ _ _ (ih.1 h), fun h => (fuel_succ _ _).2 _ _ _ _ (ih.2 h)⟩

/-- A write that ends, after which fewer blocks are left if one waited for the page. -/
def Ends (write : ℕ → Option Cache) (s : Cache) (page : ℕ) : Prop :=
  ∃ fuel s', write fuel = some s' ∧ s'.pres.length ≤ s.pres.length ∧
    ((∃ e ∈ s.pres, e.hi = page) → s'.pres.length < s.pres.length)

theorem clearPrecedence_length (s : Cache) (page : ℕ) :
    (s.clearPrecedence page).pres.length ≤ s.pres.length ∧
      ((∃ e ∈ s.pres, e.hi = page) → (s.clearPrecedence page).pres.length < s.pres.length) := by
  refine ⟨List.length_filter_le _ _, ?_⟩
  rintro ⟨e, he, hhi⟩
  exact List.length_filter_lt_length_iff_exists.mpr ⟨e, he, by simpa using hhi⟩

/-- Before the page its rank falls, behind it there are fewer blocks. -/
theorem writeHigher_ends (superserver : Bool) {rank : ℕ → ℕ} (s : Cache) (page : ℕ) (this : Bool)
    (hrank : ∀ a b, Edge s.pres a b → rank b < rank a) :
    Ends (fun fuel => writeHigher superserver fuel s page this) s page := by
  cases hque : higher s.pres page with
  | nil =>
      have hlen := clearPrecedence_length s page
      by_cases hdirty : s.dirty page = true
      · refine ⟨1, (s.writePage page).clearPrecedence page, ?_, hlen⟩
        simp only [writeHigher, hque, if_pos hdirty]
      · refine ⟨1, s.clearPrecedence page, ?_, hlen⟩
        simp only [writeHigher, hque, if_neg hdirty]
  | cons e es =>
      obtain ⟨he, hlow⟩ := head?_higher hque
      cases hclear : e.cleared with
      | true =>
          have hlt : (s.drop e).pres.length < s.pres.length := by
            have hpos := List.length_pos_of_mem he
            have hlen : (s.pres.erase e).length = s.pres.length - 1 := List.length_erase_of_mem he
            change (s.pres.erase e).length < _
            omega
          obtain ⟨fuel, s', hrun, hle, -⟩ := writeHigher_ends superserver (s.drop e) page this
            fun a b hab => hrank a b (hab.mono fun _ => List.mem_of_mem_erase)
          refine ⟨fuel + 1, s', ?_, by omega, fun _ => by omega⟩
          simp only [writeHigher, hque, hclear, if_true]
          exact hrun
      | false =>
          have hedge : Edge s.pres page e.hi := ⟨e, he, hclear, hlow, rfl⟩
          have hfall := hrank _ _ hedge
          -- the page before
          obtain ⟨fuel₁, s₁, hrun₁, -, hlt⟩ :
              Ends (fun fuel => writeBuffer superserver fuel s e.hi false) s e.hi := by
            by_cases hdirty : s.dirty e.hi = true
            · obtain ⟨fuel, s', hrun, hlen⟩ := writeHigher_ends superserver s e.hi false hrank
              refine ⟨fuel + 1, s', ?_, hlen⟩
              simp only [writeBuffer, if_pos hdirty]
              exact hrun
            · refine ⟨1, s.clearPrecedence e.hi, ?_, clearPrecedence_length s e.hi⟩
              simp only [writeBuffer, if_neg hdirty]
          have hlt₁ := hlt ⟨e, he, rfl⟩
          have hsub := ((writes superserver fuel₁).1 _ _ _ _ hrun₁).subset
          obtain ⟨fuel₂, s₂, hrun₂, hle, -⟩ := writeHigher_ends superserver s₁ page this
            fun a b hab => hrank a b (hab.mono hsub)
          have hinner := (fuel_le (Nat.le_max_left fuel₁ fuel₂)).1 hrun₁
          by_cases hreturn : (superserver && !this) = true
          · refine ⟨max fuel₁ fuel₂ + 1, s₁, ?_, by omega, fun _ => hlt₁⟩
            simp only [writeHigher, hque, hclear, hinner, if_pos hreturn, Bool.false_eq_true, if_false]
          · refine ⟨max fuel₁ fuel₂ + 1, s₂, ?_, by omega, fun _ => by omega⟩
            simp only [writeHigher, hque, hclear, hinner, if_neg hreturn, Bool.false_eq_true, if_false]
            exact (fuel_le (Nat.le_max_right fuel₁ fuel₂)).2 hrun₂
termination_by (s.pres.length, rank page)

/-- `write_buffer` terminates. -/
theorem Sound.writeBuffer_ends (hs : Sound s) (superserver : Bool) (page : ℕ) (this : Bool) :
    ∃ fuel s', writeBuffer superserver fuel s page this = some s' := by
  obtain ⟨rank, hrank⟩ := hs.ranked
  by_cases hdirty : s.dirty page = true
  · obtain ⟨fuel, s', hrun, -⟩ := writeHigher_ends superserver s page this hrank
    refine ⟨fuel + 1, s', ?_⟩
    rw [writeBuffer, if_pos hdirty]
    exact hrun
  · exact ⟨1, s.clearPrecedence page, by rw [writeBuffer, if_neg hdirty]⟩

end Firebird.Cch
