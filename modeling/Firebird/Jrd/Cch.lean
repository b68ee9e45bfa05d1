import Mathlib.Data.Int.Notation
import Mathlib.Data.List.Basic
import Mathlib.Logic.Function.Basic

/-! # Careful writing in the page cache (`jrd/cch.cpp`)

A precedence block says that the page `hi` is written before the page `low`. A page is
written after all that its blocks put before it; then the blocks that wait for it go. The
blocks are in one list here, the latest first, in which the queue `bdb_higher` of a page
holds those with that `low`, the queue `bdb_lower` those with that `hi`.
-/

namespace Firebird.Cch

/-- `pre`: a precedence block between two pages. At AST level a block is only marked. -/
structure Pre where
  low : ℕ
  hi : ℕ
  cleared : Bool
deriving DecidableEq

/-- The page buffers: which ones are dirty, how often each page has been modified, the
precedence blocks, and the images written to disk, the latest first. The header page has
`hdr_next_transaction`; `dbb_last_header_write` is the one that has been written. -/
structure Cache where
  dirty : ℕ → Bool
  version : ℕ → ℕ
  pres : List Pre
  disk : List (ℕ × ℕ)
  nextTransaction : ℤ
  lastHeaderWrite : ℤ

/-- `HEADER_PAGE` -/
def headerPage : ℕ := 0

/-- `PRE_SEARCH_LIMIT` -/
def preSearchLimit : ℕ := 100

/-- The blocks of `bdb_higher`. -/
def higher (pres : List Pre) (page : ℕ) : List Pre := pres.filter fun e => e.low = page

/-- `QUE_NOT_EMPTY (bdb->bdb_lower)` -/
def hasLower (pres : List Pre) (page : ℕ) : Bool := pres.any fun e => e.hi = page

/-- `PRE_EXISTS`, `PRE_UNKNOWN`, or what is left of the limit -/
inductive Relationship where
  | found
  | unknown
  | rest (limit : ℕ)
deriving DecidableEq

/-- The loop of `related` over a queue. Every block visited takes one off the limit. -/
def relatedLoop (pres : List Pre) (high : ℕ) : ℕ → ℕ → List Pre → Relationship
  | _, limit, [] => .rest limit
  | 0, _, _ :: _ => .unknown
  | fuel + 1, limit, e :: que =>
      if limit - 1 = 0 then .unknown
      else if e.cleared then relatedLoop pres high fuel (limit - 1) que
      else if e.hi = high then .found
      else
        match relatedLoop pres high fuel (limit - 1) (higher pres e.hi) with
        | .rest limit => relatedLoop pres high fuel limit que
        | r => r

/-- `related` -/
def related (pres : List Pre) (low high limit : ℕ) : Relationship :=
  relatedLoop pres high limit limit (higher pres low)

/-- `write_page` -/
def Cache.writePage (s : Cache) (page : ℕ) : Cache :=
  { s with
    dirty := Function.update s.dirty page false
    disk := (page, s.version page) :: s.disk
    lastHeaderWrite := if page = headerPage then s.nextTransaction else s.lastHeaderWrite }

/-- `clear_precedence` -/
def Cache.clearPrecedence (s : Cache) (page : ℕ) : Cache :=
  { s with pres := s.pres.filter fun e => e.hi ≠ page }

/-- A block is taken out of its queues. -/
def Cache.drop (s : Cache) (e : Pre) : Cache := { s with pres := s.pres.erase e }

mutual

/-- `write_buffer`. In the superserver a page that another one waits for
(`write_this_page` is FALSE) returns after one write. -/
def writeBuffer (superserver : Bool) : ℕ → Cache → ℕ → Bool → Option Cache
  | 0, _, _, _ => none
  | fuel + 1, s, page, writeThisPage =>
      if s.dirty page then writeHigher superserver fuel s page writeThisPage
      else some (s.clearPrecedence page)

/-- The loop over the buffers that must be written first, and the page. -/
def writeHigher (superserver : Bool) : ℕ → Cache → ℕ → Bool → Option Cache
  | 0, _, _, _ => none
  | fuel + 1, s, page, writeThisPage =>
      match higher s.pres page with
      | [] =>
          if s.dirty page then some ((s.writePage page).clearPrecedence page)
          else some (s.clearPrecedence page)
      | e :: _ =>
          if e.cleared then writeHigher superserver fuel (s.drop e) page writeThisPage
          else
            match writeBuffer superserver fuel s e.hi false with
            | none => none
            | some s =>
                if superserver && !writeThisPage then some s
                else writeHigher superserver fuel s page writeThisPage

end

/-- The page that a call of `CCH_precedence` means: a negative page is the number of a
transaction, that stands for the header page. -/
def precedencePage (page : ℤ) : ℕ := if page < 0 then headerPage else page.toNat

/-- `check_precedence` -/
def Cache.checkPrecedence (s : Cache) (superserver : Bool) (fuel : ℕ) (low : ℕ) (page : ℤ) :
    Option Cache :=
  if page < 0 ∧ -page ≤ s.lastHeaderWrite then some s
  else
    let high := precedencePage page
    if s.dirty high = false ∨ high = low then some s
    else
      let relationship := if hasLower s.pres high then related s.pres low high preSearchLimit
        else .rest preSearchLimit
      match relationship with
      | .found => some s
      | .unknown => writeBuffer superserver fuel s high true
      | .rest _ =>
          let cycle := hasLower s.pres low &&
            (related s.pres high low preSearchLimit = .found ||
              related s.pres high low preSearchLimit = .unknown)
          (if cycle then writeBuffer superserver fuel s low true else some s).map fun s =>
            { s with pres := ⟨low, high, false⟩ :: s.pres }

/-- A page is fetched, marked, modified and released. -/
def Cache.modify (s : Cache) (page : ℕ) (next : ℤ) : Cache :=
  { s with
    dirty := Function.update s.dirty page true
    version := Function.update s.version page (s.version page + 1)
    nextTransaction := if page = headerPage then next else s.nextTransaction }

theorem Cache.le_modify_version (s : Cache) (page : ℕ) (next : ℤ) (p : ℕ) :
    s.version p ≤ (s.modify page next).version p := by
  change _ ≤ Function.update s.version page (s.version page + 1) p
  by_cases heq : p = page
  · rw [heq, Function.update_self]
    exact Nat.le_succ _
  · exact Nat.le_of_eq (Function.update_of_ne heq _ _).symm

/-- `down_grade` of a dirty page with nothing dirty before it. The queues are not touched:
the blocks that wait for the page are marked. -/
def Cache.downGrade (s : Cache) (page : ℕ) : Option Cache :=
  if s.dirty page ∧ ∀ e ∈ higher s.pres page, e.cleared ∨ s.dirty e.hi = false then
    let mark (e : Pre) : Pre := if e.hi = page then { e with cleared := true } else e
    some { s.writePage page with pres := s.pres.map mark }
  else none

/-! ## The search -/

variable {pres : List Pre}

theorem relatedLoop_rest {high fuel limit m : ℕ} {que : List Pre}
    (h : relatedLoop pres high fuel limit que = .rest m) : m ≤ limit ∧ (0 < limit → 0 < m) := by
  induction fuel generalizing limit m que with
  | zero =>
      cases que with
      | nil =>
          cases h
          exact ⟨Nat.le_refl _, id⟩
      | cons e que => cases h
  | succ fuel ih =>
      cases que with
      | nil =>
          cases h
          exact ⟨Nat.le_refl _, id⟩
      | cons e que =>
          rw [relatedLoop] at h
          split at h
          · cases h
          · split at h
            · have hrest := ih h
              omega
            · split at h
              · cases h
              · split at h
                · rename_i limit' hin
                  have hin := ih hin
                  have hout := ih h
                  omega
                · rename_i hno
                  exact absurd h (hno m)

/-- The fuel does not run out. -/
theorem relatedLoop_fuel {high fuel limit : ℕ} {que : List Pre} (hpos : 0 < limit)
    (hle : limit ≤ fuel) :
    relatedLoop pres high (fuel + 1) limit que = relatedLoop pres high fuel limit que := by
  induction fuel generalizing limit que with
  | zero => omega
  | succ fuel ih =>
      cases que with
      | nil => rfl
      | cons e que =>
          rw [relatedLoop, relatedLoop]
          split
          · rfl
          · rename_i hlimit
            have hsub : 0 < limit - 1 ∧ limit - 1 ≤ fuel := by omega
            rw [ih hsub.1 hsub.2, ih hsub.1 hsub.2]
            split
            · rfl
            · split
              · rfl
              · split
                · rename_i limit' hin
                  have hrest := relatedLoop_rest hin
                  exact ih (hrest.2 hsub.1) (by omega)
                · rfl

end Firebird.Cch
