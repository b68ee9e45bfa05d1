import Mathlib.Data.List.Chain
import Firebird.Btr.Find

/-! # The levels of an index

The pages of a level stand side by side, each with a marker behind its entries that has the key
which the next page begins with.
-/

namespace Firebird.Btr

/-- A page of an index and its nodes -/
structure Page where
  page : ℕ
  es : List Node
  t : Node

namespace Page

/-- The keys and numbers -/
def pairs (p : Page) : List (List UCHAR × Quad) := entries [] p.es

/-- The key of the marker -/
def bound (p : Page) : List UCHAR := p.t.key (lastKey [] p.es)

/-- The bucket has these nodes, in ascending order and with maximal prefixes. -/
structure Within (p : Page) (level : ℕ) (b : Bucket) : Prop extends b.Formatted p.es p.t where
  level : b.header.level = level
  compressed : Compressed [] (p.es ++ [p.t])
  ascending : Ascending [] p.es
  le_bound : p.t.btnNumber = endBucket → lastKey [] p.es ≤ p.bound

/-- `btr_sibling` leads from one page to the other, whose keys are not before the marker. -/
structure Before (buckets : ℕ → Bucket) (p p' : Page) : Prop where
  endBucket : p.t.btnNumber = endBucket
  sibling : (buckets p.page).sibling = p'.page
  bound_le : ∀ e ∈ p'.pairs, p.bound ≤ e.1

end Page

/-- A level of an ascending index, from the first page to the last -/
structure IndexLevel (buckets : ℕ → Bucket) (level : ℕ) (ps : List Page) : Prop where
  within : ∀ p ∈ ps, p.Within level (buckets p.page)
  chain : ps.IsChain (Page.Before buckets)
  last : ∀ p ∈ ps.getLast?, p.t.btnNumber = endLevel

theorem IndexLevel.append {buckets : ℕ → Bucket} {level : ℕ} (ps : List Page) {ps' : List Page}
    (h : IndexLevel buckets level (ps ++ ps')) (hps : ps' ≠ []) :
    IndexLevel buckets level ps' := by
  refine ⟨fun p hp => h.within p (List.mem_append_right _ hp), h.chain.right_of_append,
    fun p hp => h.last p ?_⟩
  rw [List.getLast?_append_of_ne_nil _ hps]
  exact hp

end Firebird.Btr
