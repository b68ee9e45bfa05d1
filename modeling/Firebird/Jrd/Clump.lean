import Firebird.Jrd.BigRecord
import Firebird.Lib.Tlv

/-! # Clumplets of the header pages (`PAG_add_clump` in `jrd/pag.cpp`)

The header page and its overflow pages each have a list of tagged entries that ends with
`HDR_end`, and `hdr_end` says where. An entry is added on the first page that has room for it.
An entry that is replaced by one of another length is taken out first.

`find_type` hands the window off along the chain, but `end_addr` is taken before: it is the
`hdr_end` of the first page that goes down, wherever the entry was.
-/

namespace Firebird.Clump

open Dpm (Dbb)
open Tlv (Entry images)

/-! ## Header pages -/

/-- `HDR_SIZE` -/
def hdrSize : ℕ := 96

/-- The mode of `PAG_add_clump` -/
inductive Mode
  | add
  | replace
  | replaceOnly
  deriving DecidableEq

/-- A header page: its bytes, and `hdr_end`. The chain is a list of pages. -/
structure HdrPage where
  bytes : Memory UCHAR
  hdrEnd : ℕ

/-- A `USHORT` that is assigned `x` -/
def ushort (x : ℤ) : ℕ := (x % 65536).toNat

/-- The loop of `find_type` over a page: the last entry found and where the list ends, `none` if
it does not end -/
def scanPage (m : Memory UCHAR) (type : UCHAR) : ℕ → ℕ → Option ℕ → Option (Option ℕ × ℕ)
  | 0, _, _ => none
  | fuel + 1, p, q =>
      if m p = 0 then some (q, p)
      else scanPage m type fuel (p + 2 + (m (p + 1)).val) (if m p = type then some p else q)

/-- `find_type`: which page of the chain the window is on, `entry_p` and `clump_end` -/
def findType (dbb : Dbb) (type : UCHAR) : List HdrPage → Option (Option (ℕ × ℕ × ℕ))
  | [] => some none
  | page :: next => do
      let (q, p) ← scanPage page.bytes type dbb.pageSize hdrSize none
      match q with
      | some entry => some (some (0, entry, p))
      | none => (findType dbb type next).map (·.map fun r => (r.1 + 1, r.2))

/-- An entry written at `hdr_end` -/
def HdrPage.put (page : HdrPage) (type : UCHAR) (data : List UCHAR) : HdrPage where
  bytes := page.bytes.store page.hdrEnd (type :: Fin.ofNat 256 data.length :: data ++ [0])
  hdrEnd := ushort (page.hdrEnd + 2 + data.length)

/-- `find_clump_space`; `blank` is the page that `DPM_allocate` gives. -/
def findClumpSpace (dbb : Dbb) (blank : Memory UCHAR) (type : UCHAR) (data : List UCHAR) :
    List HdrPage → List HdrPage
  | [] => [HdrPage.put ⟨blank.store hdrSize [0], hdrSize⟩ type data]
  | page :: next =>
      if (dbb.pageSize : ℤ) - page.hdrEnd > 2 + data.length then page.put type data :: next
      else page :: findClumpSpace dbb blank type data next

/-- `PAG_add_clump` on the chain of header pages -/
def addClump (dbb : Dbb) (blank : Memory UCHAR) (type : UCHAR) (data : List UCHAR) (mode : Mode)
    (pages : List HdrPage) : Option (Bool × List HdrPage) :=
  if mode = .add then some (true, findClumpSpace dbb blank type data pages)
  else do
    match ← findType dbb type pages with
    | none =>
        if mode = .replaceOnly then some (false, pages)
        else some (true, findClumpSpace dbb blank type data pages)
    | some (k, entry, clumpEnd) =>
        let page ← pages[k]?
        let l := (page.bytes (entry + 1)).val
        if l = data.length then
          some (true, pages.set k { page with bytes := page.bytes.store (entry + 2) data })
        else
          -- `*end_addr` is on the first page
          let r := entry + 2 + l
          let moved := Memory.moveDown (ushort (clumpEnd - r + 1)) page.bytes entry r
          let pages := pages.set k { page with bytes := moved }
          let pages := pages.modify 0 fun first =>
            { first with hdrEnd := ushort (first.hdrEnd - (2 + l)) }
          some (true, findClumpSpace dbb blank type data pages)

/-! ## Well-formed pages -/

/-- The page has these entries, and `hdr_end` is the offset of its `HDR_end`. -/
structure Lists (dbb : Dbb) (page : HdrPage) (es : List Entry) : Prop where
  holds : page.bytes.Holds hdrSize (images es ++ [0])
  end_eq : page.hdrEnd = hdrSize + (images es).length
  inside : page.hdrEnd < dbb.pageSize

/-- The entries of a chain that are of the type -/
def ofType (type : UCHAR) (lists : List (List Entry)) : List Entry :=
  lists.flatten.filter (·.tag = type)

/-- The entries of a chain that are of other types -/
def others (type : UCHAR) (lists : List (List Entry)) : List Entry :=
  lists.flatten.filter (·.tag ≠ type)

/-- What `PAG_add_clump` should leave: well-formed pages, the entries of other types as they were,
and in the mode `CLUMP_REPLACE` the new entry for at most one of its type. -/
def Kept (dbb : Dbb) (type : UCHAR) (data : List UCHAR) (mode : Mode) (lists : List (List Entry))
    (pages : List HdrPage) : Prop :=
  ∃ lists', List.Forall₂ (Lists dbb) pages lists' ∧ others type lists' = others type lists ∧
    (mode = .replace → ∃ e kept, e.tag = type ∧ e.data = data ∧ kept.Sublist (ofType type lists) ∧
      (ofType type lists).length ≤ kept.length + 1 ∧ (ofType type lists').Perm (e :: kept))

/-- The entry that `find_type` finds: the last one of the type on the first page that has one -/
def found (type : UCHAR) : List (List Entry) → Option (ℕ × Entry)
  | [] => none
  | es :: lists =>
      match (es.filter (·.tag = type)).getLast? with
      | some e => some (0, e)
      | none => (found type lists).map fun r => (r.1 + 1, r.2)

/-- It is on an overflow page, and of another length. -/
def Misplaced (type : UCHAR) (length : ℕ) (lists : List (List Entry)) : Prop :=
  ∃ r, found type lists = some r ∧ 0 < r.1 ∧ r.2.data.length ≠ length

/-! ## What `find_type` finds -/

variable {dbb : Dbb} {type : UCHAR} {data : List UCHAR} {mode : Mode} {blank m : Memory UCHAR}
  {page : HdrPage} {pages : List HdrPage} {es front back : List Entry} {lists : List (List Entry)}
  {e : Entry} {fuel p : ℕ} {q : Option ℕ}

theorem scanPage_of_forall_ne (h : m.Holds p (images es ++ [0])) (hf : es.length < fuel)
    (hne : ∀ e ∈ es, e.tag ≠ type) :
    scanPage m type fuel p q = some (q, p + (images es).length) := by
  induction es generalizing p fuel with
  | nil =>
      cases fuel with
      | zero => exact absurd hf (Nat.not_lt_zero _)
      | succ fuel =>
          rw [scanPage, if_pos (Memory.holds_cons.mp h).1]
          rfl
  | cons e es ih =>
      cases fuel with
      | zero => exact absurd hf (Nat.not_lt_zero _)
      | succ fuel =>
          obtain ⟨hfirst, hrest⟩ := Tlv.holds_images_cons.mp h
          obtain ⟨htag, hlen, -⟩ := Tlv.holds_image.mp hfirst
          have he := hne e List.mem_cons_self
          rw [scanPage, htag, if_neg e.tag_ne, hlen, if_neg he,
            ih hrest (Nat.lt_of_succ_lt_succ hf) fun x hx => hne x (List.mem_cons_of_mem e hx),
            Tlv.images_cons, List.length_append, e.length_image]
          congr 2
          omega

/-- The loop goes along the entries. -/
theorem scanPage_append (type : UCHAR) (fuel : ℕ) (q : Option ℕ)
    (h : m.Holds p (images (front ++ es) ++ [0])) :
    ∃ q', scanPage m type (front.length + fuel) p q =
      scanPage m type fuel (p + (images front).length) q' := by
  induction front generalizing p q with
  | nil =>
      refine ⟨q, ?_⟩
      rw [List.length_nil, Nat.zero_add]
      rfl
  | cons e front ih =>
      obtain ⟨hfirst, hrest⟩ := Tlv.holds_images_cons.mp h
      obtain ⟨htag, hlen, -⟩ := Tlv.holds_image.mp hfirst
      obtain ⟨q', hq'⟩ := ih _ hrest
      refine ⟨q', ?_⟩
      rw [List.length_cons, Nat.add_right_comm, scanPage, htag, if_neg e.tag_ne, hlen, hq',
        Tlv.images_cons, List.length_append, e.length_image]
      congr 1
      omega

/-- The last entry of the type is the one found. -/
theorem scanPage_of_last (h : m.Holds p (images (front ++ e :: back) ++ [0]))
    (hf : (front ++ e :: back).length < fuel) (htype : e.tag = type)
    (hback : ∀ x ∈ back, x.tag ≠ type) :
    scanPage m type fuel p q =
      some (some (p + (images front).length), p + (images (front ++ e :: back)).length) := by
  have hrest := h
  rw [Tlv.images_append, List.append_assoc, Memory.holds_append] at hrest
  obtain ⟨hfirst, hback'⟩ := Tlv.holds_images_cons.mp hrest.2
  obtain ⟨htag, hlen, -⟩ := Tlv.holds_image.mp hfirst
  rw [List.length_append, List.length_cons] at hf
  obtain ⟨k, rfl⟩ : ∃ k, fuel = front.length + (k + 1) := ⟨fuel - front.length - 1, by omega⟩
  obtain ⟨q', hq'⟩ := scanPage_append type (k + 1) q h
  rw [hq', scanPage, htag, if_neg e.tag_ne, if_pos htype, hlen,
    scanPage_of_forall_ne hback' (by omega) hback, Tlv.images_append, Tlv.images_cons,
    List.length_append, List.length_append, e.length_image]
  congr 2
  omega

/-- The entries of a page are fewer than its bytes. -/
theorem Lists.length_lt (h : Lists dbb page es) : es.length < dbb.pageSize := by
  have hentries := Tlv.two_mul_length_le es
  have hinside := h.inside
  rw [h.end_eq] at hinside
  omega

/-- An entry on a chain that is the last one of its type on its page -/
structure Place (dbb : Dbb) (type : UCHAR) (pages : List HdrPage) (lists : List (List Entry)) where
  before : List HdrPage
  page : HdrPage
  after : List HdrPage
  listsBefore : List (List Entry)
  front : List Entry
  entry : Entry
  back : List Entry
  listsAfter : List (List Entry)
  pages_eq : pages = before ++ page :: after
  lists_eq : lists = listsBefore ++ (front ++ entry :: back) :: listsAfter
  forall_before : List.Forall₂ (Lists dbb) before listsBefore
  lists_page : Lists dbb page (front ++ entry :: back)
  forall_after : List.Forall₂ (Lists dbb) after listsAfter
  tag_eq : entry.tag = type
  back_ne : ∀ x ∈ back, x.tag ≠ type

/-- The place on a chain with one more page before it -/
def Place.cons (s : Place dbb type pages lists) (h : Lists dbb page es) :
    Place dbb type (page :: pages) (es :: lists) :=
  { s with
    before := page :: s.before
    listsBefore := es :: s.listsBefore
    pages_eq := congrArg _ s.pages_eq
    lists_eq := congrArg _ s.lists_eq
    forall_before := .cons h s.forall_before }

/-- `find_type` finds the entry that it should. -/
theorem findType_spec (h : List.Forall₂ (Lists dbb) pages lists) (type : UCHAR) :
    (findType dbb type pages = some none ∧ found type lists = none ∧
        ∀ e ∈ lists.flatten, e.tag ≠ type) ∨
      ∃ s : Place dbb type pages lists, found type lists = some (s.before.length, s.entry) ∧
        findType dbb type pages = some (some (s.before.length, hdrSize + (images s.front).length,
          hdrSize + (images (s.front ++ s.entry :: s.back)).length)) := by
  induction h with
  | nil => exact .inl ⟨rfl, rfl, fun e he => absurd he List.not_mem_nil⟩
  | @cons page es pages lists hpage hpages ih =>
      rcases Tlv.exists_last type es with hnone | ⟨front, e, back, rfl, htype, hback⟩
      · -- nothing on this page: what is found is on the rest of the chain
        have hfilter : es.filter (·.tag = type) = [] := by
          rw [List.filter_eq_nil_iff]
          intro e he
          rw [decide_eq_true_iff]
          exact hnone e he
        have hscan := scanPage_of_forall_ne (q := none) hpage.holds hpage.length_lt hnone
        rcases ih with ⟨hfind, hfound, hne⟩ | ⟨s, hfound, hfind⟩
        · refine .inl ⟨?_, ?_, ?_⟩
          · simp only [findType, hscan, hfind, Option.bind_eq_bind, Option.bind_some,
              Option.map_some, Option.map_none]
          · simp only [found, hfilter, List.getLast?_nil, hfound, Option.map_none]
          · rw [List.flatten_cons, List.forall_mem_append]
            exact ⟨hnone, hne⟩
        · refine .inr ⟨s.cons hpage, ?_, ?_⟩
          · simp only [found, hfilter, List.getLast?_nil, hfound, Option.map_some, Place.cons,
              List.length_cons]
          · simp only [findType, hscan, hfind, Option.bind_eq_bind, Option.bind_some,
              Option.map_some, Place.cons, List.length_cons]
      · have hscan := scanPage_of_last (q := none) hpage.holds hpage.length_lt htype hback
        have hfilter : back.filter (·.tag = type) = [] := by
          rw [List.filter_eq_nil_iff]
          intro x hx
          rw [decide_eq_true_iff]
          exact hback x hx
        refine .inr ⟨⟨[], page, pages, [], front, e, back, lists, rfl, rfl, .nil, hpage, hpages,
          htype, hback⟩, ?_, ?_⟩
        · simp only [found, List.filter_append, List.filter_cons_of_pos, htype, decide_true, hfilter,
            List.getLast?_concat, List.length_nil]
        · simp only [findType, hscan, Option.bind_eq_bind, Option.bind_some, List.length_nil]

/-! ## Adding an entry -/

theorem ushort_eq {x : ℤ} {n : ℕ} (hx : x = n) (hn : n < 65536) : ushort x = n := by
  rw [ushort, hx, Int.emod_eq_of_lt (by omega) (by omega), Int.toNat_natCast]

/-- `free_space > (2 + len)` -/
def Room (dbb : Dbb) (data : List UCHAR) (page : HdrPage) : Prop :=
  (2 + data.length : ℤ) < (dbb.pageSize : ℤ) - page.hdrEnd

theorem Room.lt (h : Room dbb data page) : page.hdrEnd + 2 + data.length < dbb.pageSize := by
  rw [Room] at h
  omega

/-- `hdr_end` does not wrap where there is room. -/
theorem Room.hdrEnd_put (h : Room dbb data page) (type : UCHAR) :
    (page.put type data).hdrEnd = page.hdrEnd + 2 + data.length := by
  have hmax : dbb.pageSize ≤ 16384 := dbb.le_max
  have hlt := h.lt
  have hfits : page.hdrEnd + 2 + data.length < 65536 := by omega
  exact ushort_eq (by push_cast; rfl) hfits

theorem Lists.put (h : Lists dbb page es) (e : Entry) (hroom : Room dbb e.data page) :
    Lists dbb (page.put e.tag e.data) (es ++ [e]) where
  holds := by
    have hstore := Tlv.holds_store h.holds e
    rw [← h.end_eq] at hstore
    exact hstore
  end_eq := by
    rw [hroom.hdrEnd_put, h.end_eq, Tlv.images_append, List.length_append, Tlv.images_cons,
      Tlv.images_nil, List.append_nil, e.length_image]
    omega
  inside := by
    rw [hroom.hdrEnd_put]
    exact hroom.lt

/-- The page that a chain is extended by -/
def blankPage (blank : Memory UCHAR) : HdrPage := ⟨blank.store hdrSize [0], hdrSize⟩

theorem lists_blankPage (dbb : Dbb) (blank : Memory UCHAR) : Lists dbb (blankPage blank) [] where
  holds := Memory.holds_store blank hdrSize [0]
  end_eq := rfl
  inside := by
    have hmin : 1024 ≤ dbb.pageSize := dbb.min_le
    simp only [blankPage, hdrSize]
    omega

theorem room_blankPage (dbb : Dbb) (blank : Memory UCHAR) (hdata : data.length ≤ 255) :
    Room dbb data (blankPage blank) := by
  have hmin : 1024 ≤ dbb.pageSize := dbb.min_le
  simp only [Room, blankPage, hdrSize]
  omega

/-- The entry is added somewhere in the chain, and the pages stay well-formed. -/
theorem findClumpSpace_spec (h : List.Forall₂ (Lists dbb) pages lists) (blank : Memory UCHAR)
    (e : Entry) :
    ∃ lists' xs ys, List.Forall₂ (Lists dbb) (findClumpSpace dbb blank e.tag e.data pages) lists' ∧
      lists.flatten = xs ++ ys ∧ lists'.flatten = xs ++ e :: ys := by
  induction h with
  | nil =>
      have hput := (lists_blankPage dbb blank).put e (room_blankPage dbb blank e.length_le)
      exact ⟨[[e]], [], [], .cons hput .nil, rfl, rfl⟩
  | @cons page es pages lists hpage hpages ih =>
      rw [findClumpSpace]
      split
      · rename_i hroom
        refine ⟨(es ++ [e]) :: lists, es, lists.flatten, .cons (hpage.put e hroom) hpages, rfl, ?_⟩
        rw [List.flatten_cons, List.append_assoc, List.singleton_append]
      · obtain ⟨lists', xs, ys, hlists, hbefore, hafter⟩ := ih
        refine ⟨es :: lists', es ++ xs, ys, .cons hpage hlists, ?_, ?_⟩
        · rw [List.flatten_cons, hbefore, List.append_assoc]
        · rw [List.flatten_cons, hafter, List.append_assoc]

/-! ## Pages that are not well-formed -/

/-- The end mark stands before `hdr_end`. -/
structure Stale (page : HdrPage) (es : List Entry) : Prop where
  holds : page.bytes.Holds hdrSize (images es ++ [0])
  lt_end : hdrSize + (images es).length < page.hdrEnd

theorem Stale.not_lists (h : Stale page es) : ¬ ∃ es', Lists dbb page es' := by
  rintro ⟨es', hpage⟩
  have heq := Tlv.eq_of_holds h.holds hpage.holds
  have hlt := h.lt_end
  rw [heq, ← hpage.end_eq] at hlt
  exact Nat.lt_irrefl _ hlt

/-- What is added at `hdr_end` does not make it well-formed. -/
theorem Stale.put (h : Stale page es) (hroom : Room dbb data page) (type : UCHAR) :
    Stale (page.put type data) es where
  holds := by
    have hlt := h.lt_end
    refine h.holds.store_of_disjoint (.inl ?_)
    rw [List.length_append, List.length_singleton]
    omega
  lt_end := by
    rw [hroom.hdrEnd_put, Nat.add_assoc]
    exact Nat.lt_add_right _ h.lt_end

/-- `HDR_end` is no type: as one it ends the list where it is put. -/
theorem Lists.stale_put_zero (h : Lists dbb page es) (hroom : Room dbb data page) :
    Stale (page.put 0 data) es where
  holds := by
    refine Memory.holds_append.mpr ⟨?_, ?_⟩
    · exact (Memory.holds_append.mp h.holds).1.store_of_disjoint (.inl h.end_eq.ge)
    · have hstore := Memory.holds_store page.bytes page.hdrEnd
        (0 :: Fin.ofNat 256 data.length :: data ++ [0])
      rw [h.end_eq, List.cons_append, ← List.singleton_append, Memory.holds_append] at hstore
      rw [HdrPage.put, h.end_eq]
      exact hstore.1
  lt_end := by
    rw [hroom.hdrEnd_put, h.end_eq]
    omega

/-- Every page of a well-formed chain is well-formed. -/
theorem lists_of_mem (h : List.Forall₂ (Lists dbb) pages lists) (hpage : page ∈ pages) :
    ∃ es, Lists dbb page es := by
  induction h with
  | nil => exact absurd hpage List.not_mem_nil
  | cons hfirst _ ih =>
      rcases List.mem_cons.mp hpage with rfl | hpage
      · exact ⟨_, hfirst⟩
      · exact ih hpage

theorem not_kept_of_stale {es : List Entry} (hpage : page ∈ pages) (h : Stale page es) :
    ¬ Kept dbb type data mode lists pages := by
  rintro ⟨lists', hlists, -⟩
  exact h.not_lists (lists_of_mem hlists hpage)

/-- A stale page stays one. -/
theorem exists_stale_findClumpSpace (hpage : page ∈ pages) (h : Stale page es)
    (blank : Memory UCHAR) (type : UCHAR) (data : List UCHAR) :
    ∃ page' ∈ findClumpSpace dbb blank type data pages, Stale page' es := by
  induction pages with
  | nil => exact absurd hpage List.not_mem_nil
  | cons first pages ih =>
      rw [findClumpSpace]
      rcases List.mem_cons.mp hpage with rfl | hpage
      · split
        · rename_i hroom
          exact ⟨_, List.mem_cons_self, h.put hroom type⟩
        · exact ⟨_, List.mem_cons_self, h⟩
      · split
        · exact ⟨page, List.mem_cons_of_mem _ hpage, h⟩
        · obtain ⟨page', hmem, hstale⟩ := ih hpage
          exact ⟨page', List.mem_cons_of_mem _ hmem, hstale⟩

theorem exists_stale_findClumpSpace_zero (h : List.Forall₂ (Lists dbb) pages lists)
    (blank : Memory UCHAR) (hdata : data.length ≤ 255) :
    ∃ page' ∈ findClumpSpace dbb blank 0 data pages, ∃ es, Stale page' es := by
  induction h with
  | nil =>
      have hstale := (lists_blankPage dbb blank).stale_put_zero (room_blankPage dbb blank hdata)
      exact ⟨_, List.mem_cons_self, _, hstale⟩
  | cons hpage hpages ih =>
      rw [findClumpSpace]
      split
      · rename_i hroom
        exact ⟨_, List.mem_cons_self, _, hpage.stale_put_zero hroom⟩
      · obtain ⟨page', hmem, hstale⟩ := ih
        exact ⟨page', List.mem_cons_of_mem _ hmem, hstale⟩

/-! ## Replacing an entry -/

section

variable (s : Place dbb type pages lists)

theorem Place.getElem?_eq : pages[s.before.length]? = some s.page := by
  refine (congrArg (fun l : List HdrPage => l[s.before.length]?) s.pages_eq).trans ?_
  rw [List.getElem?_append_right le_rfl, Nat.sub_self]
  rfl

theorem Place.set_eq (page : HdrPage) :
    pages.set s.before.length page = s.before ++ page :: s.after := by
  refine (congrArg (fun l : List HdrPage => l.set s.before.length page) s.pages_eq).trans ?_
  rw [List.set_append_right _ _ le_rfl, Nat.sub_self]
  rfl

/-- `entry_p[1]` -/
theorem Place.length_eq :
    (s.page.bytes (hdrSize + (images s.front).length + 1)).val = s.entry.data.length := by
  have h := s.lists_page.holds
  rw [Tlv.images_append, List.append_assoc, Memory.holds_append] at h
  exact (Tlv.holds_image.mp (Tlv.holds_images_cons.mp h.2).1).2.1

/-- The page with the data of the entry overwritten -/
def Place.overwritten (data : List UCHAR) : HdrPage :=
  { s.page with bytes := s.page.bytes.store (hdrSize + (images s.front).length + 2) data }

/-- The page with the entry deleted; `hdr_end` is as it was. -/
def Place.deleted : HdrPage :=
  { s.page with
    bytes := Memory.moveDown ((images s.back).length + 1) s.page.bytes
      (hdrSize + (images s.front).length)
      (hdrSize + (images s.front).length + 2 + s.entry.data.length) }

/-- `*end_addr -= (2 + entry_p[1])` -/
def shorten (l : ℕ) (page : HdrPage) : HdrPage :=
  { page with hdrEnd := ushort (page.hdrEnd - (2 + l)) }

theorem Place.images_length : (images (s.front ++ s.entry :: s.back)).length =
    (images s.front).length + (2 + s.entry.data.length + (images s.back).length) := by
  rw [Tlv.images_append, Tlv.images_cons, List.length_append, List.length_append,
    s.entry.length_image]

/-- What `PAG_add_clump` does with the entry found -/
theorem addClump_of_found (blank : Memory UCHAR) (data : List UCHAR) (hmode : mode ≠ .add)
    (hfind : findType dbb type pages = some (some (s.before.length,
      hdrSize + (images s.front).length,
      hdrSize + (images (s.front ++ s.entry :: s.back)).length))) :
    addClump dbb blank type data mode pages = some (true,
      if s.entry.data.length = data.length then s.before ++ s.overwritten data :: s.after
      else findClumpSpace dbb blank type data
        ((s.before ++ s.deleted :: s.after).modify 0 (shorten s.entry.data.length))) := by
  have hmax : dbb.pageSize ≤ 16384 := dbb.le_max
  have hinside := s.lists_page.inside
  have himages := s.images_length
  rw [s.lists_page.end_eq] at hinside
  have hcount : ushort ((hdrSize + (images (s.front ++ s.entry :: s.back)).length : ℕ) -
      (hdrSize + (images s.front).length + 2 + s.entry.data.length : ℕ) + 1) =
      (images s.back).length + 1 := by
    refine ushort_eq ?_ ?_
    · rw [himages]
      push_cast
      ring
    · omega
  rw [addClump, if_neg hmode, hfind]
  simp only [Option.bind_eq_bind, Option.bind_some, s.getElem?_eq, s.length_eq, s.set_eq]
  split
  · rfl
  · rw [hcount]
    rfl

/-- An overwritten entry is one of the same type and length. -/
theorem Place.lists_overwritten (e : Entry) (htag : e.tag = type)
    (hlen : s.entry.data.length = e.data.length) :
    Lists dbb (s.overwritten e.data) (s.front ++ e :: s.back) where
  holds := Tlv.holds_replace s.lists_page.holds (htag.trans s.tag_eq.symm) hlen.symm
  end_eq := by
    rw [Tlv.images_append, Tlv.images_cons, List.length_append, List.length_append,
      e.length_image, ← hlen, ← s.images_length]
    exact s.lists_page.end_eq
  inside := s.lists_page.inside

theorem Place.holds_deleted :
    s.deleted.bytes.Holds hdrSize (images (s.front ++ s.back) ++ [0]) :=
  Tlv.holds_moveDown s.lists_page.holds

theorem Place.images_length_deleted : (images (s.front ++ s.entry :: s.back)).length =
    (images (s.front ++ s.back)).length + (2 + s.entry.data.length) := by
  rw [s.images_length, Tlv.images_append, List.length_append]
  omega

/-- On the first page `*end_addr` is the `hdr_end` of the page the entry is on. -/
theorem Place.lists_shorten_deleted :
    Lists dbb (shorten s.entry.data.length s.deleted) (s.front ++ s.back) := by
  have hmax : dbb.pageSize ≤ 16384 := dbb.le_max
  have hinside := s.lists_page.inside
  have hend : s.page.hdrEnd = hdrSize + (images (s.front ++ s.back)).length +
      (2 + s.entry.data.length) := by
    rw [s.lists_page.end_eq, s.images_length_deleted, Nat.add_assoc]
  have hshort : (shorten s.entry.data.length s.deleted).hdrEnd =
      hdrSize + (images (s.front ++ s.back)).length := by
    refine ushort_eq ?_ (by omega)
    rw [show s.deleted.hdrEnd = s.page.hdrEnd from rfl, hend]
    push_cast
    ring
  refine ⟨s.holds_deleted, hshort, ?_⟩
  rw [hshort]
  omega

/-- On another page it is not. -/
theorem Place.stale_deleted : Stale s.deleted (s.front ++ s.back) where
  holds := s.holds_deleted
  lt_end := by
    have hend : s.deleted.hdrEnd = hdrSize + (images (s.front ++ s.entry :: s.back)).length :=
      s.lists_page.end_eq
    rw [hend, s.images_length_deleted]
    omega

theorem Place.mem_modify (hbefore : s.before ≠ []) (f : HdrPage → HdrPage) (page : HdrPage) :
    page ∈ (s.before ++ page :: s.after).modify 0 f := by
  obtain ⟨first, before, heq⟩ := List.exists_cons_of_ne_nil hbefore
  rw [heq]
  exact List.mem_cons_of_mem _ (List.mem_append_right before List.mem_cons_self)

theorem Place.flatten_eq : lists.flatten =
    s.listsBefore.flatten ++ s.front ++ s.entry :: (s.back ++ s.listsAfter.flatten) := by
  refine (congrArg List.flatten s.lists_eq).trans ?_
  simp only [List.flatten_append, List.flatten_cons, List.append_assoc, List.cons_append]

end

/-! ## When the chain is kept -/

/-- Entries of a chain, without one of the type at most -/
structure Without (type : UCHAR) (all kept : List Entry) : Prop where
  others_eq : kept.filter (·.tag ≠ type) = all.filter (·.tag ≠ type)
  sublist : (kept.filter (·.tag = type)).Sublist (all.filter (·.tag = type))
  length_le : (all.filter (·.tag = type)).length ≤ (kept.filter (·.tag = type)).length + 1

theorem filter_type_cons (htag : e.tag = type) (es : List Entry) :
    (e :: es).filter (·.tag = type) = e :: es.filter (·.tag = type) :=
  List.filter_cons_of_pos (decide_eq_true htag)

theorem filter_ne_cons (htag : e.tag = type) (es : List Entry) :
    (e :: es).filter (·.tag ≠ type) = es.filter (·.tag ≠ type) := by
  refine List.filter_cons_of_neg ?_
  rw [decide_eq_true_iff]
  exact not_not_intro htag

theorem Without.refl (type : UCHAR) (all : List Entry) : Without type all all :=
  ⟨rfl, List.Sublist.refl _, Nat.le_succ _⟩

theorem Without.remove (htag : e.tag = type) (xs ys : List Entry) :
    Without type (xs ++ e :: ys) (xs ++ ys) where
  others_eq := by rw [List.filter_append, List.filter_append, filter_ne_cons htag]
  sublist := ((List.sublist_cons_self e ys).append_left xs).filter _
  length_le := by
    rw [List.filter_append, List.filter_append, filter_type_cons htag, List.length_append,
      List.length_append, List.length_cons, Nat.add_assoc]

/-- The new entry stands somewhere between the entries kept. -/
theorem Without.kept {all : List (List Entry)} {xs ys : List Entry}
    (h : Without type all.flatten (xs ++ ys)) (hlists : List.Forall₂ (Lists dbb) pages lists)
    (htag : e.tag = type) (hflatten : lists.flatten = xs ++ e :: ys) (mode : Mode) :
    Kept dbb type e.data mode all pages := by
  refine ⟨lists, hlists, ?_, fun _ => ⟨e, (xs ++ ys).filter (·.tag = type), htag, rfl, h.sublist,
    h.length_le, ?_⟩⟩
  · rw [others, others, ← h.others_eq, hflatten, (Without.remove htag xs ys).others_eq]
  · rw [ofType, hflatten, List.filter_append, filter_type_cons htag, List.filter_append]
    exact List.perm_middle

/-- An entry added on well-formed pages -/
theorem kept_findClumpSpace {all : List (List Entry)} (hlists : List.Forall₂ (Lists dbb) pages lists)
    (h : Without type all.flatten lists.flatten) (hzero : type ≠ 0) (hdata : data.length ≤ 255)
    (blank : Memory UCHAR) (mode : Mode) :
    Kept dbb type data mode all (findClumpSpace dbb blank type data pages) := by
  obtain ⟨lists', xs, ys, hlists', hbefore, hafter⟩ :=
    findClumpSpace_spec hlists blank ⟨type, data, hzero, hdata⟩
  rw [hbefore] at h
  exact h.kept hlists' rfl hafter mode

/-- The entry found is overwritten by one of the same length. -/
theorem Place.kept_overwritten (s : Place dbb type pages lists) (hdata : data.length ≤ 255)
    (hlen : s.entry.data.length = data.length) (mode : Mode) :
    Kept dbb type data mode lists (s.before ++ s.overwritten data :: s.after) := by
  have hzero : type ≠ 0 := fun h => s.entry.tag_ne (s.tag_eq.trans h)
  have hpage := s.lists_overwritten ⟨type, data, hzero, hdata⟩ rfl hlen
  have hchain := List.rel_append s.forall_before (.cons hpage s.forall_after)
  have hwithout := Without.remove s.tag_eq (s.listsBefore.flatten ++ s.front)
    (s.back ++ s.listsAfter.flatten)
  rw [← s.flatten_eq] at hwithout
  have hnew : (⟨type, data, hzero, hdata⟩ : Entry).tag = type := rfl
  refine hwithout.kept hchain hnew ?_ mode
  simp only [List.flatten_append, List.flatten_cons, List.append_assoc, List.cons_append]

/-- The entry found is on the first page, and of another length. -/
theorem Place.kept_first (s : Place dbb type pages lists) (hdata : data.length ≤ 255)
    (hbefore : s.before = []) (blank : Memory UCHAR) (mode : Mode) :
    Kept dbb type data mode lists (findClumpSpace dbb blank type data
      ((s.before ++ s.deleted :: s.after).modify 0 (shorten s.entry.data.length))) := by
  have hzero : type ≠ 0 := fun h => s.entry.tag_ne (s.tag_eq.trans h)
  have hnil : s.listsBefore = [] := by
    have hforall := s.forall_before
    rw [hbefore, List.forall₂_nil_left_iff] at hforall
    exact hforall
  have hwithout := Without.remove s.tag_eq s.front (s.back ++ s.listsAfter.flatten)
  have hflatten := s.flatten_eq
  rw [hnil, List.flatten_nil, List.nil_append] at hflatten
  rw [← hflatten, ← List.append_assoc, ← List.flatten_cons] at hwithout
  rw [hbefore]
  exact kept_findClumpSpace (.cons s.lists_shorten_deleted s.forall_after) hwithout hzero hdata
    blank mode

/-- The entry found is on another page, and of another length. -/
theorem Place.not_kept (s : Place dbb type pages lists) (hbefore : s.before ≠ [])
    (blank : Memory UCHAR) (data : List UCHAR) (mode : Mode) :
    ¬ Kept dbb type data mode lists (findClumpSpace dbb blank type data
      ((s.before ++ s.deleted :: s.after).modify 0 (shorten s.entry.data.length))) := by
  have hmem := s.mem_modify hbefore (shorten s.entry.data.length) s.deleted
  obtain ⟨page, hpage, hstale⟩ := exists_stale_findClumpSpace hmem s.stale_deleted blank type data
  exact not_kept_of_stale hpage hstale

/-- Without an entry of the type, one is added. -/
theorem kept_findClumpSpace_iff (h : List.Forall₂ (Lists dbb) pages lists)
    (hdata : data.length ≤ 255) (blank : Memory UCHAR) (mode : Mode) :
    Kept dbb type data mode lists (findClumpSpace dbb blank type data pages) ↔ type ≠ 0 := by
  constructor
  · rintro hkept rfl
    obtain ⟨page, hpage, es, hstale⟩ := exists_stale_findClumpSpace_zero h blank hdata
    exact not_kept_of_stale hpage hstale hkept
  · intro hzero
    exact kept_findClumpSpace h (Without.refl type _) hzero hdata blank mode

/-- An entry that is deleted from an overflow page leaves `hdr_end` of that page behind. -/
theorem addClump_misplaced (h : List.Forall₂ (Lists dbb) pages lists) (blank : Memory UCHAR)
    (hmode : mode ≠ .add) (hmisplaced : Misplaced type data.length lists) :
    ∃ pages', addClump dbb blank type data mode pages = some (true, pages') ∧
      ¬ Kept dbb type data mode lists pages' := by
  obtain ⟨r, hr, hpos, hlen⟩ := hmisplaced
  rcases findType_spec h type with ⟨-, hfound, -⟩ | ⟨s, hfound, hfind⟩
  · rw [hfound] at hr
    exact absurd hr.symm (Option.some_ne_none r)
  · rw [hfound] at hr
    cases hr
    refine ⟨_, addClump_of_found s blank data hmode hfind, ?_⟩
    rw [if_neg hlen]
    exact s.not_kept (List.ne_nil_of_length_pos hpos) blank data mode

/-- A chain of two pages, with an entry on the second one -/
def smallDbb : Dbb := ⟨1024, Dpm.min_le_1024, Dpm.le_max_1024⟩
def twoPages : List HdrPage :=
  [blankPage fun _ => 0, (blankPage fun _ => 0).put 5 [1, 2]]
def twoLists : List (List Entry) := [[], [⟨5, [1, 2], by decide, Bytes.two_le⟩]]

theorem lists_twoPages : List.Forall₂ (Lists smallDbb) twoPages twoLists := by
  have hblank := lists_blankPage smallDbb fun _ => 0
  have hroom : Room smallDbb [1, 2] (blankPage fun _ => 0) := room_blankPage _ _ (by decide)
  exact .cons hblank (.cons (hblank.put ⟨5, [1, 2], by decide, Bytes.two_le⟩ hroom) .nil)

end Firebird.Clump
