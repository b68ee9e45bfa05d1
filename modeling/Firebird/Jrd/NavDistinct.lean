import Firebird.Jrd.NavItems

/-! # One record for each key (`NAV_get_record` in `jrd/nav.cpp`)

The walk stands behind the nodes that it has passed. The records that the caller has accepted have
different keys, and a key that a passed record could be accepted for is among them. Which of the
two holds for the last key is what `irsb_key_changed` and the counts tell.
-/

namespace Firebird.Nav

open Btr (Node Quad entries lastKey)

namespace Index

variable (w : Index)

/-! ## What the walk is to return -/

/-- The nodes of the walk -/
def items : List Item := w.itemsFrom 0 0

/-- The keys and numbers in the order of the index -/
def entries : List (List UCHAR × Quad) := Btr.entries [] (w.items.map Item.node)

/-- The entries stand in order. -/
def Sorted : Prop := w.entries.Pairwise fun e e' => Ordered w.descending e.1 e'.1

/-- The record of an entry is visible with its key, and the caller accepts it. -/
def Acceptable (e : List UCHAR × Quad) : Prop :=
  w.InBitmap e.2 ∧ w.visible e.2 = some e.1 ∧ w.accept e.2 = true

/-- As long as the key stays the same: no node on the same page has a key that begins it and is
shorter. -/
def Tells (k : List UCHAR) : List Item → Prop
  | [] => True
  | x :: xs =>
      (x.handoff = false → x.node.key k ≠ k → ¬x.node.key k <+: k) ∧ (x.node.key k = k → Tells k xs)

/-- What a call that follows an accepted record meets, when the change of the key is told: the first
key of a page that it is handed over to is compared with the key in the buffer, under the length
that is on the stack, as with the saved key. -/
def Follows (s : State) (stack : Key) (xs : List Item) : Prop :=
  (∀ x ∈ xs.head?, x.handoff = true →
      (changes (start s stack).1 x = true ↔ s.navData ≠ x.node.btnData)) ∧
    Tells s.navData xs

/-- What a step must meet. A page that is read again has the saved node as the first one with its
key; and a new call with other counts finds the first node of the walk to show a change, or the
change from the key that was accepted to be told. -/
def Meets (s : State) (op : Fetch) : Prop :=
  (op.reread = true → ∀ p i, s.position = some (p, i) →
      findSaved s.navData s.navNumber [] (w.itemsFrom p 0) = some (p, i, true)) ∧
    (s.call = none → s.rsbRecordCount ≠ s.navCount →
      match s.position with
      | none => ∀ x ∈ w.items.head?, changes (start s op.stack).1 x = true
      | some (p, i) => Follows s op.stack (w.itemsFrom p (i + 1)))

/-! ## Passing nodes -/

/-- The keys of the records that the caller has accepted -/
def keys (accepted : List (List UCHAR × Quad)) : List (List UCHAR) := accepted.map Prod.fst

/-- What the walk has behind it -/
structure Passed (passed : List Item) (visited : List Quad)
    (accepted : List (List UCHAR × Quad)) : Prop where
  distinct : (keys accepted).Nodup
  sound : ∀ e ∈ accepted, e ∈ Btr.entries [] (passed.map Item.node) ∧ w.Acceptable e
  complete : ∀ e ∈ Btr.entries [] (passed.map Item.node), w.Acceptable e → e.1 ∈ keys accepted
  visited : ∀ number ∈ visited, ∀ k, w.visible number = some k → w.accept number = true →
    k ∈ keys accepted

variable {w} {passed pre xs rest : List Item} {x y : Item} {visited : List Quad}
  {accepted : List (List UCHAR × Quad)} {prev k : List UCHAR} {key : Key} {changed : Bool}

theorem entries_concat : Btr.entries [] ((passed ++ [x]).map Item.node) =
    Btr.entries [] (passed.map Item.node) ++
      [(x.node.key (lastKey [] (passed.map Item.node)), x.node.btnNumber)] := by
  rw [List.map_append, Btr.entries_append]
  rfl

theorem lastKey_concat : lastKey [] ((passed ++ [x]).map Item.node) =
    x.node.key (lastKey [] (passed.map Item.node)) := by
  rw [List.map_append, Btr.lastKey_append]
  rfl

/-- An entry that the walk has passed does not stand behind the last one. -/
theorem le_lastKey (hsorted : w.Sorted) (hitems : w.items = passed ++ xs)
    {e : List UCHAR × Quad} (he : e ∈ Btr.entries [] (passed.map Item.node)) :
    Ordered w.descending e.1 (lastKey [] (passed.map Item.node)) ∧
      ∃ number, (lastKey [] (passed.map Item.node), number) ∈
        Btr.entries [] (passed.map Item.node) := by
  rw [Sorted, entries, hitems, List.map_append, Btr.entries_append, List.pairwise_append] at hsorted
  have hpassed := hsorted.1
  rcases List.eq_nil_or_concat passed with rfl | ⟨ys, y, rfl⟩
  · exact absurd he List.not_mem_nil
  · rw [List.concat_eq_append, entries_concat] at he hpassed
    rw [List.concat_eq_append, lastKey_concat, entries_concat]
    refine ⟨?_, y.node.btnNumber, List.mem_append_right _ List.mem_cons_self⟩
    rcases List.mem_append.mp he with he | he
    · exact (List.pairwise_append.mp hpassed).2.2 e he _ List.mem_cons_self
    · rw [List.mem_singleton.mp he]
      exact le_refl _

/-- A key that was accepted is met again only as long as the key stays the same. -/
theorem key_eq_of_mem (hsorted : w.Sorted) (hitems : w.items = passed ++ x :: xs)
    (h : w.Passed passed visited accepted)
    (hk : x.node.key (lastKey [] (passed.map Item.node)) ∈ keys accepted) :
    x.node.key (lastKey [] (passed.map Item.node)) = lastKey [] (passed.map Item.node) := by
  obtain ⟨e, he, heq⟩ := List.mem_map.mp hk
  obtain ⟨hle, number, hlast⟩ := le_lastKey hsorted hitems (h.sound e he).1
  rw [heq] at hle
  refine hle.antisymm ?_
  rw [Sorted, entries, hitems, List.map_append, Btr.entries_append] at hsorted
  exact (List.pairwise_append.mp hsorted).2.2 _ hlast _ List.mem_cons_self

theorem not_mem_iff (hsorted : w.Sorted) (hitems : w.items = passed ++ x :: xs)
    (h : w.Passed passed visited accepted)
    (hk : lastKey [] (passed.map Item.node) ∈ keys accepted) :
    x.node.key (lastKey [] (passed.map Item.node)) ∉ keys accepted ↔
      x.node.key (lastKey [] (passed.map Item.node)) ≠ lastKey [] (passed.map Item.node) := by
  rw [ne_eq, not_iff_not]
  constructor
  · exact key_eq_of_mem hsorted hitems h
  · intro heq
    rw [heq]
    exact hk

/-- A node is passed: its record cannot be accepted, or one with its key has been. -/
theorem Passed.pass (h : w.Passed passed visited accepted)
    (hx : w.Acceptable (x.node.key (lastKey [] (passed.map Item.node)), x.node.btnNumber) →
      x.node.key (lastKey [] (passed.map Item.node)) ∈ keys accepted) :
    w.Passed (passed ++ [x]) visited accepted where
  distinct := h.distinct
  sound e he := by
    rw [entries_concat]
    exact ⟨List.mem_append_left _ (h.sound e he).1, (h.sound e he).2⟩
  complete e he hacc := by
    rw [entries_concat] at he
    rcases List.mem_append.mp he with he | he
    · exact h.complete e he hacc
    · rw [List.mem_singleton] at he
      subst he
      exact hx hacc
  visited := h.visited

/-- The caller rejects a record that is visited. -/
theorem Passed.reject {number : Quad} (h : w.Passed passed visited accepted)
    (hreject : w.accept number ≠ true) : w.Passed passed (number :: visited) accepted where
  distinct := h.distinct
  sound := h.sound
  complete := h.complete
  visited := by
    intro number' hmem k hvisible haccept
    rcases List.mem_cons.mp hmem with rfl | hmem
    · exact absurd haccept hreject
    · exact h.visited number' hmem k hvisible haccept

/-- The caller accepts a record under a key that is new. -/
theorem Passed.accept (h : w.Passed passed visited accepted)
    (hk : x.node.key (lastKey [] (passed.map Item.node)) = k)
    (hacc : w.Acceptable (k, x.node.btnNumber)) (hnew : k ∉ keys accepted) :
    w.Passed (passed ++ [x]) (x.node.btnNumber :: visited)
      (accepted ++ [(k, x.node.btnNumber)]) where
  distinct := by
    rw [keys, List.map_append, List.nodup_append]
    refine ⟨h.distinct, List.pairwise_singleton _ _, ?_⟩
    rintro k' hk' _ hmem rfl
    rw [List.mem_singleton.mp hmem] at hk'
    exact hnew hk'
  sound := by
    rintro e he
    rw [entries_concat, hk]
    rcases List.mem_append.mp he with he | he
    · exact ⟨List.mem_append_left _ (h.sound e he).1, (h.sound e he).2⟩
    · rw [List.mem_singleton.mp he]
      exact ⟨List.mem_append_right _ List.mem_cons_self, hacc⟩
  complete := by
    intro e he hacc'
    rw [entries_concat, hk] at he
    rw [keys, List.map_append]
    rcases List.mem_append.mp he with he | he
    · exact List.mem_append_left _ (h.complete e he hacc')
    · rw [List.mem_singleton.mp he]
      exact List.mem_append_right _ List.mem_cons_self
  visited := by
    intro number hmem k' hvisible haccept
    rw [keys, List.map_append]
    rcases List.mem_cons.mp hmem with rfl | hmem
    · obtain rfl := Option.some.inj (hacc.2.1.symm.trans hvisible)
      exact List.mem_append_right _ List.mem_cons_self
    · exact List.mem_append_left _ (h.visited number hmem k' hvisible haccept)

/-! ## The loop -/

/-- What `irsb_key_changed` tells of the last key, and the next node of a key that has been accepted
-/
structure Told (passed : List Item) (accepted : List (List UCHAR × Quad)) (key : Key)
    (changed : Bool) (xs : List Item) : Prop where
  has : key.Has (lastKey [] (passed.map Item.node))
  fresh : changed = true → lastKey [] (passed.map Item.node) ∉ keys accepted
  next : changed = false → ∀ x ∈ xs.head?, changes key x = true ↔
    x.node.key (lastKey [] (passed.map Item.node)) ∉ keys accepted
  tells : changed = false → lastKey [] (passed.map Item.node) ∈ keys accepted →
    Tells (lastKey [] (passed.map Item.node)) xs

/-- On the same page -/
theorem changes_iff_same (hlaid : Laid prev (x :: xs)) (htells : Tells prev (x :: xs))
    (hsame : x.handoff = false) : changes key x = true ↔ x.node.key prev ≠ prev := by
  rw [changes_same hlaid hsame]
  constructor
  · intro hnot heq
    rw [heq] at hnot
    exact hnot List.prefix_rfl
  · exact htells.1 hsame

/-- The next node when the buffer has the last key and its length -/
theorem changes_iff (hlaid : Laid prev (x :: xs)) (htells : Tells prev (x :: xs))
    (hkey : key.value = prev) : changes key x = true ↔ x.node.key prev ≠ prev := by
  cases hhandoff : x.handoff with
  | true => exact changes_handoff hlaid hhandoff hkey
  | false => exact changes_iff_same hlaid htells hhandoff

/-- A node of the loop -/
theorem Told.step (hsorted : w.Sorted) (hitems : w.items = passed ++ x :: xs)
    (hlaid : Laid (lastKey [] (passed.map Item.node)) (x :: xs))
    (h : w.Passed passed visited accepted) (ht : Told passed accepted key changed (x :: xs)) :
    ((changed || changes key x) = true →
      x.node.key (lastKey [] (passed.map Item.node)) ∉ keys accepted) ∧
    ((changed || changes key x) = false →
      x.node.key (lastKey [] (passed.map Item.node)) ∈ keys accepted) ∧
    Told (passed ++ [x]) accepted (build key x.node) (changed || changes key x) xs := by
  have hsame := key_eq_of_mem hsorted hitems h
  have hfresh : (changed || changes key x) = true →
      x.node.key (lastKey [] (passed.map Item.node)) ∉ keys accepted := by
    intro hchanged hmem
    cases changed with
    | true => exact ht.fresh rfl (hsame hmem ▸ hmem)
    | false => exact (ht.next rfl x rfl).mp hchanged hmem
  have hstale : (changed || changes key x) = false →
      x.node.key (lastKey [] (passed.map Item.node)) ∈ keys accepted := by
    intro hchanged
    obtain ⟨rfl, hchanges⟩ := Bool.or_eq_false_iff.mp hchanged
    by_contra hmem
    rw [(ht.next rfl x rfl).mpr hmem] at hchanges
    cases hchanges
  have hvalue := value_build ht.has hlaid
  have htells : (changed || changes key x) = false →
      Tells (x.node.key (lastKey [] (passed.map Item.node))) xs := by
    intro hchanged
    have hmem := hstale hchanged
    obtain ⟨rfl, -⟩ := Bool.or_eq_false_iff.mp hchanged
    have heq := hsame hmem
    rw [heq] at hmem ⊢
    exact (ht.tells rfl hmem).2 heq
  refine ⟨hfresh, hstale, ?_, ?_, ?_, ?_⟩
  · rw [lastKey_concat]
    exact (has_of_value hvalue).1
  · rw [lastKey_concat]
    exact hfresh
  · rw [lastKey_concat]
    rintro hchanged y hy
    have hpass : w.Passed (passed ++ [x]) visited accepted := h.pass fun _ => hstale hchanged
    obtain ⟨ys, rfl⟩ := List.head?_eq_some_iff.mp hy
    have hmem := hstale hchanged
    rw [changes_iff hlaid.2 (htells hchanged) hvalue]
    rw [← lastKey_concat] at hmem ⊢
    exact (not_mem_iff hsorted (by rw [hitems, List.append_assoc]; rfl) hpass hmem).symm
  · rw [lastKey_concat]
    exact fun hchanged _ => htells hchanged

/-- The loop ends behind all nodes, or in front of one whose key has not been accepted. -/
def Scanned (w : Index) (visited : List Quad) (accepted : List (List UCHAR × Quad))
    (passed : List Item) : Option (Item × Key) × Bool → Prop
  | (none, _) => w.Passed w.items visited accepted
  | (some (x, key), changed) => changed = true ∧ ∃ passed' rest,
      w.items = passed' ++ x :: rest ∧ passed.length ≤ passed'.length ∧
      w.Passed passed' visited accepted ∧
      key.value = x.node.key (lastKey [] (passed'.map Item.node)) ∧
      w.InBitmap x.node.btnNumber ∧ key.value ∉ keys accepted

theorem scan_spec (hsorted : w.Sorted) (hitems : w.items = passed ++ xs)
    (hlaid : Laid (lastKey [] (passed.map Item.node)) xs) (h : w.Passed passed visited accepted)
    (ht : Told passed accepted key changed xs) :
    Scanned w visited accepted passed (w.scan visited xs key changed) := by
  induction xs generalizing passed key changed with
  | nil =>
      rw [List.append_nil] at hitems
      rw [scan, Scanned, hitems]
      exact h
  | cons x xs ih =>
      obtain ⟨hfresh, hstale, hnext⟩ := ht.step hsorted hitems hlaid h
      have hvalue := value_build ht.has hlaid
      have hrest : w.items = (passed ++ [x]) ++ xs := by
        rw [hitems, List.append_assoc]
        rfl
      rw [scan]
      by_cases hskip : ¬w.InBitmap x.node.btnNumber ∨ x.node.btnNumber ∈ visited ∨
          (changed || changes key x) = false
      · rw [if_pos hskip]
        have hpass : w.Passed (passed ++ [x]) visited accepted := by
          refine h.pass fun hacc => ?_
          rcases hskip with hbitmap | hvisited | hchanged
          · exact absurd hacc.1 hbitmap
          · exact h.visited _ hvisited _ hacc.2.1 hacc.2.2
          · exact hstale hchanged
        have hlaid' : Laid (lastKey [] ((passed ++ [x]).map Item.node)) xs := by
          rw [lastKey_concat]
          exact hlaid.2
        have hspec := ih hrest hlaid' hpass hnext
        generalize w.scan visited xs (build key x.node) (changed || changes key x) = r at hspec
        obtain ⟨_ | ⟨y, key'⟩, changed'⟩ := r
        · exact hspec
        · obtain ⟨hchanged, passed', rest, hitems', hle, hspec⟩ := hspec
          rw [List.length_append] at hle
          exact ⟨hchanged, passed', rest, hitems', by omega, hspec⟩
      · rw [if_neg hskip]
        obtain ⟨hbitmap, -, hchanged⟩ := by simpa only [not_or, not_not] using hskip
        rw [Bool.not_eq_false] at hchanged
        refine ⟨hchanged, passed, xs, hitems, le_rfl, h, hvalue, hbitmap, ?_⟩
        rw [hvalue]
        exact hfresh hchanged

/-! ## Steps -/

/-- The nodes that the walk has in front of it -/
def ahead (w : Index) (s : State) : List Item := w.getPosition s false

/-- Between two fetches -/
structure Walking (w : Index) (s : State) (passed : List Item) : Prop where
  items : w.items = passed ++ w.ahead s
  behind : w.Passed passed s.visited s.accepted
  navData : s.navData = lastKey [] (passed.map Item.node)
  begins : s.position = none → passed = []
  call : ∀ key ∈ s.call, s.keyChanged = true ∧ key.value = s.navData ∧ s.navData ∉ keys s.accepted
  counts : s.call = none → s.position ≠ none →
    (s.rsbRecordCount ≠ s.navCount ↔ s.navData ∈ keys s.accepted)

/-- Every state of a walk -/
def Inv (w : Index) (s : State) : Prop :=
  if s.ended = true then w.Passed w.items s.visited s.accepted else ∃ passed, Walking w s passed

variable {s s' : State} {op : Fetch}

/-- The position is found. -/
theorem getPosition_eq (hmeets : w.Meets s op) : w.getPosition s op.reread = w.ahead s := by
  cases hreread : op.reread with
  | false => rfl
  | true =>
      unfold ahead getPosition
      cases hposition : s.position with
      | none => rfl
      | some pos =>
          obtain ⟨p, i⟩ := pos
          dsimp only
          rw [hmeets.1 hreread p i hposition, if_pos rfl, if_neg Bool.false_ne_true]
          rfl

theorem accepted_nil (h : w.Passed [] visited accepted) : accepted = [] := by
  cases accepted with
  | nil => rfl
  | cons e accepted => exact absurd (h.sound e List.mem_cons_self).1 List.not_mem_nil

theorem Walking.laid (h : Walking w s passed) :
    Laid (lastKey [] (passed.map Item.node)) (w.ahead s) := by
  have hlaid : Laid [] w.items := laid_items w
  rw [h.items, laid_append] at hlaid
  exact hlaid.2

/-- What a call begins with -/
theorem Walking.told (hsorted : w.Sorted) (h : Walking w s passed) (hmeets : w.Meets s op) :
    Told passed s.accepted (start s op.stack).1 (start s op.stack).2 (w.ahead s) := by
  cases hcall : s.call with
  | some key =>
      obtain ⟨hchanged, hvalue, hfresh⟩ := h.call key hcall
      rw [start, hcall, hchanged]
      rw [h.navData] at hvalue hfresh
      exact ⟨(has_of_value hvalue).1, fun _ => hfresh, nofun, nofun⟩
  | none =>
      have hnext := hmeets.2 hcall
      have hkey : (start s op.stack).1 = ⟨op.stack.data.store 0 s.navData, op.stack.length⟩ := by
        rw [start, hcall]
      have hflag : (start s op.stack).2 = decide (s.rsbRecordCount = s.navCount) := by
        rw [start, hcall]
      have hhas : (start s op.stack).1.Has (lastKey [] (passed.map Item.node)) := by
        rw [hkey, ← h.navData]
        exact Memory.load_store op.stack.data 0 s.navData
      rw [hflag]
      cases hposition : s.position with
      | none =>
          -- nothing has been accepted
          obtain rfl := h.begins hposition
          have hnil := accepted_nil h.behind
          rw [hnil]
          refine ⟨hhas, fun _ => List.not_mem_nil, ?_, fun _ => nofun⟩
          intro hne x hx
          rw [decide_eq_false_iff_not] at hne
          replace hnext := hnext hne
          rw [hposition] at hnext
          rw [ahead, getPosition, hposition] at hx
          exact iff_of_true (hnext x hx) List.not_mem_nil
      | some pos =>
          obtain ⟨p, i⟩ := pos
          have hcounts := h.counts hcall (by rw [hposition]; nofun)
          rw [hposition] at hnext
          have hahead : w.ahead s = w.itemsFrom p (i + 1) := by
            rw [ahead, getPosition, hposition]
            rfl
          have hlaid := h.laid
          have hitems := h.items
          replace hnext : s.rsbRecordCount ≠ s.navCount → Follows s op.stack (w.ahead s) := by
            rw [hahead]
            exact hnext
          rw [h.navData] at hcounts
          refine ⟨hhas, ?_, ?_, ?_⟩
          · intro heq
            rw [decide_eq_true_iff] at heq
            exact fun hmem => hcounts.mpr hmem heq
          · intro hne x hx
            rw [decide_eq_false_iff_not] at hne
            obtain ⟨hhandoff, htells⟩ := hnext hne
            rw [h.navData] at htells hhandoff
            obtain ⟨xs, hxs⟩ := List.head?_eq_some_iff.mp hx
            rw [hxs] at hlaid hitems htells
            rw [not_mem_iff hsorted hitems h.behind (hcounts.mp hne)]
            cases hh : x.handoff with
            | true =>
                rw [hhandoff x hx hh, key_eq_data hlaid hh]
                exact ne_comm
            | false => exact changes_iff_same hlaid htells hh
          · intro hne _
            rw [decide_eq_false_iff_not] at hne
            rw [← h.navData]
            exact (hnext hne).2

/-- The record of a node is fetched under a key that has not been accepted. -/
theorem walking_getRecord {rest : List Item} (hitems : w.items = passed ++ x :: rest)
    (h : w.Passed passed s.visited s.accepted)
    (hvalue : key.value = x.node.key (lastKey [] (passed.map Item.node)))
    (hbitmap : w.InBitmap x.node.btnNumber) (hnew : key.value ∉ keys s.accepted)
    (hchanged : s.keyChanged = true) (hcounts : s.navCount = s.rsbRecordCount) :
    Walking w (w.getRecord s x key) (passed ++ [x]) ∧
      (w.getRecord s x key).ended = s.ended := by
  have hlast : key.value = lastKey [] ((passed ++ [x]).map Item.node) := by
    rw [lastKey_concat, hvalue]
  have hahead : w.items = passed ++ [x] ++ w.itemsFrom x.page (x.index + 1) := by
    rw [← itemsFrom_next hitems, hitems, List.append_assoc]
    rfl
  unfold getRecord
  dsimp only
  split
  · rename_i hvisible
    split
    · rename_i haccept
      -- the caller counts it
      have hacc : w.Acceptable (key.value, x.node.btnNumber) := ⟨hbitmap, hvisible, haccept⟩
      refine ⟨⟨hahead, h.accept hvalue.symm hacc hnew, hlast, nofun, nofun, ?_⟩, rfl⟩
      intro _ _
      refine iff_of_true ?_ ?_
      · show (s.rsbRecordCount + 1) % 4294967296 ≠ s.navCount
        rw [hcounts]
        omega
      · rw [keys, List.map_append]
        exact List.mem_append_right _ List.mem_cons_self
    · rename_i hreject
      refine ⟨⟨hahead, ?_, hlast, nofun, nofun, ?_⟩, rfl⟩
      · exact Passed.pass (h.reject hreject) fun hacc => absurd hacc.2.2 hreject
      · intro _ _
        exact iff_of_false (fun hne => hne hcounts.symm) hnew
  · rename_i hvisible
    refine ⟨⟨hahead, ?_, hlast, nofun, ?_, nofun⟩, rfl⟩
    · refine h.pass fun hacc => absurd hacc.2.1 ?_
      rw [← hvalue]
      exact hvisible
    · rintro _ ⟨⟩
      exact ⟨hchanged, rfl, hnew⟩

/-- A fetch ends the walk behind all nodes, or passes at least one. -/
theorem Walking.fetch (hsorted : w.Sorted) (h : Walking w s passed) (hmeets : w.Meets s op) :
    ((w.fetch s op).ended = true ∧
      w.Passed w.items (w.fetch s op).visited (w.fetch s op).accepted) ∨
    ((w.fetch s op).ended = s.ended ∧
      ∃ passed', passed.length < passed'.length ∧ Walking w (w.fetch s op) passed') := by
  have hspec := scan_spec hsorted h.items h.laid h.behind (h.told hsorted hmeets)
  unfold Index.fetch
  rw [getPosition_eq hmeets]
  generalize w.scan s.visited (w.ahead s) (start s op.stack).1 (start s op.stack).2 = r at hspec
  obtain ⟨_ | ⟨x, key⟩, changed⟩ := r
  · exact .inl ⟨rfl, hspec⟩
  · obtain ⟨rfl, passed', rest, hitems, hle, hbehind, hvalue, hbitmap, hnew⟩ := hspec
    obtain ⟨hwalking, hended⟩ := @walking_getRecord _ _ _ _
      { s with keyChanged := true, navCount := s.rsbRecordCount } rest hitems hbehind hvalue hbitmap
      hnew rfl rfl
    refine .inr ⟨hended, passed' ++ [x], ?_, hwalking⟩
    rw [List.length_append]
    exact Nat.lt_succ_of_le hle

theorem inv_fetch (hsorted : w.Sorted) (h : Inv w s) (hended : s.ended = false)
    (hmeets : w.Meets s op) : Inv w (w.fetch s op) := by
  rw [Inv, hended, if_neg Bool.false_ne_true] at h
  obtain ⟨passed, h⟩ := h
  rcases h.fetch hsorted hmeets with ⟨hend, hpassed⟩ | ⟨hsame, passed', -, hwalking⟩
  · rw [Inv, if_pos hend]
    exact hpassed
  · rw [Inv, hsame, hended, if_neg Bool.false_ne_true]
    exact ⟨passed', hwalking⟩

theorem inv_init (h : w.walk.init s) : Inv w s := by
  obtain ⟨hposition, hdata, hvisited, hcall, haccepted, hended⟩ := h
  rw [Inv, hended, if_neg Bool.false_ne_true]
  refine ⟨[], ?_, ?_, hdata, fun _ => rfl, ?_, fun _ hne => absurd hposition hne⟩
  · rw [ahead, getPosition, hposition]
    rfl
  · rw [hvisited, haccepted]
    exact ⟨List.nodup_nil, nofun, nofun, nofun⟩
  · rw [hcall]
    exact nofun

/-- In the runs whose steps meet the condition -/
theorem inv_of_reachable (hsorted : w.Sorted)
    (h : Transition.Reachable (w.walk.restrict w.Meets) s) : Inv w s := by
  refine h.invariant (S := w.walk.restrict w.Meets) (I := Inv w) (fun _ hinit => inv_init hinit) ?_
  rintro s op _ hinv ⟨⟨hended, rfl⟩, hmeets⟩
  exact inv_fetch hsorted hinv hended hmeets

/-! ## Whole walks -/

/-- In every run whose steps meet the condition, no two of the accepted records have the same key,
and each is the visible one of an entry that the caller accepts; at the end, every key with such an
entry has been returned. The walk comes to its end: a fetch ends it or leaves fewer nodes. -/
theorem one_for_each_key (w : Index) (hsorted : w.Sorted) {s : State}
    (h : Transition.Reachable (w.walk.restrict w.Meets) s) :
    (keys s.accepted).Nodup ∧ (∀ e ∈ s.accepted, e ∈ w.entries ∧ w.Acceptable e) ∧
      (s.ended = true → ∀ k, k ∈ keys s.accepted ↔
        ∃ number, (k, number) ∈ w.entries ∧ w.Acceptable (k, number)) ∧
      (s.ended = false → ∀ op, w.Meets s op → (w.fetch s op).ended = true ∨
        (w.ahead (w.fetch s op)).length < (w.ahead s).length) := by
  have hinv := inv_of_reachable hsorted h
  cases hended : s.ended with
  | true =>
      rw [Inv, if_pos hended] at hinv
      refine ⟨hinv.distinct, hinv.sound, fun _ k => ?_, nofun⟩
      constructor
      · intro hk
        obtain ⟨e, he, rfl⟩ := List.mem_map.mp hk
        exact ⟨e.2, hinv.sound e he⟩
      · rintro ⟨number, hmem, hacc⟩
        exact hinv.complete _ hmem hacc
  | false =>
      rw [Inv, hended, if_neg Bool.false_ne_true] at hinv
      obtain ⟨passed, hwalking⟩ := hinv
      refine ⟨hwalking.behind.distinct, ?_, nofun, fun _ op hmeets => ?_⟩
      · intro e he
        obtain ⟨hmem, hacc⟩ := hwalking.behind.sound e he
        refine ⟨?_, hacc⟩
        rw [entries, hwalking.items, List.map_append, Btr.entries_append]
        exact List.mem_append_left _ hmem
      · rcases hwalking.fetch hsorted hmeets with ⟨hend, -⟩ | ⟨-, passed', hlt, hnext⟩
        · exact .inl hend
        · refine .inr ?_
          have hlen := congrArg List.length (hwalking.items.symm.trans hnext.items)
          rw [List.length_append, List.length_append] at hlen
          omega

/-- Numbers of records -/
def record (n : UCHAR) : Quad := ⟨n, 0, 0, 0⟩

/-- An ascending index with two records of one key, and a third one on another page -/
def twoPages : Index where
  pages :=
    [⟨[⟨0, record 0, [65], by decide⟩, ⟨1, record 1, [], by decide⟩], by decide⟩,
      ⟨[⟨0, record 2, [66], by decide⟩], by decide⟩]
  descending := false
  inversion := none
  visible number := some (if number = record 2 then [66] else [65])
  accept _ := true

/-- Before the first fetch -/
def unfetched : State where
  position := none
  navData := []
  navNumber := record 0
  keyChanged := false
  navCount := 0
  visited := []
  rsbRecordCount := 0
  call := none
  accepted := []
  ended := false

/-- A fetch with nothing on the stack -/
def onStack : Fetch := ⟨⟨fun _ => 0, 0⟩, false⟩

/-- A second fetch passes over the other record of the key and returns that of the next page. -/
theorem one_for_each_key_twoPages :
    twoPages.Sorted ∧ (twoPages.fetch (twoPages.fetch unfetched onStack) onStack).accepted =
        [([65], record 0), ([66], record 2)] ∧
      (keys (twoPages.fetch (twoPages.fetch unfetched onStack) onStack).accepted).Nodup := by
  have hsorted : twoPages.Sorted := by
    rw [Sorted]
    decide
  have hfirst : Transition.Reachable (twoPages.walk.restrict twoPages.Meets)
      (twoPages.fetch unfetched onStack) := by
    refine .step (i := onStack) (.init ?_) ⟨⟨rfl, rfl⟩, nofun, fun _ hne => absurd rfl hne⟩
    exact ⟨rfl, rfl, rfl, rfl, rfl, rfl⟩
  refine ⟨hsorted, by decide, (one_for_each_key twoPages hsorted (.step (i := onStack) hfirst
    ⟨⟨rfl, rfl⟩, nofun, fun _ _ => ⟨?_, ?_⟩⟩)).1⟩
  · rintro x ⟨⟩
    exact nofun
  · exact ⟨fun _ h => absurd rfl h, fun _ => ⟨nofun, nofun⟩⟩

/-- A descending index with the keys of two strings, of which the second begins the first -/
def shorterBehind : Index where
  pages :=
    [⟨[⟨0, record 0, [190, 189], by decide⟩, ⟨1, record 1, [], by decide⟩], by decide⟩]
  descending := true
  inversion := none
  visible number := some (if number = record 0 then [190, 189] else [190])
  accept _ := true

/-- The walk ends after one record, and that of the second key is lost. -/
theorem shorter_key_lost :
    shorterBehind.Sorted ∧
      ∃ s, Transition.Reachable shorterBehind.walk s ∧ s.ended = true ∧
        s.accepted = [([190, 189], record 0)] ∧
        ¬∀ k, k ∈ keys s.accepted ↔
          ∃ number, (k, number) ∈ shorterBehind.entries ∧ shorterBehind.Acceptable (k, number) := by
  have hsorted : shorterBehind.Sorted := by
    rw [Sorted]
    decide
  have hfirst : Transition.Reachable shorterBehind.walk
      (shorterBehind.fetch unfetched onStack) := by
    refine .step (i := onStack) (.init ?_) ⟨rfl, rfl⟩
    exact ⟨rfl, rfl, rfl, rfl, rfl, rfl⟩
  refine ⟨hsorted, _, .step (i := onStack) hfirst ⟨rfl, rfl⟩, by decide, by decide, fun hall => ?_⟩
  have hlost : [190] ∈ keys _ := (hall [190]).mpr ⟨record 1, by decide, nofun, rfl, rfl⟩
  revert hlost
  decide

end Index

end Firebird.Nav
