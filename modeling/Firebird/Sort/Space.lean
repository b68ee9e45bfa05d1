import Firebird.Lib.Tiling
import Mathlib.Data.List.Basic

/-! # The space in work files (`find_file_space`, `free_file_space` in `jrd/sort.cpp`)

A work file has a list of the pieces of it that are free. Space is taken from the end of the
smallest piece that it fits in, or else at the end of the last file. Space that is given back is
joined with a piece that adjoins it.
-/

namespace Firebird.Scratch

open Extent

/-- What a `ULONG` holds of a number -/
def ulong (n : ℕ) : ℕ := n % 4294967296

/-- The difference of two `ULONG`s -/
def usub (a b : ℕ) : ℕ := ulong (a + 4294967296 - b)

theorem ulong_eq {n : ℕ} (h : n < 4294967296) : ulong n = n := Nat.mod_eq_of_lt h

theorem usub_eq {a b : ℕ} (hle : b ≤ a) (ha : a < 4294967296) : usub a b = a - b := by
  unfold usub ulong
  omega

/-- A piece of free space, `wfs` -/
structure Wfs where
  position : ℕ
  size : ℕ
  deriving DecidableEq, Repr

/-- A work file, `sfb` -/
structure Sfb where
  fileSize : ℕ
  fileSpace : List Wfs
  deriving DecidableEq, Repr

def MAX_TEMPFILE_SIZE : ℕ := 1073741824

/-- What is answered when space at the end of a file is looked for: by `DLS_get_temp_space` for
the last file, by `DLS_add_dir` if a directory has to be added, by `DLS_get_temp_space` for a new
file, and whether that can be opened -/
structure Dls where
  lastFile : Bool
  addDir : Bool
  newFile : Bool
  opened : Bool
  deriving DecidableEq, Repr

/-- `best_sfb`, `best` and what it is to -/
structure Best where
  sfb : ℕ
  ptr : ℕ
  space : Wfs
  deriving DecidableEq, Repr

/-! ## Taking space -/

/-- The loop over the free space of a file -/
def searchSpace (size sfb : ℕ) : List Wfs → ℕ → Option Best → Option Best
  | [], _, best => best
  | space :: next, ptr, best =>
      searchSpace size sfb next (ptr + 1)
        (if size ≤ space.size ∧ best.all (fun b => space.size < b.space.size) then
          some ⟨sfb, ptr, space⟩
        else best)

/-- The loop over the files -/
def searchFiles (size : ℕ) : List Sfb → ℕ → Option Best → Option Best
  | [], _, best => best
  | sfb :: next, i, best =>
      searchFiles size next (i + 1) (searchSpace size i sfb.fileSpace 0 best)

/-- Allocate at the end of the file `sfb`, which is number `i`. -/
def atEnd (files : List Sfb) (i : ℕ) (sfb : Sfb) (size : ℕ) : List Sfb × Option (ℕ × ℕ) :=
  (files.modify i fun sfb => { sfb with fileSize := ulong (sfb.fileSize + size) },
    some (i, usub (ulong (sfb.fileSize + size)) size))

/-- A new file is linked in before a directory is found for it. -/
def newFile (files : List Sfb) (size : ℕ) (dls : Dls) : List Sfb × Option (ℕ × ℕ) :=
  if !dls.addDir then (files, none)
  else if !dls.newFile || !dls.opened then (files ++ [⟨0, []⟩], none)
  else atEnd (files ++ [⟨0, []⟩]) files.length ⟨0, []⟩ size

/-- `find_file_space`: the file and the position, or none after an error -/
def findFileSpace (files : List Sfb) (size : ℕ) (dls : Dls) : List Sfb × Option (ℕ × ℕ) :=
  match searchFiles size files 0 none with
  | none =>
      match files.getLast? with
      | none => newFile files size dls
      | some sfb =>
          if !dls.lastFile || MAX_TEMPFILE_SIZE ≤ ulong (sfb.fileSize + size) then
            newFile files size dls
          else atEnd files (files.length - 1) sfb size
  | some best =>
      if best.space.size = size then
        (files.modify best.sfb fun sfb =>
          { sfb with fileSpace := sfb.fileSpace.eraseIdx best.ptr },
          some (best.sfb, best.space.position))
      else
        (files.modify best.sfb fun sfb =>
          { sfb with
            fileSpace := sfb.fileSpace.set best.ptr
              ⟨best.space.position, usub best.space.size size⟩ },
          some (best.sfb, ulong (best.space.position + usub best.space.size size)))

/-! ## Giving it back -/

/-- What is done at the first piece that does not start behind the end of the space, and the
pieces behind it -/
def joinSpace (position size : ℕ) (space : Wfs) (next : List Wfs) : List Wfs :=
  if ulong (position + size) = space.position then
    ⟨usub space.position size, ulong (space.size + size)⟩ :: next
  else if position = ulong (space.position + space.size) then
    match next with
    | [] => [⟨space.position, ulong (space.size + size)⟩]
    | n :: rest =>
        if ulong (position + size) = n.position then
          ⟨space.position, ulong (ulong (space.size + size) + n.size)⟩ :: rest
        else ⟨space.position, ulong (space.size + size)⟩ :: n :: rest
  else ⟨position, size⟩ :: space :: next

/-- `free_file_space` on the free space of the file -/
def freeSpace (position size : ℕ) : List Wfs → List Wfs
  | [] => [⟨position, size⟩]
  | space :: next =>
      if space.position ≤ ulong (position + size) then joinSpace position size space next
      else space :: freeSpace position size next

/-- `free_file_space` -/
def freeFileSpace (files : List Sfb) (i position size : ℕ) : List Sfb :=
  files.modify i fun sfb => { sfb with fileSpace := freeSpace position size sfb.fileSpace }

/-! ## What the search finds -/

variable {size position i ptr n : ℕ} {b : Best} {best : Option Best} {files : List Sfb} {l : List Wfs}

theorem searchSpace_spec (h : searchSpace size i l ptr best = some b) :
    best = some b ∨
      b.sfb = i ∧ ∃ k, b.ptr = ptr + k ∧ l[k]? = some b.space ∧ size ≤ b.space.size := by
  induction l generalizing ptr best with
  | nil => exact .inl h
  | cons space next ih =>
      rw [searchSpace] at h
      rcases ih h with hbest | ⟨hsfb, k, hptr, hk, hsize⟩
      · split at hbest
        · rename_i hfits
          cases hbest
          exact .inr ⟨rfl, 0, rfl, rfl, hfits.1⟩
        · exact .inl hbest
      · exact .inr ⟨hsfb, k + 1, by omega, hk, hsize⟩

theorem searchFiles_spec (h : searchFiles size files i best = some b) :
    best = some b ∨ ∃ k sfb, b.sfb = i + k ∧ files[k]? = some sfb ∧
      sfb.fileSpace[b.ptr]? = some b.space ∧ size ≤ b.space.size := by
  induction files generalizing i best with
  | nil => exact .inl h
  | cons sfb next ih =>
      rw [searchFiles] at h
      rcases ih h with hbest | ⟨k, sfb', hsfb, hk, hspace⟩
      · rcases searchSpace_spec hbest with hbest | ⟨hsfb, k, hptr, hk, hsize⟩
        · exact .inl hbest
        · obtain rfl : b.ptr = k := by omega
          exact .inr ⟨0, sfb, hsfb, rfl, hk, hsize⟩
      · exact .inr ⟨k + 1, sfb', by omega, hk, hspace⟩

/-! ## The free space of a file -/

/-- The bytes of a piece -/
def Wfs.extent (space : Wfs) : Extent := ⟨space.position, space.size⟩

/-- The pieces are apart from each other and in descending order. -/
def Descends (l : List Wfs) : Prop :=
  l.Pairwise fun a b => b.position + b.size ≤ a.position

/-- No piece is empty. -/
def NoneEmpty (l : List Wfs) : Prop := ∀ a ∈ l, 0 < a.size

/-- All pieces end at `n` or before. -/
def EndsBy (n : ℕ) (l : List Wfs) : Prop := ∀ a ∈ l, a.position + a.size ≤ n

/-- Bytes that are in none of the pieces -/
def ApartFrom (position size : ℕ) (l : List Wfs) : Prop :=
  ∀ a ∈ l, position + size ≤ a.position ∨ a.position + a.size ≤ position

/-- What `free_file_space` does: the space is put between two pieces that it does not adjoin, or
it becomes the start or the end of a piece. -/
theorem freeSpace_cases (hn : n < 4294967296) (hbound : position + size ≤ n) (hends : EndsBy n l)
    (hdesc : Descends l) (hapart : ApartFrom position size l) :
    ∃ l₁ l₂, (∀ a ∈ l₁, position + size < a.position) ∧
      (l = l₁ ++ l₂ ∧ (∀ a ∈ l₂, a.position + a.size ≤ position) ∧
          freeSpace position size l = l₁ ++ ⟨position, size⟩ :: l₂ ∨
        (∃ m, l = l₁ ++ ⟨position + size, m⟩ :: l₂ ∧
          freeSpace position size l = l₁ ++ ⟨position, size + m⟩ :: l₂) ∨
        ∃ o m, position = o + m ∧ l = l₁ ++ ⟨o, m⟩ :: l₂ ∧
          freeSpace position size l = l₁ ++ ⟨o, m + size⟩ :: l₂) := by
  induction l with
  | nil => exact ⟨[], [], nofun, .inl ⟨rfl, nofun, rfl⟩⟩
  | cons space next ih =>
      obtain ⟨hspace, hnext⟩ := List.pairwise_cons.mp hdesc
      obtain ⟨o, m⟩ := space
      have hstop := hends _ List.mem_cons_self
      have hfree := hapart _ List.mem_cons_self
      dsimp only at hstop hfree hspace
      rw [freeSpace, ulong_eq (by omega : position + size < 4294967296)]
      dsimp only
      split
      · rename_i hle
        rw [joinSpace.eq_def, ulong_eq (by omega : position + size < 4294967296)]
        dsimp only
        rw [ulong_eq (by omega : o + m < 4294967296)]
        by_cases hstart : position + size = o
        · -- the space ends where the piece starts
          subst hstart
          rw [if_pos rfl, usub_eq (by omega) (by omega), ulong_eq (by omega : m + size < 4294967296),
            Nat.add_sub_cancel, Nat.add_comm m size]
          exact ⟨[], next, nofun, .inr (.inl ⟨m, rfl, rfl⟩)⟩
        · rw [if_neg hstart]
          by_cases hend : position = o + m
          · rw [if_pos hend, ulong_eq (by omega : m + size < 4294967296)]
            refine ⟨[], next, nofun, .inr (.inr ⟨o, m, hend, rfl, ?_⟩)⟩
            cases next with
            | nil => rfl
            | cons b rest =>
                -- the next piece is in front of this one, not behind it
                have hb := hspace b List.mem_cons_self
                dsimp only
                rw [if_neg (by omega)]
                rfl
          · rw [if_neg hend]
            refine ⟨[], ⟨o, m⟩ :: next, nofun, .inl ⟨rfl, fun a ha => ?_, rfl⟩⟩
            rcases List.mem_cons.mp ha with rfl | ha
            · dsimp only
              omega
            · have := hspace a ha
              omega
      · rename_i hlt
        obtain ⟨l₁, l₂, hl₁, hcases⟩ := ih (fun a ha => hends a (List.mem_cons_of_mem _ ha)) hnext
          fun a ha => hapart a (List.mem_cons_of_mem _ ha)
        refine ⟨⟨o, m⟩ :: l₁, l₂, ?_, ?_⟩
        · rintro a (_ | ⟨_, ha⟩)
          · exact Nat.lt_of_not_le hlt
          · exact hl₁ a ha
        · rcases hcases with ⟨hl, hl₂, hres⟩ | ⟨k, hl, hres⟩ | ⟨o', k, hk, hl, hres⟩
          · exact .inl ⟨by rw [hl]; rfl, hl₂, by rw [hres]; rfl⟩
          · exact .inr (.inl ⟨k, by rw [hl]; rfl, by rw [hres]; rfl⟩)
          · exact .inr (.inr ⟨o', k, hk, by rw [hl]; rfl, by rw [hres]; rfl⟩)

/-- The piece with the space in it takes the place of what it is joined with. -/
theorem freeSpace_spec (hn : n < 4294967296) (hbound : position + size ≤ n) (hends : EndsBy n l)
    (hdesc : Descends l) (hnone : NoneEmpty l) (hapart : ApartFrom position size l) :
    ∃ l₁ old l₂ new, l = l₁ ++ (old ++ l₂) ∧ freeSpace position size l = l₁ ++ new :: l₂ ∧
      size ≤ new.size ∧ Descends (l₁ ++ new :: l₂) ∧
      ∀ p, layers [new.extent] p = layers (⟨position, size⟩ :: old.map Wfs.extent) p := by
  obtain ⟨l₁, l₂, hl₁, hcases⟩ := freeSpace_cases hn hbound hends hdesc hapart
  unfold Descends at hdesc ⊢
  rcases hcases with ⟨rfl, hl₂, hres⟩ | ⟨m, rfl, hres⟩ | ⟨o, m, rfl, rfl, hres⟩
  · obtain ⟨h₁, h₂, h₁₂⟩ := List.pairwise_append.mp hdesc
    refine ⟨l₁, [], l₂, _, rfl, hres, Nat.le_refl size, ?_, fun p => rfl⟩
    refine List.pairwise_append.mpr ⟨h₁, .cons hl₂ h₂, fun a ha b hb => ?_⟩
    rcases List.mem_cons.mp hb with rfl | hb
    · exact (hl₁ a ha).le
    · exact h₁₂ a ha b hb
  · obtain ⟨h₁, h₂, h₁₂⟩ := List.pairwise_append.mp hdesc
    obtain ⟨hfirst, hrest⟩ := List.pairwise_cons.mp h₂
    refine ⟨l₁, [⟨position + size, m⟩], l₂, _, rfl, hres, Nat.le_add_right size m, ?_, fun p => ?_⟩
    · refine List.pairwise_append.mpr ⟨h₁, .cons (fun b hb => ?_) hrest, fun a ha b hb => ?_⟩
      · have hb' := List.mem_append_right l₁ (List.mem_cons_of_mem ⟨position + size, m⟩ hb)
        have hpos := hnone b hb'
        have hb₁ := hfirst b hb
        have hb₂ := hapart b hb'
        dsimp only at hb₁ ⊢
        omega
      · rcases List.mem_cons.mp hb with rfl | hb
        · have := h₁₂ a ha _ List.mem_cons_self
          dsimp only at this ⊢
          omega
        · exact h₁₂ a ha b (List.mem_cons_of_mem _ hb)
    · have := layers_split (o := position) (l := size) (m := m) (p := p)
      simp only [layers_mk, layers_nil, List.map_cons, List.map_nil, Wfs.extent] at this ⊢
      omega
  · obtain ⟨h₁, h₂, h₁₂⟩ := List.pairwise_append.mp hdesc
    obtain ⟨hfirst, hrest⟩ := List.pairwise_cons.mp h₂
    refine ⟨l₁, [⟨o, m⟩], l₂, _, rfl, hres, Nat.le_add_left size m, ?_, fun p => ?_⟩
    · refine List.pairwise_append.mpr ⟨h₁, .cons hfirst hrest, fun a ha b hb => ?_⟩
      rcases List.mem_cons.mp hb with rfl | hb
      · have := hl₁ a ha
        dsimp only
        omega
      · exact h₁₂ a ha b (List.mem_cons_of_mem _ hb)
    · have := layers_split (o := o) (l := m) (m := size) (p := p)
      simp only [layers_mk, layers_nil, List.map_cons, List.map_nil, Wfs.extent] at this ⊢
      omega

/-! ## One file -/

/-- The extents that are taken and the free space make up the file. -/
structure Kept (live : List Extent) (sfb : Sfb) : Prop where
  tiles : Tiles (live ++ sfb.fileSpace.map Wfs.extent) sfb.fileSize
  descends : Descends sfb.fileSpace
  noneEmpty : NoneEmpty sfb.fileSpace
  size_le : sfb.fileSize ≤ MAX_TEMPFILE_SIZE

namespace Kept

variable {live live' : List Extent} {sfb : Sfb} {o m k : ℕ}

theorem perm (h : Kept live sfb) (hperm : live.Perm live') : Kept live' sfb where
  tiles := h.tiles.perm (hperm.append_right _)
  descends := h.descends
  noneEmpty := h.noneEmpty
  size_le := h.size_le

theorem endsBy (h : Kept live sfb) : EndsBy sfb.fileSize sfb.fileSpace := fun a ha =>
  h.tiles.stop_le (List.mem_append_right _ (List.mem_map_of_mem ha)) (h.noneEmpty a ha)

theorem stop_le (h : Kept (⟨position, size⟩ :: live) sfb) (hsize : 0 < size) :
    position + size ≤ sfb.fileSize :=
  h.tiles.stop_le List.mem_cons_self hsize

theorem apartFrom (h : Kept (⟨position, size⟩ :: live) sfb) (hsize : 0 < size) :
    ApartFrom position size sfb.fileSpace := by
  intro a ha
  have hpos := h.noneEmpty a ha
  have hapart := (List.pairwise_cons.mp h.tiles.pairwise).1 a.extent
    (List.mem_append_right _ (List.mem_map_of_mem ha))
  simp only [Apart, stop, Wfs.extent] at hapart
  omega

/-- A part of an extent becomes an extent of its own. -/
theorem split (h : Kept (⟨o, size + m⟩ :: live) sfb) :
    Kept (⟨o + size, m⟩ :: ⟨o, size⟩ :: live) sfb where
  tiles := h.tiles.of_layers fun p => by
    simp only [List.cons_append, layers_mk, layers_append]
    have := layers_split (o := o) (l := size) (m := m) (p := p)
    simp only [layers_mk, layers_nil] at this
    omega
  descends := h.descends
  noneEmpty := h.noneEmpty
  size_le := h.size_le

/-- Space that is given back -/
theorem free (h : Kept (⟨position, size⟩ :: live) sfb) (hsize : 0 < size) :
    Kept live { sfb with fileSpace := freeSpace position size sfb.fileSpace } := by
  have hbound := h.stop_le hsize
  have hlt : sfb.fileSize < 4294967296 := lt_of_le_of_lt h.size_le (by decide)
  obtain ⟨l₁, old, l₂, new, hl, hres, hnew, hdesc, hlayers⟩ :=
    freeSpace_spec hlt hbound h.endsBy h.descends h.noneEmpty (h.apartFrom hsize)
  refine ⟨h.tiles.of_layers fun p => ?_, hres ▸ hdesc, ?_, h.size_le⟩
  · have := hlayers p
    dsimp only
    rw [hres, hl]
    simp only [layers_append, List.map_append, List.map_cons, List.cons_append, layers_cons,
      layers_nil] at this ⊢
    omega
  · have hnone := h.noneEmpty
    rw [hl] at hnone
    dsimp only
    rw [hres]
    intro a ha
    rcases List.mem_append.mp ha with ha | ha
    · exact hnone a (List.mem_append_left _ ha)
    · rcases List.mem_cons.mp ha with rfl | ha
      · exact lt_of_lt_of_le hsize hnew
      · exact hnone a (List.mem_append_right _ (List.mem_append_right _ ha))

/-- A piece that fits exactly -/
theorem eraseIdx (h : Kept live sfb) (hk : sfb.fileSpace[k]? = some ⟨o, m⟩) :
    Kept (⟨o, m⟩ :: live) { sfb with fileSpace := sfb.fileSpace.eraseIdx k } := by
  obtain ⟨hlt, hget⟩ := List.getElem?_eq_some_iff.mp hk
  refine ⟨h.tiles.perm ?_, h.descends.eraseIdx k, fun a ha => ?_, h.size_le⟩
  · have hperm : (sfb.fileSpace.map Wfs.extent).Perm
        (⟨o, m⟩ :: (sfb.fileSpace.eraseIdx k).map Wfs.extent) := by
      have := (List.getElem_cons_eraseIdx_perm hlt).symm.map Wfs.extent
      rwa [hget] at this
    exact (hperm.append_left live).trans List.perm_middle
  · exact h.noneEmpty a (List.mem_of_mem_eraseIdx ha)

/-- The end of a piece -/
theorem chop (h : Kept live sfb) (hk : sfb.fileSpace[k]? = some ⟨o, size + m⟩) (hsize : 0 < size) :
    Kept (⟨o + size, m⟩ :: live) { sfb with fileSpace := sfb.fileSpace.set k ⟨o, size⟩ } := by
  obtain ⟨hlt, hget⟩ := List.getElem?_eq_some_iff.mp hk
  refine ⟨h.tiles.of_layers fun p => ?_, ?_, fun a ha => ?_, h.size_le⟩
  · have hset := ((List.set_perm_cons_eraseIdx hlt ⟨o, size⟩).map Wfs.extent)
    have hold := ((List.getElem_cons_eraseIdx_perm hlt).map Wfs.extent)
    rw [hget] at hold
    have hsplit := layers_split (o := o) (l := size) (m := m) (p := p)
    simp only [layers_append, List.cons_append, layers_mk, layers_nil, layers_perm hset,
      ← layers_perm hold, List.map_cons, Wfs.extent] at hsplit ⊢
    omega
  · -- the piece starts where it did and ends before
    have hdesc := List.pairwise_iff_getElem.mp h.descends
    refine List.pairwise_iff_getElem.mpr fun i j hi hj hij => ?_
    rw [List.length_set] at hi hj
    have hlij := hdesc i j hi hj hij
    rw [List.getElem_set, List.getElem_set]
    split
    · rename_i hjk
      subst hjk
      rw [if_neg (by omega)]
      rw [hget] at hlij
      dsimp only at hlij ⊢
      omega
    · split
      · rename_i hik
        subst hik
        rwa [hget] at hlij
      · exact hlij
  · rcases List.mem_or_eq_of_mem_set ha with ha | rfl
    · exact h.noneEmpty a ha
    · exact hsize

/-- The file grows. -/
theorem atEnd (h : Kept live sfb) (hbound : sfb.fileSize + size ≤ MAX_TEMPFILE_SIZE) :
    Kept (⟨sfb.fileSize, size⟩ :: live) { sfb with fileSize := sfb.fileSize + size } where
  tiles := h.tiles.extend size
  descends := h.descends
  noneEmpty := h.noneEmpty
  size_le := hbound

end Kept

/-! ## All files -/

variable {taken taken' : List (ℕ × Extent)} {sfb : Sfb}

/-- The extents of a file: each that is taken is given with the number of its file. -/
def liveIn (taken : List (ℕ × Extent)) (i : ℕ) : List Extent :=
  (taken.filter fun r => r.1 = i).map Prod.snd

theorem liveIn_cons_self (i : ℕ) (a : Extent) :
    liveIn ((i, a) :: taken) i = a :: liveIn taken i := by
  rw [liveIn, List.filter_cons_of_pos (by simp)]
  rfl

theorem liveIn_cons_of_ne {i j : ℕ} (a : Extent) (h : i ≠ j) :
    liveIn ((i, a) :: taken) j = liveIn taken j := by
  rw [liveIn, List.filter_cons_of_neg (by simpa using h)]
  rfl

/-- The extents that are taken lie in the files, and in every file they and the free space make up
the file. -/
structure FilesKept (taken : List (ℕ × Extent)) (files : List Sfb) : Prop where
  kept : ∀ i sfb, files[i]? = some sfb → Kept (liveIn taken i) sfb
  inFiles : ∀ r ∈ taken, r.1 < files.length ∧ 0 < r.2.length

namespace FilesKept

theorem nil : FilesKept [] [] := ⟨nofun, nofun⟩

theorem perm (h : FilesKept taken files) (hperm : taken.Perm taken') : FilesKept taken' files where
  kept j sfb hj := (h.kept j sfb hj).perm ((hperm.filter _).map _)
  inFiles r hr := h.inFiles r (hperm.mem_iff.mpr hr)

/-- A new file has nothing in it. -/
theorem liveIn_length (h : FilesKept taken files) : liveIn taken files.length = [] := by
  rw [liveIn, List.map_eq_nil_iff, List.filter_eq_nil_iff]
  intro r hr
  have := (h.inFiles r hr).1
  simpa using this.ne

theorem append_new (h : FilesKept taken files) : FilesKept taken (files ++ [⟨0, []⟩]) where
  kept j sfb hj := by
    rcases Nat.lt_or_ge j files.length with hlt | hge
    · rw [List.getElem?_append_left hlt] at hj
      exact h.kept j sfb hj
    · rw [List.getElem?_append_right hge] at hj
      obtain ⟨hlt, rfl⟩ := List.getElem?_eq_some_iff.mp hj
      obtain rfl : j = files.length := by
        rw [List.length_singleton] at hlt
        omega
      rw [h.liveIn_length, List.getElem_singleton]
      exact ⟨tiles_nil, .nil, nofun, Nat.zero_le _⟩
  inFiles r hr := by
    obtain ⟨hlt, hpos⟩ := h.inFiles r hr
    rw [List.length_append]
    exact ⟨by omega, hpos⟩

/-- A change to one file -/
theorem modify (h : FilesKept taken files) {f : Sfb → Sfb}
    (hne : ∀ j, j ≠ i → liveIn taken' j = liveIn taken j)
    (hi : ∀ sfb, files[i]? = some sfb → Kept (liveIn taken' i) (f sfb))
    (hin : ∀ r ∈ taken', r.1 < files.length ∧ 0 < r.2.length) :
    FilesKept taken' (files.modify i f) where
  kept j sfb hj := by
    rw [List.getElem?_modify] at hj
    by_cases hij : i = j
    · subst hij
      obtain ⟨sfb', hsfb, rfl⟩ := Option.map_eq_some_iff.mp hj
      rw [if_pos rfl]
      exact hi sfb' hsfb
    · obtain ⟨sfb', hsfb, rfl⟩ := Option.map_eq_some_iff.mp hj
      rw [if_neg hij, hne j (Ne.symm hij)]
      exact h.kept j sfb' hsfb
  inFiles r hr := by
    rw [List.length_modify]
    exact hin r hr

/-- An extent that is taken of one file -/
theorem take (h : FilesKept taken files) {f : Sfb → Sfb} {a : Extent} (hsfb : files[i]? = some sfb)
    (ha : 0 < a.length) (hi : Kept (a :: liveIn taken i) (f sfb)) :
    FilesKept ((i, a) :: taken) (files.modify i f) := by
  refine h.modify (fun j hj => liveIn_cons_of_ne a hj.symm) (fun sfb' hsfb' => ?_) ?_
  · obtain rfl := Option.some.inj (hsfb.symm.trans hsfb')
    rwa [liveIn_cons_self]
  · rintro r (_ | ⟨_, hr⟩)
    · exact ⟨(List.getElem?_eq_some_iff.mp hsfb).1, ha⟩
    · exact h.inFiles r hr

theorem stop_le (h : FilesKept taken files) {r : ℕ × Extent} (hr : r ∈ taken) :
    r.2.stop ≤ MAX_TEMPFILE_SIZE := by
  obtain ⟨hlt, hpos⟩ := h.inFiles r hr
  have hkept := h.kept r.1 _ (List.getElem?_eq_getElem hlt)
  have hlive : r.2 ∈ liveIn taken r.1 :=
    List.mem_map_of_mem (List.mem_filter.mpr ⟨hr, decide_eq_true rfl⟩)
  exact (hkept.tiles.stop_le (List.mem_append_left _ hlive) hpos).trans hkept.size_le

/-- `free_file_space` -/
theorem freeFileSpace (h : FilesKept ((i, ⟨position, size⟩) :: taken) files) :
    FilesKept taken (freeFileSpace files i position size) := by
  refine h.modify (fun j hj => (liveIn_cons_of_ne _ hj.symm).symm) (fun sfb hsfb => ?_)
    fun r hr => h.inFiles r (List.mem_cons_of_mem _ hr)
  have hkept := h.kept i sfb hsfb
  rw [liveIn_cons_self] at hkept
  exact hkept.free (h.inFiles _ List.mem_cons_self).2

/-- What an extent is cut into -/
theorem split {o m : ℕ} (h : FilesKept ((i, ⟨o, size + m⟩) :: taken) files) (hsize : 0 < size)
    (hm : 0 < m) : FilesKept ((i, ⟨o + size, m⟩) :: (i, ⟨o, size⟩) :: taken) files where
  kept j sfb hj := by
    have hkept := h.kept j sfb hj
    by_cases hij : i = j
    · subst hij
      rw [liveIn_cons_self] at hkept
      rw [liveIn_cons_self, liveIn_cons_self]
      exact hkept.split
    · rw [liveIn_cons_of_ne _ hij] at hkept
      rwa [liveIn_cons_of_ne _ hij, liveIn_cons_of_ne _ hij]
  inFiles := by
    have hi := (h.inFiles _ List.mem_cons_self).1
    rintro r (_ | ⟨_, _ | ⟨_, hr⟩⟩)
    · exact ⟨hi, hm⟩
    · exact ⟨hi, hsize⟩
    · exact h.inFiles r (List.mem_cons_of_mem _ hr)

/-- What is taken after space has been looked for -/
def Found (taken : List (ℕ × Extent)) (size : ℕ) : List Sfb × Option (ℕ × ℕ) → Prop
  | (files, none) => FilesKept taken files
  | (files, some (i, position)) => FilesKept ((i, ⟨position, size⟩) :: taken) files

theorem atEnd (h : FilesKept taken files) (hsfb : files[i]? = some sfb) (hsize : 0 < size)
    (hle : sfb.fileSize + size ≤ MAX_TEMPFILE_SIZE) :
    Found taken size (atEnd files i sfb size) := by
  have hlt : sfb.fileSize + size < 4294967296 := lt_of_le_of_lt hle (by decide)
  rw [Scratch.atEnd, ulong_eq hlt, usub_eq (by omega) hlt, Nat.add_sub_cancel]
  refine h.take hsfb hsize ?_
  rw [ulong_eq hlt]
  exact (h.kept i sfb hsfb).atEnd hle

theorem newFile (h : FilesKept taken files) (hsize : 0 < size) (hle : size ≤ MAX_TEMPFILE_SIZE)
    (dls : Dls) : Found taken size (newFile files size dls) := by
  rw [Scratch.newFile]
  split
  · exact h
  · split
    · exact h.append_new
    · refine h.append_new.atEnd ?_ hsize ?_
      · exact List.getElem?_concat_length
      · rwa [Nat.zero_add]

/-- `find_file_space` -/
theorem findFileSpace (h : FilesKept taken files) (hsize : 0 < size)
    (hle : size ≤ MAX_TEMPFILE_SIZE) (dls : Dls) :
    Found taken size (findFileSpace files size dls) := by
  rw [Scratch.findFileSpace]
  split
  · split
    · exact h.newFile hsize hle dls
    · rename_i sfb hlast
      have hsfb : files[files.length - 1]? = some sfb := by
        rw [← List.getLast?_eq_getElem?, hlast]
      have hbound := (h.kept _ sfb hsfb).size_le
      split
      · exact h.newFile hsize hle dls
      · rename_i hfits
        refine h.atEnd hsfb hsize ?_
        have hlt : sfb.fileSize + size < 4294967296 := by
          unfold MAX_TEMPFILE_SIZE at hle hbound
          omega
        rw [ulong_eq hlt] at hfits
        simp only [Bool.or_eq_true, decide_eq_true_eq, not_or, Nat.not_le] at hfits
        exact hfits.2.le
  · rename_i best hbest
    obtain hnone | ⟨k, sfb, hk, hsfb, hspace, hfits⟩ := searchFiles_spec hbest
    · cases hnone
    · rw [Nat.zero_add] at hk
      subst hk
      have hkept := h.kept _ sfb hsfb
      obtain ⟨⟨i, ptr, o, m⟩, rfl⟩ : ∃ b, best = b := ⟨_, rfl⟩
      dsimp only at hsfb hspace hfits hkept ⊢
      split
      · rename_i hexact
        subst hexact
        exact h.take hsfb hsize (hkept.eraseIdx hspace)
      · rename_i hne
        have hstop : o + m ≤ MAX_TEMPFILE_SIZE :=
          (hkept.endsBy _ (List.mem_of_getElem? hspace)).trans hkept.size_le
        have hlt : o + m < 4294967296 := lt_of_le_of_lt hstop (by decide)
        rw [usub_eq hfits (by omega), ulong_eq (by omega)]
        have hm : m = (m - size) + size := by omega
        rw [hm] at hspace
        exact h.take hsfb hsize (hkept.chop hspace (by omega))

end FilesKept

end Firebird.Scratch
