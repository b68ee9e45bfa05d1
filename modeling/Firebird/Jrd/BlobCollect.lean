import Firebird.Jrd.BlobPages
import Firebird.Lib.Outcome

/-! # Garbage collection of blobs (`BLB_garbage_collect`)

The images of a record that go are searched for blobs. A blob found is taken out of the images that
go behind it, and is deleted if none of those that stay has it. The images that stay, and the other
ones that go, are compared by the eight bytes at the same field position, whatever the type of the
field is there.
-/

namespace Firebird.Blb

/-- `bid`: the identifier of a blob -/
structure Bid where
  relationId : ℕ
  number : ℕ
deriving DecidableEq

/-- `bid::isEmpty` -/
def Bid.isEmpty (blob : Bid) : Bool := blob.relationId = 0 && blob.number = 0

/-- `dsc`: the type of a field and its offset in the record -/
structure Dsc where
  dtype : ℕ
  address : ℕ

/-- `DTYPE_IS_BLOB`: `dtype_blob`, `dtype_array` -/
def dtypeIsBlob (dtype : ℕ) : Bool := dtype = 17 || dtype = 18

/-- `rec`: an image of a record, with the null flags of its fields, and the eight bytes at each
offset as the identifier of a blob -/
structure Rec where
  format : List Dsc
  null : ℕ → Bool
  data : ℕ → Bid

/-- `EVL_field` without a relation: what is at the address, if the field exists and is not null -/
def evlField : Option Rec → ℕ → Option Bid
  | none, _ => none
  | some rec, id =>
      match rec.format[id]? with
      | none => none
      | some desc =>
          if desc.dtype = 0 then none
          else if desc.address = 0 then none
          else if rec.null id then none
          else some (rec.data desc.address)

/-- `SET_NULL` -/
def Rec.setNull (rec : Rec) (id : ℕ) : Rec := { rec with null := Function.update rec.null id true }

/-- The blob in a field of an image that goes, if the field has a blob type -/
def blobField (rec : Rec) (id : ℕ) : Option Bid :=
  match rec.format[id]? with
  | none => none
  | some desc => if dtypeIsBlob desc.dtype then evlField (some rec) id else none

/-- The blob is cancelled out of the remaining records on the way out. -/
def cancel (blob : Bid) (id : ℕ) (going : List (Option Rec)) : List (Option Rec) :=
  going.map fun rec => if evlField rec id = some blob then rec.map fun r => r.setNull id else rec

/-- The blob is in a record remaining. -/
def stays (blob : Bid) (id : ℕ) (staying : List (Option Rec)) : Bool :=
  staying.any fun rec => evlField rec id = some blob

/-- `CORRUPT (200)`, invalid blob id -/
inductive Corrupt where
  | invalidBlobId

/-- `delete_blob_id`, up to the blob that is fetched and deleted -/
def deleteBlobId (relId : ℕ) (deleted : List Bid) (blob : Bid) : Except Corrupt (List Bid) :=
  if blob.isEmpty then .ok deleted
  else if blob.relationId ≠ relId then .error .invalidBlobId
  else .ok (deleted ++ [blob])

/-- One field of a record on the way out -/
def collectField (relId : ℕ) (staying : List (Option Rec)) (rec : Rec)
    (s : List (Option Rec) × List Bid) (id : ℕ) : Except Corrupt (List (Option Rec) × List Bid) :=
  match blobField rec id with
  | none => .ok s
  | some blob =>
      let going := cancel blob id s.1
      if stays blob id staying then .ok (going, s.2)
      else (deleteBlobId relId s.2 blob).map fun deleted => (going, deleted)

/-- The loop over the records on the way out -/
def collect (relId : ℕ) (staying : List (Option Rec)) :
    ℕ → List (Option Rec) → List Bid → Except Corrupt (List Bid)
  | turns + 1, some rec :: going, deleted =>
      ((List.range rec.format.length).foldlM (collectField relId staying rec)
        (going, deleted)).bind fun (going, deleted) => collect relId staying turns going deleted
  | turns + 1, none :: going, deleted => collect relId staying turns going deleted
  | _, _, deleted => .ok deleted

/-- `BLB_garbage_collect`: the blobs deleted, in their order -/
def garbageCollect (relId : ℕ) (going staying : List (Option Rec)) : Except Corrupt (List Bid) :=
  collect relId staying going.length going []

/-! ### What refers to a blob -/

/-- Some image has the blob in the field. -/
def HasBlob (recs : List (Option Rec)) (id : ℕ) (blob : Bid) : Prop :=
  ∃ rec, some rec ∈ recs ∧ blobField rec id = some blob

instance (recs : List (Option Rec)) (id : ℕ) (blob : Bid) : Decidable (HasBlob recs id blob) :=
  decidable_of_iff (∃ rec ∈ recs, rec.bind (fun r => blobField r id) = some blob) <| by
    constructor
    · rintro ⟨rec, hmem, hblob⟩
      obtain ⟨r, rfl, hr⟩ := Option.bind_eq_some_iff.mp hblob
      exact ⟨r, hmem, hr⟩
    · rintro ⟨r, hmem, hblob⟩
      exact ⟨some r, hmem, hblob⟩

/-- Some image refers to the blob. -/
def Refers (recs : List (Option Rec)) (blob : Bid) : Prop := ∃ id, HasBlob recs id blob

/-- The images are of one relation: their blobs are of the relation or empty, and a blob is in the
same field of all images that refer to it. -/
structure OneRelation (relId : ℕ) (going staying : List (Option Rec)) : Prop where
  ofRelation : ∀ blob, Refers going blob → blob.isEmpty ∨ blob.relationId = relId
  sameField : ∀ blob id id', HasBlob (going ++ staying) id blob →
    HasBlob (going ++ staying) id' blob → blob.isEmpty ∨ id = id'

/-! ### What is deleted -/

section

variable {relId : ℕ} {going staying : List (Option Rec)} {rec : Rec} {deleted : List Bid}
  {blob v : Bid} {id : ℕ}

theorem blobField_eq (h : blobField rec id = some v) :
    id < rec.format.length ∧ evlField (some rec) id = some v := by
  rw [blobField] at h
  cases hdesc : rec.format[id]? with
  | none =>
    rw [hdesc] at h
    exact (Option.some_ne_none v h.symm).elim
  | some desc =>
    rw [hdesc] at h
    dsimp only at h
    split_ifs at h
    exact ⟨(List.getElem?_eq_some_iff.mp hdesc).1, h⟩

theorem evlField_setNull (rec : Rec) (id id' : ℕ) : evlField (some (rec.setNull id)) id' =
    if id' = id then none else evlField (some rec) id' := by
  rw [evlField, Rec.setNull, evlField]
  dsimp only
  by_cases h : id' = id
  · subst h
    rw [if_pos rfl]
    cases rec.format[id']? with
    | none => rfl
    | some desc => simp
  · rw [if_neg h]
    simp only [Function.update_of_ne h]

theorem blobField_setNull (rec : Rec) (id id' : ℕ) : blobField (rec.setNull id) id' =
    if id' = id then none else blobField rec id' := by
  rw [blobField, blobField, evlField_setNull]
  change (match rec.format[id']? with
    | none => none
    | some desc => if dtypeIsBlob desc.dtype then _ else none) = _
  cases rec.format[id']? with
  | none => simp
  | some desc =>
    dsimp only
    split_ifs <;> rfl

/-- Only the blob cancelled disappears, and only from its field. -/
theorem hasBlob_cancel {id' : ℕ} : HasBlob (cancel blob id going) id' v ↔
    HasBlob going id' v ∧ ¬(id' = id ∧ v = blob) := by
  constructor
  · rintro ⟨rec, hmem, hv⟩
    obtain ⟨rec', hmem', heq⟩ := List.mem_map.mp hmem
    split_ifs at heq with hblob
    · obtain ⟨r, rfl, rfl⟩ := Option.map_eq_some_iff.mp heq
      rw [blobField_setNull] at hv
      split_ifs at hv with hid
      exact ⟨⟨r, hmem', hv⟩, fun h => hid h.1⟩
    · subst heq
      refine ⟨⟨rec, hmem', hv⟩, ?_⟩
      rintro ⟨rfl, rfl⟩
      exact hblob (blobField_eq hv).2
  · rintro ⟨⟨r, hmem, hv⟩, hne⟩
    by_cases hblob : evlField (some r) id = some blob
    · refine ⟨r.setNull id, List.mem_map.mpr ⟨some r, hmem, ?_⟩, ?_⟩
      · rw [if_pos hblob]
        rfl
      · rw [blobField_setNull, if_neg]
        · exact hv
        · rintro rfl
          exact hne ⟨rfl, Option.some.inj ((blobField_eq hv).2.symm.trans hblob)⟩
    · exact ⟨r, List.mem_map.mpr ⟨some r, hmem, if_neg hblob⟩, hv⟩

/-- One field: its blob disappears from the images behind, and is deleted if it does not stay. -/
theorem collectField_spec (hrel : ∀ blob, blobField rec id = some blob →
      blob.isEmpty ∨ blob.relationId = relId) (staying going : List (Option Rec))
    (deleted : List Bid) :
    ∃ going' deleted', collectField relId staying rec (going, deleted) id = .ok (going', deleted') ∧
      going'.length = going.length ∧
      (∀ id' v, HasBlob going' id' v ↔
        HasBlob going id' v ∧ ¬(id' = id ∧ blobField rec id = some v)) ∧
      ∀ v, v.isEmpty = false → deleted'.count v = deleted.count v +
        if blobField rec id = some v ∧ stays v id staying = false then 1 else 0 := by
  rw [collectField]
  cases hfield : blobField rec id with
  | none => exact ⟨going, deleted, rfl, rfl, fun id' v => by simp, fun v _ => by simp⟩
  | some blob =>
    have hiff : ∀ id' v, HasBlob (cancel blob id going) id' v ↔
        HasBlob going id' v ∧ ¬(id' = id ∧ some blob = some v) := by
      intro id' v
      rw [hasBlob_cancel, Option.some.injEq, eq_comm (a := v)]
    have hlength : (cancel blob id going).length = going.length := List.length_map _
    dsimp only
    split_ifs with hstays
    · refine ⟨_, _, rfl, hlength, hiff, fun v _ => ?_⟩
      rw [if_neg, Nat.add_zero]
      rintro ⟨heq, hno⟩
      obtain rfl := Option.some.inj heq
      exact Bool.false_ne_true (hno.symm.trans hstays)
    · rw [deleteBlobId]
      split_ifs with hempty hother
      · refine ⟨_, _, rfl, hlength, hiff, fun v hv => ?_⟩
        rw [if_neg, Nat.add_zero]
        rintro ⟨heq, -⟩
        obtain rfl := Option.some.inj heq
        exact Bool.false_ne_true (hv.symm.trans hempty)
      · exact ((hrel blob hfield).elim hempty hother).elim
      · refine ⟨_, _, rfl, hlength, hiff, fun v _ => ?_⟩
        rw [List.count_append, List.count_singleton]
        congr 1
        by_cases heq : blob = v
        · subst heq
          simp [eq_false_of_ne_true hstays]
        · simp [heq]

/-- The fields of one image: a blob that is in one field only is deleted once if it does not stay. -/
theorem collectFields_spec (hrel : ∀ id blob, blobField rec id = some blob →
      blob.isEmpty ∨ blob.relationId = relId) (ids : List ℕ) (hids : ids.Nodup)
    (staying going : List (Option Rec)) (deleted : List Bid) :
    ∃ going' deleted',
      ids.foldlM (collectField relId staying rec) (going, deleted) = .ok (going', deleted') ∧
      going'.length = going.length ∧
      (∀ id v, HasBlob going' id v ↔
        HasBlob going id v ∧ ¬(id ∈ ids ∧ blobField rec id = some v)) ∧
      ∀ v i, v.isEmpty = false → (∀ id, blobField rec id = some v → id = i) →
        deleted'.count v = deleted.count v +
          if i ∈ ids ∧ blobField rec i = some v ∧ stays v i staying = false then 1 else 0 := by
  induction ids generalizing going deleted with
  | nil => exact ⟨going, deleted, rfl, rfl, fun id v => by simp, fun v i _ _ => by simp⟩
  | cons id ids ih =>
    rw [List.nodup_cons] at hids
    obtain ⟨going₁, deleted₁, hfield, hlength₁, hhas₁, hcount₁⟩ :=
      collectField_spec (hrel id) staying going deleted
    obtain ⟨going', deleted', hrest, hlength, hhas, hcount⟩ := ih hids.2 going₁ deleted₁
    refine ⟨going', deleted', ?_, hlength.trans hlength₁, fun id' v => ?_, fun v i hv hi => ?_⟩
    · rw [List.foldlM_cons, hfield]
      exact hrest
    · rw [hhas, hhas₁, List.mem_cons]
      constructor
      · rintro ⟨⟨hgoing, hno⟩, hno'⟩
        refine ⟨hgoing, ?_⟩
        rintro ⟨rfl | hmem, hblob⟩
        · exact hno ⟨rfl, hblob⟩
        · exact hno' ⟨hmem, hblob⟩
      · rintro ⟨hgoing, hno⟩
        refine ⟨⟨hgoing, ?_⟩, fun h => hno ⟨.inr h.1, h.2⟩⟩
        rintro ⟨rfl, hblob⟩
        exact hno ⟨.inl rfl, hblob⟩
    · rw [hcount v i hv hi, hcount₁ v hv, Nat.add_assoc]
      congr 1
      by_cases hid : i = id
      · subst hid
        rw [if_neg (c := i ∈ ids ∧ _) fun h => hids.1 h.1, Nat.add_zero]
        simp only [List.mem_cons_self, true_and]
      · rw [if_neg (c := blobField rec id = some v ∧ _) fun h => hid (hi id h.1).symm, Nat.zero_add]
        simp only [List.mem_cons, hid, false_or]

/-- The images that go: a blob that is in one field only is deleted once if it does not stay. -/
theorem collect_spec {turns : ℕ} (staying : List (Option Rec)) (deleted : List Bid)
    (hturns : going.length ≤ turns)
    (hrel : ∀ blob, Refers going blob → blob.isEmpty ∨ blob.relationId = relId) :
    ∃ deleted', collect relId staying turns going deleted = .ok deleted' ∧
      ∀ v i, v.isEmpty = false → (∀ id, HasBlob going id v → id = i) →
        deleted'.count v = deleted.count v +
          if HasBlob going i v ∧ stays v i staying = false then 1 else 0 := by
  induction turns generalizing going deleted with
  | zero =>
    obtain rfl := List.length_eq_zero_iff.mp (Nat.le_zero.mp hturns)
    refine ⟨deleted, rfl, fun v i _ _ => ?_⟩
    rw [if_neg, Nat.add_zero]
    rintro ⟨⟨rec, hmem, -⟩, -⟩
    exact List.not_mem_nil hmem
  | succ turns ih =>
    cases going with
    | nil =>
      refine ⟨deleted, rfl, fun v i _ _ => ?_⟩
      rw [if_neg, Nat.add_zero]
      rintro ⟨⟨rec, hmem, -⟩, -⟩
      exact List.not_mem_nil hmem
    | cons head going =>
      have hlen : going.length ≤ turns := Nat.le_of_succ_le_succ hturns
      cases head with
      | none =>
        have hiff : ∀ id v, HasBlob (none :: going) id v ↔ HasBlob going id v := by
          intro id v
          constructor
          · rintro ⟨r, hmem, hr⟩
            exact ⟨r, (List.mem_cons.mp hmem).resolve_left (Option.some_ne_none r), hr⟩
          · rintro ⟨r, hmem, hr⟩
            exact ⟨r, List.mem_cons_of_mem _ hmem, hr⟩
        obtain ⟨deleted', hrest, hcount⟩ := ih deleted hlen fun blob h =>
          hrel blob (h.imp fun id hid => (hiff id blob).mpr hid)
        refine ⟨deleted', hrest, fun v i hv hi => ?_⟩
        rw [hcount v i hv fun id hid => hi id ((hiff id v).mpr hid)]
        simp only [hiff]
      | some rec =>
        have hiff : ∀ id v, HasBlob (some rec :: going) id v ↔
            blobField rec id = some v ∨ HasBlob going id v := by
          intro id v
          constructor
          · rintro ⟨r, hmem, hr⟩
            rcases List.mem_cons.mp hmem with heq | hmem
            · obtain rfl := Option.some.inj heq
              exact .inl hr
            · exact .inr ⟨r, hmem, hr⟩
          · rintro (hr | ⟨r, hmem, hr⟩)
            · exact ⟨rec, List.mem_cons_self, hr⟩
            · exact ⟨r, List.mem_cons_of_mem _ hmem, hr⟩
        obtain ⟨going', deleted₁, hfields, hlength, hhas, hcount₁⟩ :=
          collectFields_spec (fun id blob h => hrel blob ⟨id, (hiff id blob).mpr (.inl h)⟩)
            (List.range rec.format.length) List.nodup_range staying going deleted
        obtain ⟨deleted', hrest, hcount⟩ := ih deleted₁ (hlength ▸ hlen) fun blob ⟨id, hid⟩ =>
          hrel blob ⟨id, (hiff id blob).mpr (.inr ((hhas id blob).mp hid).1)⟩
        refine ⟨deleted', ?_, fun v i hv hi => ?_⟩
        · rw [collect, hfields]
          exact hrest
        · have hi' : ∀ id, HasBlob going' id v → id = i := fun id hid =>
            hi id ((hiff id v).mpr (.inr ((hhas id v).mp hid).1))
          rw [hcount v i hv hi', hcount₁ v i hv fun id hid => hi id ((hiff id v).mpr (.inl hid)),
            Nat.add_assoc]
          congr 1
          simp only [hhas, hiff]
          by_cases hblob : blobField rec i = some v
          · have hmem := List.mem_range.mpr (blobField_eq hblob).1
            simp only [hmem, hblob, true_and, true_or, and_true, not_true, and_false, false_and,
              if_false, Nat.add_zero]
          · simp only [hblob, false_and, and_false, not_false_eq_true, and_true, if_false,
              Nat.zero_add, false_or]

theorem HasBlob.stays (h : HasBlob staying id v) : stays v id staying = true := by
  obtain ⟨rec, hmem, hblob⟩ := h
  rw [Blb.stays, List.any_eq_true]
  exact ⟨some rec, hmem, decide_eq_true (blobField_eq hblob).2⟩

theorem HasBlob.append_left (h : HasBlob going id v) : HasBlob (going ++ staying) id v :=
  h.imp fun _ h => ⟨List.mem_append_left _ h.1, h.2⟩

theorem HasBlob.append_right (h : HasBlob staying id v) : HasBlob (going ++ staying) id v :=
  h.imp fun _ h => ⟨List.mem_append_right _ h.1, h.2⟩

/-- The blobs that only images on the way out refer to are deleted, once each, and no others. -/
def Collected (going staying : List (Option Rec)) (deleted : List Bid) : Prop :=
  ∀ blob, blob.isEmpty = false →
    (Refers going blob ∧ ¬Refers staying blob → deleted.count blob = 1) ∧
    (¬Refers going blob ∨ Refers staying blob → deleted.count blob = 0)

theorem collected_iff (h : OneRelation relId going staying) :
    (∃ deleted, garbageCollect relId going staying = .ok deleted ∧
      Collected going staying deleted) ↔
    ∀ id blob, blob.isEmpty = false → HasBlob going id blob → stays blob id staying = true →
      Refers staying blob := by
  obtain ⟨deleted, hcollect, hcount⟩ :=
    collect_spec staying [] (Nat.le_refl _) h.ofRelation
  have honly : ∀ {id v}, v.isEmpty = false → HasBlob going id v → ∀ id', HasBlob going id' v →
      id' = id := by
    intro id v hv hid id' hid'
    exact (h.sameField v id' id hid'.append_left hid.append_left).resolve_left
      fun he => Bool.false_ne_true (hv.symm.trans he)
  constructor
  · rintro ⟨deleted', hcollect', hall⟩ id v hv hid hstays
    obtain rfl := Except.ok.inj (hcollect.symm.trans hcollect')
    by_contra hno
    have hone := (hall v hv).1 ⟨⟨id, hid⟩, hno⟩
    rw [hcount v id hv (honly hv hid), if_neg fun h =>
      Bool.false_ne_true (h.2.symm.trans hstays)] at hone
    rw [List.count_nil] at hone
    exact absurd hone (by decide)
  · intro hall
    refine ⟨deleted, hcollect, fun v hv => ⟨?_, ?_⟩⟩
    · rintro ⟨⟨id, hid⟩, hno⟩
      have hstays : stays v id staying = false :=
        eq_false_of_ne_true fun hs => hno (hall id v hv hid hs)
      rw [hcount v id hv (honly hv hid), if_pos ⟨hid, hstays⟩]
      rfl
    · intro hcase
      by_cases hgoing : Refers going v
      · obtain ⟨id, hid⟩ := hgoing
        obtain ⟨id', hid'⟩ := hcase.resolve_left fun hno => hno ⟨id, hid⟩
        obtain rfl := (h.sameField v id' id hid'.append_right hid.append_left).resolve_left
          fun he => Bool.false_ne_true (hv.symm.trans he)
        rw [hcount v id' hv (honly hv hid), if_neg fun h =>
          Bool.false_ne_true (h.2.symm.trans hid'.stays)]
        rfl
      · rw [hcount v 0 hv fun id hid => (hgoing ⟨id, hid⟩).elim, if_neg fun h => hgoing ⟨0, h.1⟩]
        rfl

end

/-- The collection deletes what it should if no image that stays has, in a field that is not a blob,
the eight bytes of a blob that goes at the same position. Every page of a blob is released once. -/
theorem garbage_collect_iff (relId : ℕ) (going staying : List (Option Rec)) :
    (OneRelation relId going staying →
      ((∃ deleted, garbageCollect relId going staying = .ok deleted ∧
        Collected going staying deleted) ↔
      ∀ id blob, blob.isEmpty = false → HasBlob going id blob → stays blob id staying = true →
        Refers staying blob)) ∧
    ∀ (z : PageSize) (alloc : ℕ → ℕ), Function.Injective alloc → (∀ n, alloc n ≠ 0) →
      ∀ (words : ℕ → ℕ → ℕ) (images : List (ℕ → ℕ)) (priorPage : ℕ),
        let s := images.foldl (Blob.insertPage z alloc) (Blob.medium words)
        ((s.delete z priorPage).map Prod.fst).Perm ((List.range s.allocated).map alloc) := by
  refine ⟨fun h => collected_iff h, ?_⟩
  intro z alloc halloc h0 words images priorPage
  obtain ⟨data, hdata⟩ := inv_pages (z := z) halloc words images
  exact delete_perm h0 hdata priorPage

/-! ### A field of another type -/

/-- An image with one field -/
def image (dtype : ℕ) (blob : Bid) : Rec := ⟨[⟨dtype, 8⟩], fun _ => false, fun _ => blob⟩

theorem blobField_image {dtype id : ℕ} {blob v : Bid} (h : blobField (image dtype blob) id = some v) :
    id = 0 ∧ v = blob ∧ dtypeIsBlob dtype = true := by
  have hid : id = 0 := by
    have := (blobField_eq h).1
    change id < 1 at this
    omega
  subst hid
  change (if dtypeIsBlob dtype then
    if dtype = 0 then none else if 8 = 0 then none else if false then none else some blob
    else none) = some v at h
  split_ifs at h with hblob
  exact ⟨rfl, (Option.some.inj h).symm, hblob⟩

/-- Images with one field each -/
def images (fields : List (ℕ × Bid)) : List (Option Rec) :=
  fields.map fun field => some (image field.1 field.2)

theorem hasBlob_images {fields : List (ℕ × Bid)} {id : ℕ} {v : Bid}
    (h : HasBlob (images fields) id v) :
    id = 0 ∧ ∃ dtype, (dtype, v) ∈ fields ∧ dtypeIsBlob dtype = true := by
  obtain ⟨rec, hmem, hblob⟩ := h
  obtain ⟨⟨dtype, blob⟩, hfield, heq⟩ := List.mem_map.mp hmem
  obtain rfl := Option.some.inj heq
  obtain ⟨hid, rfl, hdtype⟩ := blobField_image hblob
  exact ⟨hid, dtype, hfield, hdtype⟩

theorem oneRelation_images {relId : ℕ} {going staying : List (ℕ × Bid)}
    (h : ∀ field ∈ going, field.2.relationId = relId) :
    OneRelation relId (images going) (images staying) where
  ofRelation blob hblob := by
    obtain ⟨id, hid⟩ := hblob
    obtain ⟨-, dtype, hfield, -⟩ := hasBlob_images hid
    exact .inr (h _ hfield)
  sameField blob id id' hid hid' := by
    rw [images, images, ← List.map_append] at hid hid'
    exact .inr ((hasBlob_images hid).1.trans (hasBlob_images hid').1.symm)

/-- A blob of 300 pages, which are allocated in order -/
def large : Blob := (List.replicate 300 fun _ => 0).foldl
  (Blob.insertPage ⟨1024, Nat.le_refl _⟩ Nat.succ) (Blob.medium fun _ _ => 0)

/-- A blob in two images that go is deleted once, when the one that stays has another blob; the
pages of a blob of level 2 are released. -/
theorem garbage_collect_twice :
    (∃ deleted, garbageCollect 7 (images [(17, ⟨7, 1⟩), (17, ⟨7, 1⟩)]) (images [(17, ⟨7, 2⟩)]) =
        .ok deleted ∧
      Collected (images [(17, ⟨7, 1⟩), (17, ⟨7, 1⟩)]) (images [(17, ⟨7, 2⟩)]) deleted) ∧
    ((large.delete ⟨1024, Nat.le_refl _⟩ 5).map Prod.fst).Perm
      ((List.range large.allocated).map Nat.succ) := by
  refine ⟨((garbage_collect_iff 7 _ _).1 (oneRelation_images ?_)).mpr ?_,
    (garbage_collect_iff 7 [] []).2 ⟨1024, Nat.le_refl _⟩ Nat.succ (fun _ _ => Nat.succ.inj) Nat.succ_ne_zero _ _ 5⟩
  · decide
  · rintro id blob - hid hstays
    obtain ⟨rfl, dtype, hfield, -⟩ := hasBlob_images hid
    have hblob : dtype = 17 ∧ blob = ⟨7, 1⟩ := by
      simpa using hfield
    rw [hblob.2] at hstays
    exact absurd hstays (by decide)

/-- A 64-bit integer (`dtype_int64`) in the image that stays has the bytes of the blob that goes, at
the same position: the blob is not deleted. -/
theorem garbage_collect_leaks :
    OneRelation 7 (images [(17, ⟨7, 1⟩)]) (images [(19, ⟨7, 1⟩)]) ∧
    ¬∃ deleted, garbageCollect 7 (images [(17, ⟨7, 1⟩)]) (images [(19, ⟨7, 1⟩)]) = .ok deleted ∧
      Collected (images [(17, ⟨7, 1⟩)]) (images [(19, ⟨7, 1⟩)]) deleted := by
  have hone : OneRelation 7 (images [(17, ⟨7, 1⟩)]) (images [(19, ⟨7, 1⟩)]) :=
    oneRelation_images (by decide)
  refine ⟨hone, fun h => ?_⟩
  obtain ⟨deleted, hdeleted, hall⟩ := h
  have hnone : garbageCollect 7 (images [(17, ⟨7, 1⟩)]) (images [(19, ⟨7, 1⟩)]) = .ok [] := rfl
  obtain rfl := Except.ok.inj (hnone.symm.trans hdeleted)
  have hgoing : Refers (images [(17, ⟨7, 1⟩)]) ⟨7, 1⟩ := ⟨0, _, List.mem_cons_self, rfl⟩
  have hstaying : ¬Refers (images [(19, ⟨7, 1⟩)]) ⟨7, 1⟩ := by
    rintro ⟨id, hid⟩
    obtain ⟨-, dtype, hfield, hdtype⟩ := hasBlob_images hid
    have h19 : dtype = 19 := by
      simpa using hfield
    subst h19
    exact absurd hdtype (by decide)
  exact absurd ((hall ⟨7, 1⟩ rfl).1 ⟨hgoing, hstaying⟩) (by decide)

end Firebird.Blb
