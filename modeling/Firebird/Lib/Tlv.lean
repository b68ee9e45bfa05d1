import Firebird.Lib.Bytes
import Firebird.Lib.Memory

/-! # Lists of tagged entries

An entry is a tag, the length of its data and the data; a list of entries ends where a tag would
be zero. What stands in a memory is one list at most. The last entry with a given tag is found by
going along the list, and can be taken out by moving the rest down.
-/

namespace Firebird

namespace Tlv

/-- An entry: its tag is not the end mark, and its length fits into a byte. -/
structure Entry where
  tag : UCHAR
  data : List UCHAR
  tag_ne : tag ≠ 0
  length_le : data.length ≤ 255

/-- An entry as it stands in a memory -/
def Entry.image (e : Entry) : List UCHAR := e.tag :: Fin.ofNat 256 e.data.length :: e.data

/-- A list of entries without its end mark -/
def images (es : List Entry) : List UCHAR := es.flatMap Entry.image

variable {e : Entry} {es es' : List Entry} {m : Memory UCHAR} {a : ℕ} {tag : UCHAR}

@[simp]
theorem images_nil : images [] = [] := rfl

theorem images_cons (e : Entry) (es : List Entry) : images (e :: es) = e.image ++ images es := rfl

theorem images_append (es es' : List Entry) : images (es ++ es') = images es ++ images es' :=
  List.flatMap_append

theorem Entry.length_image (e : Entry) : e.image.length = 2 + e.data.length := by
  rw [image, List.length_cons, List.length_cons]
  omega

theorem two_mul_length_le (es : List Entry) : 2 * es.length ≤ (images es).length := by
  induction es with
  | nil => exact le_rfl
  | cons e es ih =>
      rw [images_cons, List.length_append, e.length_image, List.length_cons]
      omega

theorem Entry.val_length (e : Entry) : (Fin.ofNat 256 e.data.length).val = e.data.length :=
  Nat.mod_eq_of_lt (Nat.lt_succ_of_le e.length_le)

theorem holds_image :
    m.Holds a e.image ↔
      m a = e.tag ∧ (m (a + 1)).val = e.data.length ∧ m.Holds (a + 2) e.data := by
  rw [Entry.image, Memory.holds_cons, Memory.holds_cons]
  refine and_congr_right fun _ => and_congr_left' ?_
  rw [Fin.ext_iff, e.val_length]

theorem holds_images_cons {ws : List UCHAR} :
    m.Holds a (images (e :: es) ++ ws) ↔
      m.Holds a e.image ∧ m.Holds (a + 2 + e.data.length) (images es ++ ws) := by
  rw [images_cons, List.append_assoc, Memory.holds_append, e.length_image, Nat.add_assoc]

/-- What stands in a memory is one list. -/
theorem eq_of_holds (h : m.Holds a (images es ++ [0])) (h' : m.Holds a (images es' ++ [0])) :
    es = es' := by
  induction es generalizing a es' with
  | nil =>
      cases es' with
      | nil => rfl
      | cons e' es' =>
          have hzero := (Memory.holds_cons.mp h).1
          have htag := (holds_image.mp (holds_images_cons.mp h').1).1
          exact absurd (htag.symm.trans hzero) e'.tag_ne
  | cons e es ih =>
      obtain ⟨hfirst, hrest⟩ := holds_images_cons.mp h
      obtain ⟨htag, hlen, hdata⟩ := holds_image.mp hfirst
      cases es' with
      | nil => exact absurd (htag.symm.trans (Memory.holds_cons.mp h').1) e.tag_ne
      | cons e' es' =>
          obtain ⟨hfirst', hrest'⟩ := holds_images_cons.mp h'
          obtain ⟨htag', hlen', hdata'⟩ := holds_image.mp hfirst'
          have hlength : e.data.length = e'.data.length := hlen.symm.trans hlen'
          have heq : e.data = e'.data := by
            rw [← hdata.load_eq, ← hdata'.load_of_length hlength.symm]
          have he : e = e' := by
            cases e
            cases e'
            simp only [Entry.mk.injEq]
            exact ⟨htag.symm.trans htag', heq⟩
          subst he
          exact congrArg _ (ih hrest hrest')

/-! ## The last entry with a tag -/

/-- A list has no entry with the tag, or a last one. -/
theorem exists_last (tag : UCHAR) (es : List Entry) :
    (∀ e ∈ es, e.tag ≠ tag) ∨
      ∃ front e back, es = front ++ e :: back ∧ e.tag = tag ∧ ∀ x ∈ back, x.tag ≠ tag := by
  induction es with
  | nil => exact .inl fun e he => absurd he List.not_mem_nil
  | cons first es ih =>
      rcases ih with hnone | ⟨front, e, back, rfl, htag, hback⟩
      · by_cases hfirst : first.tag = tag
        · exact .inr ⟨[], first, es, rfl, hfirst, hnone⟩
        · exact .inl (List.forall_mem_cons.mpr ⟨hfirst, hnone⟩)
      · exact .inr ⟨first :: front, e, back, rfl, htag, hback⟩

/-- An entry is taken out by moving what is behind it down. -/
theorem holds_moveDown {front back : List Entry}
    (h : m.Holds a (images (front ++ e :: back) ++ [0])) :
    (Memory.moveDown ((images back).length + 1) m (a + (images front).length)
        (a + (images front).length + 2 + e.data.length)).Holds a (images (front ++ back) ++ [0]) := by
  rw [images_append, List.append_assoc, Memory.holds_append, holds_images_cons] at h
  obtain ⟨hfront, -, hback⟩ := h
  have hmove := hfront.append_moveDown hback rfl (by omega)
  rw [List.length_append, List.length_singleton] at hmove
  rw [images_append, List.append_assoc]
  exact hmove

/-- An entry is added by writing it over the end mark. -/
theorem holds_store (h : m.Holds a (images es ++ [0])) (e : Entry) :
    (m.store (a + (images es).length) (e.image ++ [0])).Holds a (images (es ++ [e]) ++ [0]) := by
  rw [images_append, List.append_assoc, images_cons, images_nil, List.append_nil,
    Memory.holds_append]
  exact ⟨(Memory.holds_append.mp h).1.store_of_disjoint (.inl le_rfl), Memory.holds_store _ _ _⟩

/-- Data of the same length is written over the data of an entry. -/
theorem holds_replace {front back : List Entry} {e' : Entry}
    (h : m.Holds a (images (front ++ e :: back) ++ [0])) (htag : e'.tag = e.tag)
    (hlen : e'.data.length = e.data.length) :
    (m.store (a + (images front).length + 2) e'.data).Holds a
      (images (front ++ e' :: back) ++ [0]) := by
  rw [images_append, List.append_assoc, Memory.holds_append, holds_images_cons, holds_image] at h
  obtain ⟨hfront, ⟨hfirst, hlength, -⟩, hback⟩ := h
  rw [images_append, List.append_assoc, Memory.holds_append, holds_images_cons, holds_image, hlen]
  refine ⟨hfront.store_of_disjoint (.inl (by omega)), ⟨?_, ?_, ?_⟩, ?_⟩
  · rw [Memory.store_of_outside (.inl (by omega)), hfirst, htag]
  · rw [Memory.store_of_outside (.inl (by omega)), hlength]
  · exact Memory.holds_store _ _ _
  · exact hback.store_of_disjoint (.inr (by omega))

end Tlv

end Firebird
