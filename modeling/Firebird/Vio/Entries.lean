import Firebird.Lib.Runs
import Firebird.Vio.Rollback

/-! # Index entries of a record

An index gets an entry when a version has another key than the one it replaces, and loses one
when a version goes and no version that stays has its key. The undo data of outer savepoints
do not count as staying. That it is not lost all the same is due to the index having an entry
for every time the key was set: as many as the key has runs in the history of the record,
which is what undoing all savepoints would take away, and then the chain.
-/

namespace Firebird.Vio

open Runs (Covers)

variable {Key : Type} {T : JrdTra} {R : Relation Key}

/-! ## The history of a record -/

/-- The data that goes when all savepoints are undone, and what stays then -/
def history : List Mark → List Version → List Data
  | [], c => listStaying c
  | m :: ms, c => (m.gone c).toList ++ history ms (m.undone c)

/-- The versions from the first one of another transaction on -/
def JrdTra.others (T : JrdTra) (c : List Version) : List Version := c.dropWhile fun v => T.Owns v

theorem others_cons {v : Version} {c : List Version} (h : T.Owns v) :
    T.others (v :: c) = T.others c := by
  rw [JrdTra.others, List.dropWhile_cons, if_pos (by simpa using h)]
  rfl

theorem others_of_not_owns {v : Version} {c : List Version} (h : ¬T.Owns v) :
    T.others (v :: c) = v :: c := by
  rw [JrdTra.others, List.dropWhile_cons, if_neg (by simpa using h)]

theorem others_suffix (c : List Version) : T.others c <:+ c := List.dropWhile_suffix _

theorem mem_listStaying {c : List Version} {d : Data} :
    d ∈ listStaying c ↔ ∃ v ∈ c, v.data = some d := List.mem_filterMap

theorem listStaying_cons (v : Version) (c : List Version) :
    listStaying (v :: c) = v.data.toList ++ listStaying c := by
  rw [listStaying, List.filterMap_cons]
  cases v.data <;> rfl

/-- The undo data of a savepoint, if it has any -/
def Mark.image : Mark → Option Data
  | .seen (some u) => if u.data.bytes = [] then none else some u.data
  | _ => none

/-- What undoing a savepoint does to a chain: which data goes, and which one comes back -/
inductive Undoing (T : JrdTra) :
    List Version → Option Data → List Version → Option Data → Prop where
  | same {c : List Version} : Undoing T c none c none
  | popped {w : Version} {rest : List Version} : T.Owns w →
      Undoing T (w :: rest) w.data rest none
  | restored {w v : Version} {rest : List Version} {d : Data} : T.Owns w → T.Owns v →
      w.data.isSome → v.data = some d → Undoing T (w :: rest) w.data (v :: rest) (some d)
  | erased {d : Version} {c c' : List Version} {gone image : Option Data} : T.Owns d →
      d.data = none → Undoing T c gone c' image → Undoing T (d :: c) gone c' image

theorem Version.data_written {w : Version} {d : Data} (hformat : w.format = d.format) :
    (⟨w.transaction, w.format, some d.bytes⟩ : Version).data = some d := by
  rw [Version.data, hformat]
  rfl

/-- Writing old data over a version -/
theorem Undoing.written {w : Version} {rest : List Version} {d : Data} (hw : T.Owns w)
    (hsome : w.data.isSome) (hformat : w.format = d.format) :
    Undoing T (w :: rest) w.data (⟨w.transaction, w.format, some d.bytes⟩ :: rest) (some d) :=
  .restored hw hw hsome (Version.data_written hformat)

theorem Since.undoing {m : Mark} {b c : List Version} (h : Since T R m b c) :
    Undoing T c (m.gone c) (m.undone c) m.image := by
  cases h with
  | unseen => exact .same
  | pushed hw => exact .popped hw
  | changed hb hv hw hformat hdata hsome hfits hsame =>
      have hundata := hformat.trans (Version.eq_of_data hdata).2
      simpa [Mark.gone, Mark.undone, Mark.image, hsame, hfits.ne_nil] using
        Undoing.written hw hsome hundata
  | changedErased hb hv hw hd' hformat hdata hsome hnone hfits hsame =>
      have hundata := hformat.trans (Version.eq_of_data hdata).2
      simpa [Mark.gone, Mark.undone, Mark.image, hsame, hfits.ne_nil] using
        Undoing.erased hd' hnone (.written hw hsome hundata)
  | erased hb hv hsome hd hnone hempty hsame hnew =>
      simpa [Mark.gone, Mark.undone, Mark.image, hsame, hnew, hempty] using
        Undoing.erased hd hnone .same
  | pushedErased hw hd hsome hnone hempty hsame hnew =>
      simpa [Mark.gone, Mark.undone, Mark.image, hsame, hnew, hempty] using
        Undoing.erased hd hnone (.popped hw)

namespace Undoing

variable {c c' : List Version} {gone image : Option Data} {x : Data}

/-- What goes is in the chain. -/
theorem gone_mem (h : Undoing T c gone c' image) (hx : gone = some x) : x ∈ listStaying c := by
  induction h with
  | same => cases hx
  | popped => exact mem_listStaying.mpr ⟨_, List.mem_cons_self, hx⟩
  | restored => exact mem_listStaying.mpr ⟨_, List.mem_cons_self, hx⟩
  | erased _ _ _ ih =>
      rw [listStaying_cons]
      exact List.mem_append_right _ (ih hx)

/-- What comes back is in the chain that is left. -/
theorem image_mem (h : Undoing T c gone c' image) (hx : image = some x) : x ∈ listStaying c' := by
  induction h with
  | same => cases hx
  | popped => cases hx
  | restored _ _ _ hd => exact mem_listStaying.mpr ⟨_, List.mem_cons_self, hd.trans hx⟩
  | erased _ _ _ ih => exact ih hx

/-- What is left was in the chain or has come back. -/
theorem mem_left (h : Undoing T c gone c' image) (hx : x ∈ listStaying c') :
    x ∈ listStaying c ∨ image = some x := by
  induction h with
  | same => exact .inl hx
  | popped =>
      rw [listStaying_cons]
      exact .inl (List.mem_append_right _ hx)
  | restored _ _ _ hd =>
      rw [listStaying_cons, hd] at hx
      rw [listStaying_cons]
      rcases List.mem_append.mp hx with hx | hx
      · exact .inr (congrArg some (List.mem_singleton.mp hx).symm)
      · exact .inl (List.mem_append_right _ hx)
  | erased _ _ _ ih =>
      rw [listStaying_cons]
      exact (ih hx).imp_left (List.mem_append_right _)

/-- Nothing comes back unless something goes. -/
theorem mem_of_gone_none (h : Undoing T c gone c' image) (hgone : gone = none)
    (hx : x ∈ listStaying c') : x ∈ listStaying c := by
  induction h with
  | same => exact hx
  | popped =>
      rw [listStaying_cons]
      exact List.mem_append_right _ hx
  | restored _ _ hsome =>
      rw [hgone] at hsome
      cases hsome
  | erased _ _ _ ih =>
      rw [listStaying_cons]
      exact List.mem_append_right _ (ih hgone hx)

/-- The chain is made of what goes and of what is left. -/
theorem sublist (h : Undoing T c gone c' image) :
    (listStaying c).Sublist (gone.toList ++ listStaying c') := by
  induction h with
  | same => exact List.Sublist.refl _
  | popped =>
      rw [listStaying_cons]
  | restored =>
      rw [listStaying_cons, listStaying_cons]
      exact (List.sublist_append_right _ _).append_left _
  | erased _ hnone _ ih =>
      rw [listStaying_cons, hnone]
      exact ih

/-- The versions of other transactions stay. -/
theorem others_eq (h : Undoing T c gone c' image) : T.others c' = T.others c := by
  induction h with
  | same => rfl
  | popped hw => rw [others_cons hw]
  | restored hw hv => rw [others_cons hw, others_cons hv]
  | erased hd _ _ ih => rw [others_cons hd, ih]

end Undoing

namespace Stack

variable {ms : List Mark} {bs : List (List Version)} {c : List Version} {x : Data}

/-- The newest data of the history is in the chain. -/
theorem head_mem (h : Stack T R ms bs c) (hx : (history ms c).head? = some x) :
    x ∈ listStaying c := by
  induction ms generalizing bs c with
  | nil => exact List.mem_of_mem_head? hx
  | cons m ms ih =>
      obtain _ | @⟨_, _, b, _, bs, hsince, hrest⟩ := h
      have hundoing := hsince.undoing
      have hleft := ih (Stack.cons hsince hrest).undone
      rw [history] at hx
      cases hgone : m.gone c with
      | none =>
          rw [hgone] at hx
          exact hundoing.mem_of_gone_none hgone (hleft hx)
      | some d =>
          rw [hgone] at hx
          cases hx
          exact hundoing.gone_mem hgone

/-- All data of the history is in the chain or is undo data. -/
theorem mem_history (h : Stack T R ms bs c) (hx : x ∈ history ms c) :
    x ∈ listStaying c ∨ ∃ m ∈ ms, m.image = some x := by
  induction ms generalizing bs c with
  | nil => exact .inl hx
  | cons m ms ih =>
      obtain _ | @⟨_, _, b, _, bs, hsince, hrest⟩ := h
      have hundoing := hsince.undoing
      rw [history, List.mem_append, Option.mem_toList] at hx
      rcases hx with hgone | hx
      · exact .inl (hundoing.gone_mem hgone)
      · rcases ih (Stack.cons hsince hrest).undone hx with hx | ⟨m', hm', himage⟩
        · rcases hundoing.mem_left hx with hx | himage
          · exact .inl hx
          · exact .inr ⟨m, List.mem_cons_self, himage⟩
        · exact .inr ⟨m', List.mem_cons_of_mem _ hm', himage⟩

theorem sublist_history (h : Stack T R ms bs c) : (listStaying c).Sublist (history ms c) := by
  induction ms generalizing bs c with
  | nil => exact List.Sublist.refl _
  | cons m ms ih =>
      obtain _ | @⟨_, _, b, _, bs, hsince, hrest⟩ := h
      exact hsince.undoing.sublist.trans
        ((ih (Stack.cons hsince hrest).undone).append_left _)

/-- The undo data of the savepoints are in the history. -/
theorem image_mem_history (h : Stack T R ms bs c) {m : Mark} (hm : m ∈ ms)
    (hx : m.image = some x) : x ∈ history ms c := by
  induction ms generalizing bs c with
  | nil => cases hm
  | cons m' ms ih =>
      obtain _ | @⟨_, _, b, _, bs, hsince, hrest⟩ := h
      have hstack := (Stack.cons hsince hrest).undone
      rw [history]
      refine List.mem_append_right _ ?_
      rcases List.mem_cons.mp hm with rfl | hm
      · exact hstack.sublist_history.subset (hsince.undoing.image_mem hx)
      · exact ih hstack hm

/-- The history is shorter with fewer savepoints. -/
theorem history_take (h : Stack T R ms bs c) (n : ℕ) :
    (history (ms.take n) c).Sublist (history ms c) := by
  induction ms generalizing bs c n with
  | nil =>
      rw [List.take_nil]
  | cons m ms ih =>
      cases n with
      | zero => exact h.sublist_history
      | succ n =>
          obtain _ | @⟨_, _, b, _, bs, hsince, hrest⟩ := h
          exact (ih (Stack.cons hsince hrest).undone n).append_left _

end Stack

/-- Without a savepoint that has it, the history of a record is its chain. -/
theorem history_of_unseen {ms : List Mark} (h : ∀ m ∈ ms, m = .unseen) (c : List Version) :
    history ms c = listStaying c := by
  induction ms with
  | nil => rfl
  | cons m ms ih =>
      rw [history, h m List.mem_cons_self]
      exact ih fun m' hm' => h m' (List.mem_cons_of_mem m hm')

end Firebird.Vio
