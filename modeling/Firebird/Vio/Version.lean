import Firebird.Jrd.Sqz

/-! # Record versions

The versions of a record are a chain that leads from the newest one to the oldest. What a
transaction sees of a record is the newest version whose transaction is its own or one that
was committed when it started.
-/

namespace Firebird.Vio

/-- The data of a record, in its format -/
structure Data where
  format : ℕ
  bytes : List SCHAR
deriving DecidableEq

/-- A version of a record. A deleted one (`rpb_deleted`) has no data. -/
structure Version where
  transaction : ℕ
  format : ℕ
  image : Option (List SCHAR)
deriving DecidableEq

namespace Version

/-- `rpb_deleted` -/
def deleted (v : Version) : Bool := v.image.isNone

/-- What `VIO_data` reads. -/
def data (v : Version) : Option Data := v.image.map fun bytes => ⟨v.format, bytes⟩

end Version

/-- What `TRA_snapshot_state` tells of a transaction. -/
inductive State where
  | us
  | committed
  | precommitted
  | dead
  | active
  | limbo
deriving DecidableEq

/-- `jrd_tra`: `tra_number`, `tra_oldest_active`, and the states that it sees of all
transactions, of which it is the only one it calls its own. -/
structure JrdTra where
  number : ℕ
  oldestActive : ℕ
  state : ℕ → State
  state_eq_us : ∀ n, state n = .us ↔ n = number

namespace JrdTra

variable (T : JrdTra)

/-- A version this transaction has written -/
def Owns (v : Version) : Prop := v.transaction = T.number

/-- A version this transaction reads -/
def Sees (v : Version) : Prop :=
  T.state v.transaction = .us ∨ T.state v.transaction = .committed

/-- A version that has been rolled back -/
def Dead (v : Version) : Prop := T.state v.transaction = .dead

instance (v : Version) : Decidable (T.Owns v) := inferInstanceAs (Decidable (_ = _))
instance (v : Version) : Decidable (T.Sees v) := inferInstanceAs (Decidable (_ ∨ _))
instance (v : Version) : Decidable (T.Dead v) := inferInstanceAs (Decidable (_ = _))

/-- The version that is read -/
def visible (chain : List Version) : Option Version := chain.find? fun v => T.Sees v

/-- The data that is read, if any -/
def read (chain : List Version) : Option Data := (T.visible chain).bind Version.data

/-- The chain without the dead versions on top, which an update backs out first. -/
def clean (chain : List Version) : List Version := chain.dropWhile fun v => T.Dead v

variable {T} {v : Version} {chain rest : List Version}

theorem Owns.not_dead (h : T.Owns v) : ¬T.Dead v := by
  intro hdead
  rw [Dead, (T.state_eq_us _).mpr h] at hdead
  cases hdead

theorem owns_number (format : ℕ) (image : Option (List SCHAR)) :
    T.Owns ⟨T.number, format, image⟩ := rfl

theorem Owns.sees (h : T.Owns v) : T.Sees v := .inl ((T.state_eq_us _).mpr h)

theorem Dead.not_sees (h : T.Dead v) : ¬T.Sees v := by
  rintro (hus | hcommitted)
  · rw [h] at hus
    cases hus
  · rw [h] at hcommitted
    cases hcommitted

theorem Sees.not_dead (h : T.Sees v) : ¬T.Dead v := fun hdead => hdead.not_sees h

theorem clean_of_not_dead (h : ¬T.Dead v) : T.clean (v :: rest) = v :: rest := by
  rw [clean, List.dropWhile_cons, if_neg (by simpa using h)]

theorem clean_of_dead (h : T.Dead v) : T.clean (v :: rest) = T.clean rest := by
  rw [clean, List.dropWhile_cons, if_pos (by simpa using h)]
  rfl

theorem clean_clean (chain : List Version) : T.clean (T.clean chain) = T.clean chain := by
  induction chain with
  | nil => rfl
  | cons v rest ih =>
      by_cases h : T.Dead v
      · rw [clean_of_dead h, ih]
      · rw [clean_of_not_dead h, clean_of_not_dead h]

/-- Dead versions are not seen. -/
theorem visible_clean (chain : List Version) : T.visible (T.clean chain) = T.visible chain := by
  induction chain with
  | nil => rfl
  | cons v rest ih =>
      by_cases h : T.Dead v
      · rw [clean_of_dead h, ih, visible, visible, List.find?_cons_of_neg (by simpa using h.not_sees)]
      · rw [clean_of_not_dead h]

theorem read_clean (chain : List Version) : T.read (T.clean chain) = T.read chain := by
  rw [read, visible_clean, read]

end JrdTra

end Firebird.Vio
