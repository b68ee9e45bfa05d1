import Mathlib.Data.List.Basic
import Mathlib.Data.Int.Notation
import Firebird.Lib.Bytes

/-! # Merged database information (`remote/merge.cpp`)

The engine answers a request for information with items: a tag, the length of the contents in two
bytes, and the contents. Some items are counted: a count in one byte, and as many entries. Each
layer between client and engine, `MERGE_database_info`, adds its own entry to the counted items.
-/

namespace Firebird.Info

/-! ## Packets -/

def isc_info_end : UCHAR := 1
def isc_info_truncated : UCHAR := 2
def isc_info_db_id : UCHAR := 4
def isc_info_implementation : UCHAR := 11
def isc_info_base_level : UCHAR := 13
def isc_info_firebird_version : UCHAR := 103

/-- What an entry of a counted item is: a string behind its length, two bytes, or one byte -/
inductive Kind
  | text
  | pair
  | level

/-- The counted items -/
def kind (tag : UCHAR) : Option Kind :=
  if tag = isc_info_firebird_version ∨ tag = isc_info_db_id then some .text
  else if tag = isc_info_implementation then some .pair
  else if tag = isc_info_base_level then some .level
  else none

def Kind.Entry : Kind → List UCHAR → Prop
  | .text, e => ∃ s : List UCHAR, s.length < 256 ∧ e = Fin.ofNat 256 s.length :: s
  | .pair, e => e.length = 2
  | .level, e => e.length = 1

/-- The contents of an item -/
inductive Content
  | plain (bytes : List UCHAR)
  | counted (entries : List (List UCHAR))

def Content.bytes : Content → List UCHAR
  | .plain bytes => bytes
  | .counted entries => Fin.ofNat 256 entries.length :: entries.flatten

structure Item where
  tag : UCHAR
  content : Content

/-- A number in two bytes, the low one first -/
def word (n : ℕ) : List UCHAR := [Fin.ofNat 256 n, Fin.ofNat 256 (n / 256)]

def Item.encode (i : Item) : List UCHAR :=
  i.tag :: (word i.content.bytes.length ++ i.content.bytes)

/-- The contents are what the tag says. -/
def Content.Fits : Content → Option Kind → Prop
  | .plain _, k => k = none
  | .counted entries, k => entries.length < 256 ∧ ∃ k' ∈ k, ∀ e ∈ entries, k'.Entry e

structure Item.Valid (i : Item) : Prop where
  tag_ne_end : i.tag ≠ isc_info_end
  tag_ne_truncated : i.tag ≠ isc_info_truncated
  fits : i.content.Fits (kind i.tag)
  length_lt : i.content.bytes.length < 65536

/-- A packet: items, and how it ends -/
structure Packet where
  items : List Item
  last : UCHAR
  valid : ∀ i ∈ items, i.Valid
  ends : last = isc_info_end ∨ last = isc_info_truncated

def Packet.bytes (p : Packet) : List UCHAR := p.items.flatMap Item.encode ++ [p.last]

/-! ## `MERGE_database_info` -/

/-- The arguments that entries are made of; the strings are without their ends. -/
structure Args where
  impl : ℕ
  class_ : ℕ
  base_level : ℕ
  version : List UCHAR
  id : List UCHAR
  version_le : version.length ≤ 254
  id_le : id.length ≤ 254

/-- `PUT_WORD` -/
def PUT_WORD (value : ℕ) : List UCHAR := [Fin.ofNat 256 value, Fin.ofNat 256 (value / 256)]

/-- `gds__vax_integer(in, 2)`, and the bytes behind; `none` is a read behind the end. -/
def vaxWord : List UCHAR → Option (ℕ × List UCHAR)
  | lo :: hi :: rest => some (lo.val + 256 * hi.val, rest)
  | _ => none

/-- How an item is dealt with: no room, or the pointers behind it -/
inductive Step
  | refused (out : List UCHAR)
  | done (input out : List UCHAR)

/-- `n` bytes are copied. -/
def copy (n : ℕ) (input out : List UCHAR) : Option Step :=
  if input.length < n then none else some (.done (input.drop n) (out ++ input.take n))

/-- `merge_setup`; all lengths are of type `USHORT`. Only the low byte of the new length is given to
`PUT_WORD`. -/
def merge_setup (stop delta_length : ℕ) (input out : List UCHAR) : Option Step :=
  match vaxWord input with
  | none => none
  | some (length, rest) =>
      let new_length := (length + delta_length) % 65536
      if stop ≤ out.length + new_length + 2 then
        some (.refused (out.dropLast ++ [isc_info_truncated]))
      else
        match rest with
        | [] => none
        | c :: rest =>
            let count := 1 + c.val
            copy ((length + 65535) % 65536) rest
              (out ++ PUT_WORD (new_length % 256) ++ [Fin.ofNat 256 count])

/-- An item that is not counted: `length` is a `SSHORT`, negative from 32768 on, and goes down to
zero in as many turns as the bytes say. -/
def copyItem (stop : ℕ) (input out : List UCHAR) : Option Step :=
  match vaxWord input with
  | none => none
  | some (n, rest) =>
      let length : ℤ := if n < 32768 then n else (n : ℤ) - 65536
      if (stop : ℤ) ≤ out.length + length + 2 then
        some (.refused (out.dropLast ++ [isc_info_truncated]))
      else copy n rest (out ++ PUT_WORD (n % 256))

/-- A string behind its length -/
def putText (s : List UCHAR) : List UCHAR :=
  Fin.ofNat 256 s.length :: if s.length % 256 ≠ 0 then s else []

/-- The cases of the switch with a count: `delta_length`, and the bytes that are put -/
def addition (a : Args) (tag : UCHAR) : Option (ℕ × List UCHAR) :=
  if tag = isc_info_firebird_version then some (a.version.length + 1, putText a.version)
  else if tag = isc_info_db_id then some (a.id.length + 1, putText a.id)
  else if tag = isc_info_implementation then
    some (2, [Fin.ofNat 256 a.impl, Fin.ofNat 256 a.class_])
  else if tag = isc_info_base_level then some (1, [Fin.ofNat 256 a.base_level])
  else none

/-- The loop of `MERGE_database_info`: `out` has the bytes from `start` to the pointer. Each turn
reads a tag. -/
def mergeLoop (a : Args) (stop : ℕ) : ℕ → List UCHAR → List UCHAR → Option (ℕ × List UCHAR)
  | 0, _, _ => none
  | _ + 1, [], _ => none
  | k + 1, tag :: input, out =>
      let out := out ++ [tag]
      if tag = isc_info_end ∨ tag = isc_info_truncated then some (out.length % 65536, out)
      else
        match addition a tag with
        | some (delta_length, entry) =>
            match merge_setup stop delta_length input out with
            | none => none
            | some (.refused out) => some (0, out)
            | some (.done input out) => mergeLoop a stop k input (out ++ entry)
        | none =>
            match copyItem stop input out with
            | none => none
            | some (.refused out) => some (0, out)
            | some (.done input out) => mergeLoop a stop k input out

/-- What is returned, and the bytes written from `out` on -/
def MERGE_database_info (a : Args) (input : List UCHAR) (out_length : ℕ) :
    Option (ℕ × List UCHAR) :=
  mergeLoop a out_length input.length input []

/-! ## What it should do -/

/-- The entry for a counted item -/
def Args.entry (a : Args) (tag : UCHAR) : List UCHAR := ((addition a tag).map Prod.snd).getD []

/-- Where the new entry is put among the others -/
abbrev Place := List (List UCHAR) → List UCHAR → List (List UCHAR)

def inFront : Place := fun entries e => e :: entries

def behind : Place := fun entries e => entries ++ [e]

/-- An item with the new entry, if it is counted -/
def Item.merged (place : Place) (a : Args) (i : Item) : Item :=
  match i.content with
  | .plain _ => i
  | .counted entries => ⟨i.tag, .counted (place entries (a.entry i.tag))⟩

/-- The packet is truncated, or it is the same one with the entries added. -/
def Good (place : Place) (a : Args) (p : Packet) (out_length : ℕ)
    (result : Option (ℕ × List UCHAR)) : Prop :=
  ∃ n written, result = some (n, written) ∧ written.length ≤ out_length ∧
    (n = 0 ∧ written.getLast? = some isc_info_truncated ∨
      n = written.length ∧ ∃ q : Packet, q.items = p.items.map (Item.merged place a) ∧
        q.last = p.last ∧ written = q.bytes)

/-- The bytes of the contents when the entry is added -/
def Item.extent (a : Args) (i : Item) : ℕ := (i.merged behind a).content.bytes.length

/-- The lengths that the test for room is made for -/
def Item.limit (i : Item) : ℕ := if (kind i.tag).isSome then 65536 else 32768

/-- A byte holds the length of the contents, and the count. -/
def Item.Small (a : Args) (i : Item) : Prop :=
  i.extent a < 256 ∧ ∀ entries, i.content = .counted entries → entries.length < 255

/-- Each item up to the first one without room is small. -/
def Clean (a : Args) (stop : ℕ) : ℕ → List Item → Prop
  | _, [] => True
  | pos, i :: items =>
      i.extent a < i.limit ∧ stop ≤ pos + 3 + i.extent a ∨
        i.Small a ∧ Clean a stop (pos + 3 + i.extent a) items

/-! ## Items -/

variable {a : Args} {i : Item} {stop k : ℕ} {rest out : List UCHAR} {tag : UCHAR}

theorem vaxWord_word {n : ℕ} (h : n < 65536) (rest : List UCHAR) :
    vaxWord (word n ++ rest) = some (n, rest) := by
  have hlo : (Fin.ofNat 256 n).val = n % 256 := rfl
  have hhi : (Fin.ofNat 256 (n / 256)).val = n / 256 % 256 := rfl
  change some ((Fin.ofNat 256 n).val + 256 * (Fin.ofNat 256 (n / 256)).val, rest) = _
  rw [hlo, hhi]
  congr 2
  omega

/-- Only for lengths that fit into a byte, `PUT_WORD` is given all of them. -/
theorem PUT_WORD_mod {n : ℕ} (h : n < 256) : PUT_WORD (n % 256) = word n := by
  rw [Nat.mod_eq_of_lt h]
  rfl

theorem copy_append (x rest out : List UCHAR) :
    copy x.length (x ++ rest) out = some (.done rest (out ++ x)) := by
  rw [copy, if_neg (by rw [List.length_append]; omega), List.drop_left, List.take_left]

theorem putText_eq {s : List UCHAR} (h : s.length ≤ 254) :
    putText s = Fin.ofNat 256 s.length :: s := by
  rw [putText]
  split
  · rfl
  · rename_i hzero
    have hempty : s = [] := List.length_eq_zero_iff.mp (by omega)
    rw [hempty]

theorem kind_eq_none_iff : kind tag = none ↔ addition a tag = none := by
  unfold kind addition
  by_cases hversion : tag = isc_info_firebird_version
  · simp [hversion]
  · by_cases hid : tag = isc_info_db_id
    · simp [hid, isc_info_db_id, isc_info_firebird_version]
    · by_cases himpl : tag = isc_info_implementation
      · simp [himpl, isc_info_implementation, isc_info_firebird_version, isc_info_db_id]
      · by_cases hlevel : tag = isc_info_base_level
        · simp [hlevel, isc_info_base_level, isc_info_firebird_version, isc_info_db_id,
            isc_info_implementation]
        · simp [hversion, hid, himpl, hlevel]

/-- What is added to a counted item is an entry of its kind, and as long as announced. -/
theorem addition_spec {k : Kind} (h : kind tag = some k) :
    ∃ e, addition a tag = some (e.length, e) ∧ k.Entry e := by
  unfold kind at h
  unfold addition
  split at h
  · rename_i htext
    cases h
    have hversion := putText_eq a.version_le
    have hid := putText_eq a.id_le
    rcases htext with rfl | rfl
    · refine ⟨_, by rw [if_pos rfl, hversion, List.length_cons], ?_⟩
      exact ⟨a.version, by have := a.version_le; omega, rfl⟩
    · refine ⟨_, by rw [if_neg (by decide), if_pos rfl, hid, List.length_cons], ?_⟩
      exact ⟨a.id, by have := a.id_le; omega, rfl⟩
  · rename_i hno
    rw [if_neg fun h => hno (.inl h), if_neg fun h => hno (.inr h)]
    split at h
    · rename_i himpl
      cases h
      rw [if_pos himpl]
      exact ⟨[_, _], rfl, rfl⟩
    · rename_i himpl
      rw [if_neg himpl]
      split at h
      · rename_i hlevel
        cases h
        rw [if_pos hlevel]
        exact ⟨[_], rfl, rfl⟩
      · cases h

theorem entry_eq {e : List UCHAR} {d : ℕ} (h : addition a tag = some (d, e)) : a.entry tag = e := by
  rw [Args.entry, h]
  rfl

theorem length_counted (entries : List (List UCHAR)) :
    (Content.counted entries).bytes.length = entries.flatten.length + 1 := rfl

theorem extent_plain {bytes : List UCHAR} : Item.extent a ⟨tag, .plain bytes⟩ = bytes.length := rfl

theorem extent_counted {entries : List (List UCHAR)} :
    Item.extent a ⟨tag, .counted entries⟩ = entries.flatten.length + 1 + (a.entry tag).length := by
  rw [Item.extent, Item.merged, length_counted, behind, List.flatten_append, List.length_append,
    List.flatten_singleton, Nat.add_right_comm]

/-- An item without room: the answer is truncated. -/
theorem mergeLoop_refused (hvalid : i.Valid) (hlimit : i.extent a < i.limit)
    (hroom : stop ≤ out.length + 3 + i.extent a) :
    mergeLoop a stop (k + 1) (i.encode ++ rest) out = some (0, out ++ [isc_info_truncated]) := by
  obtain ⟨tag, content⟩ := i
  obtain ⟨hend, htruncated, hfits, hlength⟩ := hvalid
  rw [Item.encode, List.cons_append, mergeLoop, List.append_assoc]
  simp only [if_neg (not_or.mpr ⟨hend, htruncated⟩)]
  cases content with
  | plain bytes =>
      have hkind : kind tag = none := hfits
      rw [extent_plain] at hlimit hroom
      rw [Item.limit, hkind, Option.isSome_none, if_neg Bool.false_ne_true] at hlimit
      rw [kind_eq_none_iff.mp hkind]
      dsimp only
      rw [copyItem, vaxWord_word hlength]
      dsimp only [Content.bytes]
      rw [if_pos hlimit, if_pos (by rw [List.length_append, List.length_singleton]; omega),
        List.dropLast_concat]
  | counted entries =>
      obtain ⟨-, kd, hkind, -⟩ := hfits
      obtain ⟨e, hadd, -⟩ := addition_spec (a := a) hkind
      rw [extent_counted, entry_eq hadd] at hlimit hroom
      rw [Item.limit, Option.isSome_of_mem hkind, if_pos rfl] at hlimit
      rw [hadd]
      dsimp only
      rw [merge_setup, vaxWord_word hlength]
      dsimp only
      rw [length_counted, Nat.mod_eq_of_lt hlimit,
        if_pos (by rw [List.length_append, List.length_singleton]; omega), List.dropLast_concat]

/-- A small item that is not counted is copied. -/
theorem mergeLoop_plain {bytes : List UCHAR} (hvalid : Item.Valid ⟨tag, .plain bytes⟩)
    (hsmall : bytes.length < 256) (hroom : ¬stop ≤ out.length + 3 + bytes.length) :
    mergeLoop a stop (k + 1) (Item.encode ⟨tag, .plain bytes⟩ ++ rest) out =
      mergeLoop a stop k rest (out ++ Item.encode ⟨tag, .plain bytes⟩) := by
  obtain ⟨hend, htruncated, hkind, hlength⟩ := hvalid
  have hstep : copyItem stop (word bytes.length ++ (bytes ++ rest)) (out ++ [tag]) =
      some (.done rest (out ++ Item.encode ⟨tag, .plain bytes⟩)) := by
    have hshort : bytes.length < 32768 := by omega
    rw [copyItem, vaxWord_word (by omega)]
    dsimp only
    rw [if_pos hshort, if_neg (by rw [List.length_append, List.length_singleton]; omega),
      copy_append, PUT_WORD_mod hsmall, Item.encode, Content.bytes]
    simp only [List.append_assoc, List.cons_append, List.nil_append]
  rw [Item.encode, List.cons_append, mergeLoop, List.append_assoc]
  simp only [if_neg (not_or.mpr ⟨hend, htruncated⟩)]
  rw [kind_eq_none_iff.mp hkind]
  dsimp only [Content.bytes]
  rw [hstep]
  rfl

/-- A small item that is counted is copied, and the new entry put behind the others. -/
theorem mergeLoop_counted {entries : List (List UCHAR)} {e : List UCHAR}
    (hvalid : Item.Valid ⟨tag, .counted entries⟩) (hadd : addition a tag = some (e.length, e))
    (hsmall : entries.flatten.length + 1 + e.length < 256) (hcount : entries.length < 255)
    (hroom : ¬stop ≤ out.length + 3 + (entries.flatten.length + 1 + e.length)) :
    mergeLoop a stop (k + 1) (Item.encode ⟨tag, .counted entries⟩ ++ rest) out =
      mergeLoop a stop k rest (out ++ Item.encode ⟨tag, .counted (entries ++ [e])⟩) := by
  obtain ⟨hend, htruncated, -, hlength⟩ := hvalid
  have hlen : entries.flatten.length + 1 < 65536 := hlength
  have hincr : Fin.ofNat 256 (1 + (Fin.ofNat 256 entries.length).val) =
      Fin.ofNat 256 (entries ++ [e]).length := by
    have hval : (Fin.ofNat 256 entries.length).val = entries.length := Nat.mod_eq_of_lt (by omega)
    rw [hval, List.length_append, List.length_singleton, Nat.add_comm]
  have hbytes : (Content.counted (entries ++ [e])).bytes.length =
      entries.flatten.length + 1 + e.length := by
    rw [length_counted, List.flatten_append, List.length_append, List.flatten_singleton,
      Nat.add_right_comm]
  have hpred : (entries.flatten.length + 1 + 65535) % 65536 = entries.flatten.length := by omega
  have hstep : merge_setup stop e.length
      (word (entries.flatten.length + 1) ++
        (Fin.ofNat 256 entries.length :: (entries.flatten ++ rest))) (out ++ [tag]) =
      some (.done rest (out ++ [tag] ++ word (entries.flatten.length + 1 + e.length) ++
        [Fin.ofNat 256 (entries ++ [e]).length] ++ entries.flatten)) := by
    rw [merge_setup, vaxWord_word hlen]
    dsimp only
    rw [Nat.mod_eq_of_lt (by omega : entries.flatten.length + 1 + e.length < 65536),
      if_neg (by rw [List.length_append, List.length_singleton]; omega), hpred, copy_append,
      PUT_WORD_mod hsmall, hincr]
  rw [Item.encode, List.cons_append, mergeLoop, List.append_assoc, length_counted]
  simp only [if_neg (not_or.mpr ⟨hend, htruncated⟩)]
  rw [hadd, Content.bytes, List.cons_append]
  dsimp only
  rw [hstep]
  dsimp only
  rw [Item.encode, hbytes, Content.bytes, List.flatten_append, List.flatten_singleton]
  simp only [List.append_assoc, List.cons_append, List.nil_append]

theorem length_encode (i : Item) : i.encode.length = 3 + i.content.bytes.length := by
  rw [Item.encode, List.length_cons, List.length_append, word, List.length_cons,
    List.length_singleton]
  omega

theorem mergeLoop_small (hvalid : i.Valid) (hsmall : i.Small a)
    (hroom : ¬stop ≤ out.length + 3 + i.extent a) :
    mergeLoop a stop (k + 1) (i.encode ++ rest) out =
      mergeLoop a stop k rest (out ++ (i.merged behind a).encode) := by
  obtain ⟨tag, content⟩ := i
  cases content with
  | plain bytes => exact mergeLoop_plain hvalid hsmall.1 hroom
  | counted entries =>
      obtain ⟨-, kd, hkind, -⟩ := hvalid.fits
      obtain ⟨e, hadd, -⟩ := addition_spec (a := a) hkind
      have hextent := hsmall.1
      rw [extent_counted, entry_eq hadd] at hextent hroom
      rw [mergeLoop_counted hvalid hadd hextent (hsmall.2 entries rfl) hroom]
      rw [Item.merged]
      dsimp only
      rw [entry_eq hadd]
      rfl

/-- A small item is still one with the new entry. -/
theorem valid_merged (hvalid : i.Valid) (hsmall : i.Small a) : (i.merged behind a).Valid := by
  obtain ⟨tag, content⟩ := i
  cases content with
  | plain bytes => exact hvalid
  | counted entries =>
      obtain ⟨hend, htruncated, ⟨-, kd, hkind, hentries⟩, -⟩ := hvalid
      obtain ⟨e, hadd, hentry⟩ := addition_spec (a := a) hkind
      refine ⟨hend, htruncated, ⟨?_, kd, hkind, ?_⟩, ?_⟩
      · have hcount := hsmall.2 entries rfl
        rw [behind, List.length_append, List.length_singleton]
        omega
      · intro x hx
        rcases List.mem_append.mp hx with hx | hx
        · exact hentries x hx
        · rwa [List.mem_singleton.mp hx, entry_eq hadd]
      · exact hsmall.1.trans (by decide)

/-! ## Packets -/

theorem mergeLoop_last {last : UCHAR} (hlast : last = isc_info_end ∨ last = isc_info_truncated) :
    mergeLoop a stop (k + 1) (last :: rest) out =
      some ((out ++ [last]).length % 65536, out ++ [last]) := by
  rw [mergeLoop]
  exact if_pos hlast

/-- The loop, from an item on -/
theorem mergeLoop_clean {items : List Item} {last : UCHAR} (hstop : stop < 65536)
    (hlast : last = isc_info_end ∨ last = isc_info_truncated) (hvalid : ∀ i ∈ items, i.Valid)
    (hclean : Clean a stop out.length items) (hout : out.length < stop)
    (hk : items.length + 1 ≤ k) :
    ∃ n written, mergeLoop a stop k (items.flatMap Item.encode ++ [last] ++ rest) out =
        some (n, written) ∧ written.length ≤ stop ∧
      (n = 0 ∧ written.getLast? = some isc_info_truncated ∨
        n = written.length ∧ (∀ i ∈ items, i.Small a) ∧
          written = out ++ (items.map (Item.merged behind a)).flatMap Item.encode ++ [last]) := by
  induction items generalizing out k with
  | nil =>
      obtain ⟨k, rfl⟩ : ∃ k', k = k' + 1 := ⟨k - 1, by omega⟩
      have hlen : (out ++ [last]).length = out.length + 1 := List.length_append ..
      refine ⟨_, _, mergeLoop_last hlast, by omega, .inr ⟨?_, ?_, ?_⟩⟩
      · exact Nat.mod_eq_of_lt (by omega)
      · exact fun i hi => absurd hi List.not_mem_nil
      · rw [List.map_nil, List.flatMap_nil, List.append_nil]
  | cons i items ih =>
      obtain ⟨k, rfl⟩ : ∃ k', k = k' + 1 := ⟨k - 1, by omega⟩
      have hi := hvalid i List.mem_cons_self
      rw [List.flatMap_cons, List.append_assoc, List.append_assoc]
      by_cases hroom : stop ≤ out.length + 3 + i.extent a
      · -- there is no room, and no item behind is looked at
        have hlimit : i.extent a < i.limit := by
          rcases hclean with ⟨hlimit, -⟩ | ⟨hsmall, -⟩
          · exact hlimit
          · have hlt := hsmall.1
            rw [Item.limit]
            split <;> omega
        refine ⟨0, _, mergeLoop_refused hi hlimit hroom, ?_, .inl ⟨rfl, List.getLast?_concat⟩⟩
        rw [List.length_append, List.length_singleton]
        exact hout
      · obtain ⟨hsmall, hrest⟩ := hclean.resolve_left fun h => hroom h.2
        have hlen : (out ++ (i.merged behind a).encode).length = out.length + 3 + i.extent a := by
          rw [List.length_append, length_encode, Nat.add_assoc]
          rfl
        rw [mergeLoop_small hi hsmall hroom, ← List.append_assoc]
        rw [← hlen] at hrest
        obtain ⟨n, written, heq, hle, hor⟩ := ih (fun j hj => hvalid j (List.mem_cons_of_mem _ hj))
          hrest (by omega) (k := k) (by rw [List.length_cons] at hk; omega)
        refine ⟨n, written, heq, hle, hor.imp_right ?_⟩
        rintro ⟨hn, hall, hwritten⟩
        refine ⟨hn, List.forall_mem_cons.mpr ⟨hsmall, hall⟩, ?_⟩
        rw [hwritten, List.map_cons, List.flatMap_cons]
        simp only [List.append_assoc]

theorem length_items_le (items : List Item) :
    items.length ≤ (items.flatMap Item.encode).length := by
  induction items with
  | nil => exact Nat.zero_le _
  | cons i items ih =>
      rw [List.flatMap_cons, List.length_append, List.length_cons, length_encode]
      omega

/-- The packet is truncated, or each counted item has the new entry behind the others and a count
one higher, as long as the items that are reached are small. -/
theorem database_info_merged (a : Args) (p : Packet) (rest : List UCHAR) (out_length : ℕ)
    (hlt : out_length < 65536) (hpos : 0 < out_length) (hclean : Clean a out_length 0 p.items) :
    Good behind a p out_length (MERGE_database_info a (p.bytes ++ rest) out_length) := by
  have hfuel : p.items.length + 1 ≤ (p.bytes ++ rest).length := by
    have hle := length_items_le p.items
    rw [Packet.bytes, List.length_append, List.length_append, List.length_singleton]
    omega
  obtain ⟨n, written, heq, hle, hor⟩ := @mergeLoop_clean a _ _ rest [] _ _ hlt p.ends
    p.valid hclean hpos hfuel
  refine ⟨n, written, heq, hle, hor.imp_right ?_⟩
  rintro ⟨hn, hall, hwritten⟩
  have hvalid : ∀ i ∈ p.items.map (Item.merged behind a), i.Valid := by
    intro i hi
    obtain ⟨j, hj, rfl⟩ := List.mem_map.mp hi
    exact valid_merged (p.valid j hj) (hall j hj)
  exact ⟨hn, ⟨_, p.last, hvalid, p.ends⟩, rfl, rfl, hwritten⟩

/-! ## One counted item -/

def noText : Args := ⟨0, 0, 7, [], [], by decide, by decide⟩

/-- The base level of one layer -/
def oneLevel : Item := ⟨isc_info_base_level, .counted [[5]]⟩

def oneLevelPacket : Packet where
  items := [oneLevel]
  last := isc_info_end
  valid := by
    intro i hi
    rw [List.mem_singleton.mp hi]
    refine ⟨by decide, by decide, ⟨by decide, .level, rfl, ?_⟩, by decide⟩
    intro e he
    rw [List.mem_singleton.mp he]
    rfl
  ends := .inl rfl

theorem small_oneLevel : oneLevel.Small noText := by
  constructor
  · decide
  · intro entries h
    cases h
    decide

theorem database_info_merged_oneLevel :
    Good behind noText oneLevelPacket 100
      (MERGE_database_info noText (oneLevelPacket.bytes ++ []) 100) :=
  database_info_merged noText oneLevelPacket [] 100 (by decide) (by decide)
    (.inr ⟨small_oneLevel, trivial⟩)

/-- The new entry is not in front of the others. -/
theorem database_info_not_in_front :
    ¬∀ (a : Args) (p : Packet) (rest : List UCHAR) (out_length : ℕ), out_length < 65536 →
      Good inFront a p out_length (MERGE_database_info a (p.bytes ++ rest) out_length) := by
  intro hall
  obtain ⟨n, written, heq, -, hor⟩ := hall noText oneLevelPacket [] 100 (by decide)
  have hrun : MERGE_database_info noText (oneLevelPacket.bytes ++ []) 100 =
      some (7, [13, 3, 0, 2, 5, 7, 1]) := rfl
  rw [hrun] at heq
  cases heq
  rcases hor with ⟨hzero, -⟩ | ⟨-, q, hitems, hlast, hbytes⟩
  · cases hzero
  · rw [Packet.bytes, hitems, hlast] at hbytes
    revert hbytes
    decide

end Firebird.Info
