import Firebird.Remote.Xdr

/-! # Slices of arrays (`xdr_slice`, and `SDL_info` of `jrd/sdl.cpp`)

The description of a slice is a list of bytes; behind its end there are zeros.
-/

namespace Firebird.Xdr

open Wrap

/-! ## The description -/

def byte (p : Stream) : ℕ := (p.headD 0).val

/-- `get_word`, as an unsigned short -/
def word (p : Stream) : ℕ := byte p + 256 * byte (p.drop 1)

theorem word_lt (n : ℕ) : n % 65536 < 65536 := Nat.mod_lt n (by decide)

/-- A descriptor of this length, an unsigned short -/
def fixed (dtype : Dtype) (length : ℕ) (p : Stream) : Option (Dsc × Stream) :=
  some (⟨dtype, length % 65536, word_lt length⟩, p)

/-- `sdl_desc`: a string type has its length behind it, and another one may have a scale. -/
def sdlDesc (p : Stream) : Option (Dsc × Stream) :=
  let op := byte p
  let p := p.drop 1
  if op = 15 then fixed .text (word (p.drop 2)) (p.drop 4)
  else if op = 14 then fixed .text (word p) (p.drop 2)
  else if op = 41 then fixed .cstring (word (p.drop 2)) (p.drop 4)
  else if op = 40 then fixed .cstring (word p) (p.drop 2)
  else if op = 38 then fixed .cstring (2 + word (p.drop 2)) (p.drop 4)
  else if op = 37 then fixed .cstring (2 + word p) (p.drop 2)
  else if op = 7 then fixed .short 2 (p.drop 1)
  else if op = 8 then fixed .long 4 (p.drop 1)
  else if op = 16 then fixed .int64 8 (p.drop 1)
  else if op = 9 then fixed .quad 8 (p.drop 1)
  else if op = 10 then fixed .real 4 p
  else if op = 27 ∨ op = 11 then fixed .double 8 p
  else if op = 35 then fixed .timestamp 8 p
  else if op = 12 then fixed .sqlDate 4 p
  else if op = 13 then fixed .sqlTime 4 p
  else none

/-- The size of `sdl_info_field` and of `sdl_info_relation` -/
def nameSize : ℕ := 32

/-- The descriptor that the constructor makes -/
def Dsc.new : Dsc := ⟨.other, 0, by decide⟩

/-- The loop of `SDL_info`, which gives `sdl_info_element`. Each turn takes a byte; behind the end
there are zeros, which end it. -/
def infoLoop : ℕ → Dsc → Stream → Except Stop Dsc
  | 0, element, _ => .ok element
  | k + 1, element, p =>
      let op := byte p
      let p := p.drop 1
      if op = 6 then
        if byte p = 1 then
          match sdlDesc (p.drop 1) with
          | none => .error .failed
          | some (desc, p) => infoLoop k desc p
        else .error .failed
      else if op = 5 ∨ op = 3 then infoLoop k element (p.drop 2)
      else if op = 4 ∨ op = 2 then do
        store (byte p + 1) nameSize
        infoLoop k element (p.drop (1 + byte p))
      else .ok element

/-- `SDL_info` without variables -/
def sdlInfo (sdl : Stream) : Except Stop Dsc :=
  if byte sdl = 1 then infoLoop (sdl.length + 1) .new (sdl.drop 1) else .error .failed

/-! ## The slice -/

/-- `MAX_OPAQUE` -/
def maxOpaque : ℕ := 32768

/-- A slice of `n` bytes in pieces, when the peer has the same architecture -/
def xdrPieces : ℕ → ℕ → ℕ → Stream → Except Stop Stream
  | 0, _, _, _ => .error .failed
  | k + 1, n, room, s =>
      if maxOpaque < n then do
        let s ← xdrOpaque maxOpaque room s
        xdrPieces k (n - maxOpaque) (room - maxOpaque) s
      else xdrOpaque n room s

/-- A slice element by element -/
def xdrElements (desc : Dsc) : ℕ → ℕ → Stream → Except Stop Stream
  | 0, _, s => return s
  | n + 1, room, s => do
      let s ← xdrDatum desc room s
      xdrElements desc n (room - desc.length) s

/-- `xdr_slice`; `symmetric` is `PORT_symmetric`. -/
def xdrSlice (b : Buffer) (m : Allocator) (sdl : Stream) (symmetric : Bool) (s : Stream) :
    Except Stop Stream := do
  let (n, s) ← getLong s
  let length := (toUInt32 n).toNat
  if length = 0 then return s
  else
    let room ← b.alloc m length
    let desc ← sdlInfo sdl
    if symmetric then xdrPieces (length + 1) length room s
    else if desc.length = 0 then throw .divideByZero
    else xdrElements desc (length / desc.length) room s

/-! ## All decoders -/

/-- What is decoded: a field of a message with its descriptor, a slice, a status vector, longs or a
string, with the memory that there is for it -/
inductive Item
  | datum (desc : Dsc)
  | slice (buffer : Buffer) (sdl : Stream) (symmetric : Bool)
  | statusVector
  | longs (buffer : Buffer)
  | cstring (buffer : Buffer)

def decode (m : Allocator) (i : Item) (s : Stream) : Except Stop Stream :=
  match i with
  | .datum desc => xdrDatum desc desc.length s
  | .slice b sdl symmetric => xdrSlice b m sdl symmetric s
  | .statusVector => xdrStatusVector m s
  | .longs b => xdrLongs b m s
  | .cstring b => xdrCstring b m s

/-- A decoder fails or writes only where there is room, and it does not divide by zero. -/
def InBounds (r : Except Stop Stream) : Prop :=
  r ≠ .error .outOfBounds ∧ r ≠ .error .divideByZero

instance (r : Except Stop Stream) : Decidable (InBounds r) := inferInstanceAs (Decidable (_ ∧ _))

theorem inBounds_ok (s : Stream) : InBounds (.ok s) := by
  constructor
  · intro h
    cases h
  · intro h
    cases h

theorem inBounds_failed : InBounds (.error .failed) := by decide

theorem not_outOfBounds : ¬InBounds (.error .outOfBounds) := fun h => h.1 rfl

theorem not_divideByZero : ¬InBounds (.error .divideByZero) := fun h => h.2 rfl

end Firebird.Xdr
