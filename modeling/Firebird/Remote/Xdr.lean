import Firebird.Lib.Bytes
import Firebird.Lib.Outcome
import Firebird.Lib.Wrap

/-! # Decoding of packets (`remote/protocol.cpp`, `remote/xdr.cpp`)

What the peer sends is a stream of bytes. Of the values that are decoded only those are kept on which
something depends. What is written to is known by its room, which is how many bytes there are from
its address on; an address of `n` bytes more has `n` less.

The decoders are what the functions do for `XDR_DECODE`.
-/

namespace Firebird.Xdr

open Wrap

/-- The bytes that are still to be decoded (`x_handy` of them from `x_private` on) -/
abbrev Stream := List UCHAR

/-- Why a decoder does not return `TRUE`: it returns `FALSE`, it writes where there is no room, or it
divides by zero. -/
inductive Stop
  | failed
  | outOfBounds
  | divideByZero
  deriving DecidableEq, Repr

/-! ## Streams -/

/-- The long at the beginning of a stream, which is in the order of the network -/
def long (s : Stream) : ℤ := toInt32 (Bytes.ofDigits (s.take 4))

def short (s : Stream) : ℤ := toInt16 (long s)

/-- `mem_getlong`, into a variable -/
def getLong (s : Stream) : Except Stop (ℤ × Stream) :=
  if s.length < 4 then .error .failed else .ok (long s, s.drop 4)

/-- Something of `n` bytes is written. -/
def store (n room : ℕ) : Except Stop Unit :=
  if n ≤ room then .ok () else .error .outOfBounds

/-- `mem_getbytes`. A count that is negative as a long is not more than what is at hand, and a very
large one for `memcpy`. -/
def getBytes (count : ℤ) (room : ℕ) (s : Stream) : Except Stop Stream :=
  if count < 0 then .error .outOfBounds
  else if s.length < count then .error .failed
  else do
    store count.toNat room
    return s.drop count.toNat

/-- `xdr_opaque`, with the filler behind the bytes, which goes to `trash` -/
def xdrOpaque (len : ℤ) (room : ℕ) (s : Stream) : Except Stop Stream := do
  let s ← getBytes len room s
  getBytes ((4 - len) % 4) 4 s

/-- `xdr_short`, into a variable -/
def xdrShort (s : Stream) : Except Stop (ℤ × Stream) := do
  let (temp, s) ← getLong s
  return (toInt16 temp, s)

/-- `xdr_long` -/
def xdrLong (room : ℕ) (s : Stream) : Except Stop Stream := do
  let (_, s) ← getLong s
  store 4 room
  return s

/-- `xdr_hyper` and `xdr_double`, which write when both longs have been got -/
def xdrHyper (room : ℕ) (s : Stream) : Except Stop Stream := do
  let (_, s) ← getLong s
  let (_, s) ← getLong s
  store 8 room
  return s

/-- `xdr_quad`, and the two longs of a timestamp -/
def xdrQuad (room : ℕ) (s : Stream) : Except Stop Stream := do
  let s ← xdrLong room s
  xdrLong (room - 4) s

/-! ## Fields -/

/-- `dsc_dtype`, as far as `xdr_datum` tells the types apart -/
inductive Dtype
  | text
  | varying
  | cstring
  | short
  | long
  | sqlTime
  | sqlDate
  | real
  | double
  | timestamp
  | int64
  | quad
  | blob
  | array
  | other
  deriving DecidableEq, Repr

/-- A descriptor with its length, which is an unsigned short -/
structure Dsc where
  dtype : Dtype
  length : ℕ
  length_lt : length < 65536
  deriving DecidableEq

/-- `MIN ((USHORT) (dsc_length - 2), vary_length)` -/
def varyLength (desc : Dsc) (n : ℤ) : ℕ := min ((desc.length + 65534) % 65536) (n % 65536).toNat

/-- `xdr_datum` -/
def xdrDatum (desc : Dsc) (room : ℕ) (s : Stream) : Except Stop Stream :=
  match desc.dtype with
  | .text => xdrOpaque desc.length room s
  | .varying => do
      let (n, s) ← xdrShort s
      store 2 room
      xdrOpaque (varyLength desc n) (room - 2) s
  | .cstring => do
      let (n, s) ← xdrShort s
      let s ← xdrOpaque n room s
      store 1 (room - n.toNat)
      return s
  | .short => do
      let (_, s) ← xdrShort s
      store 2 room
      return s
  | .sqlTime | .sqlDate | .long | .real => xdrLong room s
  | .double | .int64 => xdrHyper room s
  | .timestamp | .array | .quad | .blob => xdrQuad room s
  | .other => .error .failed

/-! ## Strings -/

/-- `ALLR_alloc` and `gds__alloc`: the room that the requests one after the other find, if there is
memory. The size is converted to a long; for one that is negative then there may be any room. -/
structure Allocator where
  alloc : ℕ → ℕ → Option ℕ
  le_room : ∀ i n room, n < 2147483648 → alloc i n = some room → n ≤ room

def Allocator.get (m : Allocator) (i n : ℕ) : Except Stop ℕ :=
  match m.alloc i n with
  | none => .error .failed
  | some room => .ok room

/-- `MAXSTRING_FOR_WRAPSTRING` -/
def maxWrapstring : ℕ := 65535

/-- `xdr_wrapstring` for the slot `i`, which is null -/
def xdrWrapstring (m : Allocator) (i : ℕ) (s : Stream) : Except Stop Stream := do
  let room ← m.get i (maxWrapstring + 1)
  let (temp, s) ← getLong s
  let length := (toUInt32 temp).toNat
  if maxWrapstring < length then throw .failed
  else
    let s ← getBytes length room s
    store 1 (room - length)
    getBytes ((4 - length) % 4) 4 s

/-- `CSTRING` and `LSTRING`: the size that is said to be allocated, and how much memory there is at
the address, if it is not null. Memory of the caller may come without a size. -/
structure Buffer where
  allocated : ℕ
  capacity : Option ℕ
  allocated_le : ∀ c ∈ capacity, allocated ≤ c

/-- `alloc_cstring`, and the same in `xdr_slice`, for a length that is not zero: how much memory there
is then -/
def Buffer.alloc (b : Buffer) (m : Allocator) (length : ℕ) : Except Stop ℕ :=
  let address := if length > b.allocated ∧ b.allocated ≠ 0 then none else b.capacity
  match address with
  | none => m.get 0 length
  | some c => .ok c

/-- `alloc_cstring` -/
def allocCstring (b : Buffer) (m : Allocator) (length : ℕ) : Except Stop ℕ :=
  if length = 0 then .ok (b.capacity.getD 0) else b.alloc m length

/-- `xdr_cstring` -/
def xdrCstring (b : Buffer) (m : Allocator) (s : Stream) : Except Stop Stream := do
  let (n, s) ← xdrShort s
  let length := (n % 65536).toNat
  let room ← allocCstring b m length
  xdrOpaque length room s

/-- The loop of `xdr_longs` -/
def getLongs : ℕ → ℕ → Stream → Except Stop Stream
  | 0, _, s => return s
  | n + 1, room, s => do
      let s ← xdrLong room s
      getLongs n (room - 4) s

/-- `xdr_longs` -/
def xdrLongs (b : Buffer) (m : Allocator) (s : Stream) : Except Stop Stream := do
  let (n, s) ← xdrShort s
  let length := (n % 65536).toNat
  let room ← allocCstring b m length
  getLongs (length / 4) room s

/-! ## Status vectors -/

/-- `ISC_STATUS_LENGTH`, and the number of strings of a response -/
def statusLength : ℕ := 20
def numStrings : ℕ := 10

def argEnd : ℤ := 0
def argString : ℤ := 2
def argInterpreted : ℤ := 5

/-- The loop of `xdr_status_vector`, with the entry of the vector and the slot of the strings that
are next. Each turn takes at least a long, so that the number of turns is not what ends it. -/
def statusLoop (m : Allocator) : ℕ → ℕ → ℕ → Stream → Except Stop Stream
  | 0, _, _, _ => .error .failed
  | k + 1, entry, slot, s => do
      let (vec, s) ← getLong s
      store 1 (statusLength - entry)
      if vec % 65536 = argEnd then return s
      else if vec % 65536 = argInterpreted ∨ vec % 65536 = argString then
        store 1 (numStrings - slot)
        let s ← xdrWrapstring m slot s
        store 1 (statusLength - (entry + 1))
        statusLoop m k (entry + 2) (slot + 1) s
      else
        let (_, s) ← getLong s
        store 1 (statusLength - (entry + 1))
        statusLoop m k (entry + 2) slot s

/-- `xdr_status_vector` -/
def xdrStatusVector (m : Allocator) (s : Stream) : Except Stop Stream :=
  statusLoop m (s.length + 1) 0 0 s

end Firebird.Xdr
