import Firebird.Lib.Longs
import Firebird.Lib.Outcome
import Firebird.Lib.RowMajor

/-! # Arrays in a backup

The elements of an array that the engine has, which may be the first ones only, are written with
ranges, and are put back by slices. A slice has its description, which is made in a buffer of 200
bytes, and is a box of subscripts, so that the elements of a part of an array go into a box for each
dimension.
-/

namespace Firebird.Burp.ArraySlice

open Memory (lowByte longBytes)
open RowMajor (Box size points)

def blrShort : ℕ := 7
def blrLong : ℕ := 8
def blrQuad : ℕ := 9
def blrText : ℕ := 14
def blrText2 : ℕ := 15
def blrInt64 : ℕ := 16
def blrVarying : ℕ := 37
def blrVarying2 : ℕ := 38

/-- An array field, and the relation that it is of -/
structure Field where
  fldType : ℕ
  fldLength : ℕ
  fldScale : ℤ
  fldCharacterSetId : ℤ
  fldName : List UCHAR
  fldId : ℤ
  relName : List UCHAR
  relId : ℤ
  ranges : Box
  dims_pos : ranges ≠ []
  dims_le : ranges.length ≤ 16
  le_of_mem : ∀ r ∈ ranges, -2147483648 ≤ r.1 ∧ r.1 ≤ r.2 ∧ r.2 < 2147483648
  length_pos : 0 < fldLength
  length_lt : fldLength + 2 < 65536
  /-- The length of a whole array is an `SLONG`. -/
  total_lt : (if fldType = blrVarying then fldLength + 2 else fldLength) * size ranges < 2147483648

inductive Stop where
  | undefined
  /-- `isc_put_slice` has failed; the array is left as it is. -/
  | failed
  deriving DecidableEq

namespace Field

variable (f : Field)

def fldDimensions : ℕ := f.ranges.length

/-- `field_length` -/
def fieldLength : ℕ := if f.fldType = blrVarying then f.fldLength + 2 else f.fldLength

def hasScale : Prop :=
  f.fldType = blrShort ∨ f.fldType = blrLong ∨ f.fldType = blrQuad ∨ f.fldType = blrInt64

instance : Decidable f.hasScale := inferInstanceAs (Decidable (_ ∨ _))

/-! ## Slice descriptions -/

def stuffWord (v : ℤ) : List UCHAR := [lowByte v, lowByte (v / 256)]

/-- `stuff_string` -/
def stuffString (s : List UCHAR) : List UCHAR := lowByte s.length :: s

/-- The loop `gds_sdl_do2` of a dimension -/
def stuffRange (count : ℕ) (lower upper : ℤ) : List UCHAR :=
  [34, lowByte count, 11] ++ longBytes lower ++ 11 :: longBytes upper

def stuffRanges : ℕ → Box → List UCHAR
  | _, [] => []
  | count, r :: rest => stuffRange count r.1 r.2 ++ stuffRanges (count + 1) rest

/-- The element, which has a variable for each dimension -/
def stuffElement : List UCHAR :=
  [36, 1, 8, 0, lowByte f.fldDimensions] ++
    (List.range f.fldDimensions).flatMap (fun count : ℕ => [7, lowByte count]) ++ [255]

/-- The description of the whole array, as `put_array` makes it -/
def putSdl : List UCHAR :=
  [1, 6, 1] ++ lowByte f.fldType :: (if f.hasScale then [lowByte f.fldScale] else []) ++
    (if f.fldType = blrText ∨ f.fldType = blrVarying then stuffWord f.fldLength else []) ++
    3 :: stuffWord f.relId ++ 5 :: stuffWord f.fldId ++ stuffRanges 0 f.ranges ++ f.stuffElement

/-- The description in front of the ranges, as `get_array` makes it -/
def sdlHead : List UCHAR :=
  [1, 6, 1] ++
    (if f.fldType = blrText ∨ f.fldType = blrVarying then
      lowByte (if f.fldType = blrText then blrText2 else blrVarying2) ::
        (stuffWord f.fldCharacterSetId ++ stuffWord f.fldLength)
    else if f.hasScale then [lowByte f.fldType, lowByte f.fldScale]
    else [lowByte f.fldType]) ++
    2 :: stuffString f.relName ++ 4 :: stuffString f.fldName

/-- `blr_buffer[200]` -/
def checkBuffer (sdl : List UCHAR) : Except Stop Unit :=
  if sdl.length ≤ 200 then .ok () else .error .undefined

/-! ## The last element -/

/-- The number of elements of the dimensions -/
def divisor (b : Box) : ℤ := (b.map fun r => r.2 - r.1 + 1).prod

/-- The subscripts of the last one of a number of elements, as both functions compute them, with
the division of C -/
def lastSubscripts : Box → ℤ → List ℤ
  | [], _ => []
  | r :: rest, elements =>
      let last := (elements - 1).tdiv (divisor rest) + r.1
      last :: lastSubscripts rest (elements - (last - r.1) * divisor rest)

/-! ## `put_array` -/

/-- An array in a backup file -/
structure Record where
  ranges : Box
  returnLength : ℕ
  data : List UCHAR

/-- `put_array`, when `isc_get_slice` has returned these bytes. The number of elements is one less
than has been returned when the upper bounds are computed. -/
def putArray (data : List UCHAR) : Except Stop Record := do
  checkBuffer f.putSdl
  let returnLength := data.length
  let sliceLength := f.fieldLength * divisor f.ranges
  let returnedRange := lastSubscripts f.ranges ((returnLength / f.fieldLength : ℕ) - 1)
  return {
    ranges := if returnLength = sliceLength then f.ranges
      else List.zipWith (fun r d => (r.1, d)) f.ranges returnedRange
    returnLength := returnLength
    data := data }

/-! ## The engine -/

/-- The elements of an array that have been stored -/
abbrev Store := List ℤ → Option (List UCHAR)

/-- `SDL_walk` and `slice_callback`: the elements are stored one by one, from a slice with this
number of bytes left. -/
def walk : List (List ℤ) → ℕ → List UCHAR → Store → Except Stop Store
  | [], _, _, array => .ok array
  | s :: ss, left, slice, array =>
      -- `gds_out_of_bounds`, for a subscript or for the end of the slice
      if (s.zip f.ranges).any (fun p => p.1 < p.2.1 || p.2.2 < p.1) ∨ left < f.fieldLength then
        .error .failed
      else walk ss (left - f.fieldLength) (slice.drop f.fieldLength)
        (Function.update array s (some (slice.take f.fieldLength)))

/-- `isc_put_slice` -/
def putSlice (box : Box) (length : ℕ) (slice : List UCHAR) (array : Store) : Except Stop Store :=
  f.walk (points box) length slice array

/-! ## `get_array` -/

/-- The dimensions of an array with the subscripts of the last element -/
abbrev Dims := List ((ℤ × ℤ) × ℤ)

/-- Whether the last two dimensions are put at once -/
def mergeWith (currentDim count : ℕ) : Dims → Option ((ℤ × ℤ) × ℤ)
  | next :: _ =>
      if currentDim + 1 = f.fldDimensions - 1 ∧ f.fldDimensions - count = 2 ∧ next.2 = next.1.2 then
        some next
      else none
  | [] => none

/-- A bound of the box is added in front. -/
def addBound (count : ℕ) (r : ℤ × ℤ) (s : List UCHAR × Option (Box × Bool)) :
    List UCHAR × Option (Box × Bool) :=
  (stuffRange count r.1 r.2 ++ s.1, s.2.map fun box => (r :: box.1, box.2))

/-- The loop over the dimensions, from `count` on: the description, and the bounds of the box with
whether two dimensions have been put at once, if it is to be written -/
def boxBounds (currentDim : ℕ) : ℕ → Dims → Except Stop (List UCHAR × Option (Box × Bool))
  | _, [] => .ok ([], some ([], false))
  | count, (range, last) :: rest =>
      match f.mergeWith currentDim count rest with
      | some (next, lastNext) =>
          .ok (stuffRange count range.1 last ++ stuffRange (count + 1) next.1 lastNext,
            some ([(range.1, last), (next.1, lastNext)], true))
      | none =>
          if currentDim = count then
            if currentDim = f.fldDimensions - 1 then
              if last < range.1 then .ok ([34, lowByte count, 11] ++ longBytes range.1 ++ [11], none)
              else (boxBounds currentDim (count + 1) rest).map (addBound count (range.1, last))
            -- the upper bound is in front of the smallest `int`
            else if last = -2147483648 then .error .undefined
            else if last - 1 < range.1 then
              .ok ([34, lowByte count, 11] ++ longBytes range.1 ++ [11], none)
            else (boxBounds currentDim (count + 1) rest).map (addBound count (range.1, last - 1))
          else if currentDim < count then
            (boxBounds currentDim (count + 1) rest).map (addBound count range)
          else (boxBounds currentDim (count + 1) rest).map (addBound count (last, last))

/-- The loop that puts the boxes, from `currentDim` on. The length of a slice has `fld_length` for
each element. -/
def putBoxes (dims : Dims) (data : List UCHAR) : ℕ → ℕ → ℕ → Store → Except Stop (List Box × Store)
  | 0, _, _, array => .ok ([], array)
  | k + 1, currentDim, dataAt, array =>
      if f.fldDimensions ≤ currentDim then .ok ([], array)
      else
        match f.boxBounds currentDim 0 dims with
        | .error e => .error e
        | .ok (sdl, none) => do
            checkBuffer (f.sdlHead ++ sdl)
            putBoxes dims data k (currentDim + 1) dataAt array
        | .ok (sdl, some (box, merged)) => do
            checkBuffer (f.sdlHead ++ sdl ++ f.stuffElement)
            let length := size box * f.fldLength
            let array ← f.putSlice box length (data.drop dataAt) array
            let r ← putBoxes dims data k (if merged then currentDim + 2 else currentDim + 1)
              (dataAt + length) array
            return (box :: r.1, r.2)

/-- `get_array`: the boxes that have been put, and the elements -/
def getArray (r : Record) : Except Stop (List Box × Store) :=
  if (r.returnLength : ℤ) ≠ f.fieldLength * divisor r.ranges then
    let lastElementDim := lastSubscripts f.ranges (r.returnLength / f.fieldLength : ℕ)
    f.putBoxes (f.ranges.zip lastElementDim) r.data f.fldDimensions 0 0 fun _ => none
  else do
    checkBuffer (f.sdlHead ++ stuffRanges 0 r.ranges ++ f.stuffElement)
    let array ← f.putSlice r.ranges r.returnLength r.data fun _ => none
    return ([r.ranges], array)

/-- Arrays backed up and put back -/
def restore (data : List UCHAR) : Except Stop (List Box × Store) := do
  let r ← f.putArray data
  f.getArray r

end Field

end Firebird.Burp.ArraySlice
