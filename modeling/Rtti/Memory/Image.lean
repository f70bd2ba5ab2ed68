import Rtti.Bytes.Word
import Rtti.Memory.Snapshot
import Rtti.Text.Utf8

/-!
# Memory images

An image of memory that is composed by writing bytes, words and texts to
chosen addresses, in any order.  It is one range from the lowest address
written to the highest; bytes in between that are never written are zero,
and a later write replaces what it covers.  `Image.snapshot` captures it,
followed by a tail of zeros.

The range is held in one piece, so writes that are too far apart cannot be made
(`Memory.capacity`).
-/

namespace Rtti

/-- What can be written to an address. -/
inductive Content where
  | bytes (data : List UInt8)
  /-- The low 32 bits of a number. -/
  | word32 (n : Nat)
  /-- The low 64 bits of a number. -/
  | word64 (n : Nat)
  /-- A pointer, cut to the pointer width. -/
  | pointer (address : Address)
  /-- A signed number of the size of a pointer, cut to it. -/
  | long (n : Int)
  /-- A text in UTF-8 with a zero byte after it. -/
  | text (s : String)
  deriving Repr, DecidableEq

/-- The bytes that are written. -/
def Content.encode (width : PointerWidth) : Content → List UInt8
  | .bytes data => data
  | .word32 n => Word.toBytes 4 n
  | .word64 n => Word.toBytes 8 n
  | .pointer address => Word.toBytes width.bytes address.val
  | .long n => Word.toBytes width.bytes (Word.ofSigned width.bytes n)
  | .text s => Utf8.encode s ++ [0]

/-- A memory image under composition. -/
structure Image where
  width : PointerWidth
  imageName : Option String := none
  /-- The range written so far and its first address. -/
  written : Option (Address × List UInt8) := none

namespace Image

/-- The bytes with `data` in place of those from `offset`; zeros fill up a
gap before `data`. -/
def overwrite (bytes data : List UInt8) (offset : Nat) : List UInt8 :=
  (bytes ++ List.replicate (offset - bytes.length) 0).take offset ++ data ++
    bytes.drop (offset + data.length)

/-- The number of bytes from the lowest address to the highest end, with `data` at an
address. -/
def sizeWith (image : Image) (address : Address) (data : List UInt8) : Nat :=
  match image.written with
  | none => data.length
  | some (base, bytes) =>
    max (base.val + bytes.length) (address.val + data.length) - min base.val address.val

/-- The range with `data` at an address, and its first address. -/
def rangeWith (image : Image) (address : Address) (data : List UInt8) : Address × List UInt8 :=
  match image.written with
  | none => (address, data)
  | some (base, bytes) =>
    if address < base then
      let grown := List.replicate (base.val - address.val) 0 ++ bytes
      (address, overwrite grown data 0)
    else (base, overwrite bytes data (address.val - base.val))

/-- Writes bytes to an address, if the range is not too large to be held then. -/
def putBytes (image : Image) (address : Address) (data : List UInt8) : Option Image :=
  if image.sizeWith address data ≤ Memory.capacity then
    some { image with written := some (image.rangeWith address data) }
  else none

/-- Writes something to an address, if the range is not too large to be held then. -/
def put (image : Image) (address : Address) (content : Content) : Option Image :=
  image.putBytes address (content.encode image.width)

/-- The number of zero bytes that a snapshot has after the highest address
written, so that reads just past the last write are captured. -/
def tailSize : Nat := 0x1000

/-- The image as a snapshot of one region, or of none if nothing was
written.  A region that is too large to be held cannot be captured. -/
def snapshot (image : Image) : Option Snapshot :=
  let empty : Snapshot := { width := image.width, imageName := image.imageName }
  match image.written with
  | none => some empty
  | some (base, bytes) =>
    if bytes.length + tailSize ≤ Memory.capacity then
      some (empty.addRegion base (bytes ++ List.replicate tailSize 0))
    else none

end Image

end Rtti
