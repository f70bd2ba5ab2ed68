import Rtti.Bytes.Pattern
import Rtti.Bytes.Word
import Rtti.Memory.Inspection
import Rtti.Text.Encoding

/-!
# Typed reads

Inspections that make one read each: byte ranges, words, pointers and
zero-terminated texts.
-/

namespace Rtti.Inspection

/-- Exactly `size` bytes from `address`. -/
def bytes (address : Address) (size : Nat) : Inspection (List UInt8) :=
  .read address size .done

/-- The unsigned word of `size` bytes at `address`. -/
def word (address : Address) (size : Nat) : Inspection Nat :=
  .read address size fun bytes => .done (Word.ofBytes bytes)

/-- The unsigned word of `size` bytes at `address`, if it can be read. -/
def word? (address : Address) (size : Nat) : Inspection (Option Nat) :=
  .tryRead address size fun bytes => .done (bytes.map Word.ofBytes)

/-- The unsigned 32-bit word at `address`. -/
def word32 (address : Address) : Inspection Nat :=
  word address 4

/-- The unsigned 64-bit word at `address`. -/
def word64 (address : Address) : Inspection Nat :=
  word address 8

/-- The signed 64-bit word at `address`. -/
def signed64 (address : Address) : Inspection Int := do
  return Word.toSigned 8 (← word64 address)

/-- The signed word of the size of a pointer at `address`. -/
def long (width : PointerWidth) (address : Address) : Inspection Int := do
  return Word.toSigned width.bytes (← word address width.bytes)

/-- The pointer stored at `address`. -/
def pointer (width : PointerWidth) (address : Address) : Inspection Address := do
  return Address.ofNat (← word address width.bytes)

/-- The complaint of a scan about a product that 64 bits do not hold. -/
def multiplyOverflow : String := "attempt to multiply with overflow"

/-- The text of at most `maxUnits` code units at `address`.  It ends before
the first code unit that is zero; bytes that are no text in the encoding give
the empty text.  All units are read at once; if 64 bits do not hold their
number of bytes, nothing is read and the scan breaks down. -/
def text (address : Address) (maxUnits : Nat) (encoding : TextEncoding) : Inspection String := do
  let unit := encoding.unitSize
  let size := maxUnits * unit
  if 0x10000000000000000 ≤ size then .fail (.scanBrokeDown multiplyOverflow)
  else
    let data ← bytes address size
    let length := (Pattern.findAligned (Pattern.zeros unit) data unit).getD data.length
    return encoding.decode (data.take length)

section Text

variable {address : Address} {units : Nat} {encoding : TextEncoding}

/-- The one read of a text, and what is made of its window. -/
theorem text_eq (hsize : units * encoding.unitSize < 0x10000000000000000) :
    text address units encoding =
      .read address (units * encoding.unitSize) fun window => .done <| encoding.decode <|
        window.take ((Pattern.findAligned (Pattern.zeros encoding.unitSize) window
          encoding.unitSize).getD window.length) :=
  if_neg (Nat.not_le.2 hsize)

theorem text_eq_fail (hlarge : 0x10000000000000000 ≤ units * encoding.unitSize) :
    text address units encoding = .fail (.scanBrokeDown multiplyOverflow) :=
  if_pos hlarge

end Text

end Rtti.Inspection
