import Rtti.Target
import Rtti.Text.Blank

/-!
# Processes

A running process as the system shows it: the path of its executable, where it can be
told, and reads that may give fewer bytes than were asked for.  The width of its pointers
is not told, so `Process.target` is given it.
-/

namespace Rtti

/-- A running process that is open for reading. -/
structure Process where
  imageName : Option String
  /-- What is read of so many bytes from an address, or the reason why nothing is. -/
  read : Address → Nat → Except String (List UInt8)

namespace Process

/-- The complaint of a scan about a read of more bytes than can be held. -/
def capacityOverflow : String := "capacity overflow"

/-- The memory of the process.  A range is read as a whole or not at all. -/
def memory (process : Process) (width : PointerWidth) : Memory := fun address size =>
  let fault reason := .error (.readFault (address.display width) size reason)
  if Memory.capacity < size then .error (.scanBrokeDown capacityOverflow)
  else
    match process.read address size with
    | .error reason => fault reason
    | .ok bytes =>
      if bytes.length = size then .ok bytes else fault s!"short read of {bytes.length} bytes"

/-- The process as a target with pointers of the given width. -/
def target (process : Process) (width : PointerWidth) : Target :=
  ⟨width, process.imageName, process.memory width⟩

/-- The process number that a text spells in decimal digits, with or without a plus sign;
blanks around them are ignored. -/
def number? (text : String) : Option Nat :=
  let digits := match (Text.trim text).toList with
    | '+' :: digits => digits
    | digits => digits
  let n := digits.foldl (fun n digit => 10 * n + (digit.toNat - '0'.toNat)) 0
  if !digits.isEmpty && digits.all Char.isDigit && n < 0x100000000 then some n else none

end Process

end Rtti
