import Rtti.ScanError

/-!
# Targets

What a scan works on: a process, running or captured, of which the pointer
width is known and whose memory can be read.  `Target.read` is the only way
to the memory; it lets no answer through that has the wrong length.
-/

namespace Rtti

/-- What a memory answers to a read. -/
abbrev Answer := Except ScanError (List UInt8)

/-- A memory: what it answers to a read of so many bytes from an address. -/
abbrev Memory := Address → Nat → Answer

/-- The largest number of bytes that are held in one piece. -/
def Memory.capacity : Nat := 0x7FFFFFFFFFFFFFFF

/-- A process under inspection. -/
structure Target where
  /-- The size of its pointers. -/
  width : PointerWidth
  /-- The name of its executable, if it is known. -/
  imageName : Option String
  /-- What its memory answers to a read. -/
  memory : Memory

namespace Target

/-- Exactly `size` bytes from `address`.  A memory that answers with more or
fewer bytes is at fault. -/
def read (target : Target) (address : Address) (size : Nat) : Answer :=
  match target.memory address size with
  | .error error => .error error
  | .ok bytes =>
    if bytes.length = size then .ok bytes
    else .error (.readFault (address.display target.width) size
      s!"backend returned {bytes.length} bytes")

/-- What is read has the length that was asked for. -/
theorem length_of_read {target : Target} {address : Address} {size : Nat} {bytes : List UInt8}
    (h : target.read address size = .ok bytes) : bytes.length = size := by
  unfold read at h
  split at h
  · simp at h
  · split at h
    · simp_all
    · simp at h

end Target

end Rtti
