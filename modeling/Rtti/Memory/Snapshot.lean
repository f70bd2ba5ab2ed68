import Rtti.SortedMap
import Rtti.Target

/-!
# Snapshots

Captured memory: byte regions by base address, with the pointer width and
the image name of the process that they were taken from.  A read is answered
from the region with the largest base that does not exceed its address, and
only if that region holds the whole range.
-/

namespace Rtti

/-- Regions captured from a process. -/
structure Snapshot where
  width : PointerWidth
  imageName : Option String := none
  /-- The bytes of each region by its base address. -/
  regions : SortedMap Address (List UInt8) := .empty
  deriving DecidableEq

namespace Snapshot

/-- The snapshot with one more region, which replaces a region of the same
base. -/
def addRegion (s : Snapshot) (base : Address) (bytes : List UInt8) : Snapshot :=
  { s with regions := s.regions.insert base bytes }

/-- The snapshot with the given image name. -/
def withImageName (s : Snapshot) (name : String) : Snapshot :=
  { s with imageName := some name }

/-- The number of regions. -/
def regionCount (s : Snapshot) : Nat := s.regions.size

/-- The captured bytes of a range. -/
def read (s : Snapshot) : Memory := fun address size =>
  let fault reason := .error (.readFault (address.display s.width) size reason)
  match s.regions.floor? address with
  | none => fault "address not captured"
  | some (base, bytes) =>
    let offset := address.val - base.val
    if 0x10000000000000000 ≤ offset + size then fault "size overflows"
    else
      let window := (bytes.drop offset).take size
      if offset ≤ bytes.length ∧ window.length = size then .ok window
      else fault "range not captured"

/-- The process as it was when the snapshot was taken. -/
def target (s : Snapshot) : Target :=
  ⟨s.width, s.imageName, s.read⟩

end Snapshot

end Rtti
