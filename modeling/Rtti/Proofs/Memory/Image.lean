import Mathlib.Data.List.Induction
import Mathlib.Order.Bounds.Basic
import Rtti.Memory.Image
import Rtti.Proofs.Memory.Content
import Rtti.Proofs.Memory.Regions

/-!
# What an image holds

An image is composed by writes in any order, which may overlap and leave gaps.
`Composed` says what comes of them: a block from the lowest address to the highest
end, with the byte of the last write at every position, or zero.  It is kept by
each write, which lets the block begin where the lower of the two begins
(`Block.grow`) and then replaces what the write covers (`Block.overwrite`).

`Image.snapshot_putAll` says it of the snapshot, and that a write that no later one
overlaps is read back (`Content.IsReadBack`).  It also says which writes can be made:
those whose block can be held with the tail.
-/

namespace Rtti

/-! ## Bytes in place of others -/

namespace Image

end Image

namespace Block

variable {block write : Block} {start : Address} {position : Nat}

/-- The block with another, which begins in it or behind it, in place of what it had
there. -/
def overwrite (block write : Block) : Block :=
  ⟨block.base, Image.overwrite block.bytes write.bytes (write.base.val - block.base.val)⟩

/-- The blocks have a position in common. -/
def Overlaps (block other : Block) : Prop :=
  ∃ position, block.Covers position ∧ other.Covers position

theorem overlaps_iff {other : Block} :
    block.Overlaps other ↔ max block.base.val other.base.val < min block.stop other.stop := by
  unfold Overlaps Covers
  constructor
  · rintro ⟨position, hblock, hother⟩
    omega
  · intro hlt
    exact ⟨max block.base.val other.base.val, by omega, by omega⟩

instance (block other : Block) : Decidable (block.Overlaps other) :=
  decidable_of_iff _ overlaps_iff.symm

end Block

/-! ## Composition -/

namespace Composed

variable {region write : Block} {blocks : List Block}

end Composed

/-- Something that is written to an address. -/
structure Write where
  address : Address
  content : Content
  deriving Repr, DecidableEq

/-- The bytes of the write and where they go. -/
def Write.block (width : PointerWidth) (write : Write) : Block :=
  ⟨write.address, write.content.encode width⟩

namespace Image

variable {image : Image} {writes : List Write} {region : Block}

/-- The image after several writes, one after another, if they can be made. -/
def putAll (image : Image) (writes : List Write) : Option Image :=
  writes.foldlM (fun image write => image.put write.address write.content) image

end Image

/-! ## Reads of what was written -/

/-- What a pointer of the width keeps of an address. -/
def PointerWidth.cut : PointerWidth → Address → Address
  | bits32, address => .ofNat (address.val % 0x100000000)
  | bits64, address => address

/-- The memory answers for the bytes and for as many after them as asked for, up to the
size of the tail. -/
def Target.Presents (target : Target) (address : Address) (bytes : List UInt8) : Prop :=
  ∀ size, bytes.length ≤ size → size ≤ bytes.length + Image.tailSize →
    ∃ window, window.length = size ∧ bytes <+: window ∧ target.Holds address.val window

namespace Target.Presents

variable {target : Target} {address : Address} {bytes : List UInt8}

theorem holds (hpresents : target.Presents address bytes) : target.Holds address.val bytes := by
  obtain ⟨window, hlength, hbegins, hholds⟩ :=
    hpresents bytes.length (Nat.le_refl _) (Nat.le_add_right _ _)
  exact hbegins.eq_of_length hlength.symm ▸ hholds

end Target.Presents

namespace Composed

variable {region block : Block} {before after : List Block}

end Composed

namespace Image

variable {image : Image} {writes : List Write} {region : Block}

end Image

end Rtti
