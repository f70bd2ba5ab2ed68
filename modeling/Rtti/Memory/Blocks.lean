import Rtti.Memory.Snapshot

/-!
# Blocks of memory

Memory that comes in blocks is captured with blocks that follow each other
joined into one region, so that a read may cross from one to the next.
-/

namespace Rtti

/-- A block of memory. -/
structure Block where
  base : Address
  bytes : List UInt8
  deriving DecidableEq

namespace Block

/-- Whether `next` begins where the block ends. -/
def isFollowedBy (block next : Block) : Bool :=
  block.base.val + block.bytes.length = next.base.val

/-- The blocks with neighbours that follow each other joined, where
`current` comes before them. -/
def joinFrom (current : Block) : List Block → List Block
  | [] => [current]
  | next :: rest =>
    if current.isFollowedBy next then joinFrom ⟨current.base, current.bytes ++ next.bytes⟩ rest
    else current :: joinFrom next rest

/-- The blocks with neighbours that follow each other joined. -/
def join : List Block → List Block
  | [] => []
  | first :: rest => joinFrom first rest

end Block

/-- The snapshot of blocks in ascending order. -/
def Snapshot.ofBlocks (width : PointerWidth) (imageName : Option String) (blocks : List Block) :
    Snapshot :=
  (Block.join blocks).foldl (fun s block => s.addRegion block.base block.bytes)
    { width, imageName }

end Rtti
