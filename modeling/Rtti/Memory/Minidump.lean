import Rtti.Bytes.Word
import Rtti.Memory.Blocks
import Rtti.Text.Blank
import Rtti.Text.Utf16

/-!
# Minidumps

A minidump is a directory of numbered streams.  The system information tells
the architecture, the memory information lists the mapped regions, the
memory list holds their contents, and the module list names the images.
`Minidump.parse` reads these streams, with the checks that a dump has to pass
in the order in which they are made, and `Minidump.snapshot` captures the
contents.
-/

namespace Rtti

/-- Why a minidump cannot be used. -/
inductive DumpFault where
  /-- It breaks the format. -/
  | malformed
  /-- It holds a value that the format allows and that nothing can be made
  of: loading breaks down. -/
  | unusable
  deriving Repr, DecidableEq

/-- What is taken from a minidump. -/
structure Minidump where
  width : PointerWidth
  /-- The contents of each region that has any, by base address. -/
  memory : SortedMap Address (List UInt8)
  /-- The file names of the images, by ascending base address. -/
  modules : List String

namespace Minidump

/-! ## Reading ranges of the file -/

/-- The bytes of a range of the file. -/
def range (file : List UInt8) (offset size : Nat) : Except DumpFault (List UInt8) :=
  let found := (file.drop offset).take size
  if found.length = size then .ok found else .error .malformed

/-- The word of `size` bytes at an offset of an entry. -/
def word (entry : List UInt8) (offset size : Nat) : Nat :=
  Word.ofBytes ((entry.drop offset).take size)

/-- The bytes of a range that the file itself tells.  Ranges that 32 bits
cannot tell, or that begin after the end of the file, are unusable. -/
def told (file : List UInt8) (offset size : Nat) : Except DumpFault (List UInt8) :=
  if 0x100000000 ≤ offset ∨ 0x100000000 ≤ size ∨ file.length < offset then .error .unusable
  else range file offset size

/-- Entries of `size` bytes, `stride` bytes apart. -/
def entries (file : List UInt8) (size stride : Nat) :
    (count offset : Nat) → Except DumpFault (List (List UInt8))
  | 0, _ => .ok []
  | count + 1, offset => do
    let entry ← range file offset size
    let rest ← entries file size stride count (offset + stride)
    return entry :: rest

/-! ## The directory -/

/-- A stream and where it begins. -/
structure Stream where
  kind : Nat
  offset : Nat
  deriving Repr, DecidableEq

/-- The entries of the directory, at most `count` of them, up to one without
a kind. -/
def directory (file : List UInt8) : (count offset : Nat) → Except DumpFault (List Stream)
  | 0, _ => .ok []
  | count + 1, offset => do
    let entry ← range file offset 12
    if word entry 0 4 = 0 then return []
    else
      let rest ← directory file count (offset + 12)
      return ⟨word entry 0 4, word entry 8 4⟩ :: rest

/-- Where the stream of a kind begins; of several the last counts. -/
def streamAt? (streams : List Stream) (kind : Nat) : Option Nat :=
  ((streams.filter fun stream => stream.kind = kind).getLast?).map (·.offset)

/-- Where the stream of a kind begins that must be there. -/
def streamAt (streams : List Stream) (kind : Nat) : Except DumpFault Nat :=
  match streamAt? streams kind with
  | some offset => .ok offset
  | none => .error .malformed

/-- The streams of a file. -/
def streams (file : List UInt8) : Except DumpFault (List Stream) := do
  let header ← range file 0 32
  if word header 0 4 ≠ 0x504D444D ∨ word header 28 4 &&& 0x1FFFFF ≠ 0 then .error .malformed
  else directory file (word header 8 4) (word header 12 4)

/-! ## Streams -/

/-- The pointer width of the architecture. -/
def readWidth (file : List UInt8) (offset : Nat) : Except DumpFault PointerWidth := do
  let entry ← range file offset 32
  match word entry 0 2 with
  | 0 => .ok .bits32
  | 9 => .ok .bits64
  | _ => .error .unusable

/-- The base addresses of the mapped regions; no two may be equal. -/
def readRegions (file : List UInt8) (offset : Nat) : Except DumpFault (List Address) := do
  let header ← range file offset 16
  let stride := word header 4 4
  if stride < 48 then .error .malformed
  else
    let found ← entries file 48 stride (word header 8 8) (offset + 16)
    let bases := found.map fun entry => Address.ofNat (word entry 0 8)
    if bases.Nodup then return bases else .error .malformed

/-- The contents told by `count` entries from `offset` on, whose bytes follow
each other from `dataAt` on.  Each belongs to one of the regions, and of two
for one region the later stands. -/
def readContents (file : List UInt8) (regions : List Address) :
    (count offset dataAt : Nat) → SortedMap Address (List UInt8) →
      Except DumpFault (SortedMap Address (List UInt8))
  | 0, _, _, contents => .ok contents
  | count + 1, offset, dataAt, contents => do
    let entry ← range file offset 16
    let base := Address.ofNat (word entry 0 8)
    let size := word entry 8 8
    if base ∉ regions then .error .malformed
    else
      let bytes ← told file dataAt size
      readContents file regions count (offset + 16) (dataAt + size) (contents.insert base bytes)

/-- The contents of the regions. -/
def readMemory (file : List UInt8) (regions : List Address) (offset : Nat) :
    Except DumpFault (SortedMap Address (List UInt8)) := do
  let header ← range file offset 16
  readContents file regions (word header 0 8) (offset + 16) (word header 8 8) .empty

/-- The smallest size of a thread context. -/
def leastContext : PointerWidth → Nat
  | .bits32 => 0x2CC
  | .bits64 => 0x4D0

/-- Checks the threads; no two may have the same number. -/
def checkThreads (file : List UInt8) (width : PointerWidth) :
    (count offset : Nat) → (known : List Nat) → Except DumpFault Unit
  | 0, _, _ => .ok ()
  | count + 1, offset, known => do
    let entry ← range file offset 48
    let id := word entry 0 4
    let context ← told file (word entry 44 4) (word entry 40 4)
    if context.length < leastContext width ∨ id ∈ known then .error .malformed
    else checkThreads file width count (offset + 48) (id :: known)

/-- The text at an offset: its number of bytes, and as many bytes of
UTF-16. -/
def readText (file : List UInt8) (offset : Nat) : Except DumpFault String := do
  let size := word (← range file offset 4) 0 4
  let bytes ← range file (offset + 4) size
  if size % 2 = 1 then .error .malformed
  else
    match Utf16.decode? bytes with
    | some text => .ok text
    | none => .error .malformed

/-- The images by base address, with the paths of their files.  An image that
is empty, or that does not end below 64 bits, is unusable. -/
def readModules (file : List UInt8) :
    (count offset : Nat) → SortedMap Address String → Except DumpFault (SortedMap Address String)
  | 0, _, known => .ok known
  | count + 1, offset, known => do
    let entry ← range file offset 108
    let base := Address.ofNat (word entry 0 8)
    discard (told file (word entry 80 4) (word entry 76 4))
    discard (told file (word entry 88 4) (word entry 84 4))
    let path ← readText file (word entry 20 4)
    if word entry 8 4 = 0 ∨ 0x10000000000000000 ≤ base.val + word entry 8 4 then .error .unusable
    else if (known.get? base).isSome then .error .malformed
    else readModules file count (offset + 108) (known.insert base path)

/-! ## Names -/

/-- The parts of a path between slashes. -/
def pathParts (path : String) : List String :=
  (path.toList.splitOn '/').map String.ofList

/-- The last part of a path, unless it leads upwards. -/
def fileName? (path : String) : Option String :=
  match ((pathParts path).filter fun part => part ≠ "" ∧ part ≠ ".").getLast? with
  | some ".." => none
  | part => part

/-! ## Loading -/

/-- What is taken from a file. -/
def parse (file : List UInt8) : Except DumpFault Minidump := do
  let streams ← streams file
  let width ← readWidth file (← streamAt streams 7)
  match streamAt? streams 6 with
  | some offset => discard (range file offset 168)
  | none => pure ()
  let regions ← readRegions file (← streamAt streams 16)
  let memory ← readMemory file regions (← streamAt streams 9)
  match streamAt? streams 3 with
  | some offset =>
    let count := word (← range file offset 4) 0 4
    checkThreads file width count (offset + 4) []
  | none => pure ()
  let modules ← match streamAt? streams 4 with
    | some offset =>
      let count := word (← range file offset 4) 0 4
      readModules file count (offset + 4) .empty
    | none => pure .empty
  return { width, memory, modules := modules.entries.filterMap fun entry => fileName? entry.2 }

/-- The name of the executable: of the first image that ends as one, or else
of the first image. -/
def imageName? (dump : Minidump) : Option String :=
  (dump.modules.find? fun name => Text.endsIn (Text.lower name) ".exe").or dump.modules.head?

/-- The contents of the dump.  `fallback` is the image name of a dump without
images. -/
def snapshot (dump : Minidump) (fallback : Option String) : Snapshot :=
  let blocks := (dump.memory.entries.map fun entry => Block.mk entry.1 entry.2).filter
    fun block => !block.bytes.isEmpty
  .ofBlocks dump.width (dump.imageName?.or fallback) blocks

end Minidump

end Rtti
