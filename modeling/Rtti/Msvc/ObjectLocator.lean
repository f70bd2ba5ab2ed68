import Rtti.Address.Spelling
import Rtti.Limits
import Rtti.Memory.Reader
import Rtti.Text.Blank

/-!
# MSVC complete object locators

From the locator of an object the way leads to a class hierarchy
descriptor, to the array of its base classes in depth-first order with the
class itself first, and from each array entry through a base class
descriptor to a type descriptor with the decorated name of a class.  Links
are 32-bit words: offsets from the base of the image in 64-bit targets,
where the locator holds its own offset, and addresses in 32-bit targets.
-/

namespace Rtti.Msvc

/-! ## Links -/

/-- How the links of an image are meant. -/
inductive Links where
  /-- As offsets from the base of the image. -/
  | relative (imageBase : Address)
  /-- As addresses. -/
  | absolute
  deriving Repr, DecidableEq

/-- The address that a link leads to. -/
def Links.resolve (links : Links) (link : Nat) : Except ScanError Address :=
  match links with
  | relative imageBase => imageBase.add link
  | absolute => .ok (Address.ofNat link)

/-- The offset of the name in a type descriptor, after the four characters
that say whether the type is a class or a structure. -/
def nameOffset : PointerWidth → Nat
  | .bits64 => 0x14
  | .bits32 => 0x0C

/-! ## Names -/

/-- What makes a readable name of a decorated one.  It may break down with a
complaint instead. -/
abbrev Undecorator := String → Except String String

/-- The name to be shown for the name in a type descriptor.  One that ends
in two `@` signs is decorated. -/
def displayName (undecorate : Undecorator) (raw : String) : Except ScanError String :=
  if Text.endsIn raw "@@" then (undecorate ("?" ++ raw)).mapError .scanBrokeDown
  else .ok raw

/-! ## The base class array -/

/-- An entry of a base class array. -/
structure Descriptor where
  /-- The name of the class. -/
  name : String
  /-- How many of the next entries are its own bases, direct or not. -/
  containedBases : Nat
  deriving Repr, DecidableEq

/-- The base class array of an object. -/
structure BaseArray where
  links : Links
  /-- Where the array begins. -/
  start : Address
  /-- The number of its entries. -/
  count : Nat
  deriving Repr, DecidableEq

/-- How the links of the locator's image are meant. -/
def readLinks (width : PointerWidth) (locator : Address) : Inspection Links := do
  match width with
  | .bits32 => return .absolute
  | .bits64 =>
    let selfAt ← locator.add 0x14
    let self ← Inspection.word32 selfAt
    if self = 0 then .fail (.unknownStructure .noImageBase)
    else
      let imageBase ← locator.sub self
      return .relative imageBase

/-- The base class array that a locator leads to. -/
def readBaseArray (width : PointerWidth) (limits : Limits) (locator : Address) :
    Inspection BaseArray := do
  let links ← readLinks width locator
  let hierarchyAt ← locator.add 0x10
  let hierarchyLink ← Inspection.word32 hierarchyAt
  if hierarchyLink = 0 then .fail (.unknownStructure .noHierarchyDescriptor)
  else
    let hierarchy ← links.resolve hierarchyLink
    let countAt ← hierarchy.add 0x08
    let count ← Inspection.word32 countAt
    if count = 0 ∨ limits.msvcBases < count then
      .fail (.corruptHierarchy "base_count" count)
    else
      let arrayAt ← hierarchy.add 0x0C
      let arrayLink ← Inspection.word32 arrayAt
      if arrayLink = 0 then .fail (.unknownStructure .noBaseClassArray)
      else
        let start ← links.resolve arrayLink
        return ⟨links, start, count⟩

/-- The entry with the given index; none if the array ends there, at a link
that is zero or a name that is empty.  Only the shape of a drawing depends on
the number of contained bases, so zero stands for one that cannot be read. -/
def readDescriptor (width : PointerWidth) (limits : Limits) (undecorate : Undecorator)
    (array : BaseArray) (index : Nat) : Inspection (Option Descriptor) := do
  let entryAt ← array.start.add (4 * index)
  let baseLink ← Inspection.word32 entryAt
  if baseLink = 0 then return none
  else
    let base ← array.links.resolve baseLink
    let typeLink ← Inspection.word32 base
    if typeLink = 0 then return none
    else
      let type ← array.links.resolve typeLink
      let nameAt ← type.add (nameOffset width)
      let raw ← Inspection.text nameAt limits.nameUnits limits.encoding
      if raw.isEmpty then return none
      else
        let name ← displayName undecorate raw
        let containedAt ← base.add 0x04
        let contained ← Inspection.word? containedAt 4
        return some ⟨name, contained.getD 0⟩

/-- The entries from number `index` on, at most `count` of them, up to the
first that ends the array. -/
def readDescriptors (width : PointerWidth) (limits : Limits) (undecorate : Undecorator)
    (array : BaseArray) : (count index : Nat) → Inspection (List Descriptor)
  | 0, _ => return []
  | count + 1, index => do
    match ← readDescriptor width limits undecorate array index with
    | none => return []
    | some descriptor =>
      let rest ← readDescriptors width limits undecorate array count (index + 1)
      return descriptor :: rest

end Rtti.Msvc
