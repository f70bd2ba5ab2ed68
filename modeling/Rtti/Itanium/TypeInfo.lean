import Rtti.Address.Spelling
import Rtti.Limits
import Rtti.Memory.Reader

/-!
# Itanium `type_info` objects

Each class has a `type_info` object.  Its first word points to the vtable of
its own class and its second word to the mangled name of the class that it
describes.  Its own class is one of three: for a class without bases, for a
class with one public non-virtual base, and for all other classes.  In the
second the base follows as one pointer; in the third a word of flags, the
number of bases, and for each base a record of a pointer and of a signed
word follow, with the offset of the base above eight bits of flags.
-/

namespace Rtti.Itanium

/-! ## Kinds of `type_info` -/

/-- What a class inherits, as the class of its `type_info` tells. -/
inductive ClassKind where
  /-- No base. -/
  | leaf
  /-- One public non-virtual base at offset zero. -/
  | singleBase
  /-- Any other bases. -/
  | manyBases
  deriving Repr, DecidableEq

/-- The kind told by the mangled name of a `type_info`'s own class. -/
def ClassKind.ofTypeInfoClass? (name : String) : Option ClassKind :=
  if name = "N10__cxxabiv117__class_type_infoE" then some .leaf
  else if name = "N10__cxxabiv120__si_class_type_infoE" then some .singleBase
  else if name = "N10__cxxabiv121__vmi_class_type_infoE" then some .manyBases
  else none

/-- The number of code units read for the name of a `type_info`'s own
class. -/
def typeInfoClassUnits : Nat := 64

/-- A mangled name without the length that precedes an unnested one. -/
def withoutLength (mangled : String) : String :=
  String.ofList (mangled.toList.dropWhile Char.isDigit)

/-! ## Bases and classes -/

/-- A base of a class. -/
structure BaseRecord where
  /-- Where the `type_info` of the base lies. -/
  typeInfo : Address
  /-- The offset of the base in units of 256, with flags below. -/
  offsetFlags : Int
  deriving Repr, DecidableEq

namespace BaseRecord

/-- Whether the base is virtual: bit 0. -/
def isVirtual (base : BaseRecord) : Bool := base.offsetFlags % 2 = 1

/-- Whether the base is public: bit 1. -/
def isPublic (base : BaseRecord) : Bool := base.offsetFlags / 2 % 2 = 1

/-- The signed offset: bits 8 and up. -/
def offset (base : BaseRecord) : Int := base.offsetFlags / 256

end BaseRecord

/-- A class with its direct bases. -/
structure ClassNode where
  name : String
  kind : ClassKind
  flags : Nat
  bases : List BaseRecord
  deriving Repr, DecidableEq

/-! ## Reading -/

/-- The kind of class that a `type_info` describes. -/
def identify (width : PointerWidth) (limits : Limits) (typeInfo : Address) :
    Inspection ClassKind := do
  let vtable ← Inspection.pointer width typeInfo
  if !vtable.isPlausible width then
    .fail (.unknownStructure (.noTypeInfoVtable (typeInfo.display width)))
  else
    let slot ← vtable.sub (4 * width.bytes)
    let nameAt ← Inspection.pointer width slot
    let mangled ← Inspection.text nameAt typeInfoClassUnits limits.encoding
    let name := withoutLength mangled
    match ClassKind.ofTypeInfoClass? name with
    | some kind => return kind
    | none => .fail (.unknownStructure (.unknownTypeInfoClass name))

/-- The name of the class that a `type_info` describes. -/
def nameOf (width : PointerWidth) (limits : Limits) (typeInfo : Address) : Inspection String := do
  let slot ← typeInfo.add width.bytes
  let nameAt ← Inspection.pointer width slot
  let mangled ← Inspection.text nameAt limits.nameUnits limits.encoding
  return withoutLength mangled

/-- The base records from number `index` on, `count` of them. -/
def readBases (width : PointerWidth) (records : Address) :
    (count index : Nat) → Inspection (List BaseRecord)
  | 0, _ => return []
  | count + 1, index => do
    let record ← records.add (2 * width.bytes * index)
    let typeInfo ← Inspection.pointer width record
    let flagsAt ← record.add width.bytes
    let offsetFlags ← Inspection.long width flagsAt
    let rest ← readBases width records count (index + 1)
    return ⟨typeInfo, offsetFlags⟩ :: rest

/-- The class that a `type_info` describes, with its direct bases. -/
def expand (width : PointerWidth) (limits : Limits) (typeInfo : Address) :
    Inspection ClassNode := do
  let kind ← identify width limits typeInfo
  let name ← nameOf width limits typeInfo
  let body ← typeInfo.add (2 * width.bytes)
  match kind with
  | .leaf => return ⟨name, kind, 0, []⟩
  | .singleBase =>
    let base ← Inspection.pointer width body
    return ⟨name, kind, 0, [⟨base, 2⟩]⟩
  | .manyBases =>
    let flags ← Inspection.word32 body
    let countAt ← body.add 4
    let count ← Inspection.word32 countAt
    if limits.itaniumBases < count then
      .fail (.corruptHierarchy "base_count" count)
    else
      let records ← body.add 8
      let bases ← readBases width records count 0
      return ⟨name, kind, flags, bases⟩

end Rtti.Itanium
