import Rtti.Itanium.Walk
import Rtti.Msvc.Hierarchy
import Rtti.Target

/-!
# Decoders

A decoder finds the class hierarchy of an object from the vtable of the
object.  It is bound to one ABI at a time and must be released before it is
bound to another.
-/

namespace Rtti

/-- Whether a decoder is bound, and to which ABI. -/
inductive Binding where
  | unbound
  | bound (abi : Abi)
  deriving Repr, DecidableEq

/-- A decoder of type information. -/
structure Decoder where
  binding : Binding := .unbound
  limits : Limits := {}
  deriving Repr, DecidableEq

namespace Decoder

/-- The decoder bound to an ABI; being bound to it already changes
nothing. -/
def bind (decoder : Decoder) (abi : Abi) : Except ScanError Decoder :=
  match decoder.binding with
  | .unbound => .ok { decoder with binding := .bound abi }
  | .bound current =>
    if current = abi then .ok decoder else .error (.alreadyBound current.name abi.name)

/-- The decoder bound to no ABI. -/
def release (decoder : Decoder) : Decoder :=
  { decoder with binding := .unbound }

/-- The hierarchy of the class whose objects have the given vtable.  The
word before a vtable points to the type information of its class. -/
def decode (decoder : Decoder) (width : PointerWidth) (undecorate : Msvc.Undecorator)
    (vtable : Address) : Inspection ClassHierarchy :=
  match decoder.binding with
  | .unbound => .fail .decoderUnbound
  | .bound abi => do
    if !vtable.isPlausible width then
      .fail (.invalidAddress (vtable.display width))
    else
      let slot ← vtable.sub width.bytes
      let information ← Inspection.pointer width slot
      if !information.isPlausible width then
        .fail (.unknownStructure (.bareVtable vtable))
      else
        match abi with
        | .msvc => Msvc.decode width decoder.limits undecorate information
        | .itanium => Itanium.decode width decoder.limits information

/-- The hierarchy of the class of the object at the address that a text
spells.  An object begins with the pointer to its vtable. -/
def decodeObject (decoder : Decoder) (width : PointerWidth) (undecorate : Msvc.Undecorator)
    (text : String) : Inspection ClassHierarchy := do
  let object ← Address.parse text width
  if !object.isPlausible width then
    .fail (.invalidAddress (object.display width))
  else
    let vtable ← Inspection.pointer width object
    decoder.decode width undecorate vtable

end Decoder

end Rtti
