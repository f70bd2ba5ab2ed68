import Rtti.Address

/-!
# Why a scan fails

`ScanError` lists the causes, and `ScanError.message` is the only place that
words them.  The two causes with many occasions of their own, memory that
holds no type information and text that is no hexadecimal byte string, have
their occasions listed in `Mismatch` and `HexFault`.
-/

namespace Rtti

/-! ## Memory that is not type information -/

/-- What is found in memory where type information should be. -/
inductive Mismatch where
  /-- An offset leads above the highest address. -/
  | overflow (address : Address) (offset : Nat)
  /-- An offset leads below address zero. -/
  | underflow (address : Address) (offset : Nat)
  /-- The slot before a vtable holds no usable pointer. -/
  | bareVtable (vtable : Address)
  /-- The first word of a `type_info` object is no usable pointer. -/
  | noTypeInfoVtable (typeInfo : String)
  /-- The class of a `type_info` object is none of the three that describe
  classes. -/
  | unknownTypeInfoClass (name : String)
  /-- A `type_info` object has no name. -/
  | unnamedTypeInfo (typeInfo : String)
  /-- A class is to be expanded whose `type_info` was never met. -/
  | unlocated (name : String)
  /-- A complete object locator does not say where its image begins. -/
  | noImageBase
  /-- A complete object locator leads to no class hierarchy descriptor. -/
  | noHierarchyDescriptor
  /-- A class hierarchy descriptor leads to no base class array. -/
  | noBaseClassArray
  /-- A base class array names no class at all. -/
  | noNamedClass
  /-- Any other reason, in words. -/
  | other (reason : String)
  deriving Repr, DecidableEq

/-- The reason in words. -/
def Mismatch.message : Mismatch → String
  | overflow address offset =>
    toString address ++ " + 0x" ++ Hexadecimal.shortest .upper offset ++ " overflows"
  | underflow address offset =>
    toString address ++ " - 0x" ++ Hexadecimal.shortest .upper offset ++ " underflows"
  | bareVtable vtable => s!"vtable {vtable} is not preceded by type information"
  | noTypeInfoVtable typeInfo => s!"type_info at {typeInfo} has no vtable"
  | unknownTypeInfoClass name => s!"unrecognized type_info kind '{name}'"
  | unnamedTypeInfo typeInfo => s!"type_info at {typeInfo} has no name"
  | unlocated name => s!"no type_info recorded for {name}"
  | noImageBase => "object locator has no image base offset"
  | noHierarchyDescriptor => "object locator has no class hierarchy descriptor"
  | noBaseClassArray => "class hierarchy descriptor has no base class array"
  | noNamedClass => "base class array holds no named class"
  | other reason => reason

/-! ## Text that is not a hexadecimal byte string -/

/-- Why a text is not the hexadecimal form of a byte string. -/
inductive HexFault where
  | oddLength
  | invalidByte (byte : UInt8) (position : Nat)
  deriving Repr, DecidableEq

/-- A character in single quotes, with control characters, quotes and
backslashes escaped.  It serves characters up to U+00FF. -/
def quotedLatin (c : Char) : String :=
  let n := c.toNat
  let body :=
    if n = 0 then "\\0"
    else if n = 9 then "\\t"
    else if n = 10 then "\\n"
    else if n = 13 then "\\r"
    else if n = 39 then "\\'"
    else if n = 92 then "\\\\"
    else if n < 0x20 ∨ 0x7F ≤ n ∧ n ≤ 0xA0 ∨ n = 0xAD then
      "\\u\x7b" ++ Hexadecimal.shortest .lower n ++ "\x7d"
    else c.toString
  "'" ++ body ++ "'"

/-- The fault in words; the offending byte is shown as the Latin-1
character of that number. -/
def HexFault.message : HexFault → String
  | oddLength => "Odd number of digits"
  | invalidByte byte position =>
    s!"Invalid character {quotedLatin (Char.ofNat byte.toNat)} at position {position}"

/-! ## All causes -/

/-- The causes for which a scan, or the preparation of one, fails. -/
inductive ScanError where
  /-- A text spells no address of the target. -/
  | malformedAddress (reason : String)
  /-- An address cannot belong to an object of the target. -/
  | invalidAddress (address : String)
  /-- The target's memory cannot be read. -/
  | readFault (address : String) (size : Nat) (reason : String)
  /-- The memory is no type information. -/
  | unknownStructure (mismatch : Mismatch)
  /-- A number found in type information is outside the allowed limits. -/
  | corruptHierarchy (field : String) (value : Nat)
  /-- The target is of a kind that cannot be scanned. -/
  | unsupportedPlatform (reason : String)
  /-- The decoder is not bound to an ABI. -/
  | decoderUnbound
  /-- The decoder is bound to another ABI. -/
  | alreadyBound (bound requested : String)
  /-- The scan broke down with a complaint. -/
  | scanBrokeDown (complaint : String)
  /-- A file cannot be read. -/
  | unreadableFile
  /-- A text is not the required kind of JSON document. -/
  | malformedJson
  /-- A text is not the hexadecimal form of a byte string. -/
  | malformedHex (fault : HexFault)
  deriving Repr, DecidableEq

namespace ScanError

/-- The error in words. -/
def message : ScanError → String
  | malformedAddress reason => s!"Malformed address: {reason}"
  | invalidAddress address => s!"Invalid address: {address}"
  | readFault address size reason => s!"Failed to read {size} bytes at {address}: {reason}"
  | unknownStructure mismatch => s!"No recognizable type information: {mismatch.message}"
  | corruptHierarchy field value => s!"Corrupt class hierarchy: {field} = {value}"
  | unsupportedPlatform reason => s!"Unsupported platform: {reason}"
  | decoderUnbound => "RTTI parser is not bound to a session"
  | alreadyBound bound requested =>
    s!"RTTI parser already bound to {bound}, cannot rebind to {requested}"
  | scanBrokeDown complaint => s!"Scan task failed: {complaint}"
  | unreadableFile => "I/O error"
  | malformedJson => "JSON error"
  | malformedHex fault => s!"Hex decoding error: {fault.message}"

/-- Whether the error is a failure to read the target's memory. -/
def isReadFault : ScanError → Bool
  | readFault .. => true
  | _ => false

end ScanError

end Rtti
