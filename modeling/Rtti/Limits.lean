import Rtti.Text.Encoding

/-!
# Limits of a scan

How much a scan is ready to read from memory that may hold anything.
-/

namespace Rtti

/-- The limits of a scan. -/
structure Limits where
  /-- The largest number of code units of a class name. -/
  nameUnits : Nat := 60
  /-- The encoding of names. -/
  encoding : TextEncoding := .utf8
  /-- The largest length of an MSVC base class array. -/
  msvcBases : Nat := 24
  /-- The largest number of bases of an Itanium class. -/
  itaniumBases : Nat := 64
  /-- The largest number of classes of an Itanium hierarchy. -/
  nodes : Nat := 4096
  deriving Repr, DecidableEq, Inhabited

end Rtti
