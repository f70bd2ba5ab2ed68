import Rtti.Hierarchy
import Rtti.Msvc.ObjectLocator

/-!
# Hierarchies from a base class array

The array lists a class and its bases depth first, and each entry says how
many of the next entries are bases of its own.  An entry belongs to the
nearest earlier entry whose bases are not yet complete, and to the first
entry if there is none, so counts that contradict each other still give a
hierarchy.
-/

namespace Rtti.Msvc

/-- An entry whose bases are not yet complete. -/
structure Open (ν : Type) where
  label : ν
  /-- How many of the next entries are its bases. -/
  remaining : Nat

/-- The parents of the entries, given each with its label and its number of
contained bases, after the entry labelled `root`.  `opened` holds the other
entries whose bases may be incomplete, the latest first. -/
def parents {ν : Type} (root : ν) (opened : List (Open ν)) : List (ν × Nat) → List ν
  | [] => []
  | (label, contained) :: rest =>
    let opened := opened.dropWhile fun entry => entry.remaining = 0
    let parent := (opened.head?.map (·.label)).getD root
    let opened := opened.map fun entry => { entry with remaining := entry.remaining - 1 }
    parent :: parents root (⟨label, contained⟩ :: opened) rest

/-- The hierarchy of the entries of a base class array. -/
def hierarchy : List Descriptor → Except ScanError ClassHierarchy
  | [] => .error (.unknownStructure .noNamedClass)
  | root :: rest =>
    let names := rest.map (·.name)
    let edges := (parents root.name [] (rest.map fun d => (d.name, d.containedBases))).zip names
    .ok ⟨.msvc, root.name, root.name :: names, .ofEdges edges⟩

/-- The hierarchy of the class of the object with the given locator. -/
def decode (width : PointerWidth) (limits : Limits) (undecorate : Undecorator)
    (locator : Address) : Inspection ClassHierarchy := do
  let array ← readBaseArray width limits locator
  let descriptors ← readDescriptors width limits undecorate array array.count 0
  hierarchy descriptors

end Rtti.Msvc
