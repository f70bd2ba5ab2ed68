import Rtti.Abi
import Rtti.Hierarchy.Drawing

/-!
# Class hierarchies

The result of a scan: the class of an object, the classes that it inherits
from, and the inheritance between them, shown as a list of names or as a
drawing.
-/

namespace Rtti

/-! ## Presentation -/

/-- How a hierarchy is presented. -/
inductive Style where
  /-- As a tree for the Itanium ABI, else as a list. -/
  | auto
  | tree
  | list
  deriving Repr, DecidableEq, Inhabited

namespace Style

/-- The name of the style. -/
def name : Style → String
  | auto => "auto"
  | tree => "tree"
  | list => "list"

/-- The style that a text names, in any letter case, or else a complaint. -/
def parse (text : String) : Except String Style :=
  match Text.lower text with
  | "auto" => .ok auto
  | "tree" => .ok tree
  | "list" => .ok list
  | other => .error s!"unknown output style: {other}"

end Style

/-! ## Hierarchies -/

/-- A class with its bases. -/
structure ClassHierarchy where
  abi : Abi
  /-- The class of the object. -/
  root : String
  /-- The classes in the order in which they were found. -/
  names : List String
  map : InheritanceMap
  deriving DecidableEq

namespace ClassHierarchy

/-- The hierarchy of a class without bases. -/
def single (abi : Abi) (root : String) : ClassHierarchy :=
  ⟨abi, root, [root], .empty⟩

/-- The hierarchy drawn as a tree. -/
def render (h : ClassHierarchy) : String :=
  Drawing.render h.root h.map

/-- Whether the style presents a hierarchy of the ABI as a tree. -/
def drawsTree (style : Style) (abi : Abi) : Bool :=
  match style with
  | .tree => true
  | .list => false
  | .auto => abi = .itanium

/-- The lines of the presentation. -/
def lines (h : ClassHierarchy) (style : Style) : List String :=
  if drawsTree style h.abi then Text.lines h.render else h.names

end ClassHierarchy

end Rtti
