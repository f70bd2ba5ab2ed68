import Rtti.SortedMap

/-!
# Inheritance maps

The direct bases of each class by name, in the order in which they are
declared.  An inheritance map is a graph whose edges lead from a class to
its bases; in a drawing the bases are the children of the class.
-/

namespace Rtti

/-- The direct bases of classes. -/
structure InheritanceMap where
  /-- The bases of each class that has an entry. -/
  edges : SortedMap String (List String) := .empty
  deriving DecidableEq, Inhabited

namespace InheritanceMap

/-- The map without edges. -/
def empty : InheritanceMap := {}

/-- The children of a class. -/
def children (m : InheritanceMap) (name : String) : List String :=
  (m.edges.get? name).getD []

/-- Whether a class has children. -/
def hasChildren (m : InheritanceMap) (name : String) : Bool :=
  !(m.children name).isEmpty

/-- The number of classes with an entry. -/
def size (m : InheritanceMap) : Nat := m.edges.size

/-- The map with an edge from `parent` to `child`.  A new child comes after
the others, and a known child keeps its place. -/
def addEdge (m : InheritanceMap) (parent child : String) : InheritanceMap :=
  let known := m.children parent
  ⟨m.edges.insert parent (if child ∈ known then known else known ++ [child])⟩

/-- The map of a list of edges, added in order. -/
def ofEdges (edges : List (String × String)) : InheritanceMap :=
  edges.foldl (fun m edge => m.addEdge edge.1 edge.2) empty

@[simp] theorem children_empty (name : String) : empty.children name = [] := rfl

/-- An edge concerns the children of its parent only. -/
theorem children_addEdge (m : InheritanceMap) (parent child name : String) :
    (m.addEdge parent child).children name =
      if name = parent then
        if child ∈ m.children parent then m.children parent else m.children parent ++ [child]
      else m.children name := by
  simp only [children, addEdge, SortedMap.get?_insert]
  split <;> rfl

end InheritanceMap

end Rtti
