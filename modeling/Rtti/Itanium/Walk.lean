import Rtti.Hierarchy
import Rtti.Itanium.TypeInfo

/-!
# The walk over an Itanium class graph

The hierarchy of a class is found depth first, bases in declared order.
Classes are told apart by name: a class is expanded when its name is first
taken from the stack, at the place where the latest base record of that name
pointed to.  The walk is recursive in the number of classes that it may still
expand, so it ends on cyclic graphs.
-/

namespace Rtti.Itanium

/-- A walk after some classes. -/
structure Walk where
  /-- The expanded classes, each with its `type_info`, the latest first. -/
  expanded : List (String × Address)
  /-- Where the `type_info` of each class was last met. -/
  located : SortedMap String Address
  /-- The classes that are still to be expanded, the next on top. -/
  stack : List String
  /-- The inheritance found so far. -/
  map : InheritanceMap

namespace Walk

/-- The names of the expanded classes, the latest first. -/
def visited (walk : Walk) : List String := walk.expanded.map Prod.fst

/-- The walk that begins at a class. -/
def start (root : String) (typeInfo : Address) : Walk where
  expanded := []
  located := .ofList [(root, typeInfo)]
  stack := [root]
  map := .empty

/-- The walk after the class `name` with its `type_info` was found to have
these bases, given with their names; `stack` is what was below the class. -/
def extend (walk : Walk) (name : String) (typeInfo : Address) (bases : List (String × Address))
    (stack : List String) : Walk where
  expanded := (name, typeInfo) :: walk.expanded
  located := bases.foldl (fun located base => located.insert base.1 base.2) walk.located
  stack := bases.map Prod.fst ++ stack
  map := bases.foldl (fun map base => map.addEdge name base.1) walk.map

/-- The end of the walk, when `budget` more classes may be expanded. -/
def finish (width : PointerWidth) (limits : Limits) (budget : Nat) (walk : Walk) :
    Inspection Walk :=
  let visited := walk.visited
  match walk.stack.dropWhile (· ∈ visited) with
  | [] => return walk
  | name :: stack =>
    match budget with
    | 0 => .fail (.corruptHierarchy "node_count" (walk.expanded.length + 1))
    | budget + 1 => do
      match walk.located.get? name with
      | none => .fail (.unknownStructure (.unlocated name))
      | some typeInfo =>
        let node ← expand width limits typeInfo
        let names ← node.bases.mapM fun base => nameOf width limits base.typeInfo
        let bases := names.zip (node.bases.map (·.typeInfo))
        finish width limits budget (walk.extend name typeInfo bases stack)

end Walk

/-- The hierarchy of the class with the given `type_info`. -/
def decode (width : PointerWidth) (limits : Limits) (typeInfo : Address) :
    Inspection ClassHierarchy := do
  let root ← nameOf width limits typeInfo
  if root.isEmpty then
    .fail (.unknownStructure (.unnamedTypeInfo (typeInfo.display width)))
  else
    let walk ← (Walk.start root typeInfo).finish width limits limits.nodes
    return ⟨.itanium, root, walk.visited.reverse, walk.map⟩

end Rtti.Itanium
